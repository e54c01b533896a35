import Saltworks.Sim.RefParse

/-!
# The tokens of a parsed module

What the strict parser returns determines the tokens that it has consumed.

## Main definitions

* `NetRef.tokens`, `Item.tokens`, `Module.tokens`: the tokens of the syntax.

## Main results

* `netref_tokens`, `item_tokens`: the tokens that a parser has consumed.
* `parse_tokens`: the tokens of a text that is accepted.
-/

namespace Saltworks.Sim

open Importer Fallible

/-! ### Printing -/

/-- The token of a name. -/
def Name.token (nm : Name) : Token := if nm.escaped then .escId nm.text else .id nm.text

/-- The comma, if there is one. -/
def commaTokens (c : Bool) : List Token := if c then [.comma] else []

mutual

/-- The tokens of a net reference. -/
def NetRef.tokens : NetRef → List Token
  | .leaf nm none => [nm.token]
  | .leaf nm (some i) => [nm.token, .lbrack, .num i.text, .rbrack]
  | .concat parts => .lbrace :: (parts.tokens ++ [.rbrace])

/-- The tokens of the parts of a concatenation. -/
def Parts.tokens : Parts → List Token
  | .nil => []
  | .cons part c rest => part.tokens ++ commaTokens c ++ rest.tokens

end

/-- The tokens of the range of a declaration. -/
def rangeTokens : Option (Index × Index) → List Token
  | none => []
  | some (hi, lo) => [.lbrack, .num hi.text, .colon, .num lo.text, .rbrack]

/-- The tokens of a port connection. -/
def Port.tokens (p : Port) : List Token :=
  [.dot, p.pin.token, .lparen] ++ (p.net.map NetRef.tokens).getD [] ++
    .rparen :: commaTokens p.comma

/-- The tokens of a statement. -/
def Item.tokens : Item → List Token
  | .decl kind range nm names =>
    .id kind.text :: (rangeTokens range ++ nm.token ::
      (names.flatMap fun nm => [.comma, nm.token]) ++ [.semi])
  | .assign lhs rhs => .id "assign" :: (lhs.tokens ++ .equals :: rhs.tokens ++ [.semi])
  | .inst cell iname ports =>
    cell.token :: iname.token :: .lparen :: (ports.flatMap Port.tokens ++ [.rparen, .semi])

/-- The tokens of the names of a header. -/
def headerTokens (header : List (Name × Bool)) : List Token :=
  header.flatMap fun p => p.1.token :: commaTokens p.2

/-- The tokens of a module. -/
def Module.tokens (m : Module) : List Token :=
  [.id "module", m.top.token, .lparen] ++ headerTokens m.header ++ [.rparen, .semi] ++
    m.items.flatMap Item.tokens ++ [.id "endmodule"]

/-! ### Tokens -/

variable {ts rest : List Token}

theorem run_peek_bind {α : Type} (f : Option Token → Parser α) (ts : List Token) :
    (peek >>= f) ts = f ts.head? ts := rfl

theorem eat_tokens {t : Token} {u : Unit} (h : eat t ts = .ok (u, rest)) : ts = t :: rest := by
  cases ts with
  | nil => cases h
  | cons t' ts =>
    rw [eat] at h
    split_ifs at h with ht
    cases h
    rw [ht]

theorem eatNum_tokens {i : Index} (h : eatNum ts = .ok (i, rest)) : ts = .num i.text :: rest := by
  rw [eatNum.eq_def] at h
  split at h
  · split at h
    · cases h
      rfl
    · cases h
  · cases h

theorem name_tokens {nm : Name} (h : name ts = .ok (nm, rest)) : ts = nm.token :: rest := by
  rw [name.eq_def] at h
  split at h
  · cases h
    rfl
  · cases h
    rfl
  · cases h

theorem comma_tokens {c : Bool} (h : comma ts = .ok (c, rest)) : ts = commaTokens c ++ rest := by
  rw [comma.eq_def] at h
  split at h
  · cases h
    rfl
  · cases h
    rfl

/-! ### Net references -/

theorem leafRef_tokens {r : NetRef} (h : leafRef ts = .ok (r, rest)) : ts = r.tokens ++ rest := by
  obtain ⟨nm, ts₁, hnm, h⟩ := run_bind_eq_ok h
  rw [run_peek_bind] at h
  rw [name_tokens hnm]
  split_ifs at h
  · obtain ⟨_, ts₃, hl, h⟩ := run_bind_eq_ok h
    obtain ⟨i, ts₄, hi, h⟩ := run_bind_eq_ok h
    obtain ⟨_, ts₅, hr, h⟩ := run_bind_eq_ok h
    obtain ⟨rfl, rfl⟩ := run_pure_eq_ok h
    rw [eat_tokens hl, eatNum_tokens hi, eat_tokens hr]
    rfl
  · obtain ⟨rfl, rfl⟩ := run_pure_eq_ok h
    rfl

mutual

theorem netref_tokens (depth : ℕ) {ts rest : List Token} {r : NetRef}
    (h : netref depth ts = .ok (r, rest)) : ts = r.tokens ++ rest := by
  cases depth with
  | zero => exact absurd h run_throw_ne_ok
  | succ depth =>
    rw [netref, run_peek_bind] at h
    split_ifs at h
    · obtain ⟨_, ts₂, hl, h⟩ := run_bind_eq_ok h
      obtain ⟨parts, ts₃, hparts, h⟩ := run_bind_eq_ok h
      obtain ⟨rfl, rfl⟩ := run_pure_eq_ok h
      rw [eat_tokens hl, netrefParts_tokens depth hparts, NetRef.tokens]
      simp
    · exact leafRef_tokens h

theorem netrefParts_tokens (depth : ℕ) {ts rest : List Token} {parts : Parts}
    (h : netrefParts depth ts = .ok (parts, rest)) : ts = parts.tokens ++ .rbrace :: rest := by
  cases depth with
  | zero => exact absurd h run_throw_ne_ok
  | succ depth =>
    rw [netrefParts, run_peek_bind] at h
    split_ifs at h
    · obtain ⟨_, ts₂, hr, h⟩ := run_bind_eq_ok h
      obtain ⟨rfl, rfl⟩ := run_pure_eq_ok h
      rw [eat_tokens hr]
      rfl
    · obtain ⟨part, ts₂, hpart, h⟩ := run_bind_eq_ok h
      obtain ⟨c, ts₃, hc, h⟩ := run_bind_eq_ok h
      obtain ⟨parts, ts₄, hparts, h⟩ := run_bind_eq_ok h
      obtain ⟨rfl, rfl⟩ := run_pure_eq_ok h
      rw [netref_tokens depth hpart, comma_tokens hc, netrefParts_tokens depth hparts, Parts.tokens]
      simp

end

/-! ### Lists of names and ports -/

theorem headerNames_tokens (depth : ℕ) {header : List (Name × Bool)}
    (h : headerNames depth ts = .ok (header, rest)) : ts = headerTokens header ++ rest := by
  induction depth generalizing ts header with
  | zero => exact absurd h run_throw_ne_ok
  | succ depth ih =>
    rw [headerNames, run_peek_bind] at h
    split_ifs at h
    · obtain ⟨rfl, rfl⟩ := run_pure_eq_ok h
      rfl
    · obtain ⟨nm, ts₂, hnm, h⟩ := run_bind_eq_ok h
      obtain ⟨c, ts₃, hc, h⟩ := run_bind_eq_ok h
      obtain ⟨header, ts₄, hheader, h⟩ := run_bind_eq_ok h
      obtain ⟨rfl, rfl⟩ := run_pure_eq_ok h
      rw [name_tokens hnm, comma_tokens hc, ih hheader, headerTokens, headerTokens,
        List.flatMap_cons]
      simp

theorem declRange_tokens {range : Option (Index × Index)}
    (h : declRange ts = .ok (range, rest)) : ts = rangeTokens range ++ rest := by
  rw [declRange, run_peek_bind] at h
  split_ifs at h
  · obtain ⟨_, ts₂, hl, h⟩ := run_bind_eq_ok h
    obtain ⟨hi, ts₃, hhi, h⟩ := run_bind_eq_ok h
    obtain ⟨_, ts₄, hcolon, h⟩ := run_bind_eq_ok h
    obtain ⟨lo, ts₅, hlo, h⟩ := run_bind_eq_ok h
    obtain ⟨_, ts₆, hr, h⟩ := run_bind_eq_ok h
    obtain ⟨rfl, rfl⟩ := run_pure_eq_ok h
    rw [eat_tokens hl, eatNum_tokens hhi, eat_tokens hcolon, eatNum_tokens hlo, eat_tokens hr]
    rfl
  · obtain ⟨rfl, rfl⟩ := run_pure_eq_ok h
    rfl

theorem declNames_tokens (depth : ℕ) {names : List Name}
    (h : declNames depth ts = .ok (names, rest)) :
    ts = (names.flatMap fun nm => [.comma, nm.token]) ++ rest := by
  induction depth generalizing ts names with
  | zero => exact absurd h run_throw_ne_ok
  | succ depth ih =>
    rw [declNames] at h
    obtain ⟨c, ts₁, hc, h⟩ := run_bind_eq_ok h
    rw [comma_tokens hc]
    split_ifs at h with hcomma
    · obtain ⟨nm, ts₂, hnm, h⟩ := run_bind_eq_ok h
      obtain ⟨names, ts₃, hnames, h⟩ := run_bind_eq_ok h
      obtain ⟨rfl, rfl⟩ := run_pure_eq_ok h
      rw [name_tokens hnm, ih hnames, hcomma, List.flatMap_cons]
      rfl
    · obtain ⟨rfl, rfl⟩ := run_pure_eq_ok h
      rw [Bool.not_eq_true] at hcomma
      rw [hcomma]
      rfl

theorem portNet_tokens (depth : ℕ) {net : Option NetRef} (h : portNet depth ts = .ok (net, rest)) :
    ts = (net.map NetRef.tokens).getD [] ++ rest := by
  rw [portNet, run_peek_bind] at h
  split_ifs at h
  · obtain ⟨rfl, rfl⟩ := run_pure_eq_ok h
    rfl
  · obtain ⟨r, ts₂, hr, h⟩ := run_bind_eq_ok h
    obtain ⟨rfl, rfl⟩ := run_pure_eq_ok h
    exact netref_tokens depth hr

theorem instPorts_tokens (depth : ℕ) {ports : List Port}
    (h : instPorts depth ts = .ok (ports, rest)) : ts = ports.flatMap Port.tokens ++ rest := by
  induction depth generalizing ts ports with
  | zero => exact absurd h run_throw_ne_ok
  | succ depth ih =>
    rw [instPorts, run_peek_bind] at h
    split_ifs at h
    · obtain ⟨rfl, rfl⟩ := run_pure_eq_ok h
      rfl
    · obtain ⟨_, ts₂, hdot, h⟩ := run_bind_eq_ok h
      obtain ⟨pin, ts₃, hpin, h⟩ := run_bind_eq_ok h
      obtain ⟨_, ts₄, hl, h⟩ := run_bind_eq_ok h
      obtain ⟨net, ts₅, hnet, h⟩ := run_bind_eq_ok h
      obtain ⟨_, ts₆, hr, h⟩ := run_bind_eq_ok h
      obtain ⟨c, ts₇, hc, h⟩ := run_bind_eq_ok h
      obtain ⟨ports, ts₈, hports, h⟩ := run_bind_eq_ok h
      obtain ⟨rfl, rfl⟩ := run_pure_eq_ok h
      rw [eat_tokens hdot, name_tokens hpin, eat_tokens hl, portNet_tokens depth hnet,
        eat_tokens hr, comma_tokens hc, ih hports, List.flatMap_cons, Port.tokens]
      simp

/-! ### Statements -/

theorem declKindOf_text {v : String} {kind : DeclKind} (h : declKindOf v = some kind) :
    kind.text = v := by
  simpa using List.find?_some h

theorem declItem_tokens (depth : ℕ) {kind : DeclKind} {it : Item}
    (h : declItem depth kind ts = .ok (it, rest)) : .id kind.text :: ts = it.tokens ++ rest := by
  obtain ⟨range, ts₁, hrange, h⟩ := run_bind_eq_ok h
  obtain ⟨nm, ts₂, hnm, h⟩ := run_bind_eq_ok h
  obtain ⟨names, ts₃, hnames, h⟩ := run_bind_eq_ok h
  obtain ⟨_, ts₄, hsemi, h⟩ := run_bind_eq_ok h
  obtain ⟨rfl, rfl⟩ := run_pure_eq_ok h
  rw [declRange_tokens hrange, name_tokens hnm, declNames_tokens depth hnames, eat_tokens hsemi,
    Item.tokens]
  simp

theorem assignItem_tokens (depth : ℕ) {it : Item} (h : assignItem depth ts = .ok (it, rest)) :
    .id "assign" :: ts = it.tokens ++ rest := by
  obtain ⟨lhs, ts₁, hlhs, h⟩ := run_bind_eq_ok h
  obtain ⟨_, ts₂, heq, h⟩ := run_bind_eq_ok h
  obtain ⟨rhs, ts₃, hrhs, h⟩ := run_bind_eq_ok h
  obtain ⟨_, ts₄, hsemi, h⟩ := run_bind_eq_ok h
  obtain ⟨rfl, rfl⟩ := run_pure_eq_ok h
  rw [netref_tokens depth hlhs, eat_tokens heq, netref_tokens depth hrhs, eat_tokens hsemi,
    Item.tokens]
  simp

theorem instItem_tokens (depth : ℕ) {it : Item} (h : instItem depth ts = .ok (it, rest)) :
    ts = it.tokens ++ rest := by
  obtain ⟨cell, ts₁, hcell, h⟩ := run_bind_eq_ok h
  obtain ⟨iname, ts₂, hiname, h⟩ := run_bind_eq_ok h
  obtain ⟨_, ts₃, hl, h⟩ := run_bind_eq_ok h
  obtain ⟨ports, ts₄, hports, h⟩ := run_bind_eq_ok h
  obtain ⟨_, ts₅, hr, h⟩ := run_bind_eq_ok h
  obtain ⟨_, ts₆, hsemi, h⟩ := run_bind_eq_ok h
  obtain ⟨rfl, rfl⟩ := run_pure_eq_ok h
  rw [name_tokens hcell, name_tokens hiname, eat_tokens hl, instPorts_tokens depth hports,
    eat_tokens hr, eat_tokens hsemi, Item.tokens]
  simp

theorem item_tokens (depth : ℕ) {t : Option Token} {it : Item}
    (h : item depth t ts = .ok (it, rest)) : ts = it.tokens ++ rest := by
  cases t with
  | none => exact instItem_tokens depth h
  | some t =>
    cases t with
    | id v =>
      rw [item] at h
      cases hkind : declKindOf v with
      | some kind =>
        rw [hkind] at h
        obtain ⟨_, ts₁, hid, h⟩ := run_bind_eq_ok h
        rw [eat_tokens hid, ← declKindOf_text hkind]
        exact declItem_tokens depth h
      | none =>
        rw [hkind] at h
        split_ifs at h with hassign
        · obtain ⟨_, ts₁, hid, h⟩ := run_bind_eq_ok h
          rw [eat_tokens hid, hassign]
          exact assignItem_tokens depth h
        · exact instItem_tokens depth h
    | _ => exact instItem_tokens depth h

theorem items_tokens (depth : ℕ) {its : List Item} (h : items depth ts = .ok (its, rest)) :
    ts = its.flatMap Item.tokens ++ rest := by
  induction depth generalizing ts its with
  | zero => exact absurd h run_throw_ne_ok
  | succ depth ih =>
    rw [items, run_peek_bind] at h
    split_ifs at h
    · obtain ⟨rfl, rfl⟩ := run_pure_eq_ok h
      rfl
    · obtain ⟨it, ts₂, hit, h⟩ := run_bind_eq_ok h
      obtain ⟨its, ts₃, hits, h⟩ := run_bind_eq_ok h
      obtain ⟨rfl, rfl⟩ := run_pure_eq_ok h
      rw [item_tokens depth hit, ih hits, List.flatMap_cons, List.append_assoc]

/-! ### Modules -/

theorem module_tokens (depth : ℕ) {m : Module} (h : module depth ts = .ok (m, rest)) :
    ts = m.tokens := by
  obtain ⟨_, ts₁, hmodule, h⟩ := run_bind_eq_ok h
  obtain ⟨top, ts₂, htop, h⟩ := run_bind_eq_ok h
  obtain ⟨_, ts₃, hl, h⟩ := run_bind_eq_ok h
  obtain ⟨header, ts₄, hheader, h⟩ := run_bind_eq_ok h
  obtain ⟨_, ts₅, hr, h⟩ := run_bind_eq_ok h
  obtain ⟨_, ts₆, hsemi, h⟩ := run_bind_eq_ok h
  obtain ⟨body, ts₇, hbody, h⟩ := run_bind_eq_ok h
  obtain ⟨_, ts₈, hend, h⟩ := run_bind_eq_ok h
  rw [run_peek_bind] at h
  split_ifs at h with hnone
  · obtain ⟨rfl, rfl⟩ := run_pure_eq_ok h
    rw [eat_tokens hmodule, name_tokens htop, eat_tokens hl, headerNames_tokens depth hheader,
      eat_tokens hr, eat_tokens hsemi, items_tokens depth hbody, eat_tokens hend,
      List.head?_eq_none_iff.mp hnone, Module.tokens]
    simp
  · exact absurd h run_throw_ne_ok

/-- The tokens of a text that the strict parser accepts are those of the module it returns. -/
theorem parse_tokens {cls : CharClass} {depth : ℕ} {src : String} {m : Module}
    (h : parse cls depth src = .ok m) : tokenize cls src = .ok m.tokens := by
  obtain ⟨ts, hts, h⟩ := bind_eq_ok h
  obtain ⟨⟨m', rest⟩, hm, h⟩ := bind_eq_ok h
  cases h
  rw [hts, module_tokens depth hm]

end Saltworks.Sim
