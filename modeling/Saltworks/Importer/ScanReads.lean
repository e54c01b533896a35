import Saltworks.Importer.Scan
import Saltworks.Sim.RefTokens

/-!
# What the scan reads of a statement

On the tokens of a statement that the strict parser accepts the scan of the importer does what
`Item.read` says: it keeps the first term on either side of an assign, where it drops the bit
select of an escaped name, and the last net of a connection.

## Main definitions

* `NetRef.leaves`, `assignText`, `pinText`: the terms of a net reference, as the scan spells them.
* `Port.read`, `Item.read`: what the scan does with a port and with a statement.

## Main results

* `scanTerms_tokens`, `scanPin_tokens`: the scan of a net reference.
* `scanItems_item`: the scan of a statement.
-/

namespace Saltworks.Sim

open Importer Fallible

/-! ### Terms -/

mutual

/-- The names of a net reference with their bit selects. -/
def NetRef.leaves : NetRef → List (Name × Option Index)
  | .leaf nm index => [(nm, index)]
  | .concat parts => parts.leaves

/-- The names of the parts of a concatenation. -/
def Parts.leaves : Parts → List (Name × Option Index)
  | .nil => []
  | .cons part _ rest => part.leaves ++ rest.leaves

end

/-- A term of an assign, as the scan spells it. -/
def assignText : Name × Option Index → Net
  | (nm, none) => nm.text
  | (nm, some i) => if nm.escaped then nm.text else selectText nm.text i.text

/-- A net of a connection, as the scan spells it. -/
def pinText : Name × Option Index → Net
  | (nm, none) => nm.text
  | (nm, some i) => selectText nm.text i.text

/-- The last net of a connection; a connection without a net leaves the pin open. -/
def Port.net? (p : Port) : Option Net :=
  p.net.bind fun r => (r.leaves.map pinText).getLast?

/-- What the scan does with a port. -/
def Port.read (conns : Dict Pin Net) (p : Port) : Dict Pin Net := connect conns p.pin.text p.net?

/-- What the scan makes of the two sides of an assign. -/
def readAssign (a : NetRef × NetRef) : Except Raised (List (Net × Net)) :=
  match a.1.leaves.map assignText with
  | [] => .error .indexError
  | l :: _ => assignOf (some l) (a.2.leaves.map assignText)

/-- What the scan makes of an instance. -/
def readInst (i : Name × Name × List Port) : Inst :=
  ⟨shortCell i.1.text, i.2.1.text, i.2.2.foldl Port.read .empty⟩

/-- What the scan does with a statement. -/
def Item.read (p : Parsed) : Item → Except Raised Parsed
  | .decl kind range nm names =>
    .ok (p.addDecl kind (range.map fun r => [r.1.value, r.2.value]) ((nm :: names).map Name.text))
  | .assign lhs rhs => do
    return { p with assigns := p.assigns ++ (← readAssign (lhs, rhs)) }
  | .inst cell iname ports => .ok { p with insts := p.insts ++ [readInst (cell, iname, ports)] }

/-! ### Net references -/

/-- The tokens do not begin with a bracket, so a name in front of them has no bit select. -/
def NoSelect (ts : List Token) : Prop := ts.head? ≠ some .lbrack

theorem noSelect_cons {t : Token} {ts : List Token} (h : t ≠ .lbrack) : NoSelect (t :: ts) :=
  fun heq => h (Option.some.inj heq)

theorem Name.token_ne_lbrack (nm : Name) : nm.token ≠ .lbrack := by
  rw [Name.token]
  split <;> exact nofun

theorem NetRef.noSelect (r : NetRef) (ts : List Token) : NoSelect (r.tokens ++ ts) := by
  cases r with
  | leaf nm index =>
    cases index with
    | none => exact noSelect_cons nm.token_ne_lbrack
    | some i => exact noSelect_cons nm.token_ne_lbrack
  | concat parts => exact noSelect_cons nofun

theorem Parts.noSelect (parts : Parts) (c : Bool) (ts : List Token) :
    NoSelect (commaTokens c ++ (parts.tokens ++ .rbrace :: ts)) := by
  cases c with
  | true => exact noSelect_cons nofun
  | false =>
    cases parts with
    | nil => exact noSelect_cons nofun
    | cons part c rest =>
      rw [Parts.tokens, List.append_assoc, List.append_assoc]
      exact part.noSelect _

section Terms

variable {lhs : Option Net} {cur : List Net} {ts : List Token}

theorem scanTerms_name (nm : Name) (h : NoSelect ts) :
    scanTerms lhs cur (nm.token :: ts) = scanTerms lhs (cur ++ [nm.text]) ts := by
  obtain ⟨escaped, text⟩ := nm
  cases escaped with
  | true => rfl
  | false =>
    cases ts with
    | nil => rfl
    | cons t ts =>
      cases t with
      | lbrack => exact absurd rfl h
      | _ => rfl

theorem scanTerms_select (nm : Name) (i : Index) :
    scanTerms lhs cur (nm.token :: .lbrack :: .num i.text :: .rbrack :: ts) =
      scanTerms lhs (cur ++ [assignText (nm, some i)]) ts := by
  obtain ⟨escaped, text⟩ := nm
  cases escaped <;> rfl

theorem scanTerms_comma (c : Bool) :
    scanTerms lhs cur (commaTokens c ++ ts) = scanTerms lhs cur ts := by
  cases c <;> rfl

mutual

/-- The scan of an assign adds the terms of a net reference. -/
theorem scanTerms_tokens (r : NetRef) (lhs : Option Net) (cur : List Net) {ts : List Token}
    (h : NoSelect ts) : scanTerms lhs cur (r.tokens ++ ts) =
      scanTerms lhs (cur ++ r.leaves.map assignText) ts := by
  match r with
  | .leaf nm none =>
    rw [NetRef.tokens, NetRef.leaves]
    exact scanTerms_name nm h
  | .leaf nm (some i) =>
    rw [NetRef.tokens, NetRef.leaves]
    exact scanTerms_select nm i
  | .concat parts =>
    rw [NetRef.tokens, NetRef.leaves, List.cons_append, List.append_assoc]
    exact scanTerms_parts parts lhs cur ts

theorem scanTerms_parts (parts : Parts) (lhs : Option Net) (cur : List Net) (ts : List Token) :
    scanTerms lhs cur (parts.tokens ++ .rbrace :: ts) =
      scanTerms lhs (cur ++ parts.leaves.map assignText) ts := by
  match parts with
  | .nil =>
    rw [Parts.tokens, Parts.leaves, List.map_nil, List.append_nil]
    rfl
  | .cons part c rest =>
    rw [Parts.tokens, Parts.leaves, List.append_assoc, List.append_assoc,
      scanTerms_tokens part lhs cur (rest.noSelect c ts), scanTerms_comma,
      scanTerms_parts rest lhs _ ts, List.map_append, List.append_assoc]

end

end Terms

section Pins

variable {depth : ℤ} {conns : Dict Pin Net} {pin : Pin} {d : ℤ} {net : Option Net}
  {ts : List Token}

theorem scanPin_name (nm : Name) (h : NoSelect ts) :
    scanPin depth conns pin d net (nm.token :: ts) =
      scanPin depth conns pin d (some nm.text) ts := by
  obtain ⟨escaped, text⟩ := nm
  cases ts with
  | nil => cases escaped <;> rfl
  | cons t ts =>
    cases t with
    | lbrack => exact absurd rfl h
    | _ => cases escaped <;> rfl

theorem scanPin_select (nm : Name) (i : Index) :
    scanPin depth conns pin d net (nm.token :: .lbrack :: .num i.text :: .rbrack :: ts) =
      scanPin depth conns pin d (some (selectText nm.text i.text)) ts := by
  obtain ⟨escaped, text⟩ := nm
  cases escaped <;> rfl

theorem scanPin_comma (c : Bool) :
    scanPin depth conns pin d net (commaTokens c ++ ts) = scanPin depth conns pin d net ts := by
  cases c <;> rfl

mutual

/-- The scan of a connection keeps the last net of a net reference. -/
theorem scanPin_tokens (r : NetRef) (net : Option Net) {ts : List Token} (h : NoSelect ts) :
    scanPin depth conns pin d net (r.tokens ++ ts) =
      scanPin depth conns pin d ((r.leaves.map pinText).getLast?.or net) ts := by
  match r with
  | .leaf nm none =>
    rw [NetRef.tokens, NetRef.leaves]
    exact scanPin_name nm h
  | .leaf nm (some i) =>
    rw [NetRef.tokens, NetRef.leaves]
    exact scanPin_select nm i
  | .concat parts =>
    rw [NetRef.tokens, NetRef.leaves, List.cons_append, List.append_assoc]
    exact scanPin_parts parts net ts

theorem scanPin_parts (parts : Parts) (net : Option Net) (ts : List Token) :
    scanPin depth conns pin d net (parts.tokens ++ .rbrace :: ts) =
      scanPin depth conns pin d ((parts.leaves.map pinText).getLast?.or net) ts := by
  match parts with
  | .nil =>
    rw [Parts.tokens, Parts.leaves]
    rfl
  | .cons part c rest =>
    rw [Parts.tokens, Parts.leaves, List.append_assoc, List.append_assoc,
      scanPin_tokens part net (rest.noSelect c ts), scanPin_comma, scanPin_parts rest _ ts,
      List.map_append, List.getLast?_append, Option.or_assoc]

end

end Pins

/-! ### Ports and instances -/

theorem Name.text_token (nm : Name) : nm.token.text = nm.text := by
  rw [Name.token]
  split <;> rfl

theorem Name.instName_token (nm : Name) : instName nm.token = nm.text := by
  rw [Name.token]
  split <;> rfl

section Conns

variable {depth : ℤ} {conns : Dict Pin Net} {ts : List Token}

theorem scanConns_comma (c : Bool) :
    scanConns depth conns (commaTokens c ++ ts) = scanConns depth conns ts := by
  cases c <;> rfl

theorem scanConns_port (p : Port) :
    scanConns depth conns (p.tokens ++ ts) = scanConns depth (p.read conns) ts := by
  have hpin (net : Option Net) : scanPin depth conns p.pin.text 1 net
      (.rparen :: (commaTokens p.comma ++ ts)) =
      scanConns depth (connect conns p.pin.text net) ts := by
    rw [scanPin, if_pos (by decide), scanConns_comma]
  have hopen (ts : List Token) : scanConns depth conns (.dot :: p.pin.token :: .lparen :: ts) =
      scanPin depth conns p.pin.text 1 none ts := by
    rw [← p.pin.text_token]
    rfl
  have htokens : p.tokens ++ ts = .dot :: p.pin.token :: .lparen ::
      ((p.net.map NetRef.tokens).getD [] ++ .rparen :: (commaTokens p.comma ++ ts)) := by
    simp [Port.tokens]
  rw [htokens, hopen, Port.read, Port.net?]
  cases p.net with
  | none => exact hpin none
  | some r =>
    have hrparen : NoSelect (.rparen :: (commaTokens p.comma ++ ts)) :=
      noSelect_cons (by rintro ⟨⟩)
    rw [Option.map_some, Option.getD_some, scanPin_tokens r none hrparen, Option.or_none, hpin]
    rfl

theorem scanConns_ports (ports : List Port) :
    scanConns depth conns (ports.flatMap Port.tokens ++ ts) =
      scanConns depth (ports.foldl Port.read conns) ts := by
  induction ports generalizing conns with
  | nil => rfl
  | cons p ports ih =>
    rw [List.flatMap_cons, List.append_assoc, scanConns_port, ih, List.foldl_cons]

/-- The scan of an instance reads its ports and stops in front of the semicolon. -/
theorem scanInst_tokens (cell : String) (iname : Name) (ports : List Port) :
    scanInst cell (iname.token :: .lparen :: (ports.flatMap Port.tokens ++
      .rparen :: .semi :: ts)) =
      .ok (⟨shortCell cell, iname.text, ports.foldl Port.read .empty⟩, .semi :: ts) := by
  have hconns : scanConns 0 .empty (.lparen :: (ports.flatMap Port.tokens ++
      .rparen :: .semi :: ts)) = .ok (ports.foldl Port.read .empty, .semi :: ts) := by
    rw [scanConns, scanConns_ports, scanConns, if_pos (by decide)]
  rw [scanInst, hconns, iname.instName_token]
  rfl

end Conns

/-! ### Declarations -/

theorem scanBounds_range (r : Index × Index) (ts : List Token) :
    scanBounds (.num r.1.text :: .colon :: .num r.2.text :: .rbrack :: ts) [] =
      .ok ([r.1.value, r.2.value], ts) := by
  rw [scanBounds, r.1.intOf_text]
  change scanBounds (.num r.2.text :: .rbrack :: ts) [r.1.value] = _
  rw [scanBounds, r.2.intOf_text]
  rfl

theorem scanNames_name (nm : Name) (ts : List Token) (names : List Net) :
    scanNames (nm.token :: ts) names = scanNames ts (names ++ [nm.text]) := by
  rw [Name.token]
  split <;> rfl

theorem scanNames_names (nms : List Name) (ts : List Token) (names : List Net) :
    scanNames ((nms.flatMap fun nm => [.comma, nm.token]) ++ .semi :: ts) names =
      (names ++ nms.map Name.text, ts) := by
  induction nms generalizing names with
  | nil => rw [List.map_nil, List.append_nil]; rfl
  | cons nm nms ih =>
    rw [List.flatMap_cons, List.append_assoc]
    change scanNames (nm.token :: ((nms.flatMap fun nm => [.comma, nm.token]) ++ .semi :: ts))
      names = _
    rw [scanNames_name, ih, List.append_assoc, List.map_cons, List.singleton_append]

theorem scanDecl_tokens (kind : DeclKind) (p : Parsed) (range : Option (Index × Index)) (nm : Name)
    (nms : List Name) (ts : List Token) :
    scanDecl kind p (rangeTokens range ++ nm.token ::
      ((nms.flatMap fun nm => [.comma, nm.token]) ++ .semi :: ts)) =
      .ok (p.addDecl kind (range.map fun r => [r.1.value, r.2.value])
        ((nm :: nms).map Name.text), ts) := by
  have hnames : scanNames (nm.token :: ((nms.flatMap fun nm => [.comma, nm.token]) ++
      .semi :: ts)) [] = ((nm :: nms).map Name.text, ts) := by
    rw [scanNames_name, scanNames_names]
    rfl
  cases range with
  | none =>
    have htoken := nm.token_ne_lbrack
    rw [rangeTokens, List.nil_append, scanDecl.eq_def]
    split
    · rename_i heq
      exact absurd (List.cons.inj heq).1 htoken
    · rw [hnames]
      rfl
  | some r =>
    simp only [rangeTokens, List.cons_append, List.nil_append, scanDecl, scanBounds_range]
    exact congrArg
      (fun q => Except.ok (p.addDecl kind (some [r.1.value, r.2.value]) q.1, q.2)) hnames

/-! ### Assigns -/

theorem scanAssign_tokens (lhs rhs : NetRef) (ts : List Token) :
    scanAssign (lhs.tokens ++ .equals :: (rhs.tokens ++ .semi :: ts)) =
      (do return (← readAssign (lhs, rhs), ts)) := by
  have hequals : NoSelect (.equals :: (rhs.tokens ++ .semi :: ts)) := noSelect_cons nofun
  have hsemi : NoSelect (.semi :: ts) := noSelect_cons nofun
  rw [scanAssign, scanTerms_tokens lhs none [] hequals, List.nil_append, readAssign]
  cases hterms : lhs.leaves.map assignText with
  | nil => rfl
  | cons l ls =>
    rw [scanTerms, scanTerms_tokens rhs (some l) [] hsemi, List.nil_append, scanTerms]
    rfl

/-! ### Statements -/

/-- The cell of an instance comes from the process library, by a name that is not escaped. -/
def Item.Sky130 : Item → Prop
  | .inst cell _ _ => cell.escaped = false ∧ isSky130 cell.text
  | _ => True

theorem declKindOf_kind (kind : DeclKind) : declKindOf kind.text = some kind := by
  cases kind <;> decide

theorem declKindOf_sky130 {v : String} (h : isSky130 v) : declKindOf v = none ∧ v ≠ "assign" := by
  constructor
  · rw [declKindOf, List.find?_eq_none]
    intro kind hkind
    rw [decide_eq_true_iff]
    rintro rfl
    cases kind <;> exact absurd h (by decide)
  · rintro rfl
    exact absurd h (by decide)

/-- A statement has more than two tokens. -/
theorem Item.two_lt_length_tokens (it : Item) : 2 < it.tokens.length := by
  cases it <;> simp [Item.tokens] <;> omega

/-- The scan of a statement reads it. -/
theorem scanItems_item {it : Item} (hit : it.Sky130) {n : ℕ} {ts : List Token}
    (hn : (it.tokens ++ ts).length ≤ n) : ∃ n', ts.length ≤ n' ∧ ∀ p,
      scanItems n p (it.tokens ++ ts) = it.read p >>= fun p => scanItems n' p ts := by
  have hlength := it.two_lt_length_tokens
  rw [List.length_append] at hn
  cases it with
  | decl kind range nm names =>
    obtain ⟨n, rfl⟩ := Nat.exists_eq_succ_of_ne_zero (by omega : n ≠ 0)
    refine ⟨n, by omega, fun p => ?_⟩
    have htokens : (Item.decl kind range nm names).tokens ++ ts = .id kind.text ::
        (rangeTokens range ++ nm.token ::
          ((names.flatMap fun nm => [.comma, nm.token]) ++ .semi :: ts)) := by
      simp [Item.tokens]
    rw [htokens, scanItems, declKindOf_kind]
    simp only [scanDecl_tokens]
    rfl
  | assign lhs rhs =>
    obtain ⟨n, rfl⟩ := Nat.exists_eq_succ_of_ne_zero (by omega : n ≠ 0)
    refine ⟨n, by omega, fun p => ?_⟩
    have htokens : (Item.assign lhs rhs).tokens ++ ts =
        .id "assign" :: (lhs.tokens ++ .equals :: (rhs.tokens ++ .semi :: ts)) := by
      simp [Item.tokens]
    have hkind : declKindOf "assign" = none := by decide
    rw [htokens, scanItems, hkind]
    simp only [if_pos, scanAssign_tokens, Item.read]
    cases readAssign (lhs, rhs) <;> rfl
  | inst cell iname ports =>
    obtain ⟨hescaped, hsky⟩ := hit
    obtain ⟨hkind, hassign⟩ := declKindOf_sky130 hsky
    obtain ⟨n, rfl⟩ : ∃ n', n = n' + 2 := Nat.exists_eq_add_of_le' (by omega : 2 ≤ n)
    refine ⟨n, by omega, fun p => ?_⟩
    have htokens : (Item.inst cell iname ports).tokens ++ ts = .id cell.text :: iname.token ::
        .lparen :: (ports.flatMap Port.tokens ++ .rparen :: .semi :: ts) := by
      simp [Item.tokens, Name.token, hescaped]
    rw [htokens, scanItems, hkind]
    simp only [if_neg hassign, if_pos hsky, scanInst_tokens]
    rfl

end Saltworks.Sim
