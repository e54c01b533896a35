import Saltworks.Importer.ScanReads

/-!
# What the scan passes over

The scan of the importer starts a statement at every identifier that is a keyword or begins with
`sky130_`, wherever it stands. It skips the other names of a header, and those of an instance whose
cell is escaped or from another library. From a keyword among these names on it reads them as a
declaration or as an assign, up to the semicolon. A name that begins with `sky130_` opens an
instance there, which runs on into the statements that follow.

## Main definitions

* `Name.Skipped`, `Name.IsCell`: the names at which the scan starts no statement or an instance.
* `Stretch`, `Quiet`: the tokens of names up to a semicolon where no instance begins.
* `passNames`: what the scan does with such names.
* `Item.scan`: what the scan does with a statement, where it may pass over its instance.

## Main results

* `scanItems_stretch`: the scan of names up to a semicolon.
* `scanItems_scan`, `OneByOne.cons`: the scan of the statements of a module.
* `foldlM_scan_ok`: what the scan of statements has read where it returns.
-/

namespace Saltworks.Sim

open Importer Fallible

/-! ### Names -/

/-- The scan skips the name. -/
def Name.Skipped (nm : Name) : Prop :=
  nm.escaped ∨ declKindOf nm.text = none ∧ nm.text ≠ "assign" ∧ ¬ isSky130 nm.text

instance (nm : Name) : Decidable nm.Skipped :=
  inferInstanceAs (Decidable (_ ∨ _))

/-- The scan takes the name for the cell of an instance. -/
def Name.IsCell (nm : Name) : Prop := nm.escaped = false ∧ isSky130 nm.text

instance (nm : Name) : Decidable nm.IsCell :=
  inferInstanceAs (Decidable (_ ∧ _))

/-- A token that the scan skips, where a statement may begin. -/
def Token.Skipped : Token → Prop
  | .id v => declKindOf v = none ∧ v ≠ "assign" ∧ ¬ isSky130 v
  | _ => True

theorem Name.Skipped.token {nm : Name} (h : nm.Skipped) : nm.token.Skipped := by
  obtain ⟨escaped, text⟩ := nm
  cases escaped with
  | true => exact trivial
  | false => exact h.resolve_left nofun

theorem Name.IsCell.not_skipped {nm : Name} (h : nm.IsCell) : ¬ nm.Skipped := by
  rintro (hescaped | ⟨-, -, hsky⟩)
  · rw [h.1] at hescaped
    cases hescaped
  · exact hsky h.2

theorem scanItems_skipped {t : Token} (ht : t.Skipped) (n : ℕ) (p : Parsed) (ts : List Token) :
    scanItems (n + 1) p (t :: ts) = scanItems n p ts := by
  cases t with
  | id v =>
    obtain ⟨hkind, hassign, hsky⟩ := ht
    rw [scanItems, hkind]
    simp only [if_neg hassign, if_neg hsky]
  | _ => rfl

/-- The scan passes over tokens that it skips. -/
theorem scanItems_skip {hs : List Token} (hhs : ∀ t ∈ hs, t.Skipped) {n : ℕ} {ts : List Token}
    (hn : (hs ++ ts).length ≤ n) : ∃ n', ts.length ≤ n' ∧
      ∀ p, scanItems n p (hs ++ ts) = scanItems n' p ts := by
  induction hs generalizing n with
  | nil => exact ⟨n, hn, fun p => rfl⟩
  | cons t hs ih =>
    obtain ⟨ht, hhs⟩ := List.forall_mem_cons.mp hhs
    rw [List.cons_append, List.length_cons] at hn
    obtain ⟨n, rfl⟩ := Nat.exists_eq_succ_of_ne_zero (by omega : n ≠ 0)
    obtain ⟨n', hn', hscan⟩ := ih hhs (by omega : (hs ++ ts).length ≤ n)
    refine ⟨n', hn', fun p => ?_⟩
    rw [List.cons_append, scanItems_skipped ht, hscan]

/-! ### Names up to a semicolon -/

/-- The punctuation between the names of a header or of an instance. -/
def Token.IsMark : Token → Prop
  | .lparen | .rparen | .comma | .lbrace | .rbrace | .dot => True
  | _ => False

/-- Tokens that consist of names with their bit selects and of punctuation between them. -/
inductive Stretch : List Token → List (Name × Option Index) → Prop
  | nil : Stretch [] []
  | mark {t ts ls} (ht : t.IsMark) (h : Stretch ts ls) : Stretch (t :: ts) ls
  | name {ts ls} (nm : Name) (h : Stretch ts ls) : Stretch (nm.token :: ts) ((nm, none) :: ls)
  | select {ts ls} (nm : Name) (i : Index) (h : Stretch ts ls) :
      Stretch (nm.token :: .lbrack :: .num i.text :: .rbrack :: ts) ((nm, some i) :: ls)

/-- The first name that the scan does not skip, if any, is a keyword: no instance begins among the
names. -/
def Quiet (ls : List (Name × Option Index)) : Prop :=
  ∀ l ∈ ls.find? fun l => ¬ l.1.Skipped, ¬ l.1.IsCell

instance (ls : List (Name × Option Index)) : Decidable (Quiet ls) :=
  inferInstanceAs (Decidable (∀ l ∈ ls.find? _, _))

/-- What the scan does with names up to a semicolon where no instance begins. -/
def passNames (p : Parsed) : List (Name × Option Index) → Except Raised Parsed
  | [] => .ok p
  | (nm, index) :: ls =>
    if nm.Skipped then passNames p ls
    else match declKindOf nm.text with
      | some kind => .ok (p.addDecl kind (index.map fun i => [i.value]) (ls.map (·.1.text)))
      | none => do
        return { p with assigns := p.assigns ++ (← assignOf none (ls.map assignText)) }

section Stretches

variable {ts : List Token} {ls : List (Name × Option Index)}

theorem Stretch.append {ts' : List Token} {ls' : List (Name × Option Index)} (h : Stretch ts ls)
    (h' : Stretch ts' ls') : Stretch (ts ++ ts') (ls ++ ls') := by
  induction h with
  | nil => exact h'
  | mark ht _ ih => exact .mark ht ih
  | name nm _ ih => exact .name nm ih
  | select nm i _ ih => exact .select nm i ih

theorem Stretch.comma (c : Bool) : Stretch (commaTokens c) [] := by
  cases c
  · exact .nil
  · exact .mark trivial .nil

theorem Stretch.noSelect (h : Stretch ts ls) (rest : List Token) :
    NoSelect (ts ++ .semi :: rest) := by
  cases h with
  | nil => exact noSelect_cons nofun
  | mark ht => exact noSelect_cons (by rintro rfl; exact ht)
  | name nm => exact noSelect_cons nm.token_ne_lbrack
  | select nm => exact noSelect_cons nm.token_ne_lbrack

theorem scanTerms_mark {t : Token} (ht : t.IsMark) (cur : List Net) (ts : List Token) :
    scanTerms none cur (t :: ts) = scanTerms none cur ts := by
  cases t with
  | lparen | rparen | comma | lbrace | rbrace | dot => rfl
  | _ => exact ht.elim

theorem scanNames_mark {t : Token} (ht : t.IsMark) (ts : List Token) (names : List Net) :
    scanNames (t :: ts) names = scanNames ts names := by
  cases t with
  | lparen | rparen | comma | lbrace | rbrace | dot => rfl
  | _ => exact ht.elim

/-- An assign without an equals sign collects the names. -/
theorem scanTerms_stretch (h : Stretch ts ls) (cur : List Net) (rest : List Token) :
    scanTerms none cur (ts ++ .semi :: rest) = .ok ((none, cur ++ ls.map assignText), rest) := by
  induction h generalizing cur with
  | nil => rw [List.map_nil, List.append_nil]; rfl
  | mark ht _ ih => exact (scanTerms_mark ht cur _).trans (ih cur)
  | name nm h ih =>
    rw [List.cons_append, scanTerms_name nm (h.noSelect rest), ih, List.append_assoc]
    rfl
  | select nm i _ ih =>
    simp only [List.cons_append]
    rw [scanTerms_select, ih, List.append_assoc]
    rfl

/-- A declaration collects the names. -/
theorem scanNames_stretch (h : Stretch ts ls) (names : List Net) (rest : List Token) :
    scanNames (ts ++ .semi :: rest) names = (names ++ ls.map (·.1.text), rest) := by
  induction h generalizing names with
  | nil => rw [List.map_nil, List.append_nil]; rfl
  | mark ht _ ih => exact (scanNames_mark ht _ names).trans (ih names)
  | name nm _ ih =>
    rw [List.cons_append, scanNames_name, ih, List.append_assoc]
    rfl
  | select nm i _ ih =>
    simp only [List.cons_append]
    rw [scanNames_name]
    refine (ih _).trans ?_
    rw [List.append_assoc]
    rfl

theorem scanDecl_stretch (kind : DeclKind) (p : Parsed) (h : Stretch ts ls) (rest : List Token) :
    scanDecl kind p (ts ++ .semi :: rest) =
      .ok (p.addDecl kind none (ls.map (·.1.text)), rest) := by
  have hselect := h.noSelect rest
  rw [scanDecl.eq_def]
  split
  · rename_i ts' heq
    rw [heq] at hselect
    exact absurd rfl hselect
  · rw [scanNames_stretch h]
    rfl

theorem scanDecl_select (kind : DeclKind) (p : Parsed) (i : Index) (h : Stretch ts ls)
    (rest : List Token) :
    scanDecl kind p (.lbrack :: .num i.text :: .rbrack :: (ts ++ .semi :: rest)) =
      .ok (p.addDecl kind (some [i.value]) (ls.map (·.1.text)), rest) := by
  have hbounds : scanBounds (.num i.text :: .rbrack :: (ts ++ .semi :: rest)) [] =
      .ok ([i.value], ts ++ .semi :: rest) := by
    rw [scanBounds, i.intOf_text]
    rfl
  rw [scanDecl, hbounds]
  exact congrArg (fun q => Except.ok (p.addDecl kind (some [i.value]) q.1, q.2))
    (scanNames_stretch h [] rest)

theorem Quiet.of_skipped {l : Name × Option Index} (h : Quiet (l :: ls)) (hl : l.1.Skipped) :
    Quiet ls := by
  rw [Quiet, List.find?_cons_of_neg (by simpa using hl)] at h
  exact h

theorem Quiet.not_isCell {l : Name × Option Index} (h : Quiet (l :: ls)) : ¬ l.1.IsCell := by
  intro hcell
  have hskipped := hcell.not_skipped
  rw [Quiet, List.find?_cons_of_pos (by simpa using hskipped)] at h
  exact h l rfl hcell

/-- The scan of a name and of what follows it up to the semicolon, where it is a keyword. -/
theorem scanItems_keyword {nm : Name} {index : Option Index} (hskipped : ¬ nm.Skipped)
    (hcell : ¬ nm.IsCell) (h : Stretch ts ls) (n : ℕ) (p : Parsed) (rest : List Token) :
    scanItems (n + 1) p ((NetRef.leaf nm index).tokens ++ (ts ++ .semi :: rest)) =
      passNames p ((nm, index) :: ls) >>= fun p => scanItems n p rest := by
  obtain ⟨escaped, v⟩ := nm
  cases escaped with
  | true => exact absurd (Or.inl rfl) hskipped
  | false =>
    have hsky : ¬ isSky130 v := fun hsky => hcell ⟨rfl, hsky⟩
    rw [passNames, if_neg hskipped]
    cases hkind : declKindOf v with
    | some kind =>
      cases index with
      | none =>
        have htokens : (NetRef.leaf ⟨false, v⟩ none).tokens ++ (ts ++ .semi :: rest) =
            .id v :: (ts ++ .semi :: rest) := rfl
        rw [htokens, scanItems, hkind]
        simp only [scanDecl_stretch kind p h]
        rfl
      | some i =>
        have htokens : (NetRef.leaf ⟨false, v⟩ (some i)).tokens ++ (ts ++ .semi :: rest) =
            .id v :: .lbrack :: .num i.text :: .rbrack :: (ts ++ .semi :: rest) := rfl
        rw [htokens, scanItems, hkind]
        simp only [scanDecl_select kind p i h]
        rfl
    | none =>
      have hassign : v = "assign" := by
        by_contra hne
        exact hskipped (Or.inr ⟨hkind, hne, hsky⟩)
      have hterms : scanTerms none [] ((NetRef.leaf ⟨false, v⟩ index).tokens.tail ++
          (ts ++ .semi :: rest)) = .ok ((none, ls.map assignText), rest) := by
        cases index with
        | none => exact scanTerms_stretch h [] rest
        | some i => exact scanTerms_stretch h [] rest
      have hscan : scanAssign ((NetRef.leaf ⟨false, v⟩ index).tokens.tail ++
          (ts ++ .semi :: rest)) = (do return (← assignOf none (ls.map assignText), rest)) := by
        rw [scanAssign, hterms]
        rfl
      have htokens : (NetRef.leaf ⟨false, v⟩ index).tokens ++ (ts ++ .semi :: rest) =
          .id v :: ((NetRef.leaf ⟨false, v⟩ index).tokens.tail ++ (ts ++ .semi :: rest)) := by
        cases index <;> rfl
      rw [htokens, scanItems, hkind]
      simp only [if_pos hassign, hscan]
      cases assignOf none (ls.map assignText) <;> rfl

theorem passNames_skipped {l : Name × Option Index} (hl : l.1.Skipped) (p : Parsed) :
    passNames p (l :: ls) = passNames p ls := by
  rw [passNames, if_pos hl]

/-- The scan of a name in front of a stretch. -/
theorem scanItems_leaf {nm : Name} {i : Option Index} {rest : List Token} (h : Stretch ts ls)
    (hls : Quiet ((nm, i) :: ls))
    (ih : Quiet ls → ∀ n, (ts ++ .semi :: rest).length ≤ n → ∃ n', rest.length ≤ n' ∧
      ∀ p, scanItems n p (ts ++ .semi :: rest) = passNames p ls >>= fun p => scanItems n' p rest)
    {n : ℕ} (hn : ((NetRef.leaf nm i).tokens ++ (ts ++ .semi :: rest)).length ≤ n) :
    ∃ n', rest.length ≤ n' ∧
      ∀ p, scanItems n p ((NetRef.leaf nm i).tokens ++ (ts ++ .semi :: rest)) =
        passNames p ((nm, i) :: ls) >>= fun p => scanItems n' p rest := by
  by_cases hnm : nm.Skipped
  · have htokens : ∀ t ∈ (NetRef.leaf nm i).tokens, t.Skipped := by
      cases i with
      | none => exact List.forall_mem_singleton.mpr hnm.token
      | some k => exact List.forall_mem_cons.mpr ⟨hnm.token, by simp [Token.Skipped]⟩
    obtain ⟨n₁, hn₁, hleaf⟩ := scanItems_skip htokens hn
    obtain ⟨n₂, hn₂, hrest⟩ := ih (hls.of_skipped hnm) n₁ hn₁
    refine ⟨n₂, hn₂, fun p => ?_⟩
    rw [hleaf, hrest, passNames_skipped hnm]
  · have hpos : 0 < (NetRef.leaf nm i).tokens.length := by
      cases i <;> simp [NetRef.tokens]
    rw [List.length_append, List.length_append, List.length_cons] at hn
    obtain ⟨n, rfl⟩ := Nat.exists_eq_succ_of_ne_zero (by omega : n ≠ 0)
    exact ⟨n, by omega, fun p => scanItems_keyword hnm hls.not_isCell h n p rest⟩

/-- The scan of names up to a semicolon where no instance begins. -/
theorem scanItems_stretch (h : Stretch ts ls) (hls : Quiet ls) {n : ℕ} {rest : List Token}
    (hn : (ts ++ .semi :: rest).length ≤ n) : ∃ n', rest.length ≤ n' ∧
      ∀ p, scanItems n p (ts ++ .semi :: rest) =
        passNames p ls >>= fun p => scanItems n' p rest := by
  induction h generalizing n with
  | nil =>
    have hsemi : ∀ t ∈ [Token.semi], t.Skipped := List.forall_mem_singleton.mpr trivial
    exact scanItems_skip hsemi hn
  | @mark t ts ls ht h ih =>
    have hmark : ∀ t' ∈ [t], t'.Skipped := by
      refine List.forall_mem_singleton.mpr ?_
      cases t with
      | id v => exact ht.elim
      | _ => exact trivial
    obtain ⟨n₁, hn₁, hscan⟩ := scanItems_skip hmark
      (show ([t] ++ (ts ++ .semi :: rest)).length ≤ n from hn)
    obtain ⟨n₂, hn₂, hrest⟩ := ih hls hn₁
    exact ⟨n₂, hn₂, fun p => (hscan p).trans (hrest p)⟩
  | name nm h ih => exact scanItems_leaf h hls (fun hls n hn => ih hls hn) (i := none) hn
  | select nm i h ih =>
    exact scanItems_leaf h hls (fun hls n hn => ih hls hn) (i := some i) hn

end Stretches

/-! ### Instances that the scan passes over -/

/-- The bits of a port. -/
def Port.leaves (p : Port) : List (Name × Option Index) := (p.net.map NetRef.leaves).getD []

/-- The names of an instance behind its cell. -/
def instNames (iname : Name) (ports : List Port) : List (Name × Option Index) :=
  (iname, none) :: ports.flatMap fun p => (p.pin, none) :: p.leaves

mutual

theorem NetRef.stretch (r : NetRef) : Stretch r.tokens r.leaves := by
  match r with
  | .leaf nm none => exact .name nm .nil
  | .leaf nm (some i) => exact .select nm i .nil
  | .concat parts =>
    have h := parts.stretch.append (.mark (t := .rbrace) trivial .nil)
    rw [List.append_nil] at h
    exact .mark trivial h

theorem Parts.stretch (parts : Parts) : Stretch parts.tokens parts.leaves := by
  match parts with
  | .nil => exact .nil
  | .cons part c rest =>
    have h := (part.stretch.append (.comma c)).append rest.stretch
    rwa [List.append_nil] at h

end

theorem Port.stretch (p : Port) : Stretch p.tokens ((p.pin, none) :: p.leaves) := by
  have hnet : Stretch ((p.net.map NetRef.tokens).getD []) p.leaves := by
    rw [Port.leaves]
    cases p.net with
    | none => exact .nil
    | some r => exact r.stretch
  have h := hnet.append (.mark (t := .rparen) trivial (.comma p.comma))
  rw [List.append_nil] at h
  exact .mark trivial (.name p.pin (.mark trivial h))

theorem stretch_inst (iname : Name) (ports : List Port) :
    Stretch (iname.token :: .lparen :: (ports.flatMap Port.tokens ++ [.rparen]))
      (instNames iname ports) := by
  have hports : Stretch (ports.flatMap Port.tokens)
      (ports.flatMap fun p => (p.pin, none) :: p.leaves) := by
    induction ports with
    | nil => exact .nil
    | cons p ports ih => exact p.stretch.append ih
  have h := hports.append (.mark (t := .rparen) trivial .nil)
  rw [List.append_nil] at h
  exact .name iname (.mark trivial h)

/-! ### Statements -/

/-- An instance is read, or else it is passed over and no instance begins among its names. -/
def Item.Orderly : Item → Prop
  | .inst cell iname ports => cell.IsCell ∨ cell.Skipped ∧ Quiet (instNames iname ports)
  | _ => True

/-- What the scan does with a statement. -/
def Item.scan (p : Parsed) : Item → Except Raised Parsed
  | .inst cell iname ports =>
    if cell.IsCell then (Item.inst cell iname ports).read p
    else passNames p (instNames iname ports)
  | it => it.read p

/-- The scan of a statement. -/
theorem scanItems_scan {it : Item} (hit : it.Orderly) {n : ℕ} {ts : List Token}
    (hn : (it.tokens ++ ts).length ≤ n) : ∃ n', ts.length ≤ n' ∧ ∀ p,
      scanItems n p (it.tokens ++ ts) = it.scan p >>= fun p => scanItems n' p ts := by
  cases it with
  | decl kind range nm names =>
    exact scanItems_item (show Item.Sky130 (.decl kind range nm names) from trivial) hn
  | assign lhs rhs => exact scanItems_item (show Item.Sky130 (.assign lhs rhs) from trivial) hn
  | inst cell iname ports =>
    by_cases hcell : cell.IsCell
    · have hsky : (Item.inst cell iname ports).Sky130 := hcell
      obtain ⟨n', hn', hscan⟩ := scanItems_item hsky hn
      refine ⟨n', hn', fun p => ?_⟩
      rw [hscan, Item.scan, if_pos hcell]
    · obtain ⟨hskipped, hquiet⟩ := hit.resolve_left hcell
      have htokens : (Item.inst cell iname ports).tokens ++ ts = [cell.token] ++
          (iname.token :: .lparen :: (ports.flatMap Port.tokens ++ [.rparen]) ++ .semi :: ts) := by
        simp [Item.tokens]
      rw [htokens] at hn ⊢
      obtain ⟨n₁, hn₁, hhead⟩ := scanItems_skip (List.forall_mem_singleton.mpr hskipped.token) hn
      obtain ⟨n₂, hn₂, hnames⟩ := scanItems_stretch (stretch_inst iname ports) hquiet hn₁
      refine ⟨n₂, hn₂, fun p => ?_⟩
      rw [hhead, hnames, Item.scan, if_neg hcell]

/-- The scan does the statements one by one. -/
def OneByOne (its : List Item) : Prop :=
  ∀ (n : ℕ) (ts : List Token), (its.flatMap Item.tokens ++ ts).length ≤ n →
    ∃ n', ts.length ≤ n' ∧ ∀ p, scanItems n p (its.flatMap Item.tokens ++ ts) =
      its.foldlM Item.scan p >>= fun p => scanItems n' p ts

theorem oneByOne_nil : OneByOne [] := fun n _ hn => ⟨n, hn, fun _ => rfl⟩

/-- Behind a statement at which the scan stops it does not come. -/
theorem OneByOne.cons {it : Item} {its : List Item} (hit : it.Orderly)
    (hits : (∀ p, ∃ e, it.scan p = .error e) ∨ OneByOne its) : OneByOne (it :: its) := by
  intro n ts hn
  rw [List.flatMap_cons, List.append_assoc] at hn ⊢
  obtain ⟨n₁, hn₁, hscan⟩ := scanItems_scan hit hn
  rcases hits with hstops | hits
  · rw [List.length_append] at hn₁
    refine ⟨n₁, by omega, fun p => ?_⟩
    obtain ⟨e, he⟩ := hstops p
    rw [hscan, List.foldlM_cons, he]
    rfl
  · obtain ⟨n₂, hn₂, hits⟩ := hits n₁ ts hn₁
    refine ⟨n₂, hn₂, fun p => ?_⟩
    rw [hscan, List.foldlM_cons, bind_assoc]
    exact bind_congr hits

theorem oneByOne_of_orderly {its : List Item} (hits : ∀ it ∈ its, it.Orderly) : OneByOne its := by
  induction its with
  | nil => exact oneByOne_nil
  | cons it its ih =>
    obtain ⟨hit, hits⟩ := List.forall_mem_cons.mp hits
    exact .cons hit (Or.inr (ih hits))

/-! ### What has been read -/

/-- The instances that the scan reads, among those of statements. -/
def cellInsts (its : List Item) : List (Name × Name × List Port) :=
  (instsOf its).filter fun i => i.1.IsCell

theorem assignOf_none_eq_ok {terms : List Net} {as : List (Net × Net)}
    (h : assignOf none terms = .ok as) : as = [] := by
  rw [assignOf.eq_def] at h
  split_ifs at h
  cases h
  rfl

/-- Names that are passed over leave no instance and no assign. -/
theorem passNames_ok {ls : List (Name × Option Index)} {p p' : Parsed}
    (h : passNames p ls = .ok p') : p'.insts = p.insts ∧ p'.assigns = p.assigns := by
  induction ls with
  | nil =>
    cases h
    exact ⟨rfl, rfl⟩
  | cons l ls ih =>
    obtain ⟨nm, index⟩ := l
    rw [passNames] at h
    split_ifs at h with hskipped
    · exact ih h
    · split at h
      · cases h
        exact ⟨rfl, rfl⟩
      · obtain ⟨as, has, h⟩ := bind_eq_ok h
        cases h
        rw [assignOf_none_eq_ok has]
        exact ⟨rfl, List.append_nil _⟩

theorem assignsOf_assign (lhs rhs : NetRef) (its : List Item) :
    assignsOf (.assign lhs rhs :: its) = (lhs, rhs) :: assignsOf its := rfl

theorem instsOf_inst (cell iname : Name) (ports : List Port) (its : List Item) :
    instsOf (.inst cell iname ports :: its) = (cell, iname, ports) :: instsOf its := rfl

/-- Where the scan of the statements returns, it has read all assigns and the instances of its
cells. -/
theorem foldlM_scan_ok {its : List Item} {p p' : Parsed} (h : its.foldlM Item.scan p = .ok p') :
    ∃ as, (assignsOf its).mapM readAssign = .ok as ∧
      p'.insts = p.insts ++ (cellInsts its).map readInst ∧
      p'.assigns = p.assigns ++ as.flatten := by
  induction its generalizing p with
  | nil =>
    cases h
    exact ⟨[], rfl, by simp [cellInsts, instsOf], by simp⟩
  | cons it its ih =>
    rw [List.foldlM_cons] at h
    obtain ⟨p₁, hit, h⟩ := bind_eq_ok h
    obtain ⟨as, has, hinsts, hassigns⟩ := ih h
    cases it with
    | decl kind range nm names =>
      cases hit
      exact ⟨as, has, hinsts, hassigns⟩
    | assign lhs rhs =>
      obtain ⟨a, ha, hit⟩ := bind_eq_ok hit
      cases hit
      refine ⟨a :: as, ?_, hinsts, ?_⟩
      · rw [assignsOf_assign, List.mapM_cons, ha, has]
        rfl
      · rw [hassigns, List.flatten_cons, List.append_assoc]
    | inst cell iname ports =>
      have hcons : cellInsts (.inst cell iname ports :: its) =
          if cell.IsCell then (cell, iname, ports) :: cellInsts its else cellInsts its := by
        rw [cellInsts, instsOf_inst, List.filter_cons]
        simp only [decide_eq_true_iff]
        rfl
      rw [Item.scan] at hit
      rw [hcons]
      split_ifs at hit ⊢ with hcell
      · cases hit
        refine ⟨as, has, ?_, hassigns⟩
        rw [hinsts, List.append_assoc]
        rfl
      · obtain ⟨hpinsts, hpassigns⟩ := passNames_ok hit
        exact ⟨as, has, by rw [hinsts, hpinsts], by rw [hassigns, hpassigns]⟩

end Saltworks.Sim
