import Saltworks.Importer.TopModule

/-!
# The scan against the strict parser

The strict parser keeps every bit of a net reference. The scan of the importer keeps the first bit
on either side of an assign, without the bit select of an escaped name, and the last bit of a
connection, and it refuses an assign with several terms on its right. It passes over instances
with an escaped cell. So on a text that the strict parser accepts the scan refuses, or reads what
the strict parser reads, exactly where no statement has more bits in a place than the scan keeps
and no cell is escaped.

## Main definitions

* `bitText`, `bitsOn`, `assignPairs`: the bits that the strict parser reads.
* `SameReading`, `Agrees`: the scan reads the same, or else refuses.
* `Readable`, `Refused`: the netlists that the scan can read and those that it refuses.
* `Unopened`: the netlists in which no name is taken for a cell.

## Main results

* `agrees_iff`: where the scan agrees with the strict parser.
-/

namespace Saltworks.Sim

open Importer Fallible

/-! ### The bits of a netlist -/

/-- A name with its bit select, by the value of the index. -/
def bitText : Name × Option Index → Net
  | (nm, none) => nm.text
  | (nm, some i) => selectText nm.text (toString i.value)

/-- The bits on a pin, of all ports that name the pin. -/
def leavesOn (ports : List Port) (pin : Pin) : List (Name × Option Index) :=
  (ports.filter fun p => p.pin.text = pin).flatMap Port.leaves

/-- The names of the bits on a pin. -/
def bitsOn (ports : List Port) (pin : Pin) : List Net := (leavesOn ports pin).map bitText

/-- The assigns of bits that an assign of net references stands for. -/
def assignPairs (a : NetRef × NetRef) : List (Net × Net) :=
  (a.1.leaves.map bitText).zip (a.2.leaves.map bitText)

/-- An instance is read with its cell, its name and the bits on each of its pins. -/
structure SameInst (i : Name × Name × List Port) (inst : Inst) : Prop where
  cell : inst.cell = shortCell i.1.text
  iname : inst.iname = i.2.1.text
  conns : ∀ pin, bitsOn i.2.2 pin = (inst.conns.get? pin).toList

/-- The instances and the assigns of bits are those of the module. -/
structure SameReading (m : Module) (p : Parsed) : Prop where
  insts : List.Forall₂ SameInst m.insts p.insts
  widths : ∀ a ∈ m.assigns, a.1.leaves.length = a.2.leaves.length
  assigns : p.assigns = m.assigns.flatMap assignPairs

/-- The result is a refusal, or else the reading of the module. -/
def Agrees (m : Module) (result : Except Raised Parsed) : Prop :=
  (∃ message, result = .error (.systemExit message)) ∨ ∃ p, result = .ok p ∧ SameReading m p

/-! ### What the scan can read -/

/-- An index is spelled as its value is printed. -/
def Canonical : Name × Option Index → Prop
  | (_, none) => True
  | (_, some i) => i.text = toString i.value

/-- A term that an assign reads: a name that is not empty, or a bit select of a name that is not
escaped. -/
def PlainTerm : Name × Option Index → Prop
  | (nm, none) => nm.text ≠ ""
  | (nm, some i) => nm.escaped = false ∧ i.text = toString i.value

/-- An instance with at most one bit on each pin. -/
def ReadableInst (i : Name × Name × List Port) : Prop :=
  ∀ pin, (leavesOn i.2.2 pin).length ≤ 1 ∧ ∀ l ∈ leavesOn i.2.2 pin, Canonical l

/-- An assign of one bit to one bit. -/
def ReadableAssign (a : NetRef × NetRef) : Prop :=
  ∃ l r, a.1.leaves = [l] ∧ a.2.leaves = [r] ∧ PlainTerm l ∧ PlainTerm r

/-- Every cell is one to the scan, and every statement has one bit wherever the scan keeps one. -/
structure Readable (m : Module) : Prop where
  cells : ∀ i ∈ m.insts, i.1.IsCell
  insts : ∀ i ∈ m.insts, ReadableInst i
  assigns : ∀ a ∈ m.assigns, ReadableAssign a

/-- The scan stops at the assign. -/
def Stops (a : NetRef × NetRef) : Prop := a.1.leaves = [] ∨ 1 < a.2.leaves.length

instance : DecidablePred Stops := fun a => decidable_of_iff
  (a.1.leaves.length = 0 ∨ 1 < a.2.leaves.length) (by rw [Stops, List.length_eq_zero_iff])

/-- The scan stops at names that it passes over: the first that it does not skip is the keyword of
an assign, and more than one name follows. -/
def PassStops : List (Name × Option Index) → Prop
  | [] => False
  | l :: ls => if l.1.Skipped then PassStops ls else declKindOf l.1.text = none ∧ 1 < ls.length

instance decidablePassStops : DecidablePred PassStops
  | [] => inferInstanceAs (Decidable False)
  | l :: ls =>
    have := decidablePassStops ls
    inferInstanceAs (Decidable (if l.1.Skipped then PassStops ls else _))

/-- The scan stops at the statement. -/
def Item.Stops : Item → Prop
  | .decl _ _ _ _ => False
  | .assign lhs rhs => Sim.Stops (lhs, rhs)
  | .inst cell iname ports => ¬ cell.IsCell ∧ PassStops (instNames iname ports)

instance : DecidablePred Item.Stops
  | .decl _ _ _ _ => inferInstanceAs (Decidable False)
  | .assign lhs rhs => inferInstanceAs (Decidable (Sim.Stops (lhs, rhs)))
  | .inst _ iname ports => inferInstanceAs (Decidable (_ ∧ PassStops (instNames iname ports)))

/-- An instance begins among the names of an instance that is passed over. -/
def Item.Opens : Item → Prop
  | .inst cell iname ports => ¬ cell.IsCell ∧ ¬ Quiet (instNames iname ports)
  | _ => False

instance : DecidablePred Item.Opens
  | .decl _ _ _ _ | .assign _ _ => inferInstanceAs (Decidable False)
  | .inst _ iname ports => inferInstanceAs (Decidable (_ ∧ ¬ Quiet (instNames iname ports)))

/-- No instance begins in the header, nor, before the scan stops, among the names of an instance
that is passed over. -/
structure Unopened (m : Module) : Prop where
  head : Quiet m.headNames
  items : PassStops m.headNames ∨
    ∀ it ∈ m.items.find? (fun it => it.Stops ∨ it.Opens), ¬ it.Opens

/-- A statement at which the scan stops is refused, unless it is an assign with no term on its
left. -/
def Item.Refusing : Item → Prop
  | .assign lhs _ => lhs.leaves ≠ []
  | _ => True

/-- The scan refuses the header, or it refuses the first statement at which it stops. -/
def Refused (m : Module) : Prop :=
  PassStops m.headNames ∨ ∃ it, m.items.find? (fun it => it.Stops) = some it ∧ it.Refusing

/-! ### Names of bits -/

theorem selectText_injective (base : String) : Function.Injective (selectText base) := by
  intro i j h
  rw [selectText, selectText, String.append_left_inj, String.append_right_inj] at h
  exact h

theorem length_selectText (base index : String) :
    (selectText base index).length = base.length + 1 + index.length + 1 := by
  rw [selectText, String.length_append, String.length_append, String.length_append]
  rfl

theorem text_ne_selectText (base index : String) : base ≠ selectText base index := by
  intro h
  have hlength := congrArg String.length h
  rw [length_selectText] at hlength
  omega

theorem selectText_ne_empty (base index : String) : selectText base index ≠ "" := by
  intro h
  have hlength := congrArg String.length h
  rw [length_selectText, String.length_empty] at hlength
  omega

theorem pinText_eq_bitText_iff {l : Name × Option Index} : pinText l = bitText l ↔ Canonical l := by
  obtain ⟨nm, _ | i⟩ := l
  · exact iff_of_true rfl trivial
  · exact (selectText_injective nm.text).eq_iff

theorem assignText_eq_bitText_iff {l : Name × Option Index} :
    (assignText l = bitText l ∧ assignText l ≠ "") ↔ PlainTerm l := by
  obtain ⟨⟨escaped, text⟩, _ | i⟩ := l
  · exact and_iff_right rfl
  · cases escaped with
    | true => exact iff_of_false (fun h => text_ne_selectText _ _ h.1) fun h => nomatch h.1
    | false =>
      have hinj : selectText text i.text = selectText text (toString i.value) ↔ _ :=
        (selectText_injective text).eq_iff
      constructor
      · intro h
        exact ⟨rfl, hinj.mp h.1⟩
      · intro h
        exact ⟨hinj.mpr h.2, selectText_ne_empty _ _⟩

/-! ### Instances -/

/-- A list is the last member of another, if any, where it has no two members. -/
theorem map_eq_getLast?_toList {α β : Type} {f g : α → β} {as : List α} :
    as.map f = (as.map g).getLast?.toList ↔ as.length ≤ 1 ∧ ∀ a ∈ as, g a = f a := by
  rcases as with _ | ⟨a, _ | ⟨a', as⟩⟩
  · simp
  · simp [eq_comm]
  · constructor
    · intro h
      have hlength := congrArg List.length h
      have hle : ((a :: a' :: as).map g).getLast?.toList.length ≤ 1 := by
        cases ((a :: a' :: as).map g).getLast? <;> simp
      rw [List.length_map, List.length_cons, List.length_cons] at hlength
      omega
    · rintro ⟨hlength, -⟩
      rw [List.length_cons, List.length_cons] at hlength
      omega

theorem Port.net?_eq (p : Port) : p.net? = (p.leaves.map pinText).getLast? := by
  rw [Port.net?, Port.leaves]
  cases p.net <;> rfl

theorem get?_connect (conns : Dict Pin Net) (pin pin' : Pin) (net : Option Net) :
    (connect conns pin net).get? pin' =
      if pin' = pin then net.or (conns.get? pin') else conns.get? pin' := by
  cases net with
  | none => simp [connect]
  | some nm => rw [connect, Dict.get?_set, Option.some_or]

theorem leavesOn_cons (p : Port) (ports : List Port) (pin : Pin) :
    leavesOn (p :: ports) pin =
      if p.pin.text = pin then p.leaves ++ leavesOn ports pin else leavesOn ports pin := by
  rw [leavesOn, List.filter_cons]
  simp only [decide_eq_true_iff]
  split_ifs
  · exact List.flatMap_cons
  · rfl

/-- The scan leaves the last bit of all ports of a pin. -/
theorem get?_foldl_read (ports : List Port) (conns : Dict Pin Net) (pin : Pin) :
    (ports.foldl Port.read conns).get? pin =
      ((leavesOn ports pin).map pinText).getLast?.or (conns.get? pin) := by
  induction ports generalizing conns with
  | nil => rfl
  | cons p ports ih =>
    rw [List.foldl_cons, ih, Port.read, get?_connect, leavesOn_cons]
    by_cases hpin : p.pin.text = pin
    · rw [if_pos hpin, if_pos hpin.symm, List.map_append, List.getLast?_append, ← Port.net?_eq,
        Option.or_assoc]
    · rw [if_neg hpin, if_neg fun h => hpin h.symm]

theorem sameInst_iff {i : Name × Name × List Port} : SameInst i (readInst i) ↔ ReadableInst i := by
  have hconns (pin : Pin) : ((readInst i).conns.get? pin).toList =
      ((leavesOn i.2.2 pin).map pinText).getLast?.toList := by
    rw [readInst, get?_foldl_read, Dict.get?_empty, Option.or_none]
  have hpin (pin : Pin) : bitsOn i.2.2 pin = ((readInst i).conns.get? pin).toList ↔
      (leavesOn i.2.2 pin).length ≤ 1 ∧ ∀ l ∈ leavesOn i.2.2 pin, Canonical l := by
    rw [hconns, bitsOn, map_eq_getLast?_toList]
    simp only [pinText_eq_bitText_iff]
  constructor
  · intro h pin
    exact (hpin pin).mp (h.conns pin)
  · intro h
    exact ⟨rfl, rfl, fun pin => (hpin pin).mpr (h pin)⟩

/-! ### Assigns -/

/-- What the scan makes of an assign at which it does not stop. -/
def keptPairs (a : NetRef × NetRef) : List (Net × Net) :=
  match (a.1.leaves.map assignText).head?, (a.2.leaves.map assignText).head? with
  | some l, some r => if l ≠ "" ∧ r ≠ "" then [(l, r)] else []
  | _, _ => []

/-- The exception at an assign at which the scan stops. -/
def stopError (a : NetRef × NetRef) : Raised :=
  if a.1.leaves = [] then .indexError else termsRefusal (a.2.leaves.map assignText)

theorem readAssign_of_not_stops {a : NetRef × NetRef} (h : ¬ Stops a) :
    readAssign a = .ok (keptPairs a) := by
  obtain ⟨hleft, hright⟩ := not_or.mp h
  rw [readAssign, keptPairs]
  cases hl : a.1.leaves with
  | nil => exact absurd hl hleft
  | cons l ls =>
    rw [List.map_cons, List.head?_cons]
    simp only
    rw [assignOf.eq_def, List.length_map, if_neg hright]
    cases (a.2.leaves.map assignText).head? <;> rfl

theorem readAssign_of_stops {a : NetRef × NetRef} (h : Stops a) :
    readAssign a = .error (stopError a) := by
  rw [readAssign, stopError]
  cases hl : a.1.leaves with
  | nil => rfl
  | cons l ls =>
    have hright : 1 < a.2.leaves.length :=
      h.resolve_left (hl ▸ List.cons_ne_nil l ls)
    rw [List.map_cons, if_neg (List.cons_ne_nil l ls)]
    simp only
    rw [assignOf.eq_def, List.length_map, if_pos hright]

theorem mapM_readAssign {as : List (NetRef × NetRef)} (h : ∀ a ∈ as, ¬ Stops a) :
    as.mapM readAssign = .ok (as.map keptPairs) := by
  induction as with
  | nil => rfl
  | cons a as ih =>
    obtain ⟨ha, has⟩ := List.forall_mem_cons.mp h
    rw [List.mapM_cons, readAssign_of_not_stops ha, ih has]
    rfl

theorem length_keptPairs_le (a : NetRef × NetRef) : (keptPairs a).length ≤ 1 := by
  rw [keptPairs]
  split
  · split_ifs <;> simp
  · simp

/-- An assign of one term to one term is read as it is where both terms are plain. -/
theorem keptPairs_eq_iff {a : NetRef × NetRef} {l r : Name × Option Index} (hl : a.1.leaves = [l])
    (hr : a.2.leaves = [r]) : keptPairs a = assignPairs a ↔ PlainTerm l ∧ PlainTerm r := by
  rw [keptPairs, assignPairs, hl, hr, ← assignText_eq_bitText_iff, ← assignText_eq_bitText_iff]
  simp only [List.map_cons, List.map_nil, List.head?_cons, List.zip_cons_cons, List.zip_nil_right]
  split_ifs with hne
  · simp [hne]
  · constructor
    · intro h
      cases h
    · rintro ⟨⟨-, hlne⟩, -, hrne⟩
      exact absurd ⟨hlne, hrne⟩ hne

theorem length_flatMap_le {α β : Type} {f g : α → List β} {as : List α}
    (h : ∀ a ∈ as, (f a).length ≤ (g a).length) :
    (as.flatMap f).length ≤ (as.flatMap g).length := by
  induction as with
  | nil => exact le_rfl
  | cons a as ih =>
    obtain ⟨ha, has⟩ := List.forall_mem_cons.mp h
    rw [List.flatMap_cons, List.flatMap_cons, List.length_append, List.length_append]
    exact Nat.add_le_add ha (ih has)

/-- Where no list of one family is longer than that of another, equal concatenations come from
equal lists. -/
theorem flatMap_eq_iff {α β : Type} {f g : α → List β} {as : List α}
    (hle : ∀ a ∈ as, (f a).length ≤ (g a).length) :
    as.flatMap f = as.flatMap g ↔ ∀ a ∈ as, f a = g a := by
  constructor
  · intro h
    induction as with
    | nil => exact nofun
    | cons a as ih =>
      obtain ⟨ha, has⟩ := List.forall_mem_cons.mp hle
      have hrest := length_flatMap_le has
      have hsum := congrArg List.length h
      rw [List.flatMap_cons, List.flatMap_cons, List.length_append, List.length_append] at hsum
      have hlength : (f a).length = (g a).length := by omega
      obtain ⟨hhead, htail⟩ := List.append_inj h hlength
      exact List.forall_mem_cons.mpr ⟨hhead, ih has htail⟩
  · exact List.flatMap_congr

/-- The assigns that the scan keeps are those of the netlist where each is of one plain term to
one plain term. -/
theorem sameAssigns_iff {as : List (NetRef × NetRef)} (has : ∀ a ∈ as, ¬ Stops a) :
    ((∀ a ∈ as, a.1.leaves.length = a.2.leaves.length) ∧
      as.flatMap keptPairs = as.flatMap assignPairs) ↔ ∀ a ∈ as, ReadableAssign a := by
  have hone {a : NetRef × NetRef} (ha : ¬ Stops a)
      (hwidth : a.1.leaves.length = a.2.leaves.length) :
      ∃ l r, a.1.leaves = [l] ∧ a.2.leaves = [r] := by
    obtain ⟨hleft, hright⟩ := not_or.mp ha
    have hpos : 0 < a.1.leaves.length := List.length_pos_iff.mpr hleft
    obtain ⟨l, hl⟩ := List.length_eq_one_iff.mp (by omega : a.1.leaves.length = 1)
    obtain ⟨r, hr⟩ := List.length_eq_one_iff.mp (by omega : a.2.leaves.length = 1)
    exact ⟨l, r, hl, hr⟩
  constructor
  · rintro ⟨hwidth, heq⟩ a ha
    have hle : ∀ a ∈ as, (keptPairs a).length ≤ (assignPairs a).length := by
      intro a ha
      obtain ⟨l, r, hl, hr⟩ := hone (has a ha) (hwidth a ha)
      have hpairs : (assignPairs a).length = 1 := by rw [assignPairs, hl, hr]; rfl
      rw [hpairs]
      exact length_keptPairs_le a
    obtain ⟨l, r, hl, hr⟩ := hone (has a ha) (hwidth a ha)
    exact ⟨l, r, hl, hr, (keptPairs_eq_iff hl hr).mp ((flatMap_eq_iff hle).mp heq a ha)⟩
  · intro h
    refine ⟨fun a ha => ?_, List.flatMap_congr fun a ha => ?_⟩
    · obtain ⟨l, r, hl, hr, -⟩ := h a ha
      rw [hl, hr]
      rfl
    · obtain ⟨l, r, hl, hr, hplain⟩ := h a ha
      exact (keptPairs_eq_iff hl hr).mpr hplain

/-! ### The whole netlist -/

/-- Names at which the scan stops are refused. -/
theorem passNames_of_stops {ls : List (Name × Option Index)} (h : PassStops ls) (p : Parsed) :
    ∃ message, passNames p ls = .error (.systemExit message) := by
  induction ls with
  | nil => exact h.elim
  | cons l ls ih =>
    rw [PassStops] at h
    rw [passNames]
    split_ifs at h ⊢ with hskipped
    · exact ih h
    · obtain ⟨hkind, hlength⟩ := h
      rw [hkind, assignOf.eq_def, List.length_map]
      simp only [if_pos hlength]
      exact ⟨_, rfl⟩

theorem passNames_of_not_stops {ls : List (Name × Option Index)} (h : ¬ PassStops ls)
    (p : Parsed) : ∃ p', passNames p ls = .ok p' := by
  induction ls with
  | nil => exact ⟨p, rfl⟩
  | cons l ls ih =>
    rw [PassStops] at h
    rw [passNames]
    split_ifs at h ⊢ with hskipped
    · exact ih h
    · cases hkind : declKindOf l.1.text with
      | some kind => exact ⟨_, rfl⟩
      | none =>
        have hlength : ¬ 1 < ls.length := fun hlength => h ⟨hkind, hlength⟩
        rw [assignOf.eq_def, List.length_map]
        simp only [if_neg hlength]
        exact ⟨_, rfl⟩

theorem Item.scan_of_not_stops {it : Item} (h : ¬ it.Stops) (p : Parsed) :
    ∃ p', it.scan p = .ok p' := by
  cases it with
  | decl kind range nm names => exact ⟨_, rfl⟩
  | assign lhs rhs =>
    have hread : readAssign (lhs, rhs) = .ok _ := readAssign_of_not_stops h
    have hscan : (Item.assign lhs rhs).scan p = (Item.assign lhs rhs).read p := rfl
    rw [hscan, Item.read, hread]
    exact ⟨_, rfl⟩
  | inst cell iname ports =>
    rw [Item.scan]
    split_ifs with hcell
    · exact ⟨_, rfl⟩
    · exact passNames_of_not_stops (fun hstops => h ⟨hcell, hstops⟩) p

/-- Where the scan stops at a statement, it refuses it unless it is an assign with no term on its
left. -/
theorem Item.scan_of_stops {it : Item} (h : it.Stops) (p : Parsed) :
    ∃ e, it.scan p = .error e ∧ ((∃ message, e = .systemExit message) ↔ it.Refusing) := by
  cases it with
  | decl kind range nm names => exact h.elim
  | assign lhs rhs =>
    have hread : readAssign (lhs, rhs) = .error (stopError (lhs, rhs)) := readAssign_of_stops h
    refine ⟨stopError (lhs, rhs), ?_, ?_⟩
    · have hscan : (Item.assign lhs rhs).scan p = (Item.assign lhs rhs).read p := rfl
      rw [hscan, Item.read, hread]
      rfl
    · rw [stopError, Item.Refusing]
      split_ifs with hnil
      · exact iff_of_false (by simp) fun hne => hne hnil
      · exact iff_of_true ⟨_, rfl⟩ hnil
  | inst cell iname ports =>
    obtain ⟨message, hpass⟩ := passNames_of_stops h.2 p
    refine ⟨_, ?_, iff_of_true ⟨message, rfl⟩ trivial⟩
    rw [Item.scan, if_neg h.1, hpass]

/-- The scan of statements raises at the first statement at which it stops. -/
theorem foldlM_scan_find? (its : List Item) (p : Parsed) :
    match its.find? (fun it => it.Stops) with
    | some it => ∃ e, its.foldlM Item.scan p = .error e ∧
        ((∃ message, e = .systemExit message) ↔ it.Refusing)
    | none => ∃ p', its.foldlM Item.scan p = .ok p' := by
  induction its generalizing p with
  | nil => exact ⟨p, rfl⟩
  | cons it its ih =>
    rw [List.find?_cons, List.foldlM_cons]
    by_cases hit : it.Stops
    · obtain ⟨e, he, hrefusing⟩ := Item.scan_of_stops hit p
      simp only [hit, decide_true]
      exact ⟨e, by rw [he]; rfl, hrefusing⟩
    · obtain ⟨p', hp'⟩ := Item.scan_of_not_stops hit p
      simp only [hit, decide_false]
      rw [hp']
      exact ih p'

/-- The instances that the scan reads are those of the netlist where all its cells are cells to the
scan and no pin has more than one bit. -/
theorem sameInsts_iff (is : List (Name × Name × List Port)) :
    List.Forall₂ SameInst is ((is.filter fun i => i.1.IsCell).map readInst) ↔
      (∀ i ∈ is, i.1.IsCell) ∧ ∀ i ∈ is, ReadableInst i := by
  have hall (hcells : ∀ i ∈ is, i.1.IsCell) : is.filter (fun i => i.1.IsCell) = is :=
    List.filter_eq_self.mpr (by simpa using hcells)
  have hread : List.Forall₂ SameInst is (is.map readInst) ↔ ∀ i ∈ is, ReadableInst i := by
    rw [List.forall₂_map_right_iff, List.forall₂_same]
    simp only [sameInst_iff]
  constructor
  · intro h
    have hlength := h.length_eq
    rw [List.length_map] at hlength
    have hcells : ∀ i ∈ is, i.1.IsCell := by
      simpa using List.length_filter_eq_length_iff.mp hlength.symm
    rw [hall hcells] at h
    exact ⟨hcells, hread.mp h⟩
  · rintro ⟨hcells, hinsts⟩
    rw [hall hcells]
    exact hread.mpr hinsts

theorem not_stops_of_find? {m : Module} (h : m.items.find? (fun it => it.Stops) = none) :
    ∀ a ∈ m.assigns, ¬ Stops a := by
  intro a ha hstops
  obtain ⟨it, hit, hassign⟩ := List.mem_filterMap.mp ha
  have hnot : ¬ it.Stops := by simpa using List.find?_eq_none.mp h it hit
  cases it with
  | assign lhs rhs =>
    cases hassign
    exact hnot hstops
  | _ => cases hassign

theorem sameReading_iff {m : Module} (hm : ∀ a ∈ m.assigns, ¬ Stops a) {p : Parsed}
    (hinsts : p.insts = (cellInsts m.items).map readInst)
    (hassigns : p.assigns = m.assigns.flatMap keptPairs) : SameReading m p ↔ Readable m := by
  have hsame : List.Forall₂ SameInst m.insts p.insts ↔
      (∀ i ∈ m.insts, i.1.IsCell) ∧ ∀ i ∈ m.insts, ReadableInst i := by
    rw [hinsts]
    exact sameInsts_iff m.insts
  constructor
  · rintro ⟨hi, hwidths, ha⟩
    exact ⟨(hsame.mp hi).1, (hsame.mp hi).2,
      (sameAssigns_iff hm).mp ⟨hwidths, hassigns.symm.trans ha⟩⟩
  · rintro ⟨hcells, hi, ha⟩
    obtain ⟨hwidths, hpairs⟩ := (sameAssigns_iff hm).mpr ha
    exact ⟨hsame.mpr ⟨hcells, hi⟩, hwidths, hassigns.trans hpairs⟩

/-- A netlist that the scan can read has no statement at which it stops. -/
theorem Readable.find? {m : Module} (h : Readable m) :
    m.items.find? (fun it => it.Stops) = none := by
  rw [List.find?_eq_none]
  intro it hit
  rw [decide_eq_true_iff]
  cases it with
  | decl kind range nm names => exact id
  | assign lhs rhs =>
    have hmem : (lhs, rhs) ∈ m.assigns := List.mem_filterMap.mpr ⟨_, hit, rfl⟩
    obtain ⟨l, r, hl, hr, -⟩ := h.assigns _ hmem
    rintro (hnil | hright)
    · rw [hl] at hnil
      cases hnil
    · rw [hr, List.length_singleton] at hright
      omega
  | inst cell iname ports =>
    have hmem : (cell, iname, ports) ∈ m.insts := List.mem_filterMap.mpr ⟨_, hit, rfl⟩
    exact fun hstops => hstops.1 (h.cells _ hmem)

/-- The scan of a module agrees with the strict parser where it refuses it or can read it. -/
theorem agrees_scan_iff (m : Module) :
    Agrees m (m.scan ⟨[], [], [], .empty⟩) ↔ Refused m ∨ Readable m := by
  by_cases hhead : PassStops m.headNames
  · obtain ⟨message, hpass⟩ := passNames_of_stops hhead ⟨[], [], [], .empty⟩
    rw [Module.scan, hpass]
    exact iff_of_true (Or.inl ⟨message, rfl⟩) (Or.inl (Or.inl hhead))
  obtain ⟨p, hpass⟩ := passNames_of_not_stops hhead ⟨[], [], [], .empty⟩
  obtain ⟨hpinsts, hpassigns⟩ := passNames_ok hpass
  have hscan : m.scan ⟨[], [], [], .empty⟩ = m.items.foldlM Item.scan p := by
    rw [Module.scan, hpass]
    rfl
  have hitems := foldlM_scan_find? m.items p
  rw [hscan, Agrees, Refused, or_iff_right hhead]
  cases hfind : m.items.find? (fun it => it.Stops) with
  | some it =>
    rw [hfind] at hitems
    obtain ⟨e, he, hrefusing⟩ := hitems
    have hread : ¬ Readable m := by
      intro h
      rw [h.find?] at hfind
      cases hfind
    rw [he, or_iff_left hread]
    simp [hrefusing]
  | none =>
    rw [hfind] at hitems
    obtain ⟨p', hp'⟩ := hitems
    have hstops := not_stops_of_find? hfind
    obtain ⟨as, has, hinsts, hassigns⟩ := foldlM_scan_ok hp'
    have hkept : as = m.assigns.map keptPairs :=
      Except.ok.inj (has.symm.trans (mapM_readAssign hstops))
    rw [hpinsts, List.nil_append] at hinsts
    rw [hpassigns, List.nil_append, hkept, ← List.flatMap_def] at hassigns
    rw [hp', ← sameReading_iff hstops hinsts hassigns]
    simp

/-- On a text that the strict parser accepts the importer scans the module. -/
theorem parse_eq_scan {cls : CharClass} {depth : ℕ} {src : String} {m : Module}
    (h : Sim.parse cls depth src = .ok m) (hhead : Quiet m.headNames)
    (hitems : PassStops m.headNames ∨ OneByOne m.items) :
    Importer.parse cls src = m.scan ⟨[], [], [], .empty⟩ := by
  rw [Importer.parse, parse_tokens h]
  change scanItems m.tokens.length _ m.tokens = _
  rcases hitems with hstops | hitems
  · obtain ⟨message, hpass⟩ := passNames_of_stops hstops ⟨[], [], [], .empty⟩
    have htokens : m.tokens =
        m.headTokens ++ (m.items.flatMap Item.tokens ++ [Token.id "endmodule"]) := by
      simp [Module.tokens, Module.headTokens]
    obtain ⟨n', -, hscan⟩ := scanItems_head hhead (congrArg List.length htokens).ge
    rw [← htokens] at hscan
    rw [hscan, Module.scan, hpass]
    rfl
  · obtain ⟨n', -, hscan⟩ := scanItems_module hhead hitems (n := (m.tokens ++ []).length) le_rfl
    have hnil (p : Parsed) : scanItems n' p [] = .ok p := by cases n' <;> rfl
    simp only [hnil, List.append_nil] at hscan
    exact (hscan _).trans (bind_pure _)

/-- Where no instance begins among names before the scan stops, it does the statements one by
one. -/
theorem oneByOne_of_find? {its : List Item} (hcells : ∀ i ∈ instsOf its, isSky130 i.1.text)
    (hits : ∀ it ∈ its.find? (fun it => it.Stops ∨ it.Opens), ¬ it.Opens) : OneByOne its := by
  induction its with
  | nil => exact oneByOne_nil
  | cons it its ih =>
    have hrest : ∀ i ∈ instsOf its, isSky130 i.1.text := fun i hi =>
      hcells i (List.filterMap_subset _ (List.subset_cons_self it its) hi)
    have horderly (hit : ¬ it.Opens) : it.Orderly := by
      cases it with
      | inst cell iname ports =>
        by_cases hcell : cell.IsCell
        · exact Or.inl hcell
        · refine Or.inr ⟨Or.inl ?_, not_not.mp fun hquiet => hit ⟨hcell, hquiet⟩⟩
          rw [← Bool.not_eq_false]
          exact fun hescaped => hcell ⟨hescaped, hcells (cell, iname, ports) List.mem_cons_self⟩
      | _ => exact trivial
    rw [List.find?_cons] at hits
    by_cases hstops : it.Stops
    · have hit : ¬ it.Opens := hits it (by simp [hstops])
      refine .cons (horderly hit) (Or.inl fun p => ?_)
      obtain ⟨e, he, -⟩ := Item.scan_of_stops hstops p
      exact ⟨e, he⟩
    · by_cases hopens : it.Opens
      · exact absurd hopens (hits it (by simp [hopens]))
      · simp only [hstops, hopens, or_self, decide_false] at hits
        exact .cons (horderly hopens) (Or.inr (ih hrest hits))

theorem Unopened.parse_eq_scan {m : Module} (hopen : Unopened m)
    (hcells : ∀ i ∈ m.insts, isSky130 i.1.text) {cls : CharClass} {depth : ℕ} {src : String}
    (h : Sim.parse cls depth src = .ok m) :
    Importer.parse cls src = m.scan ⟨[], [], [], .empty⟩ :=
  Sim.parse_eq_scan h hopen.head (hopen.items.imp_right (oneByOne_of_find? hcells))

/-- On a text that the strict parser accepts, with cells of the process library and where no
instance begins in the header or, before the scan stops, within another instance, the importer
agrees with the strict parser exactly where it refuses a statement or every statement has one bit
wherever the scan keeps one and no cell is escaped. -/
theorem agrees_iff {cls : CharClass} {depth : ℕ} {src : String} {m : Module}
    (h : Sim.parse cls depth src = .ok m) (hcells : ∀ i ∈ m.insts, isSky130 i.1.text)
    (hopen : Unopened m) : Agrees m (Importer.parse cls src) ↔ Refused m ∨ Readable m := by
  rw [hopen.parse_eq_scan hcells h]
  exact agrees_scan_iff m

/-! ### Texts that the strict parser accepts -/

theorem parse_inverterText : Sim.parse .ascii 20 inverterText = .ok inverter := by
  have hsrc : tokenize .ascii inverterText = .ok inverter.tokens := tokenize_inverterText
  rw [Sim.parse, hsrc]
  rfl

theorem readable_inverter : Readable inverter where
  cells := by decide
  insts := by
    refine List.forall_mem_singleton.mpr fun pin => ?_
    by_cases hA : "A" = pin
    · subst hA
      exact ⟨by decide, List.forall_mem_singleton.mpr trivial⟩
    · by_cases hY : "Y" = pin
      · subst hY
        exact ⟨by decide, List.forall_mem_singleton.mpr trivial⟩
      · simp [leavesOn, plainName, hA, hY]
  assigns := nofun

/-- Where every cell is one to the scan, an instance can only begin in the header. -/
theorem unopened_of_cells {m : Module} (hhead : Quiet m.headNames)
    (hcells : ∀ i ∈ m.insts, i.1.IsCell) : Unopened m where
  head := hhead
  items := by
    refine Or.inr fun it hit hopens => ?_
    cases it with
    | inst cell iname ports =>
      have hmem : (cell, iname, ports) ∈ m.insts :=
        List.mem_filterMap.mpr ⟨_, List.mem_of_find?_eq_some hit, rfl⟩
      exact hopens.1 (hcells _ hmem)
    | _ => exact hopens

theorem agrees_iff_inverter : Agrees inverter (Importer.parse .ascii inverterText) :=
  (agrees_iff parse_inverterText (by decide)
    (unopened_of_cells (by decide) readable_inverter.cells)).mpr (Or.inr readable_inverter)

/-- A concatenation on the left of an assign, a bit of an escaped vector on the left of an assign
and a concatenation on a pin. -/
def narrowed : Module where
  top := plainName "t"
  header := [(plainName "y", false)]
  items := [
    .assign (.concat (.cons (.leaf (plainName "y") none) true
      (.cons (.leaf (plainName "z") none) false .nil))) (.leaf (plainName "a") none),
    .assign (.leaf ⟨true, "r"⟩ (some ⟨"0", 0, by decide⟩)) (.leaf (plainName "a") none),
    .inst (plainName "sky130_fd_sc_hd__inv_1") (plainName "g") [
      ⟨plainName "A", some (.concat (.cons (.leaf (plainName "a") none) true
        (.cons (.leaf (plainName "b") none) false .nil))), true⟩,
      ⟨plainName "Y", some (.leaf (plainName "w") none), false⟩]]

def narrowedText : String :=
  "module t(y); assign \x7by, z\x7d = a; assign \\r [0] = a; " ++
    "sky130_fd_sc_hd__inv_1 g (.A(\x7ba, b\x7d), .Y(w)); endmodule"

theorem parse_narrowedText : Sim.parse .ascii 20 narrowedText = .ok narrowed := by
  have hsrc : tokenize .ascii narrowedText = .ok narrowed.tokens := by decide
  rw [Sim.parse, hsrc]
  rfl

/-- The importer reads narrowed connections and assigns without a refusal: `y` of the two nets
that are assigned, `r` for a bit of `r`, and `b` of the two nets on the pin. -/
theorem not_agrees : ¬ ∀ (cls : CharClass) (depth : ℕ) (src : String) (m : Module),
    Sim.parse cls depth src = .ok m → (∀ i ∈ m.insts, isSky130 i.1.text) →
    Agrees m (Importer.parse cls src) := by
  intro h
  have hopen : Unopened narrowed := unopened_of_cells (by decide) (by decide)
  have hcells : ∀ i ∈ narrowed.insts, isSky130 i.1.text := by decide
  have hagrees := h .ascii 20 narrowedText narrowed parse_narrowedText hcells
  rw [hopen.parse_eq_scan hcells parse_narrowedText, agrees_scan_iff] at hagrees
  rcases hagrees with (hhead | ⟨it, hit, -⟩) | hread
  · exact absurd hhead (by decide)
  · have hnone : narrowed.items.find? (fun it => it.Stops) = none :=
      List.find?_eq_none.mpr (by decide)
    rw [hnone] at hit
    cases hit
  · have hpin := (hread.insts _ (List.mem_singleton_self _) "A").1
    exact absurd hpin (by decide)

end Saltworks.Sim
