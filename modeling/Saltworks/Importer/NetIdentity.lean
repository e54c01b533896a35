import Saltworks.Importer.ScanAgrees

/-!
# Net strings and one-bit nets

The importer names a net by a string: the name of a scalar, or the name of a vector with the index
of a bit. It forgets whether a name was escaped, keeps the spelling of an index, and leaves out the
bit select of an escaped name in an assign. In Verilog a net is a scalar or a bit of a vector, where
a name is the same with and without a backslash, an index counts by its value, and a vector of one
bit is its bit.

Two references of a module have equal strings iff they stand for one net, where the module is
spelled so that none of this matters.

## Main definitions

* `Ref`, `Module.Refers`: the references of a module.
* `OneBit`, `Ref.net`: the one-bit nets of Verilog.
* `Ref.text`: the net strings of the importer.
* `Identified`: the strings are equal iff the nets are.
* `Spelled`: the spelling that it takes.
* `ReadsOf`: the nets that have been read are strings of references.

## Main results

* `identified_iff`: strings and nets agree iff the module is so spelled.
* `readsOf_parse`: the importer reads the references of a module by these strings.
-/

namespace Saltworks.Sim

open Importer Fallible

/-! ### Nets of Verilog -/

/-- A one-bit net of Verilog. -/
inductive OneBit where
  | scalar (name : String)
  | bit (name : String) (index : ℕ)
  deriving Repr, DecidableEq

/-- The name that a net is declared with. -/
def OneBit.name : OneBit → String
  | .scalar nm | .bit nm _ => nm

/-- A reference: a term of an assign or of a connection, a declared scalar, or a bit of a declared
vector. -/
inductive Ref where
  | assign (l : Name × Option Index)
  | pin (l : Name × Option Index)
  | decl (nm : String)
  | declBit (nm : String) (k : ℕ)
  deriving DecidableEq

/-- The names that a statement declares, with the bounds of their range. -/
def Item.declared : Item → List (String × Option (ℕ × ℕ))
  | .decl _ range nm names => (nm :: names).map fun n =>
      (n.text, range.map fun r => (r.1.value, r.2.value))
  | _ => []

/-- The range that a name has been declared with last. -/
def lastRange (declared : List (String × Option (ℕ × ℕ))) (nm : String) : Option (ℕ × ℕ) :=
  declared.reverse.findSome? fun d => if d.1 = nm then d.2 else none

namespace Module

variable (m : Module)

/-- The names that are declared, with their ranges. -/
def declared : List (String × Option (ℕ × ℕ)) := m.items.flatMap Item.declared

/-- The range of a name; a name without one is a scalar. -/
def rangeOf (nm : String) : Option (ℕ × ℕ) := lastRange m.declared nm

/-- The one-bit net that a name with its bit select stands for. A vector is one if it has a single
bit. -/
def netOf : Name × Option Index → Option OneBit
  | (nm, some i) => some (.bit nm.text i.value)
  | (nm, none) => match m.rangeOf nm.text with
    | none => some (.scalar nm.text)
    | some (hi, lo) => if hi = lo then some (.bit nm.text lo) else none

/-- The references of a module; the scan reads no pins of an instance whose cell it skips. -/
inductive Refers : Ref → Prop
  | assign {a l} (ha : a ∈ m.assigns) (hl : l ∈ a.1.leaves ++ a.2.leaves) : Refers (.assign l)
  | pin {i p l} (hi : i ∈ m.insts) (hcell : i.1.IsCell) (hp : p ∈ i.2.2) (hl : l ∈ p.leaves) :
      Refers (.pin l)
  | decl {nm range} (hnm : (nm, range) ∈ m.declared) (hrange : m.rangeOf nm = none) :
      Refers (.decl nm)
  | declBit {nm range hi lo k} (hnm : (nm, range) ∈ m.declared)
      (hrange : m.rangeOf nm = some (hi, lo)) (hmin : min hi lo ≤ k) (hmax : k ≤ max hi lo) :
      Refers (.declBit nm k)

end Module

/-! ### Net strings -/

namespace Ref

/-- The one-bit net that a reference stands for. -/
def net (m : Module) : Ref → Option OneBit
  | .assign l | .pin l => m.netOf l
  | .decl nm => some (.scalar nm)
  | .declBit nm k => some (.bit nm k)

/-- The net string that the importer makes of a reference. -/
def text : Ref → Net
  | .assign l => assignText l
  | .pin l => pinText l
  | .decl nm => nm
  | .declBit nm k => selectText nm (toString k)

/-- The name in a reference. -/
def name : Ref → String
  | .assign l | .pin l => l.1.text
  | .decl nm | .declBit nm _ => nm

/-- The value of the bit select in a reference. -/
def select : Ref → Option ℕ
  | .assign l | .pin l => l.2.map Index.value
  | .decl _ => none
  | .declBit _ k => some k

/-- The bit select as it is spelled; that of an escaped name in an assign is dropped. -/
def index : Ref → Option String
  | .assign l => if l.1.escaped then none else l.2.map Index.text
  | .pin l => l.2.map Index.text
  | .decl _ => none
  | .declBit _ k => some (toString k)

end Ref

/-- The strings of two references are equal iff they stand for one net. -/
def Identified (m : Module) : Prop :=
  ∀ r r', m.Refers r → m.Refers r' → ∀ v v', r.net m = some v → r'.net m = some v' →
    (r.text = r'.text ↔ v = v')

/-- The indices of a bit are spelled alike, no name looks like a bit select, a vector of one bit is
not named without its bit, and where the bit select of an escaped name in an assign is dropped, so
is that of all references to this bit, and no other reference to the name is without one. -/
structure Spelled (m : Module) : Prop where
  indices : ∀ r r', m.Refers r → m.Refers r' → r.name = r'.name → r.select = r'.select →
    ∀ i i', r.index = some i → r'.index = some i' → i = i'
  names : ∀ r r', m.Refers r → m.Refers r' → (r.net m).isSome → r.index = none →
    ∀ i, r'.index = some i → r.name ≠ selectText r'.name i
  whole : ∀ nm k, m.rangeOf nm = some (k, k) → ∀ r, m.Refers r → r.name = nm → r.select ≠ none
  escaped : ∀ nm i, m.Refers (.assign (nm, some i)) → nm.escaped = true → ∀ r, m.Refers r →
    (r.net m).isSome → r.name = nm.text → (r.index = none ↔ r.select = some i.value)

/-- The nets of assigns and connections that have been read are strings of references, and the
declared names and their ranges are those of the module. -/
structure ReadsOf (m : Module) (p : Parsed) : Prop where
  assigns : ∀ a ∈ p.assigns,
    (∃ r, m.Refers r ∧ r.text = a.1) ∧ ∃ r, m.Refers r ∧ r.text = a.2
  pins : ∀ i ∈ p.insts, ∀ pin net, i.conns.get? pin = some net → ∃ r, m.Refers r ∧ r.text = net
  names : p.decls.map Prod.snd = m.declared.map Prod.fst
  ranges : ∀ nm, p.vectorPorts.get? nm = (m.rangeOf nm).map fun r => (max r.1 r.2, min r.1 r.2)

/-! ### Strings -/

section Strings

variable {base base' i i' : String}

/-- A list is cut in one way at an element that does not occur behind the cut. -/
theorem append_cons_inj {α : Type} {c : α} {b b' j j' : List α} (hj : c ∉ j) (hj' : c ∉ j')
    (h : b ++ c :: j = b' ++ c :: j') : b = b' ∧ j = j' := by
  have hcut {b b' j j' x : List α} (hj : c ∉ j) (hx : b' = b ++ x)
      (hrest : c :: j = x ++ c :: j') : b = b' ∧ j = j' := by
    cases x with
    | nil =>
      rw [hx, List.append_nil]
      exact ⟨rfl, (List.cons.inj hrest).2⟩
    | cons d x =>
      refine absurd ?_ hj
      rw [(List.cons.inj hrest).2]
      simp
  rcases List.append_eq_append_iff.mp h with ⟨x, hx, hrest⟩ | ⟨x, hx, hrest⟩
  · exact hcut hj hx hrest
  · obtain ⟨hb, hj⟩ := hcut hj' hx hrest
    exact ⟨hb.symm, hj.symm⟩

/-- A text with an index is taken apart at its last bracket. -/
theorem selectText_inj (hi : '[' ∉ i.toList) (hi' : '[' ∉ i'.toList) :
    selectText base i = selectText base' i' ↔ base = base' ∧ i = i' := by
  constructor
  · intro h
    have hlist := congrArg String.toList h
    simp only [selectText, String.toList_append] at hlist
    have hcut : base.toList ++ '[' :: i.toList = base'.toList ++ '[' :: i'.toList := by
      simpa using List.append_cancel_right hlist
    obtain ⟨hbase, hindex⟩ := append_cons_inj hi hi' hcut
    exact ⟨String.toList_injective hbase, String.toList_injective hindex⟩
  · rintro ⟨rfl, rfl⟩
    rfl

/-- A number has no bracket. -/
theorem notMem_of_intFrom {cs : List Char} {v n : ℕ} {ready : Bool}
    (h : intFrom v ready cs = some n) : '[' ∉ cs := by
  induction cs generalizing v ready with
  | nil => exact List.not_mem_nil
  | cons c cs ih =>
    have hbracket : decimalValue '[' = none := by decide
    rw [intFrom] at h
    rw [List.mem_cons, not_or]
    by_cases hc : c = '_'
    · rw [if_pos hc] at h
      cases ready with
      | false => cases h
      | true => exact ⟨by rw [hc]; decide, ih h⟩
    · rw [if_neg hc] at h
      obtain ⟨d, hd, h⟩ := Option.bind_eq_some_iff.mp h
      refine ⟨?_, ih h⟩
      rintro rfl
      rw [hbracket] at hd
      cases hd

end Strings

/-! ### The importer -/

section Reads

variable {it : Item} {its : List Item} {p p' : Parsed} {m : Module}

theorem get?_foldl_set (names : List Net) (d : Dict Net (ℕ × ℕ)) (bounds : ℕ × ℕ) (nm : Net) :
    (names.foldl (fun ports nm => ports.set nm bounds) d).get? nm =
      if nm ∈ names then some bounds else d.get? nm := by
  induction names generalizing d with
  | nil => rfl
  | cons n names ih =>
    rw [List.foldl_cons, ih, Dict.get?_set]
    by_cases hmem : nm ∈ names <;> by_cases hn : nm = n <;> simp [hmem, hn]

theorem lastRange_append (ds es : List (String × Option (ℕ × ℕ))) (nm : String) :
    lastRange (ds ++ es) nm = (lastRange es nm).or (lastRange ds nm) := by
  rw [lastRange, List.reverse_append, List.findSome?_append]
  rfl

theorem lastRange_map (names : List Name) (range : Option (ℕ × ℕ)) (nm : String) :
    lastRange (names.map fun n => (n.text, range)) nm =
      if nm ∈ names.map Name.text then range else none := by
  induction names with
  | nil => rfl
  | cons n names ih =>
    have hone : lastRange [(n.text, range)] nm = if n.text = nm then range else none := by
      rw [lastRange, List.reverse_singleton, List.findSome?_singleton]
    rw [List.map_cons, ← List.singleton_append, lastRange_append, ih, hone, List.map_cons]
    by_cases hmem : nm ∈ names.map Name.text <;> by_cases hn : n.text = nm
    · cases range <;> simp [hmem]
    · cases range <;> simp [hmem]
    · simp [hmem, hn]
    · simp [hmem, hn, Ne.symm hn]

/-- The scan of a statement adds the names that it declares. -/
theorem declared_of_scan (hit : it.Sky130) (h : it.scan p = .ok p') :
    p'.decls.map Prod.snd = p.decls.map Prod.snd ++ it.declared.map Prod.fst ∧
    ∀ nm, p'.vectorPorts.get? nm = ((lastRange it.declared nm).map fun r =>
      (max r.1 r.2, min r.1 r.2)).or (p.vectorPorts.get? nm) := by
  cases it with
  | decl kind range nm names =>
    cases h
    constructor
    · simp [Parsed.addDecl, Item.declared, Function.comp_def]
    · intro nm'
      rw [Item.declared, lastRange_map]
      cases range with
      | none => split_ifs <;> rfl
      | some r =>
        have hports := get?_foldl_set ((nm :: names).map Name.text) p.vectorPorts
          (max r.1.value r.2.value, min r.1.value r.2.value) nm'
        refine hports.trans ?_
        split_ifs <;> rfl
  | assign lhs rhs =>
    obtain ⟨as, -, h⟩ := bind_eq_ok h
    cases h
    exact ⟨(List.append_nil _).symm, fun nm => rfl⟩
  | inst cell iname ports =>
    have hcell : cell.IsCell := hit
    rw [Item.scan, if_pos hcell] at h
    cases h
    exact ⟨(List.append_nil _).symm, fun nm => rfl⟩

theorem declared_of_foldlM_scan (hits : ∀ it ∈ its, it.Sky130)
    (h : its.foldlM Item.scan p = .ok p') :
    p'.decls.map Prod.snd = p.decls.map Prod.snd ++ (its.flatMap Item.declared).map Prod.fst ∧
    ∀ nm, p'.vectorPorts.get? nm = ((lastRange (its.flatMap Item.declared) nm).map fun r =>
      (max r.1 r.2, min r.1 r.2)).or (p.vectorPorts.get? nm) := by
  induction its generalizing p with
  | nil =>
    cases h
    exact ⟨(List.append_nil _).symm, fun nm => rfl⟩
  | cons it its ih =>
    obtain ⟨hsky, hits⟩ := List.forall_mem_cons.mp hits
    rw [List.foldlM_cons] at h
    obtain ⟨p₁, hit, h⟩ := bind_eq_ok h
    obtain ⟨hdecls, hranges⟩ := declared_of_scan hsky hit
    obtain ⟨hrest, hlater⟩ := ih hits h
    constructor
    · rw [hrest, hdecls, List.flatMap_cons, List.map_append, List.append_assoc]
    · intro nm
      rw [hlater, hranges, List.flatMap_cons, lastRange_append]
      cases lastRange (its.flatMap Item.declared) nm <;> rfl

/-- The nets of an assign that is read are strings of its terms. -/
theorem exists_ref_of_readAssign {a : NetRef × NetRef} (ha : a ∈ m.assigns) {pair : Net × Net}
    (h : pair ∈ match readAssign a with
      | .ok as => as
      | .error _ => []) :
    (∃ r, m.Refers r ∧ r.text = pair.1) ∧ ∃ r, m.Refers r ∧ r.text = pair.2 := by
  by_cases hstops : Stops a
  · rw [readAssign_of_stops hstops] at h
    cases h
  rw [readAssign_of_not_stops hstops] at h
  simp only [keptPairs] at h
  split at h
  · rename_i l r hl hr
    split_ifs at h
    · cases List.mem_singleton.mp h
      obtain ⟨x, hx, rfl⟩ := List.mem_map.mp (List.mem_of_head? hl)
      obtain ⟨y, hy, rfl⟩ := List.mem_map.mp (List.mem_of_head? hr)
      exact ⟨⟨_, .assign ha (List.mem_append_left _ hx), rfl⟩,
        ⟨_, .assign ha (List.mem_append_right _ hy), rfl⟩⟩
    · cases h
  · cases h

/-- The net on a pin is the string of a term of its connections. -/
theorem exists_ref_of_readInst {i : Name × Name × List Port} (hi : i ∈ cellInsts m.items)
    {pin : Pin} {net : Net} (h : (readInst i).conns.get? pin = some net) :
    ∃ r, m.Refers r ∧ r.text = net := by
  rw [readInst, get?_foldl_read, Dict.get?_empty, Option.or_none] at h
  obtain ⟨l, hl, rfl⟩ := List.mem_map.mp (List.mem_of_getLast? h)
  obtain ⟨port, hport, hl⟩ := List.mem_flatMap.mp hl
  obtain ⟨hi, hcell⟩ := List.mem_filter.mp hi
  exact ⟨_, .pin hi (of_decide_eq_true hcell) (List.mem_filter.mp hport).1 hl, rfl⟩

/-- On a text that the strict parser accepts the importer reads references of the module. -/
theorem readsOf_parse {cls : CharClass} {depth : ℕ} {src : String}
    (h : Sim.parse cls depth src = .ok m) (hm : m.Plain) (hp : Importer.parse cls src = .ok p) :
    ReadsOf m p := by
  have hitems : OneByOne m.items := oneByOne_of_orderly hm.orderly.items
  rw [parse_eq_scan h hm.orderly.head (Or.inr hitems), hm.scan_eq] at hp
  obtain ⟨hnames, hranges⟩ := declared_of_foldlM_scan hm.items hp
  obtain ⟨hinsts, hassigns⟩ := foldlM_scan_eq hp
  refine ⟨fun a ha => ?_, fun i hi pin net hnet => ?_, hnames, fun nm => ?_⟩
  · rw [hassigns] at ha
    obtain ⟨a', ha', hpair⟩ := List.mem_flatMap.mp ha
    exact exists_ref_of_readAssign ha' hpair
  · rw [hinsts] at hi
    obtain ⟨i', hi', rfl⟩ := List.mem_map.mp hi
    exact exists_ref_of_readInst hi' hnet
  · rw [hranges, Dict.get?_empty, Option.or_none]
    rfl

end Reads

/-! ### References -/

section References

variable {m : Module} {r r' : Ref} {v v' : OneBit} {i i' : String}

/-- The string of a reference is its name, with the index that is read. -/
theorem Ref.text_eq (r : Ref) : r.text = match r.index with
    | none => r.name
    | some i => selectText r.name i := by
  cases r with
  | assign l =>
    obtain ⟨⟨escaped, text⟩, _ | i⟩ := l
    · cases escaped <;> rfl
    · cases escaped <;> rfl
  | pin l => obtain ⟨nm, _ | i⟩ := l <;> rfl
  | decl nm => rfl
  | declBit nm k => rfl

theorem Module.name_of_netOf {l : Name × Option Index} (h : m.netOf l = some v) :
    v.name = l.1.text := by
  obtain ⟨nm, _ | i⟩ := l
  · rw [Module.netOf] at h
    split at h
    · cases h
      rfl
    · split at h
      · cases h
        rfl
      · cases h
  · cases h
    rfl

theorem Ref.name_of_net (h : r.net m = some v) : v.name = r.name := by
  cases r with
  | assign l | pin l => exact Module.name_of_netOf h
  | decl nm | declBit nm k =>
    cases h
    rfl

/-- A reference with a bit select stands for that bit. -/
theorem Ref.net_of_select {k : ℕ} (h : r.select = some k) : r.net m = some (.bit r.name k) := by
  cases r with
  | assign l | pin l =>
    obtain ⟨nm, _ | j⟩ := l
    · cases h
    · cases h
      rfl
  | decl nm => cases h
  | declBit nm j =>
    cases h
    rfl

/-- An index that is read is the bit select. -/
theorem Ref.select_of_index (hi : r.index = some i) :
    ∃ k, intOf i = some k ∧ r.select = some k := by
  cases r with
  | assign l =>
    obtain ⟨⟨escaped, text⟩, _ | j⟩ := l
    · cases escaped <;> cases hi
    · cases escaped with
      | true => cases hi
      | false =>
        cases hi
        exact ⟨j.value, j.intOf_text, rfl⟩
  | pin l =>
    obtain ⟨nm, _ | j⟩ := l
    · cases hi
    · cases hi
      exact ⟨j.value, j.intOf_text, rfl⟩
  | decl nm => cases hi
  | declBit nm k =>
    cases hi
    exact ⟨k, intOf_toString k, rfl⟩

theorem Ref.index_eq_none (hselect : r.select = none) : r.index = none := by
  rw [Option.eq_none_iff_forall_ne_some]
  intro i hi
  obtain ⟨k, -, hk⟩ := r.select_of_index hi
  cases hselect.symm.trans hk

/-- A bit select that is not read is that of an escaped name in an assign. -/
theorem Ref.eq_assign {k : ℕ} (hi : r.index = none) (hk : r.select = some k) :
    ∃ nm j, r = .assign (nm, some j) ∧ nm.escaped = true ∧ j.value = k := by
  cases r with
  | assign l =>
    obtain ⟨⟨escaped, text⟩, _ | j⟩ := l
    · cases hk
    · cases escaped with
      | true => exact ⟨_, j, rfl, rfl, Option.some.inj hk⟩
      | false => cases hi
  | pin l =>
    obtain ⟨nm, _ | j⟩ := l
    · cases hk
    · cases hi
  | decl nm => cases hk
  | declBit nm j => cases hi

theorem Ref.notMem_index (hi : r.index = some i) : '[' ∉ i.toList := by
  obtain ⟨k, hk, -⟩ := r.select_of_index hi
  exact notMem_of_intFrom hk

/-- References that are read with their indices. -/
theorem text_eq_iff (hi : r.index = some i) (hi' : r'.index = some i') :
    r.text = r'.text ↔ r.name = r'.name ∧ i = i' := by
  rw [r.text_eq, r'.text_eq, hi, hi']
  exact selectText_inj (r.notMem_index hi) (r'.notMem_index hi')

/-- A name that has a range is declared. -/
theorem mem_of_lastRange {declared : List (String × Option (ℕ × ℕ))} {nm : String} {range : ℕ × ℕ}
    (h : lastRange declared nm = some range) : (nm, some range) ∈ declared := by
  obtain ⟨d, hd, hrange⟩ := List.exists_of_findSome?_eq_some h
  split_ifs at hrange with hname
  rw [← hname, ← hrange]
  exact List.mem_reverse.mp hd

/-- A vector of one bit is its bit. -/
theorem net_of_whole {nm : String} {k : ℕ} (hrange : m.rangeOf nm = some (k, k))
    (hr : m.Refers r) (hname : r.name = nm) (hselect : r.select = none) :
    r.net m = some (.bit nm k) := by
  have hterm {nm' : Name} (hname : nm'.text = nm) : m.netOf (nm', none) = some (.bit nm k) := by
    rw [Module.netOf, hname, hrange]
    exact if_pos rfl
  cases hr with
  | @assign a l ha hl =>
    obtain ⟨nm', _ | j⟩ := l
    · exact hterm hname
    · cases hselect
  | @pin i p l hi hcell hp hl =>
    obtain ⟨nm', _ | j⟩ := l
    · exact hterm hname
    · cases hselect
  | decl hnm hnone =>
    cases hname
    cases hrange.symm.trans hnone
  | declBit hnm => cases hselect

/-- Where no vector of one bit is named without its bit, a reference without a bit select stands
for a scalar. -/
theorem net_of_no_select (hwhole : ∀ nm k, m.rangeOf nm = some (k, k) → ∀ r, m.Refers r →
    r.name = nm → r.select ≠ none) (hr : m.Refers r) (hv : r.net m = some v)
    (hselect : r.select = none) : v = .scalar r.name := by
  have hterm {nm : Name} (hname : r.name = nm.text) (hnet : m.netOf (nm, none) = some v) :
      v = .scalar nm.text := by
    rw [Module.netOf] at hnet
    split at hnet
    · exact (Option.some.inj hnet).symm
    · rename_i hi lo hrange
      split at hnet
      · rename_i heq
        rw [heq] at hrange
        exact absurd hselect (hwhole nm.text lo hrange r hr hname)
      · cases hnet
  cases r with
  | assign l | pin l =>
    obtain ⟨nm, _ | j⟩ := l
    · exact hterm rfl hv
    · cases hselect
  | decl nm => exact (Option.some.inj hv).symm
  | declBit nm k => cases hselect

/-- The net of a reference is a bit iff the reference selects it, where no vector of one bit is
named without its bit. -/
theorem net_eq_bit_iff (hwhole : ∀ nm k, m.rangeOf nm = some (k, k) → ∀ r, m.Refers r →
    r.name = nm → r.select ≠ none) (hr : m.Refers r) (hv : r.net m = some v) {k : ℕ} :
    v = .bit r.name k ↔ r.select = some k := by
  cases hselect : r.select with
  | none =>
    rw [net_of_no_select hwhole hr hv hselect]
    exact iff_of_false nofun nofun
  | some j =>
    have hbit := hv.symm.trans (r.net_of_select hselect)
    cases hbit
    simp

/-- Where strings and nets agree, a reference to a name is read without an index iff it stands for
the same net as one that is. -/
theorem Identified.index_eq_none_iff (h : Identified m) (hr : m.Refers r) (hr' : m.Refers r')
    (hv : r.net m = some v) (hv' : r'.net m = some v') (hname : r.name = r'.name)
    (hi : r.index = none) : v = v' ↔ r'.index = none := by
  rw [← h r r' hr hr' v v' hv hv', r.text_eq, r'.text_eq, hi, hname]
  cases hi' : r'.index with
  | none => exact iff_of_true rfl rfl
  | some i => exact iff_of_false (text_ne_selectText _ _) nofun

theorem Identified.spelled (h : Identified m) : Spelled m := by
  have hwhole : ∀ nm k, m.rangeOf nm = some (k, k) → ∀ r, m.Refers r → r.name = nm →
      r.select ≠ none := by
    intro nm k hrange r hr hname hselect
    have hbit : m.Refers (.declBit nm k) :=
      .declBit (mem_of_lastRange hrange) hrange (min_self k).le (max_self k).ge
    have hnet := net_of_whole hrange hr hname hselect
    cases (h.index_eq_none_iff hr hbit hnet rfl hname (r.index_eq_none hselect)).mp rfl
  refine ⟨fun r r' hr hr' hname hselect i i' hi hi' => ?_,
    fun r r' hr hr' hone hi i hi' heq => ?_, hwhole,
    fun nm i hassign hescaped r hr hone hname => ?_⟩
  · obtain ⟨k, -, hk⟩ := r.select_of_index hi
    have hv := r.net_of_select (m := m) hk
    have hv' := r'.net_of_select (m := m) (hselect.symm.trans hk)
    have hnets : OneBit.bit r.name k = .bit r'.name k := by rw [hname]
    exact ((text_eq_iff hi hi').mp ((h r r' hr hr' _ _ hv hv').mpr hnets)).2
  · obtain ⟨v, hv⟩ := Option.isSome_iff_exists.mp hone
    obtain ⟨k, -, hk⟩ := r'.select_of_index hi'
    have htext : r.text = r'.text := by
      rw [r.text_eq, r'.text_eq, hi, hi']
      exact heq
    have hnets := (h r r' hr hr' v _ hv (r'.net_of_select hk)).mp htext
    rw [← r.name_of_net hv, hnets] at heq
    exact text_ne_selectText _ _ heq
  · obtain ⟨v, hv⟩ := Option.isSome_iff_exists.mp hone
    have hdropped : (Ref.assign (nm, some i)).index = none := by
      rw [Ref.index, if_pos hescaped]
    rw [← h.index_eq_none_iff hassign hr rfl hv hname.symm hdropped,
      ← net_eq_bit_iff hwhole hr hv, hname]
    exact eq_comm

theorem Spelled.identified (h : Spelled m) : Identified m := by
  -- A reference that is read without its index stands for the net of another to the same name
  -- iff that one is read without its index too.
  have hindex {r r' : Ref} (hr : m.Refers r) (hr' : m.Refers r') {v v' : OneBit}
      (hv : r.net m = some v) (hv' : r'.net m = some v') (hname : r.name = r'.name)
      (hi : r.index = none) : v = v' ↔ r'.index = none := by
    have hone' : (r'.net m).isSome := Option.isSome_iff_exists.mpr ⟨v', hv'⟩
    cases hselect : r.select with
    | some k =>
      obtain ⟨nm, j, rfl, hescaped, rfl⟩ := r.eq_assign hi hselect
      rw [h.escaped nm j hr hescaped r' hr' hone' hname.symm, ← net_eq_bit_iff h.whole hr' hv']
      cases hv
      rw [← hname]
      exact eq_comm
    | none =>
      have hscalar := net_of_no_select h.whole hr hv hselect
      cases hselect' : r'.select with
      | none =>
        rw [hscalar, net_of_no_select h.whole hr' hv' hselect', hname]
        exact iff_of_true rfl (r'.index_eq_none hselect')
      | some k =>
        refine iff_of_false ?_ fun hi' => ?_
        · rw [hscalar, (net_eq_bit_iff h.whole hr' hv').mpr hselect']
          exact nofun
        · obtain ⟨nm, j, rfl, hescaped, rfl⟩ := r'.eq_assign hi' hselect'
          have hone : (r.net m).isSome := Option.isSome_iff_exists.mpr ⟨v, hv⟩
          have hselected := (h.escaped nm j hr' hescaped r hr hone hname).mp hi
          cases hselect.symm.trans hselected
  intro r r' hr hr' v v' hv hv'
  have hone : (r.net m).isSome := Option.isSome_iff_exists.mpr ⟨v, hv⟩
  have hone' : (r'.net m).isSome := Option.isSome_iff_exists.mpr ⟨v', hv'⟩
  have hnames (heq : v = v') : r.name = r'.name := by
    rw [← r.name_of_net hv, ← r'.name_of_net hv', heq]
  cases hi : r.index with
  | none =>
    cases hi' : r'.index with
    | none =>
      rw [r.text_eq, r'.text_eq, hi, hi']
      exact ⟨fun hname => (hindex hr hr' hv hv' hname hi).mpr hi', hnames⟩
    | some i' =>
      refine iff_of_false ?_ fun heq => ?_
      · rw [r.text_eq, r'.text_eq, hi, hi']
        exact h.names r r' hr hr' hone hi i' hi'
      · cases hi'.symm.trans ((hindex hr hr' hv hv' (hnames heq) hi).mp heq)
  | some i =>
    cases hi' : r'.index with
    | none =>
      refine iff_of_false ?_ fun heq => ?_
      · rw [r.text_eq, r'.text_eq, hi, hi']
        exact fun heq => h.names r' r hr' hr hone' hi' i hi heq.symm
      · cases hi.symm.trans ((hindex hr' hr hv' hv (hnames heq).symm hi').mp heq.symm)
    | some i' =>
      obtain ⟨k, hk, hselect⟩ := r.select_of_index hi
      obtain ⟨k', hk', hselect'⟩ := r'.select_of_index hi'
      have hbit : v = .bit r.name k := Option.some.inj (hv.symm.trans (r.net_of_select hselect))
      have hbit' : v' = .bit r'.name k' :=
        Option.some.inj (hv'.symm.trans (r'.net_of_select hselect'))
      rw [text_eq_iff hi hi', hbit, hbit', OneBit.bit.injEq]
      constructor
      · rintro ⟨hname, rfl⟩
        exact ⟨hname, Option.some.inj (hk.symm.trans hk')⟩
      · rintro ⟨hname, rfl⟩
        exact ⟨hname, h.indices r r' hr hr' hname (hselect.trans hselect'.symm) i i' hi hi'⟩

/-- Strings and nets of a module agree iff it is so spelled. -/
theorem identified_iff (m : Module) : Identified m ↔ Spelled m :=
  ⟨Identified.spelled, Spelled.identified⟩

end References

/-! ### Two nets of one string -/

/-- An index in decimal. -/
def decimalIndex (k : ℕ) : Index := ⟨toString k, k, intOf_toString k⟩

/-- Bit 0 of `v` and the escaped scalar `v[0]` on two pins of a gate. -/
def twoNets : Module where
  top := plainName "t"
  header := [(plainName "v", true), (plainName "y", false)]
  items := [
    .decl .input (some (decimalIndex 1, decimalIndex 0)) (plainName "v") [],
    .decl .output none (plainName "y") [],
    .decl .wire none ⟨true, "v[0]"⟩ [],
    .inst (plainName "sky130_fd_sc_hd__and2_1") (plainName "g") [
      ⟨plainName "A", some (.leaf (plainName "v") (some (decimalIndex 0))), true⟩,
      ⟨plainName "B", some (.leaf ⟨true, "v[0]"⟩ none), true⟩,
      ⟨plainName "X", some (.leaf (plainName "y") none), false⟩]]

def twoNetsText : String :=
  "module t(v, y); input [1:0] v; output y; wire \\v[0] ; " ++
    "sky130_fd_sc_hd__and2_1 g (.A(v[0]), .B(\\v[0] ), .X(y)); endmodule"

theorem parse_twoNetsText : Sim.parse .ascii 20 twoNetsText = .ok twoNets := by
  have hsrc : tokenize .ascii twoNetsText = .ok twoNets.tokens := by decide +kernel
  rw [Sim.parse, hsrc]
  rfl

/-- The bit and the escaped scalar are read as one net. -/
theorem not_identified : ¬ ∀ (cls : CharClass) (depth : ℕ) (src : String) (m : Module),
    Sim.parse cls depth src = .ok m → Identified m := by
  intro h
  have hidentified := h .ascii 20 twoNetsText twoNets parse_twoNetsText
  have hcells : ∀ i ∈ twoNets.insts, i.1.IsCell := by decide
  have hmem : ∀ it ∈ twoNets.insts.flatMap fun i => i.2.2, ∀ l ∈ it.leaves,
      twoNets.Refers (.pin l) := by
    intro p hp l hl
    obtain ⟨i, hi, hp⟩ := List.mem_flatMap.mp hp
    exact .pin hi (hcells i hi) hp hl
  have hbit := hmem _ List.mem_cons_self _ List.mem_cons_self
  have hscalar := hmem _ (List.mem_cons_of_mem _ List.mem_cons_self) _ List.mem_cons_self
  have hnets := (hidentified _ _ hbit hscalar (.bit "v" 0) (.scalar "v[0]") rfl rfl).mp rfl
  cases hnets

end Saltworks.Sim
