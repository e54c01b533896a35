import Saltworks.Data.Fallible
import Saltworks.Importer.Flops
import Mathlib.Data.List.Nodup
import Mathlib.Data.List.Pairwise

/-!
# Drivers of nets

## Main definitions

* `Drives`: an output pin of a combinational instance is on a net.
* `outNets`: the nets that an instance drives.
* `SinglyDriven`: no net has two drivers.

## Main results

* `driver_eq_ok`, `mem_allDrivers`: the entries of the driver map.
* `SinglyDriven.drives_unique`, `SinglyDriven.assigns_unique`, `SinglyDriven.not_drives`: the
  driver of a net.
-/

namespace Saltworks.Importer

open Silicon Fallible

/-- The driver of a net is an output pin of a combinational instance. -/
structure Drives (insts : List Inst) (nm : Net) (inst : Inst) (e : Expansion) (o : Pin × String) :
    Prop where
  mem : inst ∈ insts
  physical : isPhysical inst.cell = false
  sequential : isSequential inst.cell = false
  expansion : expansionFor inst.cell = some e
  out : o ∈ e.outs
  conn : inst.conns.get? o.1 = some nm

/-- The nets on the output pins of a combinational instance. -/
def outNets (inst : Inst) : List Net :=
  if isPhysical inst.cell || isSequential inst.cell then []
  else match expansionFor inst.cell with
    | none => []
    | some e => e.outs.filterMap fun o => inst.conns.get? o.1

/-- No net has two drivers: neither two assigns, nor two outputs of cells, nor one of each. -/
def SinglyDriven (insts : List Inst) (assigns : List (Net × Net)) : Prop :=
  (assigns.map Prod.fst ++ insts.flatMap outNets).Nodup

instance (insts : List Inst) (assigns : List (Net × Net)) :
    Decidable (SinglyDriven insts assigns) :=
  inferInstanceAs (Decidable (List.Nodup _))

/-- Every output of an expansion names a result of its program. -/
theorem out_mem_tmps {cell : String} {e : Expansion} (he : expansionFor cell = some e)
    {o : Pin × String} (ho : o ∈ e.outs) : o.2 ∈ e.ops.map Op.tmp := by
  have htable : ∀ x ∈ expand, ∀ o ∈ x.2.outs, o.2 ∈ x.2.ops.map Op.tmp := by decide
  have hmem : ∃ name, (name, e) ∈ expand := by
    rw [expansionFor] at he
    cases hexact : expand.lookup cell with
    | some e' =>
      rw [hexact] at he
      exact ⟨cell, Option.some.inj he ▸ Dict.mem_of_lookup hexact⟩
    | none =>
      rw [hexact] at he
      obtain ⟨x, hx, rfl⟩ := Option.map_eq_some_iff.mp he
      exact ⟨x.1, List.mem_of_find?_eq_some hx⟩
  obtain ⟨name, hmem⟩ := hmem
  exact htable _ hmem o ho

/-! ### The driver map -/

theorem mem_outNets {inst : Inst} {nm : Net} :
    nm ∈ outNets inst ↔ ∃ e o, isPhysical inst.cell = false ∧ isSequential inst.cell = false ∧
      expansionFor inst.cell = some e ∧ o ∈ e.outs ∧ inst.conns.get? o.1 = some nm := by
  rw [outNets]
  split_ifs with hcell
  · rw [Bool.or_eq_true] at hcell
    constructor
    · intro hnil
      cases hnil
    · rintro ⟨e, o, hphys, hseq, -⟩
      rw [hphys, hseq] at hcell
      simp at hcell
  · rw [Bool.or_eq_true, not_or, Bool.not_eq_true, Bool.not_eq_true] at hcell
    cases he : expansionFor inst.cell with
    | none => simp
    | some e => simp [hcell]

theorem drives_iff {insts : List Inst} {inst : Inst} {nm : Net} :
    (∃ e o, Drives insts nm inst e o) ↔ inst ∈ insts ∧ nm ∈ outNets inst := by
  rw [mem_outNets]
  constructor
  · rintro ⟨e, o, hmem, hphys, hseq, he, ho, hconn⟩
    exact ⟨hmem, e, o, hphys, hseq, he, ho, hconn⟩
  · rintro ⟨hmem, e, o, hphys, hseq, he, ho, hconn⟩
    exact ⟨e, o, hmem, hphys, hseq, he, ho, hconn⟩

theorem foldl_addDriver {inst : Inst} {outs : List (Pin × String)} {drv : List (Net × Inst)} :
    outs.foldl (addDriver inst) drv =
      ((outs.filterMap fun o => inst.conns.get? o.1).map fun nm => (nm, inst)).reverse ++ drv := by
  induction outs generalizing drv with
  | nil => rfl
  | cons o outs ih =>
    rw [List.foldl_cons, ih, addDriver]
    cases hc : inst.conns.get? o.1 <;> simp [hc]

theorem addKnownDrivers_eq (drv : List (Net × Inst)) (inst : Inst) :
    addKnownDrivers drv inst = ((outNets inst).map fun nm => (nm, inst)).reverse ++ drv := by
  rw [addKnownDrivers, addDrivers, outNets]
  split_ifs with hcell
  · rfl
  · cases expansionFor inst.cell with
    | none => rfl
    | some e => exact foldl_addDriver

theorem addDrivers_eq_ok {drv drv' : List (Net × Inst)} {inst : Inst}
    (h : addDrivers drv inst = .ok drv') : drv' = addKnownDrivers drv inst := by
  rw [addKnownDrivers, h]

/-- The driver map of a build is the map of the known drivers. -/
theorem driver_eq_ok {insts : List Inst} {drv : List (Net × Inst)} (h : driver insts = .ok drv) :
    drv = allDrivers insts := by
  have key {drv₀ : List (Net × Inst)} (h : insts.foldlM addDrivers drv₀ = .ok drv) :
      drv = insts.foldl addKnownDrivers drv₀ := by
    clear * - h
    induction insts generalizing drv₀ with
    | nil => exact (Except.ok.inj h).symm
    | cons inst insts ih =>
      rw [List.foldlM_cons] at h
      obtain ⟨drv₁, h₁, h⟩ := bind_eq_ok h
      rw [ih h, addDrivers_eq_ok h₁, List.foldl_cons]
  exact key h

theorem allDrivers_eq (insts : List Inst) :
    allDrivers insts =
      (insts.flatMap fun inst => (outNets inst).map fun nm => (nm, inst)).reverse := by
  have key (drv : List (Net × Inst)) : insts.foldl addKnownDrivers drv =
      (insts.flatMap fun inst => (outNets inst).map fun nm => (nm, inst)).reverse ++ drv := by
    induction insts generalizing drv with
    | nil => rfl
    | cons inst insts ih =>
      rw [List.foldl_cons, ih, addKnownDrivers_eq, List.flatMap_cons, List.reverse_append,
        List.append_assoc]
  rw [allDrivers, key, List.append_nil]

theorem mem_allDrivers {insts : List Inst} {nm : Net} {inst : Inst} :
    (nm, inst) ∈ allDrivers insts ↔ ∃ e o, Drives insts nm inst e o := by
  rw [drives_iff, allDrivers_eq, List.mem_reverse, List.mem_flatMap]
  constructor
  · rintro ⟨inst', hmem, hnm⟩
    obtain ⟨nm', hnm', heq⟩ := List.mem_map.mp hnm
    cases heq
    exact ⟨hmem, hnm'⟩
  · rintro ⟨hmem, hnm⟩
    exact ⟨inst, hmem, List.mem_map_of_mem hnm⟩

/-- An entry of the driver map is a driver. -/
theorem drives_of_lookup {insts : List Inst} {nm : Net} {inst : Inst}
    (h : (allDrivers insts).lookup nm = some inst) : ∃ e o, Drives insts nm inst e o :=
  mem_allDrivers.mp (Dict.mem_of_lookup h)

/-! ### Singly driven netlists -/

theorem eq_of_nodup_filterMap {α β : Type*} {f : α → Option β} {as : List α}
    (h : (as.filterMap f).Nodup) {a a' : α} (ha : a ∈ as) (ha' : a' ∈ as) {b : β}
    (hb : f a = some b) (hb' : f a' = some b) : a = a' := by
  induction as with
  | nil => cases ha
  | cons c as ih =>
    have hnot {d : α} (hc : f c = some b) (hd : d ∈ as) (hdb : f d = some b) : False := by
      rw [List.filterMap_cons_some hc, List.nodup_cons] at h
      exact h.1 (List.mem_filterMap.mpr ⟨d, hd, hdb⟩)
    rcases List.mem_cons.mp ha with rfl | has <;> rcases List.mem_cons.mp ha' with rfl | has'
    · rfl
    · exact (hnot hb has' hb').elim
    · exact (hnot hb' has hb).elim
    · refine ih ?_ has has'
      cases hc : f c with
      | none => rwa [List.filterMap_cons_none hc] at h
      | some d =>
        rw [List.filterMap_cons_some hc, List.nodup_cons] at h
        exact h.2

namespace SinglyDriven

variable {insts : List Inst} {assigns : List (Net × Net)} {nm : Net}

theorem assigns_unique (h : SinglyDriven insts assigns) {m m' : Net} (hm : (nm, m) ∈ assigns)
    (hm' : (nm, m') ∈ assigns) : m = m' := by
  have hnd := (List.nodup_append.mp h).1
  exact Option.some.inj ((Dict.lookup_of_mem hnd hm).symm.trans (Dict.lookup_of_mem hnd hm'))

theorem not_drives (h : SinglyDriven insts assigns) {m : Net} (hm : (nm, m) ∈ assigns)
    {inst : Inst} {e : Expansion} {o : Pin × String} : ¬ Drives insts nm inst e o := by
  intro hd
  obtain ⟨hmem, hnm⟩ := drives_iff.mp ⟨e, o, hd⟩
  exact (List.nodup_append.mp h).2.2 nm (List.mem_map_of_mem (f := Prod.fst) hm) nm
    (List.mem_flatMap.mpr ⟨inst, hmem, hnm⟩) rfl

theorem drives_unique (h : SinglyDriven insts assigns) {inst inst' : Inst} {e e' : Expansion}
    {o o' : Pin × String} (hd : Drives insts nm inst e o) (hd' : Drives insts nm inst' e' o') :
    inst = inst' ∧ e = e' ∧ o = o' := by
  obtain ⟨hnd, hpair⟩ := List.nodup_flatMap.mp (List.nodup_append.mp h).2.1
  obtain ⟨hmem, hnm⟩ := drives_iff.mp ⟨e, o, hd⟩
  obtain ⟨hmem', hnm'⟩ := drives_iff.mp ⟨e', o', hd'⟩
  have hinst : inst = inst' := by
    by_contra hne
    have : Std.Symm (Function.onFun List.Disjoint outNets) := ⟨fun _ _ hdis _ ha ha' => hdis ha' ha⟩
    exact hpair.forall hmem hmem' hne hnm hnm'
  subst hinst
  obtain rfl : e = e' := Option.some.inj (hd.expansion.symm.trans hd'.expansion)
  have hout : (e.outs.filterMap fun o => inst.conns.get? o.1).Nodup := by
    have := hnd inst hmem
    rwa [outNets, hd.physical, hd.sequential, hd.expansion] at this
  exact ⟨rfl, rfl, eq_of_nodup_filterMap hout hd.out hd'.out hd.conn hd'.conn⟩

end SinglyDriven

end Saltworks.Importer
