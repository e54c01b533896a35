import Saltworks.Importer.Accepted
import Mathlib.Data.List.Dedup
import Mathlib.Data.List.Sort

/-!
# The order of the source

The instances and the assigns of a netlist stand in its text in some order. The importer reads a
net through the first assign that names it and through the last cell that drives it, and of the
conflicts between drivers it refuses only two flops that share their state net. What is imported
depends on the order through these winners only, so where no net has two drivers it does not
depend on the order at all.

## Main definitions

* `stateNets`, `OneDriver`: the nets on the state outputs, and that no net has two drivers.
* `Reordered`: two requests that differ in the order of their instances and assigns.
* `SameWinners`: the first assign and the last driver of every net are the same.

## Main results

* `findFlops_eq_ok_iff`, `driver_eq_ok_iff`: the scans that return, instance by instance.
* `outIdx_congr`, `elaborate_congr`: the elaboration reads its netlist through the winners.
* `importNetlist_reordered`: the import of a reordered request.
-/

namespace Saltworks.Importer

open Silicon Fallible

/-! ### Requests that differ in their order -/

/-- The nets on the state outputs of the sequential instances. -/
def stateNets (insts : List Inst) : List Net :=
  insts.filterMap fun inst =>
    if isSequential inst.cell then (seqModelFor inst.cell).bind fun m => inst.conns.get? m.q
    else none

/-- No net has two drivers, where assigns, outputs of cells and state outputs drive nets. -/
def OneDriver (r : Request) : Prop :=
  (r.assigns.map Prod.fst ++ r.insts.flatMap outNets ++ stateNets r.insts).Nodup

instance (r : Request) : Decidable (OneDriver r) :=
  inferInstanceAs (Decidable (List.Nodup _))

/-- The request `r'` is `r` with its instances and its assigns in another order. -/
structure Reordered (r r' : Request) : Prop where
  insts : r.insts.Perm r'.insts
  assigns : r.assigns.Perm r'.assigns
  ins : r'.ins = r.ins
  outs : r'.outs = r.outs
  pinReset : r'.pinReset = r.pinReset
  cut : r'.cut = r.cut

/-- Every net has the same first assign and the same last driving cell. -/
structure SameWinners (r r' : Request) : Prop where
  assign : ∀ nm, r'.assigns.lookup nm = r.assigns.lookup nm
  driver : ∀ nm, (allDrivers r'.insts).lookup nm = (allDrivers r.insts).lookup nm

/-- What an import says about a netlist: the datum with the nets of its inputs and outputs. -/
structure SameImport (imp imp' : Imported) : Prop where
  datum : imp'.datum = imp.datum
  auto : imp'.auto = imp.auto
  cuts : imp'.cuts = imp.cuts
  inputs : imp'.source.inputs = imp.source.inputs
  pinned : imp'.source.pinned = imp.source.pinned
  ndesignIn : imp'.ndesignIn = imp.ndesignIn
  ndesignOut : imp'.ndesignOut = imp.ndesignOut

theorem OneDriver.singlyDriven {r : Request} (h : OneDriver r) :
    SinglyDriven r.insts r.assigns :=
  (List.nodup_append.mp h).1

theorem map_fst_allDrivers (insts : List Inst) :
    (allDrivers insts).map Prod.fst = (insts.flatMap outNets).reverse := by
  rw [allDrivers_eq, List.map_reverse, List.map_flatMap]
  congr 1
  refine List.flatMap_congr fun inst _ => ?_
  rw [List.map_map]
  exact List.map_id _

theorem allDrivers_perm {insts insts' : List Inst} (h : insts.Perm insts') :
    (allDrivers insts).Perm (allDrivers insts') := by
  rw [allDrivers_eq, allDrivers_eq]
  exact (List.reverse_perm _).trans ((h.flatMap_right _).trans (List.reverse_perm _).symm)

/-- Where no net has two drivers, every order has the same winners. -/
theorem Reordered.sameWinners {r r' : Request} (h : Reordered r r')
    (hr : SinglyDriven r.insts r.assigns) : SameWinners r r' := by
  obtain ⟨hassigns, hcells, -⟩ := List.nodup_append.mp hr
  refine ⟨fun nm => ?_, fun nm => ?_⟩
  · exact (Dict.lookup_eq_of_perm h.assigns hassigns nm).symm
  · refine (Dict.lookup_eq_of_perm (allDrivers_perm h.insts) ?_ nm).symm
    rw [map_fst_allDrivers]
    exact List.nodup_reverse.mpr hcells

/-! ### Sorted lists -/

/-- Sorting by a key that tells the members apart forgets their order. -/
theorem mergeSort_eq_of_perm {α : Type} (key : α → String) {l l' : List α} (h : l.Perm l')
    (hnd : (l.map key).Nodup) :
    l.mergeSort (fun a b => key a ≤ key b) = l'.mergeSort fun a b => key a ≤ key b := by
  have htrans (a b c : α) (hab : decide (key a ≤ key b) = true)
      (hbc : decide (key b ≤ key c) = true) : decide (key a ≤ key c) = true :=
    decide_eq_true (String.le_trans (of_decide_eq_true hab) (of_decide_eq_true hbc))
  have htotal (a b : α) : (decide (key a ≤ key b) || decide (key b ≤ key a)) = true := by
    rw [Bool.or_eq_true, decide_eq_true_iff, decide_eq_true_iff]
    exact String.le_total _ _
  refine List.Perm.eq_of_pairwise (fun a b ha hb hab hba => ?_)
    (List.pairwise_mergeSort htrans htotal l) (List.pairwise_mergeSort htrans htotal l')
    ((List.mergeSort_perm l _).trans (h.trans (List.mergeSort_perm l' _).symm))
  have ha' : a ∈ l := List.mem_mergeSort.mp ha
  have hb' : b ∈ l := h.mem_iff.mpr (List.mem_mergeSort.mp hb)
  exact List.inj_on_of_nodup_map hnd ha' hb'
    (String.le_antisymm (of_decide_eq_true hab) (of_decide_eq_true hba))

theorem mergeSort_dedup_eq_of_perm {names names' : List String} (h : names.Perm names') :
    names.dedup.mergeSort (· ≤ ·) = names'.dedup.mergeSort (· ≤ ·) := by
  refine mergeSort_eq_of_perm id h.dedup ?_
  rw [List.map_id]
  exact List.nodup_dedup names

/-! ### The elaboration -/

/-- Two netlists have the same winners on the nets in `S`, and what is read from these nets lies in
`S` again. -/
structure AgreeOn (S : Net → Prop) (assigns assigns' : List (Net × Net))
    (drv drv' : List (Net × Inst)) : Prop where
  assign : ∀ nm, S nm → assigns'.lookup nm = assigns.lookup nm
  driver : ∀ nm, S nm → drv'.lookup nm = drv.lookup nm
  aliased : ∀ nm m, S nm → assigns.lookup nm = some m → S m
  conns : ∀ nm inst, S nm → drv.lookup nm = some inst →
    ∀ p m, inst.conns.get? p = some m → S m

section Elaboration

variable {S : Net → Prop} {src src' : Source} {drv drv' : List (Net × Inst)}

theorem agreeOn_of_lookup {assigns assigns' : List (Net × Net)}
    (hassign : ∀ nm, assigns'.lookup nm = assigns.lookup nm)
    (hdriver : ∀ nm, drv'.lookup nm = drv.lookup nm) :
    AgreeOn (fun _ => True) assigns assigns' drv drv' :=
  ⟨fun nm _ => hassign nm, fun nm _ => hdriver nm, fun _ _ _ _ => trivial,
    fun _ _ _ _ _ _ _ => trivial⟩

section Programs

variable {read read' : Net → Elab ℕ} {conns : Dict Pin Net}

theorem operand_congr (h : ∀ p nm, conns.get? p = some nm → read' nm = read nm)
    (locals : List (String × ℕ)) (a : String) :
    operand read' conns locals a = operand read conns locals a := by
  rw [operand, operand]
  cases locals.lookup a with
  | some i => rfl
  | none =>
    cases hconn : conns.get? a with
    | none => rfl
    | some nm => exact h a nm hconn

/-- A program reads the nets on the pins of its instance and no others. -/
theorem runOps_congr (h : ∀ p nm, conns.get? p = some nm → read' nm = read nm) (ops : List Op)
    (locals : List (String × ℕ)) :
    runOps read' conns ops locals = runOps read conns ops locals := by
  have hop (op : Op) (locals : List (String × ℕ)) :
      runOp read' conns locals op = runOp read conns locals op := by
    cases op <;> simp only [runOp, operand_congr h]
  induction ops generalizing locals with
  | nil => rfl
  | cons op ops ih => simp only [runOps, hop, ih]

theorem expandDriver_congr {inst : Inst}
    (h : ∀ p nm, inst.conns.get? p = some nm → read' nm = read nm) (nm : Net) :
    expandDriver read' inst nm = expandDriver read inst nm := by
  rw [expandDriver, expandDriver]
  simp only [runOps_congr h]

end Programs

/-- The index of a net is read through the winners of the nets below it. -/
theorem net_congr (hpinned : src'.pinned = src.pinned)
    (h : AgreeOn S src.assigns src'.assigns drv drv') {depth : ℕ} {resolving : List Net} {nm : Net}
    (hnm : S nm) : net src' drv' depth resolving nm = net src drv depth resolving nm := by
  induction depth generalizing resolving nm with
  | zero => rfl
  | succ depth ih =>
    rw [net, net, hpinned, h.assign nm hnm, h.driver nm hnm]
    cases hassign : src.assigns.lookup nm with
    | some m => simp only [ih (h.aliased nm m hnm hassign)]
    | none =>
      cases hdriver : drv.lookup nm with
      | none => rfl
      | some inst =>
        have hexpand : expandDriver (net src' drv' depth (nm :: resolving)) inst nm =
            expandDriver (net src drv depth (nm :: resolving)) inst nm :=
          expandDriver_congr (fun p m hm => ih (h.conns nm inst hnm hdriver p m hm)) nm
        simp only [hexpand]

theorem rootValue_congr (hpinned : src'.pinned = src.pinned)
    (h : AgreeOn S src.assigns src'.assigns drv drv') {depth : ℕ} {nm : Net} (hnm : S nm) :
    rootValue src' drv' depth nm = rootValue src drv depth nm := by
  have hroot : S ((src.assigns.lookup nm).getD nm) := by
    cases hassign : src.assigns.lookup nm with
    | none => exact hnm
    | some m => exact h.aliased nm m hnm hassign
  rw [rootValue, rootValue, h.assign nm hnm]
  simp only [h.driver _ hroot]
  cases hdriver : drv.lookup ((src.assigns.lookup nm).getD nm) with
  | none => rfl
  | some inst =>
    exact expandDriver_congr
      (fun p m hm => net_congr hpinned h (h.conns _ inst hroot hdriver p m hm)) _

theorem stateRoot_congr (hpinned : src'.pinned = src.pinned)
    (h : AgreeOn S src.assigns src'.assigns drv drv') {depth : ℕ} {f : Flop}
    (hd : ∀ d, f.d = some d → S d) (hconns : ∀ p m, f.conns.get? p = some m → S m) :
    stateRoot src' drv' depth f = stateRoot src drv depth f := by
  rw [stateRoot, stateRoot]
  cases hfd : f.d with
  | some d => exact net_congr hpinned h (hd d hfd)
  | none =>
    simp only [runOps_congr fun p m hm => net_congr hpinned h (hconns p m hm)]

/-- The output indices are read through the winners of the nets below the roots. -/
theorem outIdx_congr (hpinned : src'.pinned = src.pinned)
    (h : AgreeOn S src.assigns src'.assigns drv drv') {depth : ℕ} {outs : List Net}
    {auto : List Flop} {cuts : List Net} (houts : ∀ nm ∈ outs, S nm)
    (hd : ∀ f ∈ auto, ∀ d, f.d = some d → S d)
    (hconns : ∀ f ∈ auto, ∀ p m, f.conns.get? p = some m → S m) (hcuts : ∀ nm ∈ cuts, S nm) :
    outIdx src' drv' depth outs auto cuts = outIdx src drv depth outs auto cuts := by
  have hdesigns : outs.mapM (net src' drv' depth []) = outs.mapM (net src drv depth []) :=
    mapM_congr fun nm hnm => net_congr hpinned h (houts nm hnm)
  have hstates : auto.mapM (stateRoot src' drv' depth) = auto.mapM (stateRoot src drv depth) :=
    mapM_congr fun f hf => stateRoot_congr hpinned h (hd f hf) (hconns f hf)
  have hroots : cuts.mapM (rootValue src' drv' depth) = cuts.mapM (rootValue src drv depth) :=
    mapM_congr fun nm hnm => rootValue_congr hpinned h (hcuts nm hnm)
  rw [outIdx, outIdx, hdesigns, hstates, hroots]

theorem addDrivers_isOk {drv drv' drv₁ : List (Net × Inst)} {inst : Inst}
    (h : addDrivers drv inst = .ok drv₁) :
    addDrivers drv' inst = .ok (addKnownDrivers drv' inst) := by
  rw [addDrivers] at h
  rw [addKnownDrivers]
  cases hinst : addDrivers drv' inst with
  | ok drv₂ => rfl
  | error e =>
    rw [addDrivers] at hinst
    split_ifs at h hinst
    split at h
    · cases h
    · rename_i he
      rw [he] at hinst
      cases hinst

/-- The driver map of an instance list is that of its known drivers, where every instance is
known. -/
theorem driver_eq_ok_iff {insts : List Inst} {drv : List (Net × Inst)} :
    driver insts = .ok drv ↔
      (∀ inst ∈ insts, ∃ drv₁, addDrivers [] inst = .ok drv₁) ∧ drv = allDrivers insts := by
  have hall (drv₀ : List (Net × Inst)) (insts : List Inst)
      (h : ∀ inst ∈ insts, ∃ drv₁, addDrivers [] inst = .ok drv₁) :
      insts.foldlM addDrivers drv₀ = .ok (insts.foldl addKnownDrivers drv₀) := by
    induction insts generalizing drv₀ with
    | nil => rfl
    | cons inst insts ih =>
      obtain ⟨drv₁, h₁⟩ := h inst List.mem_cons_self
      rw [List.foldlM_cons, addDrivers_isOk h₁]
      exact ih _ fun inst hmem => h inst (List.mem_cons_of_mem _ hmem)
  constructor
  · intro h
    refine ⟨fun inst hmem => ?_, driver_eq_ok h⟩
    obtain ⟨drv₁, drv₂, rest, h₁, -⟩ := exists_foldlM_of_mem hmem h
    exact ⟨_, addDrivers_isOk h₁⟩
  · rintro ⟨h, rfl⟩
    exact hall [] insts h

/-- An elaboration returns where no input stands twice, every instance is known and the outputs are
elaborated. -/
theorem elaborate_eq_ok_iff {depth : ℕ} {outs : List Net} {auto : List Flop} {cuts : List Net}
    {datum : Datum} : elaborate depth src outs auto cuts = .ok datum ↔
      duplicates src.inputs = [] ∧ (∀ inst ∈ src.insts, ∃ drv, addDrivers [] inst = .ok drv) ∧
      (do
        let p ← (outIdx src (allDrivers src.insts) depth outs auto cuts).run
          (src.inputs.foldl seedInputs ⟨[], []⟩)
        return (⟨p.2.gates, p.1⟩ : Datum)) = .ok datum := by
  rw [elaborate, build]
  by_cases hdup : duplicates src.inputs = []
  · rw [if_neg (not_not.mpr hdup)]
    constructor
    · intro h
      obtain ⟨⟨drv, s₀⟩, hbuild, h⟩ := bind_eq_ok h
      obtain ⟨drv₁, hdrv, hbuild⟩ := bind_eq_ok hbuild
      cases hbuild
      obtain ⟨hknown, rfl⟩ := driver_eq_ok_iff.mp hdrv
      exact ⟨hdup, hknown, h⟩
    · rintro ⟨-, hknown, h⟩
      rw [driver_eq_ok_iff.mpr ⟨hknown, rfl⟩]
      exact h
  · rw [if_pos hdup]
    constructor
    · intro h
      cases h
    · rintro ⟨hdup', -⟩
      exact absurd hdup' hdup

/-- Elaborations with the same winners have the same result. -/
theorem elaborate_congr (hinsts : src.insts.Perm src'.insts) (hinputs : src'.inputs = src.inputs)
    (hpinned : src'.pinned = src.pinned)
    (hassign : ∀ nm, src'.assigns.lookup nm = src.assigns.lookup nm)
    (hdriver : ∀ nm, (allDrivers src'.insts).lookup nm = (allDrivers src.insts).lookup nm)
    {depth : ℕ} {outs : List Net} {auto : List Flop} {cuts : List Net} {datum : Datum}
    (h : elaborate depth src outs auto cuts = .ok datum) :
    elaborate depth src' outs auto cuts = .ok datum := by
  obtain ⟨hdup, hknown, h⟩ := elaborate_eq_ok_iff.mp h
  refine elaborate_eq_ok_iff.mpr ⟨?_, fun inst hmem => hknown inst (hinsts.mem_iff.mpr hmem), ?_⟩
  · rw [hinputs]
    exact hdup
  · rw [hinputs, outIdx_congr hpinned (agreeOn_of_lookup hassign hdriver) (fun _ _ => trivial)
      (fun _ _ _ _ => trivial) (fun _ _ _ _ _ => trivial) fun _ _ => trivial]
    exact h

end Elaboration

/-! ### The flops -/

/-- The records that a scan of one instance finds, unless the import refuses the instance. -/
def flopRecords (pinReset : Option Net) (inst : Inst) : Option (List Flop) :=
  match scanFlop pinReset ⟨[], [], []⟩ inst with
  | .ok ⟨flops, [], []⟩ => some flops
  | _ => none

theorem scanFlop_eq (pinReset : Option Net) (acc : FlopScan) (inst : Inst) :
    scanFlop pinReset acc inst =
      (fun found => ⟨acc.flops ++ found.flops, acc.unmodelled ++ found.unmodelled,
        acc.gated ++ found.gated⟩) <$> scanFlop pinReset ⟨[], [], []⟩ inst := by
  rw [scanFlop, scanFlop]
  by_cases hseq : isSequential inst.cell
  · rw [if_neg (not_not.mpr hseq), if_neg (not_not.mpr hseq)]
    cases seqModelFor inst.cell with
    | none => simp
    | some m =>
      simp only
      split_ifs
      · rfl
      · rfl
      · simp
      · cases flopOf inst m with
        | error e => rfl
        | ok f => simp [bind, Except.bind, pure, Except.pure, Functor.map, Except.map]
  · rw [if_pos hseq, if_pos hseq]
    simp

/-- A scan finds the records of its instances one after the other. -/
theorem foldlM_scanFlop_eq_ok_iff {pinReset : Option Net} {insts : List Inst} {acc : FlopScan}
    {flops : List Flop} :
    insts.foldlM (scanFlop pinReset) acc = .ok ⟨flops, [], []⟩ ↔
      acc.unmodelled = [] ∧ acc.gated = [] ∧
        (∀ inst ∈ insts, (flopRecords pinReset inst).isSome) ∧
        flops = acc.flops ++ insts.flatMap fun inst => (flopRecords pinReset inst).getD [] := by
  induction insts generalizing acc with
  | nil =>
    obtain ⟨found, unmodelled, gated⟩ := acc
    simp [pure, Except.pure]
    tauto
  | cons inst insts ih =>
    rw [List.foldlM_cons, scanFlop_eq]
    cases hscan : scanFlop pinReset ⟨[], [], []⟩ inst with
    | error e => simp [bind, Except.bind, Functor.map, Except.map, flopRecords, hscan]
    | ok found =>
      obtain ⟨found, unmodelled, gated⟩ := found
      change List.foldlM _ _ insts = _ ↔ _
      rw [ih, List.flatMap_cons]
      cases unmodelled <;> cases gated <;> simp [flopRecords, hscan]

/-- The flops of an instance list are the records of its instances, none of which is refused. -/
theorem findFlops_eq_ok_iff {insts : List Inst} {pinReset : Option Net} {flops : List Flop} :
    findFlops insts pinReset = .ok flops ↔
      (∀ inst ∈ insts, (flopRecords pinReset inst).isSome) ∧
        flops = insts.flatMap fun inst => (flopRecords pinReset inst).getD [] := by
  have hscan : insts.foldlM (scanFlop pinReset) ⟨[], [], []⟩ = .ok ⟨flops, [], []⟩ ↔ _ :=
    foldlM_scanFlop_eq_ok_iff
  rw [eq_self, true_and, true_and, List.nil_append] at hscan
  rw [← hscan]
  constructor
  · exact findFlops_eq_ok
  · intro h
    rw [findFlops, h]
    rfl

theorem findFlops_perm {insts insts' : List Inst} {pinReset : Option Net} {flops : List Flop}
    (hperm : insts.Perm insts') (h : findFlops insts pinReset = .ok flops) :
    ∃ flops', findFlops insts' pinReset = .ok flops' ∧ flops.Perm flops' := by
  obtain ⟨hsome, rfl⟩ := findFlops_eq_ok_iff.mp h
  refine ⟨_, findFlops_eq_ok_iff.mpr ⟨fun inst hmem => ?_, rfl⟩, hperm.flatMap_right _⟩
  exact hsome inst (hperm.mem_iff.mpr hmem)

/-- The state nets of the flops that are found are those of the sequential instances. -/
theorem map_q_of_findFlops {insts : List Inst} {pinReset : Option Net} {flops : List Flop}
    (h : findFlops insts pinReset = .ok flops) : flops.map Flop.q = stateNets insts := by
  obtain ⟨hsome, rfl⟩ := findFlops_eq_ok_iff.mp h
  rw [List.map_flatMap, stateNets, List.filterMap_eq_flatMap_toList]
  refine List.flatMap_congr fun inst hmem => ?_
  have hinst := hsome inst hmem
  rw [flopRecords] at hinst ⊢
  split at hinst
  · rename_i fs hscan
    rcases scanFlop_cases hscan with ⟨hseq, hacc⟩ | hacc | hacc |
      ⟨m, f, hseq, hm, hpins, -, hf, hacc⟩
    · cases hacc
      simp [hseq]
    · cases hacc
    · cases hacc
    · cases hacc
      have hq := (flopOf_found hmem hseq hm hpins hf).q
      obtain ⟨rfl, hconns⟩ := flopOf_model hf
      rw [hconns] at hq
      simp [hseq, hm, hq]
  · cases hinst

/-! ### The flop treatment -/

section Treatment

variable {r r' : Request} {flops flops' : List Flop}

theorem clockRoot_congr {S : Net → Prop} {assigns assigns' : List (Net × Net)}
    {drv drv' : List (Net × Inst)} (h : AgreeOn S assigns assigns' drv drv') {inputs : List Net}
    {depth : ℕ} {nm : Net} (hnm : S nm) :
    clockRoot drv' assigns' inputs depth nm = clockRoot drv assigns inputs depth nm := by
  induction depth generalizing nm with
  | zero => rfl
  | succ depth ih =>
    rw [clockRoot, clockRoot, h.assign nm hnm, h.driver nm hnm]
    cases hassign : assigns.lookup nm with
    | some m => exact ih (h.aliased nm m hnm hassign)
    | none =>
      cases hdriver : drv.lookup nm with
      | none => rfl
      | some inst =>
        have hbelow (a : Pin) (k : Net × Bool → Option (Net × Bool)) :
            ((inst.conns.get? a).bind fun m => (clockRoot drv' assigns' inputs depth m).bind k) =
              (inst.conns.get? a).bind fun m => (clockRoot drv assigns inputs depth m).bind k := by
          cases hconn : inst.conns.get? a with
          | none => rfl
          | some m => exact congrArg (·.bind k) (ih (h.conns nm inst hnm hdriver a m hconn))
        have hbuf (a : Pin) :
            ((inst.conns.get? a).bind fun m => clockRoot drv' assigns' inputs depth m) =
              (inst.conns.get? a).bind fun m => clockRoot drv assigns inputs depth m := by
          simpa only [Option.bind_fun_some] using hbelow a some
        simp only [bind, hbelow, hbuf]

theorem checkClockDomain_perm {drv : List (Net × Inst)} {assigns : List (Net × Net)}
    {inputs : List Net} {dom : Net × Bool × ℕ} (hperm : flops.Perm flops')
    (h : checkClockDomain flops drv assigns inputs = .ok dom) :
    checkClockDomain flops' drv assigns inputs = .ok dom := by
  obtain ⟨roots, hroots, h⟩ := bind_eq_ok h
  obtain ⟨roots', hroots', hperm'⟩ := mapM_perm hperm hroots
  split at h
  · rename_i root parity hdom
    have hdom' : roots'.dedup = [(root, parity)] :=
      List.perm_singleton.mp (hperm'.dedup.symm.trans (List.Perm.of_eq hdom))
    rw [checkClockDomain, hroots', ← ((hperm.map Flop.clk).dedup).length_eq]
    simp only [bind, Except.bind, hdom']
    exact h
  · cases h

theorem checkPinnedReset_congr {drv drv' : List (Net × Inst)}
    (hdriver : ∀ nm, drv'.lookup nm = drv.lookup nm) (hperm : flops.Perm flops') (nm : Net)
    (inputs : List Net) :
    checkPinnedReset flops' nm drv' inputs = checkPinnedReset flops nm drv inputs := by
  have hnets : (flops.filterMap fun f => f.reset.map Prod.fst).Perm
      (flops'.filterMap fun f => f.reset.map Prod.fst) := hperm.filterMap _
  rw [checkPinnedReset, checkPinnedReset]
  simp only [← mergeSort_dedup_eq_of_perm hnets, ← hnets.length_eq, hdriver]

theorem pinnedNets_congr (hr : Reordered r r') (hw : SameWinners r r')
    (hperm : flops.Perm flops') {pinned : List (Net × Bool)} (h : pinnedNets r flops = .ok pinned) :
    pinnedNets r' flops' = .ok pinned := by
  rw [pinnedNets, Request.resetGiven] at h
  rw [pinnedNets, Request.resetGiven, hr.pinReset, hr.ins]
  split at h
  · exact h
  · rename_i nm hnm
    obtain ⟨count, hcount, h⟩ := bind_eq_ok h
    rw [checkPinnedReset_congr hw.driver hperm, hcount]
    have hvalues : (flops.filterMap fun f => f.reset.map Prod.snd).Perm
        (flops'.filterMap fun f => f.reset.map Prod.snd) := hperm.filterMap _
    split at h
    · rename_i inactive hinactive
      have hinactive' : (flops'.filterMap fun f => f.reset.map Prod.snd).dedup = [inactive] :=
        List.perm_singleton.mp (hvalues.dedup.symm.trans (List.Perm.of_eq hinactive))
      simp only [bind, Except.bind, hinactive']
      exact h
    · cases h

theorem autoFlops_congr (hr : Reordered r r') (hperm : flops.Perm flops')
    (hnd : (flops.map Flop.q).Nodup) {auto : List Flop} (h : autoFlops r flops = .ok auto) :
    autoFlops r' flops' = .ok auto := by
  have hfilter {p : Flop → Bool} (hnil : flops.filter p = []) : flops'.filter p = [] :=
    List.perm_nil.mp ((hperm.filter p).symm.trans (List.Perm.of_eq hnil))
  rw [autoFlops] at h
  rw [autoFlops, hr.ins, hr.outs]
  split at h
  · cases h
  · rename_i hexpr
    split at h
    · cases h
    · rename_i hhalf
      rw [hfilter hexpr, hfilter hhalf, ← h]
      refine congrArg Except.ok (mergeSort_eq_of_perm Flop.q (hperm.filter _) ?_).symm
      exact hnd.sublist (List.filter_sublist.map Flop.q)

theorem treatFlops_congr (hr : Reordered r r') (hw : SameWinners r r') (hperm : flops.Perm flops')
    (hnd : (flops.map Flop.q).Nodup) {auto : List Flop} {pinned : List (Net × Bool)}
    (h : treatFlops r flops = .ok (auto, pinned)) :
    treatFlops r' flops' = .ok (auto, pinned) := by
  rw [treatFlops, Request.resetGiven] at h
  rw [treatFlops, Request.resetGiven, hr.pinReset]
  by_cases hnil : flops = []
  · rw [if_pos hnil] at h
    rw [if_pos (List.perm_nil.mp (hnil ▸ hperm.symm))]
    exact h
  · rw [if_neg hnil] at h
    have hnil' : flops' ≠ [] := fun hnil' => hnil (List.perm_nil.mp (hnil' ▸ hperm))
    rw [if_neg hnil']
    obtain ⟨dom, hdom, h⟩ := bind_eq_ok h
    obtain ⟨pinned', hpinned, h⟩ := bind_eq_ok h
    obtain ⟨auto', hauto, h⟩ := bind_eq_ok h
    have hdom' : checkClockDomain flops' (allDrivers r'.insts) r'.assigns r'.ins = .ok dom := by
      have hroot (nm : Net) : clockRoot (allDrivers r'.insts) r'.assigns r.ins clockDepth nm =
          clockRoot (allDrivers r.insts) r.assigns r.ins clockDepth nm :=
        clockRoot_congr (agreeOn_of_lookup hw.assign hw.driver) trivial
      rw [← checkClockDomain_perm hperm hdom, hr.ins, checkClockDomain, checkClockDomain]
      simp only [hroot]
    rw [hdom', pinnedNets_congr hr hw hperm hpinned, autoFlops_congr hr hperm hnd hauto]
    exact h

theorem cutNets_congr (hr : Reordered r r') (inputs : List Net) :
    cutNets r' inputs = cutNets r inputs := by
  have hdriven {p : Net → Bool} : ((drivenNets r.insts).filter p).Perm
      ((drivenNets r'.insts).filter p) :=
    ((allDrivers_perm hr.insts).map Prod.fst).filter p
  rw [cutNets, cutNets, hr.cut]
  cases r.cut with
  | none => rfl
  | some cut => simp only [← mergeSort_dedup_eq_of_perm hdriven]

end Treatment

/-! ### The import -/

/-- A request whose winners stay the same imports the same in every order. -/
theorem importNetlist_congr {depth seqInText : ℕ} {r r' : Request} {imp : Imported}
    (hr : Reordered r r') (hw : SameWinners r r')
    (h : importNetlist depth r seqInText = .ok imp) :
    ∃ imp', importNetlist depth r' seqInText = .ok imp' ∧ SameImport imp imp' := by
  obtain ⟨hseq, hacc⟩ := importNetlist_eq_ok_iff.mp h
  obtain ⟨datum, ⟨insts, assigns, inputs, pinned⟩, flops, auto, cuts, nin, nout⟩ := imp
  obtain ⟨hflops, htreat, hcuts, hinsts, hassigns, hinputs, hdatum, hnodup, hin, hout⟩ := hacc
  obtain rfl : insts = r.insts := hinsts
  obtain rfl : assigns = r.assigns := hassigns
  obtain ⟨flops', hflops', hperm⟩ := findFlops_perm hr.insts hflops
  refine ⟨⟨datum, ⟨r'.insts, r'.assigns, inputs, pinned⟩, flops', auto, cuts, nin, nout⟩,
    importNetlist_eq_ok_iff.mpr ⟨hseq.trans hperm.length_eq, ?_⟩, rfl, rfl, rfl, rfl, rfl, rfl, rfl⟩
  refine ⟨?_, treatFlops_congr hr hw hperm hnodup htreat, ?_, rfl, rfl, ?_, ?_, ?_, ?_, ?_⟩
  · rw [hr.pinReset]
    exact hflops'
  · rw [cutNets_congr hr, hr.ins]
    exact hcuts
  · rw [hr.ins]
    exact hinputs
  · rw [hr.outs]
    refine elaborate_congr ?_ ?_ ?_ ?_ ?_ hdatum
    · exact hr.insts
    · rfl
    · rfl
    · exact hw.assign
    · exact hw.driver
  · exact (hperm.map Flop.q).nodup_iff.mp hnodup
  · rw [hr.ins]
    exact hin
  · rw [hr.outs]
    exact hout

/-- An import that returns has told its flops apart by their state nets. Every other conflict
between drivers is settled by the order of the source: the import is the same in every order
that keeps the first assign and the last driving cell of each net, and in every order at all
where no net has two drivers. -/
theorem importNetlist_reordered {depth seqInText : ℕ} {r : Request} {imp : Imported}
    (h : importNetlist depth r seqInText = .ok imp) :
    (stateNets r.insts).Nodup ∧
    (∀ r', Reordered r r' → SameWinners r r' →
      ∃ imp', importNetlist depth r' seqInText = .ok imp' ∧ SameImport imp imp') ∧
    (OneDriver r → ∀ r', Reordered r r' →
      ∃ imp', importNetlist depth r' seqInText = .ok imp' ∧ SameImport imp imp') := by
  have hacc := importNetlist_accepted h
  refine ⟨?_, fun r' hr hw => importNetlist_congr hr hw h, fun hone r' hr => ?_⟩
  · rw [← map_q_of_findFlops hacc.flops]
    exact hacc.nodup
  · exact importNetlist_congr hr (hr.sameWinners hone.singlyDriven) h

/-! ### Requests in two orders -/

/-- The request with its instances and its assigns read from the end. -/
def Request.reversed (r : Request) : Request :=
  { r with insts := r.insts.reverse, assigns := r.assigns.reverse }

theorem Request.reordered_reversed (r : Request) : Reordered r r.reversed :=
  ⟨(List.reverse_perm _).symm, (List.reverse_perm _).symm, rfl, rfl, rfl, rfl⟩

/-- A buffer, an inverter and two assigns, with one driver for each net. -/
def plainRequest : Request where
  insts := [
    ⟨"buf_1", "_0_", Dict.ofList [("A", "a"), ("X", "x")]⟩,
    ⟨"inv_1", "_1_", Dict.ofList [("A", "x"), ("Y", "y")]⟩]
  assigns := [("o", "y"), ("p", "x")]
  ins := ["a"]
  outs := ["o", "p"]
  pinReset := none
  cut := none

/-- The import of `plainRequest`. -/
def plainImport : Imported where
  datum := ⟨[.inp 0, .not 0], [1, 0]⟩
  source := ⟨plainRequest.insts, plainRequest.assigns, ["a"], []⟩
  flops := []
  auto := []
  cuts := []
  ndesignIn := 1
  ndesignOut := 2

theorem importNetlist_plainRequest : importNetlist 10 plainRequest 0 = .ok plainImport := by
  decide

theorem importNetlist_reordered_plainRequest :
    ∃ imp, importNetlist 10 plainRequest.reversed 0 = .ok imp ∧
      imp.datum = ⟨[.inp 0, .not 0], [1, 0]⟩ := by
  obtain ⟨-, -, h⟩ := importNetlist_reordered importNetlist_plainRequest
  obtain ⟨imp, himp, hsame⟩ := h (by decide) _ plainRequest.reordered_reversed
  exact ⟨imp, himp, hsame.datum⟩

/-- Nets with two drivers: `y` of two cells, `s` of two pins of one cell, `z` of two assigns, `w`
of a cell and an assign, `q` of a flop and a cell. -/
def sharedRequest : Request where
  insts := [
    ⟨"buf_1", "_0_", Dict.ofList [("A", "a"), ("X", "y")]⟩,
    ⟨"inv_1", "_1_", Dict.ofList [("A", "a"), ("Y", "y")]⟩,
    ⟨"conb_1", "_2_", Dict.ofList [("HI", "s"), ("LO", "s")]⟩,
    ⟨"buf_1", "_3_", Dict.ofList [("A", "b"), ("X", "w")]⟩,
    ⟨"dfxtp_1", "_4_", Dict.ofList [("CLK", "clk"), ("D", "a"), ("Q", "q")]⟩,
    ⟨"buf_1", "_5_", Dict.ofList [("A", "b"), ("X", "q")]⟩]
  assigns := [("z", "a"), ("z", "b"), ("w", "a")]
  ins := ["a", "b", "clk"]
  outs := ["y", "s", "z", "w", "q"]
  pinReset := none
  cut := none

/-- Drivers that share a net are not refused, and their order shows in the datum. -/
theorem not_refuses_shared_nets :
    ¬ OneDriver sharedRequest ∧ Reordered sharedRequest sharedRequest.reversed ∧
    ∃ imp imp', importNetlist 10 sharedRequest 1 = .ok imp ∧
      importNetlist 10 sharedRequest.reversed 1 = .ok imp' ∧ imp'.datum ≠ imp.datum := by
  have hfirst : Imported.datum <$> importNetlist 10 sharedRequest 1 = .ok
      ⟨[.inp 0, .inp 1, .inp 2, .inp 3, .not 0, .const true, .const false],
        [4, 5, 0, 0, 3, 0]⟩ := by
    decide +kernel
  have hlast : Imported.datum <$> importNetlist 10 sharedRequest.reversed 1 = .ok
      ⟨[.inp 0, .inp 1, .inp 2, .inp 3, .const true, .const false], [0, 4, 1, 0, 3, 0]⟩ := by
    decide +kernel
  obtain ⟨imp, himp, hdatum⟩ := map_eq_ok hfirst
  obtain ⟨imp', himp', hdatum'⟩ := map_eq_ok hlast
  refine ⟨by decide, sharedRequest.reordered_reversed, imp, imp', himp, himp', ?_⟩
  rw [hdatum, hdatum']
  decide

end Saltworks.Importer
