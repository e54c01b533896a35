import Saltworks.Importer.SourceOrder

/-!
# Statements around a netlist

A netlist may stand among instances and assigns of other origin, in front of its own and behind
them. Where these hold no flop, drive no net that the netlist reads and are not met by `--cut`,
the import of the whole is that of the netlist alone.

## Main definitions

* `Surroundings`, `Request.within`: a request among other instances and assigns.
* `Request.nets`, `Apart`: the nets that a request reads, and surroundings that do not touch them.

## Main results

* `importNetlist_within`: the import of a request among surroundings that are apart from it.
-/

namespace Saltworks.Importer

open Silicon Fallible

/-- Instances and assigns around those of a netlist. -/
structure Surroundings where
  instsBefore : List Inst
  instsAfter : List Inst
  assignsBefore : List (Net × Net)
  assignsAfter : List (Net × Net)

namespace Surroundings

/-- All instances. -/
def insts (s : Surroundings) : List Inst := s.instsBefore ++ s.instsAfter

/-- The nets on the output pins of the instances. -/
def outs (s : Surroundings) : List Net := s.insts.flatMap outNets

/-- The nets that the assigns and the instances drive. -/
def driven (s : Surroundings) : List Net :=
  (s.assignsBefore ++ s.assignsAfter).map Prod.fst ++ s.outs

/-- Every instance is physical, sequential or expandable. -/
def Known (s : Surroundings) : Prop := ∀ inst ∈ s.insts, ∃ drv, addDrivers [] inst = .ok drv

end Surroundings

/-- The request with its instances and its assigns among others. -/
def Request.within (r : Request) (s : Surroundings) : Request :=
  { r with
    insts := s.instsBefore ++ r.insts ++ s.instsAfter
    assigns := s.assignsBefore ++ r.assigns ++ s.assignsAfter }

/-- The import with its instances and its assigns among others. -/
def Imported.within (imp : Imported) (s : Surroundings) : Imported :=
  { imp with
    source := { imp.source with
      insts := s.instsBefore ++ imp.source.insts ++ s.instsAfter
      assigns := s.assignsBefore ++ imp.source.assigns ++ s.assignsAfter } }

/-- The nets that a request reads: its outputs, its pinned reset, the nets on its pins and the
right sides of its assigns. -/
def Request.nets (r : Request) : List Net :=
  r.outs ++ r.resetGiven.toList ++ r.insts.flatMap (fun inst => inst.conns.items.map Prod.snd) ++
    r.assigns.map Prod.snd

/-- The surroundings hold no flop, drive no net that the request reads and are not met by the
expression of `--cut`. -/
structure Apart (r : Request) (s : Surroundings) : Prop where
  sequential : ∀ inst ∈ s.insts, ¬ isSequential inst.cell
  driven : ∀ nm ∈ r.nets, nm ∉ s.driven
  cut : ∀ c ∈ r.cut, ∀ nm ∈ s.outs, ¬ (nm ≠ "" ∧ c.2 nm)

section Within

variable {r : Request} {s : Surroundings}

/-! ### Nets that the surroundings do not drive -/

theorem mem_nets_of_conn {inst : Inst} (hinst : inst ∈ r.insts) {p : Pin} {nm : Net}
    (hnm : inst.conns.get? p = some nm) : nm ∈ r.nets := by
  have hitem : nm ∈ inst.conns.items.map Prod.snd :=
    List.mem_map_of_mem (f := Prod.snd) (Dict.mem_of_lookup hnm)
  have hpins : nm ∈ r.insts.flatMap fun inst => inst.conns.items.map Prod.snd :=
    List.mem_flatMap.mpr ⟨inst, hinst, hitem⟩
  exact List.mem_append_left _ (List.mem_append_right _ hpins)

theorem lookup_within {K V : Type} [DecidableEq K] {before es after : List (K × V)} {k : K}
    (h : k ∉ (before ++ after).map Prod.fst) :
    (before ++ es ++ after).lookup k = es.lookup k := by
  rw [List.map_append, List.mem_append, not_or] at h
  rw [List.lookup_append, List.lookup_append, Dict.lookup_eq_none_iff.mpr h.1,
    Dict.lookup_eq_none_iff.mpr h.2, Option.or_none, Option.none_or]

theorem allDrivers_append (insts insts' : List Inst) :
    allDrivers (insts ++ insts') = allDrivers insts' ++ allDrivers insts := by
  simp only [allDrivers_eq, List.flatMap_append, List.reverse_append]

/-- The winners of the nets that the surroundings do not drive are those of the request. -/
theorem Apart.agreeOn (h : Apart r s) : AgreeOn (· ∉ s.driven) r.assigns (r.within s).assigns
    (allDrivers r.insts) (allDrivers (r.within s).insts) where
  assign nm hnm := lookup_within fun hmem => hnm (List.mem_append_left _ hmem)
  driver nm hnm := by
    rw [Request.within, allDrivers_append, allDrivers_append, ← List.append_assoc]
    refine lookup_within fun hmem => hnm (List.mem_append_right _ ?_)
    rw [← allDrivers_append, map_fst_allDrivers, List.mem_reverse] at hmem
    exact hmem
  aliased nm m hnm hm := by
    refine h.driven m (List.mem_append_right _ ?_)
    exact List.mem_map_of_mem (f := Prod.snd) (Dict.mem_of_lookup hm)
  conns nm inst hnm hinst p m hm := by
    obtain ⟨e, o, hdrives⟩ := drives_of_lookup hinst
    exact h.driven m (mem_nets_of_conn hdrives.mem hm)

/-! ### The stages of the import -/

theorem foldlM_scanFlop_of_not_sequential {pinReset : Option Net} {insts : List Inst}
    (h : ∀ inst ∈ insts, ¬ isSequential inst.cell) (acc : FlopScan) :
    insts.foldlM (scanFlop pinReset) acc = .ok acc := by
  induction insts with
  | nil => rfl
  | cons inst insts ih =>
    obtain ⟨hinst, hinsts⟩ := List.forall_mem_cons.mp h
    rw [List.foldlM_cons, scanFlop, if_pos hinst]
    exact ih hinsts

theorem findFlops_within (h : Apart r s) :
    findFlops (r.within s).insts (r.within s).pinReset = findFlops r.insts r.pinReset := by
  have hbefore : ∀ inst ∈ s.instsBefore, ¬ isSequential inst.cell :=
    fun inst hmem => h.sequential inst (List.mem_append_left _ hmem)
  have hafter : ∀ inst ∈ s.instsAfter, ¬ isSequential inst.cell :=
    fun inst hmem => h.sequential inst (List.mem_append_right _ hmem)
  have hscan : (r.within s).insts.foldlM (scanFlop r.pinReset) ⟨[], [], []⟩ =
      r.insts.foldlM (scanFlop r.pinReset) ⟨[], [], []⟩ := by
    rw [Request.within, List.foldlM_append, List.foldlM_append,
      foldlM_scanFlop_of_not_sequential hbefore]
    change (r.insts.foldlM _ _ >>= fun acc => s.instsAfter.foldlM _ acc) = _
    simp only [foldlM_scanFlop_of_not_sequential hafter]
    exact bind_pure _
  change findFlops (r.within s).insts r.pinReset = _
  rw [findFlops, findFlops, hscan]

theorem treatFlops_within (h : Apart r s) {flops : List Flop}
    (hflops : ∀ f ∈ flops, f.Found r.insts) :
    treatFlops (r.within s) flops = treatFlops r flops := by
  have hclk : ∀ f ∈ flops, f.clk ∉ s.driven := by
    intro f hf
    obtain ⟨inst, hinst, -, -, hconns⟩ := (hflops f hf).inst
    exact h.driven f.clk (mem_nets_of_conn hinst (hconns ▸ (hflops f hf).clk))
  have hdomain : checkClockDomain flops (allDrivers (r.within s).insts) (r.within s).assigns
      (r.within s).ins = checkClockDomain flops (allDrivers r.insts) r.assigns r.ins := by
    rw [checkClockDomain, checkClockDomain]
    congr 1
    refine mapM_congr fun f hf => ?_
    rw [clockRoot_congr h.agreeOn (hclk f hf)]
    rfl
  have hpinned : pinnedNets (r.within s) flops = pinnedNets r flops := by
    have hwithin : (r.within s).resetGiven = r.resetGiven := rfl
    rw [pinnedNets, pinnedNets, hwithin]
    cases hreset : r.resetGiven with
    | none => rfl
    | some nm =>
      have hnm : nm ∈ r.nets := by
        simp [Request.nets, hreset]
      have hlookup := h.agreeOn.driver nm (h.driven nm hnm)
      simp only [checkPinnedReset, hlookup]
      rfl
  rw [treatFlops, treatFlops, hdomain, hpinned]
  rfl

theorem drivenNets_append (insts insts' : List Inst) :
    drivenNets (insts ++ insts') = drivenNets insts' ++ drivenNets insts := by
  rw [drivenNets, allDrivers_append, List.map_append]
  rfl

theorem cutNets_within (h : Apart r s) (inputs : List Net) :
    cutNets (r.within s) inputs = cutNets r inputs := by
  have hwithin : (r.within s).cut = r.cut := rfl
  rw [cutNets, cutNets, hwithin]
  cases hcut : r.cut with
  | none => rfl
  | some c =>
    have hnone {insts : List Inst} (hsub : insts ⊆ s.insts) :
        ((drivenNets insts).filter fun nm => nm ≠ "" ∧ c.2 nm) = [] := by
      rw [List.filter_eq_nil_iff]
      intro nm hnm
      rw [drivenNets, map_fst_allDrivers, List.mem_reverse, List.mem_flatMap] at hnm
      obtain ⟨inst, hinst, hnm⟩ := hnm
      rw [decide_eq_true_iff]
      exact h.cut c hcut nm (List.mem_flatMap.mpr ⟨inst, hsub hinst, hnm⟩)
    have hfilter : ((drivenNets (r.within s).insts).filter fun nm => nm ≠ "" ∧ c.2 nm) =
        (drivenNets r.insts).filter fun nm => nm ≠ "" ∧ c.2 nm := by
      rw [Request.within, drivenNets_append, drivenNets_append, List.filter_append,
        List.filter_append, hnone (List.subset_append_left _ _),
        hnone (List.subset_append_right _ _), List.append_nil, List.nil_append]
    simp only [hfilter]

/-- A cut net is driven by a combinational cell. -/
theorem driven_of_cutNets {inputs cuts : List Net} (h : cutNets r inputs = .ok cuts) :
    ∀ nm ∈ cuts, ∃ inst e o, Drives r.insts nm inst e o := by
  intro nm hnm
  rw [cutNets] at h
  split at h
  · cases h
    cases hnm
  · rename_i text rx hcut
    simp only at h
    split_ifs at h
    split at h
    · cases h
      rw [List.mem_mergeSort, List.mem_dedup, List.mem_filter, drivenNets, map_fst_allDrivers,
        List.mem_reverse, List.mem_flatMap] at hnm
      obtain ⟨⟨inst, hinst, hout⟩, -⟩ := hnm
      exact ⟨inst, drives_iff.mpr ⟨hinst, hout⟩⟩
    · cases h

theorem mem_nets_of_cutNets {inputs cuts : List Net} (h : cutNets r inputs = .ok cuts) :
    ∀ nm ∈ cuts, nm ∈ r.nets := by
  intro nm hnm
  obtain ⟨inst, e, o, hd⟩ := driven_of_cutNets h nm hnm
  exact mem_nets_of_conn hd.mem hd.conn

/-- The elaboration does not read the surroundings, but refuses a cell that it does not know. -/
theorem elaborate_within (h : Apart r s) {inputs : List Net} {pinned : List (Net × Bool)}
    {flops auto : List Flop} (hflops : ∀ f ∈ flops, f.Found r.insts) (hauto : auto ⊆ flops)
    {ins cuts : List Net} (hcuts : cutNets r ins = .ok cuts) {depth : ℕ} {datum : Datum} :
    elaborate depth ⟨(r.within s).insts, (r.within s).assigns, inputs, pinned⟩ r.outs auto cuts =
        .ok datum ↔
      s.Known ∧ elaborate depth ⟨r.insts, r.assigns, inputs, pinned⟩ r.outs auto cuts =
        .ok datum := by
  have hread {f : Flop} (hf : f ∈ auto) {p : Pin} {m : Net} (hm : f.conns.get? p = some m) :
      m ∉ s.driven := by
    obtain ⟨inst, hinst, -, -, hconns⟩ := (hflops f (hauto hf)).inst
    exact h.driven m (mem_nets_of_conn hinst (hconns ▸ hm))
  have houtIdx : outIdx ⟨(r.within s).insts, (r.within s).assigns, inputs, pinned⟩
      (allDrivers (r.within s).insts) depth r.outs auto cuts =
        outIdx ⟨r.insts, r.assigns, inputs, pinned⟩ (allDrivers r.insts) depth r.outs auto
          cuts := by
    refine outIdx_congr ?_ h.agreeOn ?_ ?_ ?_ ?_
    · rfl
    · intro nm hnm
      refine h.driven nm ?_
      simp [Request.nets, hnm]
    · intro f hf d hd
      rw [(hflops f (hauto hf)).d] at hd
      obtain ⟨p, -, hp⟩ := Option.bind_eq_some_iff.mp hd
      exact hread hf hp
    · intro f hf p m hm
      exact hread hf hm
    · intro nm hnm
      exact h.driven nm (mem_nets_of_cutNets hcuts nm hnm)
  rw [elaborate_eq_ok_iff, elaborate_eq_ok_iff, houtIdx]
  constructor
  · rintro ⟨hdup, hknown, hrun⟩
    refine ⟨fun inst hmem => hknown inst ?_, hdup, fun inst hmem => hknown inst ?_, hrun⟩
    · rcases List.mem_append.mp hmem with hbefore | hafter
      · exact List.mem_append_left _ (List.mem_append_left _ hbefore)
      · exact List.mem_append_right _ hafter
    · exact List.mem_append_left _ (List.mem_append_right _ hmem)
  · rintro ⟨hsurr, hdup, hknown, hrun⟩
    refine ⟨hdup, fun inst hmem => ?_, hrun⟩
    rcases List.mem_append.mp hmem with hmem | hafter
    · rcases List.mem_append.mp hmem with hbefore | hmem
      · exact hsurr inst (List.mem_append_left _ hbefore)
      · exact hknown inst hmem
    · exact hsurr inst (List.mem_append_right _ hafter)

/-! ### The import -/

theorem treatFlops_subset {flops auto : List Flop} {pinned : List (Net × Bool)}
    (h : treatFlops r flops = .ok (auto, pinned)) : auto ⊆ flops :=
  fun f hf => (((treatFlops_treated h).mem_auto f).mp hf).1

/-- The import of a request among surroundings that are apart from it is that of the request, and
it is refused where the surroundings hold a cell that is not known. -/
theorem importNetlist_within (h : Apart r s) {depth seqInText : ℕ} {imp' : Imported} :
    importNetlist depth (r.within s) seqInText = .ok imp' ↔
      s.Known ∧ ∃ imp, importNetlist depth r seqInText = .ok imp ∧ imp' = imp.within s := by
  constructor
  · intro hrun
    obtain ⟨hseq, hacc⟩ := importNetlist_eq_ok_iff.mp hrun
    obtain ⟨datum, ⟨insts, assigns, inputs, pinned⟩, flops, auto, cuts, nin, nout⟩ := imp'
    obtain ⟨hflops, htreat, hcuts, hinsts, hassigns, hinputs, hdatum, hnodup, hin, hout⟩ := hacc
    obtain rfl : insts = _ := hinsts
    obtain rfl : assigns = _ := hassigns
    rw [findFlops_within h] at hflops
    rw [treatFlops_within h (findFlops_found hflops)] at htreat
    rw [cutNets_within h] at hcuts
    obtain ⟨hknown, hdatum⟩ := (elaborate_within h (findFlops_found hflops)
      (treatFlops_subset htreat) hcuts).mp hdatum
    refine ⟨hknown, ⟨datum, ⟨r.insts, r.assigns, inputs, pinned⟩, flops, auto, cuts, nin, nout⟩,
      importNetlist_eq_ok_iff.mpr ⟨hseq, ?_⟩, rfl⟩
    exact ⟨hflops, htreat, hcuts, rfl, rfl, hinputs, hdatum, hnodup, hin, hout⟩
  · rintro ⟨hknown, imp, hrun, rfl⟩
    obtain ⟨hseq, hacc⟩ := importNetlist_eq_ok_iff.mp hrun
    obtain ⟨datum, ⟨insts, assigns, inputs, pinned⟩, flops, auto, cuts, nin, nout⟩ := imp
    obtain ⟨hflops, htreat, hcuts, hinsts, hassigns, hinputs, hdatum, hnodup, hin, hout⟩ := hacc
    obtain rfl : insts = _ := hinsts
    obtain rfl : assigns = _ := hassigns
    refine importNetlist_eq_ok_iff.mpr ⟨hseq, ?_⟩
    have hfound := findFlops_found hflops
    refine ⟨?_, ?_, ?_, rfl, rfl, hinputs, ?_, hnodup, hin, hout⟩
    · exact (findFlops_within h).trans hflops
    · exact (treatFlops_within h hfound).trans htreat
    · exact (cutNets_within h _).trans hcuts
    · exact (elaborate_within h hfound (treatFlops_subset htreat) hcuts).mpr ⟨hknown, hdatum⟩

end Within

end Saltworks.Importer
