import Saltworks.Importer.ClockDomain
import Saltworks.Importer.ReadbackSound

/-!
# The roots that the readback evaluates

Beside the design outputs the check evaluates the next state of every flop that the treatment
cuts and the logic behind every cut net. It reads all input pins of a flop, the clock and the
reset with them, so a next state comes out only where all of these nets settle.

## Main definitions

* `NextReads`: the input pins of a flop are on nets that have values.

## Main results

* `nextState_keeps`, `nextState_computes`: the next states.
* `cutRoot_keeps`, `cutRoot_computes`: the cut roots.
* `exists_clock`: the clock of an accepted import settles.
-/

namespace Saltworks.Importer

open Silicon Fallible Readback

/-! ### Models -/

/-- The input pins of a flop are on nets that have values. -/
def NextReads (R : Net → Bool → Prop) (f : Flop) : Prop :=
  ∀ p ∈ f.model.pins, p ≠ f.model.q → ∃ b, pinShows R f.conns p b

/-- A model reads its own pins. -/
theorem seqModelFor_reads {cell : String} {m : SeqModel} (hm : seqModelFor cell = some m) :
    (∀ p, m.d = some p → p ∈ m.pins) ∧ ∀ p ∈ pinsRead m.next [], p ∈ m.pins := by
  rcases seqModelFor_cases hm with rfl | rfl | rfl <;> decide

section Model

variable {R : Net → Bool → Prop} {cell : String} {m : SeqModel} {conns : Dict Pin Net}
  {env : Pin → Option Bool} {b : Bool}

theorem eval_of_modelNext (hm : seqModelFor cell = some m) (h : ModelNext R m conns b)
    (hP : ∀ p ∈ m.pins, ∀ c, pinShows R conns p c → env p = some c) : m.eval env = some b := by
  obtain ⟨hd, hnext⟩ := seqModelFor_reads hm
  rw [ModelNext] at h
  rw [SeqModel.eval]
  cases hmd : m.d with
  | some p =>
    simp only [hmd] at h ⊢
    exact hP p (hd p hmd) b h
  | none =>
    simp only [hmd] at h ⊢
    obtain ⟨last, hlast, h⟩ := h
    refine Option.bind_eq_some_iff.mpr ⟨last, hlast, ?_⟩
    exact eval_of_yields (e := ⟨m.next, []⟩) h fun p hp => hP p (hnext p hp)

end Model

/-! ### Next states -/

section Accepted

variable {depth : ℕ} {r : Request} {imp : Imported} {lib : String → Option LibCell} {nm : Net}
  {vec : List Bool} (h : Accepted depth r imp) (hsingle : SinglyDriven r.insts r.assigns)
  (hlib : LibertyAgrees lib r.insts) (hvec : vec.length = imp.source.inputs.length)

include h in
theorem Accepted.found_of_auto {f : Flop} (hf : f ∈ imp.auto) : f.Found r.insts :=
  h.found f (((treatFlops_treated h.treat).mem_auto f).mp hf).1

include h hsingle hlib hvec in
/-- The evaluation of a next state reads the input pins of the flop and then the library's
expression, with the state in place of the state variable. -/
theorem nextState_eq {f : Flop} (hf : f ∈ imp.auto) : ∃ ins state next b,
    (∀ p, p ∈ ins ↔ p ∈ f.model.pins ∧ p ≠ f.model.q) ∧ state ∉ ins ∧
    (∀ env c, Liberty.evalFn env next = .ok c ↔
      f.model.eval (fun p => if p = f.model.q then env state else env p) = some c) ∧
    imp.Sourced r vec f.q b ∧ ∀ d, (imp.readback r lib).nextState vec d f = (do
      let env ← readPins ((imp.readback r lib).ev vec d) f.conns ins
      evalPins next (env ++ [(state, b)])) := by
  obtain ⟨⟨inst, hmem, hseq, hcell, -⟩, hmodel, -, hq, -⟩ := h.found_of_auto hf
  obtain ⟨c, hc, hagree⟩ := hlib.sequential inst hmem hseq f.model (hcell ▸ hmodel)
  obtain ⟨state, next, hff, hstate, hnext⟩ := hagree.ff
  have hin : f.q ∈ imp.source.inputs := by
    rw [h.inputs, List.mem_append, List.mem_append]
    exact Or.inl (Or.inr (List.mem_map_of_mem hf))
  obtain ⟨k, hk⟩ := List.mem_iff_getElem?.mp hin
  have hleaf : ((imp.readback r lib).leaf vec).get? f.q = some (vec.getD k false) :=
    (leaf_eq_some h hvec).mpr ⟨k, hk, rfl⟩
  refine ⟨c.ins, state, next, vec.getD k false, hagree.ins, hstate, hnext,
    (h.closed_sourced hsingle vec).input k f.q hk, fun d => ?_⟩
  have hmodelq : f.model.q = "Q" := by
    rcases seqModelFor_cases hmodel with hm | hm | hm <;> rw [hm] <;> rfl
  have hc' : libFor (imp.readback r lib).lib f.cell = some c := hcell ▸ hc
  rw [hmodelq] at hq
  rw [nextState, hc']
  simp only [hff, hq, hleaf]

include h hsingle hlib hvec

/-- A next state is evaluated where the input pins of the flop are on nets that settle. -/
theorem nextState_computes {f : Flop} (hf : f ∈ imp.auto) {b : Bool}
    (hreads : NextReads (imp.Sourced r vec) f)
    (hb : ModelNext (imp.Sourced r vec) f.model f.conns b) :
    Computes (Remembered imp r vec) (fun d => (imp.readback r lib).nextState vec d f) b := by
  have hfound := h.found_of_auto hf
  obtain ⟨ins, state, next, b₀, hins, hstate, hnext, hq, heq⟩ :=
    nextState_eq h hsingle hlib hvec hf
  obtain ⟨w, hw⟩ := Settles.exists_value (readLeaf r imp.source.inputs [] vec)
    (netDrivers r.insts r.assigns)
  simp only [heq]
  have hpins : Computes (Remembered imp r vec)
      (fun d => readPins ((imp.readback r lib).ev vec d) f.conns ins)
      (pinValues w f.conns ins) := by
    refine readPins_computes fun p hp m hm => ?_
    obtain ⟨hp, hpq⟩ := (hins p).mp hp
    obtain ⟨c, m', hm', hc⟩ := hreads p hp hpq
    obtain rfl : m' = m := Option.some.inj (hm'.symm.trans hm)
    rw [hw m' c hc]
    exact ev_computes h hsingle hlib hvec hc
  refine hpins.bind (evalPins_computes ((hnext _ b).mpr ?_))
  refine eval_of_modelNext hfound.model hb fun p hp c ⟨m, hm, hc⟩ => ?_
  split_ifs with hpq
  · rw [List.lookup_append, lookup_pinValues, if_neg hstate, Option.none_or]
    obtain rfl : f.q = m := Option.some.inj (hfound.q.symm.trans (hpq ▸ hm))
    simp [hq.unique hc]
  · rw [List.lookup_append, lookup_pinValues, if_pos ((hins p).mpr ⟨hp, hpq⟩), hm,
      Option.map_some, hw m c hc, Option.some_or]

/-! ### Cut roots -/

omit hsingle hlib hvec in
/-- A cut net is driven by a cell and is no state output. -/
theorem Accepted.cut_driven (hnm : nm ∈ imp.cuts) :
    (∃ inst e o, Drives r.insts nm inst e o) ∧ ¬ r.isState nm := by
  constructor
  · have hcuts := h.cuts
    rw [cutNets] at hcuts
    cases hcut : r.cut with
    | none =>
      simp only [hcut, Except.ok.injEq] at hcuts
      rw [← hcuts] at hnm
      cases hnm
    | some p =>
      simp only [hcut] at hcuts
      split_ifs at hcuts
      split at hcuts
      · rw [← Except.ok.inj hcuts, List.mem_mergeSort, List.mem_dedup, List.mem_filter] at hnm
        obtain ⟨⟨nm', inst⟩, hmem, rfl⟩ := List.mem_map.mp hnm.1
        exact ⟨inst, mem_allDrivers.mp hmem⟩
      · cases hcuts
  · intro hst
    obtain ⟨f, hf, rfl⟩ := h.isState_iff.mp hst
    have hnd := h.nodup_inputs
    rw [h.inputs] at hnd
    have hdisjoint := (List.nodup_append.mp hnd).2.2
    refine hdisjoint f.q (List.mem_append.mpr ?_) f.q hnm rfl
    by_cases hq : f.q ∈ r.ins
    · exact Or.inl hq
    · exact Or.inr (List.mem_map_of_mem (((treatFlops_treated h.treat).mem_auto f).mpr ⟨hf, hq⟩))

omit hlib hvec in
/-- The root of a cut net is the cell that drives it. -/
theorem rootShows_iff {R : Net → Bool → Prop} (hnm : nm ∈ imp.cuts) {b : Bool} :
    RootShows imp.source R nm b ↔
      ∃ inst e o, Drives r.insts nm inst e o ∧ Yields (pinShows R inst.conns) e.ops o.2 b := by
  obtain ⟨⟨inst, e, o, hd⟩, -⟩ := h.cut_driven hnm
  have hnone : imp.source.assigns.lookup nm = none := by
    rw [h.assigns, Dict.lookup_eq_none_iff]
    intro hmem
    obtain ⟨⟨nm', m⟩, hm, rfl⟩ := List.mem_map.mp hmem
    exact hsingle.not_drives hm hd
  rw [RootShows, hnone, Option.getD_none, h.insts]

theorem cutRoot_computes (hnm : nm ∈ imp.cuts) {b : Bool}
    (hb : RootShows imp.source (imp.Sourced r vec) nm b) :
    Computes (Remembered imp r vec) (fun d => (imp.readback r lib).cutRoot vec d nm) b := by
  obtain ⟨inst, e, o, hd, hb⟩ := (rootShows_iff h hsingle hnm).mp hb
  obtain ⟨w, hw⟩ := Settles.exists_value (readLeaf r imp.source.inputs [] vec)
    (netDrivers r.insts r.assigns)
  obtain ⟨fn, hfn⟩ : ∃ fn, (nm, inst, fn) ∈ (imp.readback r lib).drivers := mem_of_drives hlib hd
  obtain ⟨p, hp⟩ := Option.ne_none_iff_exists'.mp
    (mt Dict.lookup_eq_none_iff.mp (not_not.mpr (List.mem_map_of_mem (f := Prod.fst) hfn)))
  obtain ⟨e', o', c, hd', hc, hagree, hfn'⟩ :=
    h.drives_of_mem hlib (h.cut_driven hnm).2 (Dict.mem_of_lookup hp)
  obtain ⟨hinst, rfl, rfl⟩ := hsingle.drives_unique hd hd'
  simp only [cutRoot, hp]
  rw [← hinst] at hc
  rw [← hinst]
  refine evalOutput_computes (w := w) (fun m hm => ?_) hd.out hc hagree hfn'
    (eval_of_yields_pins hb fun m _ c hmc => hw m c hmc)
  obtain ⟨q, hq, hqm⟩ := List.mem_filterMap.mp hm
  obtain ⟨L, hruns, -⟩ := hb
  obtain ⟨c', m', hm', hc'⟩ := hruns.exists_pin hq
  obtain rfl : m' = m := Option.some.inj (hm'.symm.trans hqm)
  rw [hw m' c' hc']
  exact ev_computes h hsingle hlib hvec hc'

/-! ### The clock -/

omit hlib hvec in
/-- A primary input and a literal settle. -/
theorem exists_sourced_of_not_free (hfree : ¬ imp.unpinned.Free nm) :
    ∃ b, imp.Sourced r vec nm b := by
  have hclosed := h.closed_sourced hsingle vec
  by_cases hin : nm ∈ imp.source.inputs
  · obtain ⟨k, hk⟩ := List.mem_iff_getElem?.mp hin
    exact ⟨_, hclosed.input k nm hk⟩
  · have hlit : isLiteral nm := by
      by_contra hlit
      exact hfree ⟨hin, rfl, by simpa using hlit⟩
    exact ⟨_, hclosed.literal nm hin rfl hlit⟩

omit hlib hvec in
/-- A net with a trace to a clock source settles. -/
theorem exists_sourced_of_clockRoot {d : ℕ} {root : Net × Bool}
    (hroot : clockRoot (allDrivers r.insts) r.assigns r.ins d nm = some root) :
    ∃ b, imp.Sourced r vec nm b := by
  have hclosed := h.closed_sourced hsingle vec
  induction d generalizing nm root with
  | zero => cases hroot
  | succ d ih =>
    by_cases hfree : imp.unpinned.Free nm
    swap
    · exact exists_sourced_of_not_free h hsingle hfree
    rcases clockRoot_cases hroot with ⟨-, hassign, hsource⟩ | ⟨m, q, sub, hlink, hsub, -⟩
    · have hnot : ∀ inst e o, ¬ Drives r.insts nm inst e o :=
        hsource.resolve_left (h.not_leaf hfree.input).2
      refine ⟨false, sourced_of_not_isDriven hfree fun hdriven => ?_⟩
      obtain ⟨inst, e, o, hd⟩ :=
        Request.drives_of_isDriven hdriven (Dict.lookup_eq_none_iff.mp hassign)
      exact hnot inst e o hd
    · obtain ⟨b, hb⟩ := ih hsub
      cases hlink with
      | assign hm => exact ⟨b, hclosed.assign nm m b hfree (h.assigns ▸ hm) hb⟩
      | buf hnone hd hops hm =>
        refine ⟨b, hclosed.cell nm _ _ _ b hfree (h.assigns ▸ hnone) (h.insts ▸ hd) ?_⟩
        rw [hops]
        exact ⟨_, ⟨b, Or.inr ⟨rfl, m, hm, hb⟩, rfl⟩, by simp [Op.tmp]⟩
      | not hnone hd hops hm =>
        refine ⟨!b, hclosed.cell nm _ _ _ _ hfree (h.assigns ▸ hnone) (h.insts ▸ hd) ?_⟩
        rw [hops]
        exact ⟨_, ⟨!b, ⟨b, Or.inr ⟨rfl, m, hm, hb⟩, rfl⟩, rfl⟩, by simp [Op.tmp]⟩

omit hlib hvec in
/-- The clock of every flop that the treatment cuts settles. -/
theorem exists_clock {f : Flop} (hf : f ∈ imp.auto) : ∃ b, imp.Sourced r vec f.clk b := by
  have hmem := (((treatFlops_treated h.treat).mem_auto f).mp hf).1
  have htreat := h.treat
  rw [treatFlops, if_neg (List.ne_nil_of_mem hmem)] at htreat
  obtain ⟨clock, hclock, -⟩ := bind_eq_ok htreat
  exact exists_sourced_of_clockRoot h hsingle (clockRoot_of_checkClockDomain hclock hmem)

end Accepted

end Saltworks.Importer
