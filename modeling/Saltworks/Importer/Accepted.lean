import Saltworks.Importer.ElaborateSound

/-!
# Accepted imports

## Main definitions

* `Treated`: what the treatment has done with the flops.
* `Accepted`: the stages of an accepted import.
* `ModelNext`: the next state of a flop, by its model.

## Main results

* `importNetlist_accepted`, `importNetlist_eq_ok_iff`: an import that returns has passed its stages.
* `Flop.Found.nextShows_iff`: the next state of a flop record is that of its model.
-/

namespace Saltworks.Importer

open Silicon Fallible

/-! ### Accepted imports -/

/-- What the treatment has done with the flops of an accepted import. -/
structure Treated (r : Request) (flops auto : List Flop) : Prop where
  mem_auto : ∀ f, f ∈ auto ↔ f ∈ flops ∧ f.q ∉ r.ins
  handCut : ∀ f ∈ flops, f.q ∈ r.ins → ∃ d, f.d = some d ∧ d ∈ r.outs

theorem autoFlops_treated {r : Request} {flops auto : List Flop}
    (h : autoFlops r flops = .ok auto) : Treated r flops auto := by
  rw [autoFlops] at h
  split at h
  · cases h
  · rename_i hexpr
    split at h
    · cases h
    · rename_i hhalf
      cases h
      rw [List.filter_eq_nil_iff] at hexpr hhalf
      refine ⟨fun f => by simp [List.mem_filter], fun f hf hq => ?_⟩
      have hd := hexpr f hf
      have hside := hhalf f hf
      cases hfd : f.d with
      | none => simp [hfd, hq] at hd
      | some d =>
        refine ⟨d, rfl, ?_⟩
        by_contra hout
        simp [hfd, hq, hout] at hside

theorem treatFlops_treated {r : Request} {flops auto : List Flop} {pinned : List (Net × Bool)}
    (h : treatFlops r flops = .ok (auto, pinned)) : Treated r flops auto := by
  rw [treatFlops] at h
  split_ifs at h with hnil
  · split at h
    · cases h
    · cases h
      rw [hnil]
      exact ⟨by simp, by simp⟩
  · obtain ⟨_, _, h⟩ := bind_eq_ok h
    obtain ⟨pinned', _, h⟩ := bind_eq_ok h
    obtain ⟨auto', hauto, h⟩ := bind_eq_ok h
    cases h
    exact autoFlops_treated hauto

/-- The stages of an accepted import. -/
structure Accepted (depth : ℕ) (r : Request) (imp : Imported) : Prop where
  flops : findFlops r.insts r.pinReset = .ok imp.flops
  treat : treatFlops r imp.flops = .ok (imp.auto, imp.source.pinned)
  cuts : cutNets r (r.ins ++ imp.auto.map Flop.q) = .ok imp.cuts
  insts : imp.source.insts = r.insts
  assigns : imp.source.assigns = r.assigns
  inputs : imp.source.inputs = r.ins ++ imp.auto.map Flop.q ++ imp.cuts
  datum : elaborate depth imp.source r.outs imp.auto imp.cuts = .ok imp.datum
  nodup : (imp.flops.map Flop.q).Nodup
  ndesignIn : imp.ndesignIn = r.ins.length
  ndesignOut : imp.ndesignOut = r.outs.length

/-- An import returns exactly where its stages pass and the text shows as many sequential instances
as there are flops. -/
theorem importNetlist_eq_ok_iff {depth seqInText : ℕ} {r : Request} {imp : Imported} :
    importNetlist depth r seqInText = .ok imp ↔
      seqInText = imp.flops.length ∧ Accepted depth r imp := by
  constructor
  · intro h
    rw [importNetlist] at h
    obtain ⟨flops, hflops, h⟩ := bind_eq_ok h
    obtain ⟨⟨auto, pinned⟩, htreat, h⟩ := bind_eq_ok h
    obtain ⟨cuts, hcuts, h⟩ := bind_eq_ok h
    obtain ⟨datum, hdatum, h⟩ := bind_eq_ok h
    split_ifs at h with hcons
    cases h
    exact ⟨hcons.1, hflops, htreat, hcuts, rfl, rfl, rfl, hdatum, hcons.2, rfl, rfl⟩
  · rintro ⟨hseq, hflops, htreat, hcuts, hinsts, hassigns, hinputs, hdatum, hnodup, hin, hout⟩
    obtain ⟨datum, ⟨insts, assigns, inputs, pinned⟩, flops, auto, cuts, ndesignIn,
      ndesignOut⟩ := imp
    obtain rfl : insts = r.insts := hinsts
    obtain rfl : assigns = r.assigns := hassigns
    obtain rfl : inputs = r.ins ++ auto.map Flop.q ++ cuts := hinputs
    obtain rfl : ndesignIn = r.ins.length := hin
    obtain rfl : ndesignOut = r.outs.length := hout
    rw [importNetlist]
    simp only [hflops, htreat, hcuts, hdatum, bind, Except.bind]
    exact if_pos ⟨hseq, hnodup⟩

theorem importNetlist_accepted {depth seqInText : ℕ} {r : Request} {imp : Imported}
    (h : importNetlist depth r seqInText = .ok imp) : Accepted depth r imp :=
  (importNetlist_eq_ok_iff.mp h).2

/-- The number of sequential instances in the text decides only whether an import returns. -/
theorem importNetlist_unique {depth seqInText seqInText' : ℕ} {r : Request} {imp imp' : Imported}
    (h : importNetlist depth r seqInText = .ok imp)
    (h' : importNetlist depth r seqInText' = .ok imp') : imp = imp' := by
  obtain ⟨hseq, hacc⟩ := importNetlist_eq_ok_iff.mp h
  obtain ⟨hseq', hacc'⟩ := importNetlist_eq_ok_iff.mp h'
  have hflops : imp.flops = imp'.flops := Except.ok.inj (hacc.flops.symm.trans hacc'.flops)
  obtain rfl : seqInText = seqInText' := by rw [hseq, hseq', hflops]
  exact Except.ok.inj (h.symm.trans h')

section Accepted

variable {depth : ℕ} {r : Request} {imp : Imported}

theorem Accepted.found (h : Accepted depth r imp) : ∀ f ∈ imp.flops, f.Found r.insts :=
  findFlops_found h.flops

theorem Accepted.nodup_inputs (h : Accepted depth r imp) : imp.source.inputs.Nodup := by
  exact (elaborate_eq_ok h.datum).1

end Accepted

/-! ### Next states -/

/-- The next state of a flop, by its model and the values of its nets. -/
def ModelNext (R : Net → Bool → Prop) (m : SeqModel) (conns : Dict Pin Net) (b : Bool) : Prop :=
  match m.d with
  | some p => ∃ d, conns.get? p = some d ∧ R d b
  | none => ∃ last, m.next.getLast? = some last ∧ Yields (pinShows R conns) m.next last.tmp b

/-- The next state of a flop record is the next state of its model. -/
theorem Flop.Found.nextShows_iff {insts : List Inst} {f : Flop} (hf : f.Found insts)
    {R : Net → Bool → Prop} {b : Bool} :
    NextShows R f b ↔ ModelNext R f.model f.conns b := by
  rw [NextShows, ModelNext]
  have hd := hf.d
  cases hmd : f.model.d with
  | none =>
    rw [hmd] at hd
    simp only [hd, Option.bind_none]
  | some p =>
    rw [hmd, Option.bind_some] at hd
    have hp : p ∈ f.model.pins := by
      rcases seqModelFor_cases hf.model with hm | hm | hm <;> rw [hm] at hmd ⊢ <;> cases hmd <;>
        decide
    obtain ⟨d, hpd⟩ := Option.isSome_iff_exists.mp (hf.pins p hp)
    simp only [hd, hpd]
    constructor
    · intro h
      exact ⟨d, rfl, h⟩
    · rintro ⟨d', hd', h⟩
      rwa [Option.some.inj hd']

/-- A next state that agrees with the settled values is the next state of the model. -/
theorem eq_of_modelNext {P Q : Net → Bool → Prop} (hPQ : ∀ nm b b', P nm b → Q nm b' → b = b')
    {m : SeqModel} {conns : Dict Pin Net} {b b' : Bool} (h : ModelNext P m conns b)
    (h' : ModelNext Q m conns b') : b = b' := by
  rw [ModelNext] at h h'
  cases hd : m.d with
  | some p =>
    simp only [hd] at h h'
    obtain ⟨d, hpd, hb⟩ := h
    obtain ⟨d', hpd', hb'⟩ := h'
    obtain rfl : d = d' := Option.some.inj (hpd.symm.trans hpd')
    exact hPQ d b b' hb hb'
  | none =>
    simp only [hd] at h h'
    obtain ⟨last, hlast, hb⟩ := h
    obtain ⟨last', hlast', hb'⟩ := h'
    obtain rfl : last = last' := Option.some.inj (hlast.symm.trans hlast')
    refine hb.unique (fun p c c' hc hc' => ?_) hb'
    obtain ⟨nm, hnm, hc⟩ := hc
    obtain ⟨nm', hnm', hc'⟩ := hc'
    obtain rfl : nm = nm' := Option.some.inj (hnm.symm.trans hnm')
    exact hPQ nm c c' hc hc'

end Saltworks.Importer
