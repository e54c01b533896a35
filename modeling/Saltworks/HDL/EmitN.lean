import Mathlib.Data.List.Count
import Saltworks.HDL.Renumber
import Saltworks.Netlist.BitSliced

/-!
# From circuits to netlists

A circuit that is numbered in order is emitted as a netlist gate by gate, behind one input gate for
each input (`emitN`). There are two pipelines from a circuit to a netlist:

* `emitPipeline` optimizes, and emits the circuit as it was where the optimized one is not numbered
  in order any more;
* `emitPipeline'` optimizes, renumbers and emits.

Both preserve the meaning of the circuit. The second one emits a gate for every gate that the
outputs need and for no other. The first one does so only where no dead gate stands in front of a
needed one, and else emits the dead gates too (`emitPipeline_eq_iff`).

## Main definitions

* `emitOp`, `emitN`, `emitPipeline`, `emitPipeline'`.
* `Netlist.Used`: the nets of a netlist that its outputs depend on.

## Main results

* `Circ.Ssa.value_emitN`: the netlist computes at every net what the circuit computes.
* `emitPipeline'_exact`: the second pipeline emits what is needed.
* `emitPipeline_eq_iff`: when the first pipeline gives the same netlist.
-/

namespace Saltworks.Silicon

/-- A net is used when it is an output, or a gate that defines a used net reads it. -/
inductive Netlist.Used (gates : Netlist) (outs : List ℕ) : ℕ → Prop
  | out {k : ℕ} (h : k ∈ outs) : Used gates outs k
  | operand {j k : ℕ} {g : Gate} (hg : gates[j]? = some g) (hj : Used gates outs j)
      (hk : k ∈ g.operands) : Used gates outs k

end Saltworks.Silicon

namespace Saltworks.HDL

open Silicon (Netlist stepP runP)

/-! ### Emission -/

/-- One operation as a netlist gate. -/
def emitOp : Op → Silicon.Gate
  | .const b => .const b
  | .not a => .not a
  | .and a b => .and a b
  | .or a b => .or a b
  | .xor a b => .xor a b

/-- The inputs, then the gates. -/
def emitN (c : Circ) : Netlist :=
  (List.range c.nIn).map .inp ++ c.gates.map fun g => emitOp g.op

/-- Optimize, and fall back to the circuit as it was where the result is not numbered in order. -/
def emitPipeline (c : Circ) : Netlist := if (opt c).Ssa then emitN (opt c) else emitN c

/-- Optimize, renumber, emit. -/
def emitPipeline' (c : Circ) : Netlist := emitN (normalize (opt c))

@[simp] theorem operands_emitOp (o : Op) : (emitOp o).operands = o.fanin := by cases o <;> rfl

theorem emitOp_ne_inp (o : Op) (i : ℕ) : emitOp o ≠ .inp i := by cases o <;> exact nofun

@[simp] theorem length_emitN (c : Circ) : (emitN c).length = c.nIn + c.gates.length := by
  simp [emitN]

theorem getElem?_emitN_of_lt {c : Circ} {k : ℕ} (h : k < c.nIn) :
    (emitN c)[k]? = some (.inp k) := by
  rw [emitN, List.getElem?_append_left (by simpa using h)]
  simp [h]

theorem getElem?_emitN_of_le {c : Circ} {k : ℕ} (h : c.nIn ≤ k) :
    (emitN c)[k]? = c.gates[k - c.nIn]?.map fun g => emitOp g.op := by
  rw [emitN, List.getElem?_append_right (by simpa using h), List.getElem?_map, List.length_map,
    List.length_range]

/-- The input gates stand in front. -/
theorem inputsFirst_emitN (c : Circ) : (emitN c).InputsFirst c.nIn := by
  intro k i
  by_cases hk : k < c.nIn
  · rw [getElem?_emitN_of_lt hk]
    simp [hk, eq_comm]
  · rw [getElem?_emitN_of_le (Nat.le_of_not_lt hk), Option.map_eq_some_iff]
    constructor
    · rintro ⟨g, -, hg⟩
      exact absurd hg (emitOp_ne_inp g.op i)
    · exact fun h => absurd h.1 hk

/-! ### What the netlist computes -/

/-- The value of an operation over nets on which the two environments agree. -/
theorem stepP_emitOp {ins : ℕ → Bool} {envP : List Bool} {env : Env} {o : Op}
    (h : ∀ n ∈ o.fanin, envP.getD n false = env n) : stepP ins envP (emitOp o) = o.eval env := by
  cases o with
  | const b => rfl
  | not a => rw [emitOp, stepP, Op.eval, h a (by simp [Op.fanin])]
  | and a b | or a b | xor a b =>
    rw [emitOp, stepP, Op.eval, h a (by simp [Op.fanin]), h b (by simp [Op.fanin])]

/-- The positional environment keeps in step with the nominal one. -/
theorem runP_emitOp (ins : ℕ → Bool) {gs : List Gate} {base : ℕ} (hssa : ssaFrom base gs)
    {envP : List Bool} {env : Env} (hlen : envP.length = base)
    (h : ∀ n < base, envP.getD n false = env n) {n : ℕ} (hn : n < base + gs.length) :
    (runP ins envP (gs.map fun g => emitOp g.op)).getD n false = run env gs n := by
  induction gs generalizing base envP env with
  | nil => exact h n hn
  | cons g gs ih =>
    obtain ⟨hout, hfan, hssa⟩ := hssa
    have hstep : stepP ins envP (emitOp g.op) = g.op.eval env :=
      stepP_emitOp fun n hn => h n (hfan n hn)
    refine ih hssa (by simp [hlen]) (fun m hm => ?_)
      (by rw [List.length_cons] at hn; omega)
    rw [Silicon.getD_concat, hlen, hstep]
    split_ifs with heq
    · rw [heq, hout, upd_self]
    · rw [upd_of_ne _ _ (hout ▸ heq), h m (by omega)]

namespace Circ.Ssa

variable {c : Circ}

/-- **The netlist computes at every net what the circuit computes.** -/
theorem value_emitN (h : c.Ssa) (ins : ℕ → Bool) {n : ℕ} (hn : n < c.nIn + c.gates.length) :
    (emitN c).value ins n = run ins c.gates n := by
  have hinputs : runP ins [] ((List.range c.nIn).map .inp) = (List.range c.nIn).map ins := by
    induction c.nIn with
    | zero => rfl
    | succ m ih =>
      rw [List.range_succ, List.map_append, Netlist.runP_append, ih, List.map_append]
      rfl
  rw [Netlist.value, emitN, Netlist.runP_append, hinputs]
  exact runP_emitOp ins h.gates (by simp) (fun k hk => by simp [List.getD, hk]) hn

/-- The outputs of the netlist are those of the circuit. -/
theorem values_emitN (h : c.Ssa) (ins : ℕ → Bool) :
    c.outs.map ((emitN c).value ins) = sem c ins :=
  List.map_congr_left fun n hn => h.value_emitN ins (h.outs n hn)

/-- The operands of a gate stand in front of it. -/
theorem ordered_emitN (h : c.Ssa) : (emitN c).Ordered := by
  intro k g hg a ha
  by_cases hk : k < c.nIn
  · rw [getElem?_emitN_of_lt hk] at hg
    cases hg
    cases ha
  · have hle := Nat.le_of_not_lt hk
    rw [getElem?_emitN_of_le hle, Option.map_eq_some_iff] at hg
    obtain ⟨g', hg', rfl⟩ := hg
    obtain ⟨hlt, rfl⟩ := List.getElem?_eq_some_iff.1 hg'
    rw [operands_emitOp] at ha
    have ha := (h.gates.getElem hlt).2 a ha
    rwa [Nat.add_sub_cancel' hle] at ha

/-- What the outputs of the circuit need, the outputs of the netlist use. -/
theorem used_emitN (h : c.Ssa) {n : Net} (hn : c.Needed n) : (emitN c).Used c.outs n := by
  induction hn with
  | out hn => exact .out hn
  | @read g n hg _ hn ih =>
    obtain ⟨k, hk, rfl, hout⟩ := h.gates.exists_getElem hg
    have hgate : (emitN c)[c.gates[k].out]? = some (emitOp c.gates[k].op) := by
      rw [hout, getElem?_emitN_of_le (Nat.le_add_right _ _), Nat.add_sub_cancel_left,
        List.getElem?_eq_getElem hk]
      rfl
    exact .operand hgate ih (by simpa using hn)

theorem needed_lt (h : c.Ssa) {n : Net} (hn : c.Needed n) : n < c.nIn + c.gates.length := by
  induction hn with
  | out hn => exact h.outs _ hn
  | read hg _ hn _ => exact (h.gates.fanin_lt_out hg hn).trans (h.gates.out_lt hg)

end Circ.Ssa

/-! ### The pipeline that renumbers -/

/-- The number of gates that remain. -/
theorem length_opt_gates {c : Circ} (hc : c.Wf) [DecidablePred c.Needed] :
    (opt c).gates.length = c.gates.countP fun g => c.Needed g.out := by
  rw [opt_gates hc, ← List.countP_eq_length_filter]
  refine List.countP_congr fun g _ => ?_
  rw [List.contains_iff_mem, mem_liveOf_iff hc, decide_eq_true_iff]

theorem inputsFirst_emitPipeline' (c : Circ) : (emitPipeline' c).InputsFirst c.nIn := by
  have h := inputsFirst_emitN (normalize (opt c))
  have hnIn : (normalize (opt c)).nIn = c.nIn := opt_nIn c
  rwa [hnIn] at h

/-- The outputs of the netlist are those of the circuit, in port order. -/
theorem values_emitPipeline' {c : Circ} (hc : c.Wf) (ins : ℕ → Bool) :
    (normalize (opt c)).outs.map ((emitPipeline' c).value ins) = sem c ins := by
  rw [emitPipeline', hc.opt.normalize_ssa.values_emitN, hc.opt.sem_normalize, sem_opt]

/-- No gate that is emitted is dead. -/
theorem used_emitPipeline' {c : Circ} (hc : c.Wf) {k : ℕ} (hle : c.nIn ≤ k)
    (hk : k < (emitPipeline' c).length) :
    (emitPipeline' c).Used (normalize (opt c)).outs k := by
  have hssa := hc.opt.normalize_ssa
  rw [emitPipeline', length_emitN] at hk
  have hnIn : (normalize (opt c)).nIn = c.nIn := opt_nIn c
  obtain ⟨g, hg, rfl⟩ := hssa.gates.exists_out (hnIn ▸ hle) hk
  rw [hc.opt.normalize_gates] at hg
  obtain ⟨g', hg', rfl⟩ := List.mem_map.1 hg
  have hneeded := (needed_opt_iff hc).2 ((mem_opt_gates_iff hc).1 hg').2
  exact hssa.used_emitN (hc.opt.needed_normalize hneeded)

open Classical in
/-- **The pipeline emits what is needed.** From a well-formed circuit it makes a netlist in order
that computes what the circuit computes, with one gate for every gate that the outputs need and
without dead gates. -/
theorem emitPipeline'_exact {c : Circ} (hc : c.Wf) :
    (emitPipeline' c).Ordered ∧ (emitPipeline' c).InputsFirst c.nIn ∧
      (∀ ins, (normalize (opt c)).outs.map ((emitPipeline' c).value ins) = sem c ins) ∧
      (emitPipeline' c).length = c.nIn + c.gates.countP (fun g => c.Needed g.out) ∧
      ∀ k, c.nIn ≤ k → k < (emitPipeline' c).length →
        (emitPipeline' c).Used (normalize (opt c)).outs k := by
  refine ⟨hc.opt.normalize_ssa.ordered_emitN, inputsFirst_emitPipeline' c,
    values_emitPipeline' hc, ?_, fun k => used_emitPipeline' hc⟩
  rw [emitPipeline', length_emitN, normalize, length_renumGates, length_opt_gates hc, opt_nIn]

/-- Three gates, and the dead one is in the middle. -/
def withMidDead : Circ where
  nIn := 2
  gates := [⟨2, .xor 0 1⟩, ⟨3, .and 0 1⟩, ⟨4, .not 2⟩]
  outs := [4]

theorem emitPipeline'_exact_withMidDead :
    withMidDead.Wf ∧ (emitPipeline' withMidDead).Ordered ∧
      ∀ ins, (normalize (opt withMidDead)).outs.map ((emitPipeline' withMidDead).value ins) =
        sem withMidDead ins :=
  have hwf : withMidDead.Wf := by decide
  have h := emitPipeline'_exact hwf
  ⟨hwf, h.1, h.2.2.1⟩

/-! ### The pipeline that falls back -/

/-- Kept nets without a gap leave gates numbered in order. -/
theorem ssaFrom.filter {p : Net → Bool} {base : ℕ} {gs : List Gate} (h : ssaFrom base gs)
    (hdown : ∀ m n, base ≤ m → m < n → p n → p m) :
    ssaFrom base (gs.filter fun g => p g.out) := by
  induction gs generalizing base with
  | nil => trivial
  | cons g gs ih =>
    obtain ⟨rfl, hfan, hrest⟩ := h
    by_cases hk : p g.out
    · rw [List.filter_cons_of_pos (p := fun g : Gate => p g.out) hk]
      exact ⟨rfl, hfan, ih hrest fun m n hm => hdown m n (Nat.le_of_succ_le hm)⟩
    · -- no later gate is kept
      have hnil : ((g :: gs).filter fun g => p g.out) = [] := by
        refine List.filter_eq_nil_iff.2 fun g' hg' hkeep => hk ?_
        rcases List.mem_cons.1 hg' with rfl | hg'
        · exact hkeep
        · exact hdown _ _ (Nat.le_refl _) (hrest.le_out g' hg') hkeep
      rw [hnil]
      trivial

/-- The optimizer keeps a circuit numbered in order if and only if no dead gate stands in front of
a needed one. -/
theorem opt_ssa_iff {c : Circ} (hc : c.Ssa) :
    (opt c).Ssa ↔ ∀ m n, c.nIn ≤ m → m < n → c.Needed n → c.Needed m := by
  have hwf := hc.wf
  constructor
  · intro h m n hm hmn hn
    have hlt := h.needed_lt ((needed_opt_iff hwf).2 hn)
    obtain ⟨g, hg, rfl⟩ := h.gates.exists_out ((opt_nIn c).symm ▸ hm) (hmn.trans hlt)
    exact ((mem_opt_gates_iff hwf).1 hg).2
  · intro hdown
    have hgates : ssaFrom (opt c).nIn (opt c).gates := by
      rw [opt_nIn, opt_gates hwf]
      refine hc.gates.filter (p := fun n => (liveOf c.gates c.outs).contains n) ?_
      simpa only [List.contains_iff_mem, mem_liveOf_iff hwf] using hdown
    refine ⟨hgates, fun n hn => ?_⟩
    rw [opt_outs] at hn
    by_cases hlt : n < c.nIn
    · exact Nat.lt_add_right _ ((opt_nIn c).symm ▸ hlt)
    · obtain ⟨g, hg, rfl⟩ := hc.gates.exists_out (Nat.le_of_not_lt hlt) (hc.outs n hn)
      exact hgates.out_lt ((mem_opt_gates_iff hwf).2 ⟨hg, .out hn⟩)

/-- An optimizer that drops no gate leaves the circuit as it is. -/
theorem opt_eq_of_length {c : Circ} (h : (opt c).gates.length = c.gates.length) : opt c = c := by
  have hgates := (opt_sublist c).eq_of_length h
  have houts := opt_outs c
  have hnIn := opt_nIn c
  cases hopt : opt c
  rw [hopt] at hgates houts hnIn
  cases c
  simp_all

/-- **The pipeline that falls back** preserves the meaning of every circuit that is numbered in
order, and it emits the optimized netlist if and only if no dead gate stands in front of a needed
one. -/
theorem emitPipeline_exact {c : Circ} (hc : c.Ssa) :
    (∀ ins, c.outs.map ((emitPipeline c).value ins) = sem c ins) ∧
      (emitPipeline c = emitPipeline' c ↔
        ∀ m n, c.nIn ≤ m → m < n → c.Needed n → c.Needed m) := by
  rw [← opt_ssa_iff hc, emitPipeline]
  split_ifs with h
  · refine ⟨fun ins => ?_, iff_of_true ?_ h⟩
    · rw [← sem_opt, ← h.values_emitN, opt_outs]
    · rw [emitPipeline', h.normalize_eq]
  · refine ⟨hc.values_emitN, iff_of_false (fun heq => h ?_) h⟩
    -- the emitted netlists differ in length
    have hlen := congrArg List.length heq
    rw [emitPipeline', length_emitN, length_emitN, normalize, length_renumGates, opt_nIn] at hlen
    rw [opt_eq_of_length (Nat.add_left_cancel hlen).symm]
    exact hc

theorem emitPipeline_exact_withMidDead :
    withMidDead.Ssa ∧ ∀ ins, withMidDead.outs.map ((emitPipeline withMidDead).value ins) =
      sem withMidDead ins :=
  have hssa : withMidDead.Ssa := by decide
  ⟨hssa, (emitPipeline_exact hssa).1⟩

/-- The first pipeline emits the dead gate, the second one does not. -/
example : (emitPipeline withMidDead).length = 5 ∧ (emitPipeline' withMidDead).length = 4 := by
  decide

end Saltworks.HDL
