import Mathlib.Data.List.Sublists
import Saltworks.HDL.Circuit

/-!
# Dead-net elimination

The optimizer of `HDL/Opt.lean`. One backward sweep from the outputs collects the live nets, and
the gates that define none are dropped. The optimizer does not rely on the sweep: it checks that
the live nets are closed under what their gates read and that they cover the outputs, and it
leaves the circuit as it is where the check fails. Therefore it preserves the meaning of every
circuit, well-formed or not (`sem_opt`).

In a well-formed circuit the sweep is exact: a net is live if and only if an output needs it. The
check then never fails, and the optimizer keeps the needed gates and no others.

## Main definitions

* `wfGates`, `Circ.Wf`: every net is defined once, in front of the gates that read it.
* `Circ.Needed`: the nets that the outputs depend on.
* `liveOf`, `dce`, `opt`: the optimizer.

## Main results

* `sem_opt`: the optimizer preserves the meaning of a circuit.
* `mem_liveOf_iff`: the live nets of a well-formed circuit are the needed ones.
* `mem_opt_gates_iff`: the gates that remain.
* `Circ.Wf.opt`: the optimizer keeps circuits well-formed.
-/

namespace Saltworks.HDL

/-! ### Well-formed circuits -/

/-- The nets defined before any gate runs. -/
def Circ.inputs (c : Circ) : List Net := List.range c.nIn

/-- The nets that the circuit defines. -/
def Circ.defined (c : Circ) : List Net := c.gates.foldl (fun acc g => g.out :: acc) c.inputs

/-- Each gate reads only nets already defined. -/
def wfGates : List Net → List Gate → Prop
  | _, [] => True
  | defined, g :: gs => (∀ n ∈ g.op.fanin, n ∈ defined) ∧ wfGates (g.out :: defined) gs

instance (defined : List Net) (gs : List Gate) : Decidable (wfGates defined gs) := by
  induction gs generalizing defined with
  | nil => exact isTrue trivial
  | cons g gs ih =>
    have := ih (g.out :: defined)
    unfold wfGates
    infer_instance

/-- A circuit is well-formed when every gate reads nets already defined, every output is defined,
no net is defined twice and no gate defines an input. -/
structure Circ.Wf (c : Circ) : Prop where
  gates : wfGates c.inputs c.gates
  outs : ∀ n ∈ c.outs, n ∈ c.defined
  nodup : (c.gates.map Gate.out).Nodup
  le_out : ∀ g ∈ c.gates, c.nIn ≤ g.out

instance (c : Circ) : Decidable c.Wf :=
  decidable_of_iff
    (wfGates c.inputs c.gates ∧ (∀ n ∈ c.outs, n ∈ c.defined) ∧ (c.gates.map Gate.out).Nodup ∧
      ∀ g ∈ c.gates, c.nIn ≤ g.out)
    ⟨fun ⟨h₁, h₂, h₃, h₄⟩ => ⟨h₁, h₂, h₃, h₄⟩, fun ⟨h₁, h₂, h₃, h₄⟩ => ⟨h₁, h₂, h₃, h₄⟩⟩

theorem mem_foldl_out (gs : List Gate) (acc : List Net) (n : Net) :
    n ∈ gs.foldl (fun acc g => g.out :: acc) acc ↔ n ∈ acc ∨ n ∈ gs.map Gate.out := by
  induction gs generalizing acc with
  | nil => simp
  | cons g gs ih =>
    rw [List.foldl_cons, ih, List.mem_cons, List.map_cons, List.mem_cons]
    tauto

namespace Circ

variable {c : Circ} {n : Net}

theorem mem_inputs : n ∈ c.inputs ↔ n < c.nIn := List.mem_range

theorem mem_defined : n ∈ c.defined ↔ n < c.nIn ∨ n ∈ c.gates.map Gate.out := by
  rw [defined, mem_foldl_out, mem_inputs]

theorem Wf.notMem_inputs (h : c.Wf) {g : Gate} (hg : g ∈ c.gates) : g.out ∉ c.inputs := by
  rw [mem_inputs]
  exact Nat.not_lt.2 (h.le_out g hg)

end Circ

/-! ### The sweep -/

/-- A gate that defines a live net makes the nets it reads live. -/
def liveStep (acc : List Net) (g : Gate) : List Net :=
  if acc.contains g.out then g.op.fanin ++ acc else acc

/-- Live nets, by one backward sweep from the outputs. -/
def liveOf (gs : List Gate) (outs : List Net) : List Net := gs.reverse.foldl liveStep outs

section Sweep

variable {g : Gate} {gs : List Gate} {outs : List Net} {n : Net}

theorem liveOf_cons : liveOf (g :: gs) outs = liveStep (liveOf gs outs) g := by
  rw [liveOf, List.reverse_cons, List.foldl_append]
  rfl

theorem mem_liveStep {acc : List Net} :
    n ∈ liveStep acc g ↔ n ∈ acc ∨ g.out ∈ acc ∧ n ∈ g.op.fanin := by
  rw [liveStep]
  split_ifs with h
  · rw [List.contains_iff_mem] at h
    rw [List.mem_append]
    tauto
  · rw [List.contains_iff_mem] at h
    tauto

theorem mem_liveOf_cons :
    n ∈ liveOf (g :: gs) outs ↔
      n ∈ liveOf gs outs ∨ g.out ∈ liveOf gs outs ∧ n ∈ g.op.fanin := by
  rw [liveOf_cons, mem_liveStep]

theorem mem_liveOf_of_mem (h : n ∈ outs) : n ∈ liveOf gs outs := by
  induction gs with
  | nil => exact h
  | cons g gs ih => exact mem_liveOf_cons.2 (Or.inl ih)

/-- **The sweep is closed.** Where gates read only what stands in front of them, one pass reaches
everything that a live net depends on. -/
theorem mem_liveOf_of_fanin {defined : List Net} (hwf : wfGates defined gs)
    (hnodup : (gs.map Gate.out).Nodup) (hnew : ∀ g ∈ gs, g.out ∉ defined) (hg : g ∈ gs)
    (hlive : g.out ∈ liveOf gs outs) (hn : n ∈ g.op.fanin) : n ∈ liveOf gs outs := by
  induction gs generalizing defined with
  | nil => cases hg
  | cons g' gs ih =>
    obtain ⟨hfan, hwf⟩ := hwf
    obtain ⟨hfresh, hnodup⟩ := List.nodup_cons.1 hnodup
    -- the first gate reads no net that it or a later gate defines
    have hread : g.out ∉ g'.op.fanin := fun h => hnew g hg (hfan _ h)
    replace hlive : g.out ∈ liveOf gs outs :=
      (mem_liveOf_cons.1 hlive).resolve_right fun h => hread h.2
    rcases List.mem_cons.1 hg with rfl | hg
    · exact mem_liveOf_cons.2 (Or.inr ⟨hlive, hn⟩)
    · refine mem_liveOf_cons.2 (Or.inl (ih hwf hnodup (fun h hh hmem => ?_) hg hlive))
      rcases List.mem_cons.1 hmem with heq | hmem
      · exact hfresh (heq ▸ List.mem_map_of_mem hh)
      · exact hnew h (List.mem_cons_of_mem g' hh) hmem

end Sweep

/-! ### The optimizer -/

/-- Everything a kept gate reads is itself kept. -/
def keepClosed (keep : Net → Bool) (gs : List Gate) : Bool :=
  gs.all fun g => !keep g.out || g.op.fanin.all keep

/-- Dead-net elimination, where the live nets are closed and cover the outputs. -/
def dce (c : Circ) : Circ :=
  let keep := fun n => (liveOf c.gates c.outs).contains n
  if keepClosed keep c.gates && c.outs.all keep then
    { c with gates := c.gates.filter fun g => keep g.out }
  else c

/-- The optimizer. -/
def opt (c : Circ) : Circ := dce c

theorem keepClosed_iff {keep : Net → Bool} {gs : List Gate} :
    keepClosed keep gs ↔ ∀ g ∈ gs, keep g.out → ∀ n ∈ g.op.fanin, keep n := by
  simp only [keepClosed, List.all_eq_true, Bool.or_eq_true, Bool.not_eq_true', Bool.eq_false_iff]
  exact forall₂_congr fun g _ => by rw [ne_eq, ← imp_iff_not_or]

/-- The kept gates compute at every kept net what all the gates compute. -/
theorem run_filter {keep : Net → Bool} {gs : List Gate}
    (hclosed : ∀ g ∈ gs, keep g.out → ∀ n ∈ g.op.fanin, keep n) {env env' : Env}
    (h : ∀ n, keep n → env n = env' n) {n : Net} (hn : keep n) :
    run env (gs.filter fun g => keep g.out) n = run env' gs n := by
  induction gs generalizing env env' with
  | nil => exact h n hn
  | cons g gs ih =>
    have hrest := fun g' hg' => hclosed g' (List.mem_cons_of_mem g hg')
    by_cases hk : keep g.out
    · rw [List.filter_cons_of_pos (p := fun g : Gate => keep g.out) hk]
      refine ih hrest fun m hm => ?_
      rw [upd, upd, h m hm, Op.eval_congr fun a ha => h a (hclosed g List.mem_cons_self hk a ha)]
    · rw [List.filter_cons_of_neg (p := fun g : Gate => keep g.out) hk]
      refine ih hrest fun m hm => ?_
      have hne : m ≠ g.out := fun heq => hk (heq ▸ hm)
      rw [upd_of_ne _ _ hne, h m hm]

/-- **The optimizer preserves the meaning of every circuit.** -/
theorem sem_opt (c : Circ) (ins : Env) : sem (opt c) ins = sem c ins := by
  rw [opt, dce]
  split_ifs with h
  · obtain ⟨hclosed, houts⟩ := Bool.and_eq_true_iff.1 h
    exact List.map_congr_left fun n hn =>
      run_filter (keepClosed_iff.1 hclosed) (fun _ _ => rfl) (List.all_eq_true.1 houts n hn)
  · rfl

@[simp] theorem opt_outs (c : Circ) : (opt c).outs = c.outs := by
  rw [opt, dce]
  split_ifs <;> rfl

@[simp] theorem opt_nIn (c : Circ) : (opt c).nIn = c.nIn := by
  rw [opt, dce]
  split_ifs <;> rfl

theorem opt_sublist (c : Circ) : (opt c).gates.Sublist c.gates := by
  rw [opt, dce]
  split_ifs
  · exact List.filter_sublist
  · exact List.Sublist.refl _

/-! ### What remains -/

/-- A net is needed when an output names it, or a gate that defines a needed net reads it. -/
inductive Circ.Needed (c : Circ) : Net → Prop
  | out {n : Net} (h : n ∈ c.outs) : Needed c n
  | read {g : Gate} {n : Net} (hg : g ∈ c.gates) (hout : Needed c g.out)
      (hn : n ∈ g.op.fanin) : Needed c n

section Exact

variable {c : Circ} {n : Net}

/-- The sweep collects needed nets only. -/
theorem Circ.Needed.of_mem_liveOf {gs : List Gate} (hgs : ∀ g ∈ gs, g ∈ c.gates)
    (h : n ∈ liveOf gs c.outs) : c.Needed n := by
  induction gs generalizing n with
  | nil => exact .out h
  | cons g gs ih =>
    have ih {n : Net} := @ih n fun g' hg' => hgs g' (List.mem_cons_of_mem g hg')
    rcases mem_liveOf_cons.1 h with h | ⟨hout, hn⟩
    · exact ih h
    · exact .read (hgs g List.mem_cons_self) (ih hout) hn

/-- The live nets of a well-formed circuit are the needed ones. -/
theorem mem_liveOf_iff (hc : c.Wf) : n ∈ liveOf c.gates c.outs ↔ c.Needed n := by
  refine ⟨.of_mem_liveOf fun _ hg => hg, fun h => ?_⟩
  induction h with
  | out h => exact mem_liveOf_of_mem h
  | read hg _ hn ih =>
    exact mem_liveOf_of_fanin hc.gates hc.nodup (fun g hg => hc.notMem_inputs hg) hg ih hn

/-- In a well-formed circuit the check succeeds. -/
theorem opt_gates (hc : c.Wf) :
    (opt c).gates = c.gates.filter fun g => (liveOf c.gates c.outs).contains g.out := by
  have hclosed : keepClosed (fun n => (liveOf c.gates c.outs).contains n) c.gates := by
    rw [keepClosed_iff]
    simp only [List.contains_iff_mem, mem_liveOf_iff hc]
    exact fun g hg hout n hn => .read hg hout hn
  have houts : c.outs.all fun n => (liveOf c.gates c.outs).contains n := by
    simp only [List.all_eq_true, List.contains_iff_mem]
    exact fun n hn => mem_liveOf_of_mem hn
  rw [opt, dce, if_pos (Bool.and_eq_true_iff.2 ⟨hclosed, houts⟩)]

/-- **The optimizer keeps the needed gates and no others.** -/
theorem mem_opt_gates_iff (hc : c.Wf) {g : Gate} :
    g ∈ (opt c).gates ↔ g ∈ c.gates ∧ c.Needed g.out := by
  rw [opt_gates hc, List.mem_filter, List.contains_iff_mem, mem_liveOf_iff hc]

/-- The nets needed after the optimizer are those needed before it. -/
theorem needed_opt_iff (hc : c.Wf) : (opt c).Needed n ↔ c.Needed n := by
  constructor
  · intro h
    induction h with
    | out h => exact .out (opt_outs c ▸ h)
    | read hg _ hn ih => exact .read ((mem_opt_gates_iff hc).1 hg).1 ih hn
  · intro h
    induction h with
    | out h => exact .out ((opt_outs c).symm ▸ h)
    | read hg hout hn ih => exact .read ((mem_opt_gates_iff hc).2 ⟨hg, hout⟩) ih hn

/-! ### Well-formedness -/

/-- Filtering keeps the order of definitions, where the kept nets are closed. -/
theorem wfGates_filter {keep : Net → Bool} {gs : List Gate}
    (hclosed : ∀ g ∈ gs, keep g.out → ∀ n ∈ g.op.fanin, keep n) {defined defined' : List Net}
    (hdef : ∀ n ∈ defined, keep n → n ∈ defined') (hwf : wfGates defined gs) :
    wfGates defined' (gs.filter fun g => keep g.out) := by
  induction gs generalizing defined defined' with
  | nil => trivial
  | cons g gs ih =>
    have hrest := fun g' hg' => hclosed g' (List.mem_cons_of_mem g hg')
    obtain ⟨hfan, hwf⟩ := hwf
    by_cases hk : keep g.out
    · rw [List.filter_cons_of_pos (p := fun g : Gate => keep g.out) hk]
      refine ⟨fun n hn => hdef n (hfan n hn) (hclosed g List.mem_cons_self hk n hn),
        ih hrest (fun n hn hkn => ?_) hwf⟩
      rcases List.mem_cons.1 hn with rfl | hn
      · exact List.mem_cons_self
      · exact List.mem_cons_of_mem _ (hdef n hn hkn)
    · rw [List.filter_cons_of_neg (p := fun g : Gate => keep g.out) hk]
      refine ih hrest (fun n hn hkn => ?_) hwf
      rcases List.mem_cons.1 hn with rfl | hn
      · exact absurd hkn hk
      · exact hdef n hn hkn

/-- The optimizer keeps circuits well-formed. -/
theorem Circ.Wf.opt (hc : c.Wf) : (opt c).Wf := by
  have hsub := opt_sublist c
  refine ⟨?_, fun n hn => ?_, hc.nodup.sublist (hsub.map _), fun g hg => ?_⟩
  · rw [Circ.inputs, opt_nIn, opt_gates hc]
    refine wfGates_filter (fun g hg hout n hn => ?_) (fun n hn _ => hn) hc.gates
    rw [List.contains_iff_mem, mem_liveOf_iff hc] at hout ⊢
    exact .read hg hout hn
  · rw [opt_outs] at hn
    rw [Circ.mem_defined, opt_nIn]
    refine (Circ.mem_defined.1 (hc.outs n hn)).imp_right fun hmem => ?_
    obtain ⟨g, hg, rfl⟩ := List.mem_map.1 hmem
    exact List.mem_map_of_mem ((mem_opt_gates_iff hc).2 ⟨hg, .out hn⟩)
  · rw [opt_nIn]
    exact hc.le_out g (hsub.subset hg)

end Exact

/-- One gate is dead, and a second only because the first is. -/
example : (opt ⟨2, [⟨2, .xor 0 1⟩, ⟨3, .and 0 1⟩, ⟨4, .or 2 3⟩], [2]⟩).gates =
    [⟨2, .xor 0 1⟩] := by decide

end Saltworks.HDL
