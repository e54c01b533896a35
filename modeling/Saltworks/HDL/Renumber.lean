import Mathlib.Data.List.Nodup
import Saltworks.HDL.Optimizer

/-!
# Renumbering

A netlist is positional: net `k` is defined by gate `k`. A circuit whose gates are numbered in
order is one already (`Circ.Ssa`), but the optimizer drops gates, so that the remaining ones keep
their names while their positions shift. The renumbering of `HDL/Renumber.lean` names every net
after the position of the gate that defines it (`normalize`).

What a renaming must satisfy, gate by gate, is that everything already defined is named below the
next gate (`Numbers`). A renaming with this property numbers the gates in order and leaves what
they compute.

## Main definitions

* `Circ.Ssa`: the gates are numbered in order.
* `renum`, `renumGates`, `normalize`: the renumbering.
* `Numbers`: a renaming that numbers the gates of a list.

## Main results

* `Circ.Wf.normalize_ssa`: the renumbered circuit is numbered in order.
* `Circ.Wf.sem_normalize`: the renumbering preserves the meaning of a well-formed circuit.
* `Circ.Ssa.normalize_eq`: a circuit that is numbered in order stays as it is.
-/

namespace Saltworks.HDL

/-! ### Circuits numbered in order -/

/-- The gates are numbered from the inputs on, and every output is a net of the circuit. -/
structure Circ.Ssa (c : Circ) : Prop where
  gates : ssaFrom c.nIn c.gates
  outs : ∀ n ∈ c.outs, n < c.nIn + c.gates.length

instance (c : Circ) : Decidable c.Ssa :=
  decidable_of_iff (ssaFrom c.nIn c.gates ∧ ∀ n ∈ c.outs, n < c.nIn + c.gates.length)
    ⟨fun ⟨h₁, h₂⟩ => ⟨h₁, h₂⟩, fun ⟨h₁, h₂⟩ => ⟨h₁, h₂⟩⟩

namespace ssaFrom

variable {base : ℕ} {gs : List Gate}

/-- Gate `k` defines net `base + k` and reads nets below it. -/
theorem getElem (h : ssaFrom base gs) {k : ℕ} (hk : k < gs.length) :
    gs[k].out = base + k ∧ ∀ n ∈ gs[k].op.fanin, n < base + k := by
  induction gs generalizing base k with
  | nil => cases hk
  | cons g gs ih =>
    obtain ⟨hout, hfan, hrest⟩ := h
    cases k with
    | zero => exact ⟨hout, hfan⟩
    | succ k =>
      have hshift : base + (k + 1) = base + 1 + k := Nat.add_right_comm base k 1
      rw [List.getElem_cons_succ, hshift]
      exact ih hrest (Nat.lt_of_succ_lt_succ hk)

theorem exists_getElem (h : ssaFrom base gs) {g : Gate} (hg : g ∈ gs) :
    ∃ k, ∃ _ : k < gs.length, gs[k] = g ∧ g.out = base + k := by
  obtain ⟨k, hk, rfl⟩ := List.getElem_of_mem hg
  exact ⟨k, hk, rfl, (h.getElem hk).1⟩

theorem out_lt (h : ssaFrom base gs) {g : Gate} (hg : g ∈ gs) : g.out < base + gs.length := by
  obtain ⟨k, hk, -, hout⟩ := h.exists_getElem hg
  exact hout ▸ Nat.add_lt_add_left hk base

theorem fanin_lt_out (h : ssaFrom base gs) {g : Gate} (hg : g ∈ gs) {n : Net}
    (hn : n ∈ g.op.fanin) : n < g.out := by
  obtain ⟨k, hk, rfl, hout⟩ := h.exists_getElem hg
  exact hout ▸ (h.getElem hk).2 n hn

/-- Every net from `base` on is the net of a gate. -/
theorem exists_out (h : ssaFrom base gs) {n : Net} (hbase : base ≤ n)
    (hn : n < base + gs.length) : ∃ g ∈ gs, g.out = n := by
  have hk : n - base < gs.length := Nat.sub_lt_left_of_lt_add hbase hn
  exact ⟨gs[n - base], List.getElem_mem hk,
    (h.getElem hk).1.trans (Nat.add_sub_cancel' hbase)⟩

theorem nodup (h : ssaFrom base gs) : (gs.map Gate.out).Nodup := by
  induction gs generalizing base with
  | nil => exact List.nodup_nil
  | cons g gs ih =>
    refine List.nodup_cons.2 ⟨fun hmem => ?_, ih h.2.2⟩
    obtain ⟨g', hg', heq⟩ := List.mem_map.1 hmem
    have hle : base + 1 ≤ g'.out := h.2.2.le_out g' hg'
    rw [heq, h.1] at hle
    exact Nat.not_succ_le_self base hle

theorem wfGates (h : ssaFrom base gs) {defined : List Net} (hdef : ∀ n < base, n ∈ defined) :
    wfGates defined gs := by
  induction gs generalizing base defined with
  | nil => trivial
  | cons g gs ih =>
    refine ⟨fun n hn => hdef n (h.2.1 n hn), ih h.2.2 fun n hn => ?_⟩
    rcases Nat.lt_succ_iff_lt_or_eq.1 hn with hlt | rfl
    · exact List.mem_cons_of_mem _ (hdef n hlt)
    · exact h.1 ▸ List.mem_cons_self

end ssaFrom

/-- A circuit that is numbered in order is well-formed. -/
theorem Circ.Ssa.wf {c : Circ} (h : c.Ssa) : c.Wf := by
  refine ⟨h.gates.wfGates fun n hn => mem_inputs.2 hn, fun n hn => ?_, h.gates.nodup,
    h.gates.le_out⟩
  rw [mem_defined]
  refine (Nat.lt_or_ge n c.nIn).imp_right fun hge => ?_
  obtain ⟨g, hg, rfl⟩ := h.gates.exists_out hge (h.outs n hn)
  exact List.mem_map_of_mem hg

/-! ### The renumbering -/

/-- The net of gate `i` becomes `nIn + i`. -/
def renum (c : Circ) (n : Net) : Net :=
  if n < c.nIn then n else c.nIn + (c.gates.map Gate.out).idxOf n

/-- Gate `i` defines net `nIn + i`, and its operands are renamed. -/
def renumGates (nIn : ℕ) (σ : Net → Net) : ℕ → List Gate → List Gate
  | _, [] => []
  | i, g :: gs => ⟨nIn + i, g.op.rename σ⟩ :: renumGates nIn σ (i + 1) gs

/-- The densifying renumber. -/
def normalize (c : Circ) : Circ where
  nIn := c.nIn
  gates := renumGates c.nIn (renum c) 0 c.gates
  outs := c.outs.map (renum c)

theorem Op.fanin_rename (f : Net → Net) (o : Op) : (o.rename f).fanin = o.fanin.map f := by
  cases o <;> rfl

theorem Op.rename_congr {f f' : Net → Net} {o : Op} (h : ∀ n ∈ o.fanin, f n = f' n) :
    o.rename f = o.rename f' := by
  cases o <;> simp_all [rename, fanin]

theorem Op.rename_id (o : Op) : o.rename id = o := by cases o <;> rfl

@[simp] theorem length_renumGates (nIn : ℕ) (σ : Net → Net) (i : ℕ) (gs : List Gate) :
    (renumGates nIn σ i gs).length = gs.length := by
  induction gs generalizing i with
  | nil => rfl
  | cons g gs ih => rw [renumGates, List.length_cons, ih, List.length_cons]

/-! ### Renamings that number gates -/

/-- The renaming numbers the gates from `nIn + i` on, and names everything defined before them
below that. -/
structure Numbers (σ : Net → Net) (nIn i : ℕ) (defined : List Net) (gs : List Gate) : Prop where
  wf : wfGates defined gs
  below : ∀ n ∈ defined, σ n < nIn + i
  out : ∀ k, ∀ h : k < gs.length, σ gs[k].out = nIn + i + k

namespace Numbers

variable {σ : Net → Net} {nIn i : ℕ} {defined : List Net} {g : Gate} {gs : List Gate}

theorem head (h : Numbers σ nIn i defined (g :: gs)) : σ g.out = nIn + i :=
  h.out 0 (Nat.succ_pos _)

theorem fanin (h : Numbers σ nIn i defined (g :: gs)) : ∀ n ∈ g.op.fanin, n ∈ defined := h.wf.1

theorem tail (h : Numbers σ nIn i defined (g :: gs)) :
    Numbers σ nIn (i + 1) (g.out :: defined) gs := by
  refine ⟨h.wf.2, fun n hn => ?_, fun k hk => ?_⟩
  · rcases List.mem_cons.1 hn with rfl | hn
    · exact h.head ▸ Nat.lt_succ_self _
    · exact Nat.lt_succ_of_lt (h.below n hn)
  · have hshift : nIn + i + (k + 1) = nIn + (i + 1) + k := by omega
    exact (h.out (k + 1) (Nat.succ_lt_succ hk)).trans hshift

/-- Under a renaming that numbers them, the gates are renamed one by one. -/
theorem renumGates_eq (h : Numbers σ nIn i defined gs) :
    renumGates nIn σ i gs = gs.map fun g => ⟨σ g.out, g.op.rename σ⟩ := by
  induction gs generalizing i defined with
  | nil => rfl
  | cons g gs ih => rw [renumGates, List.map_cons, h.head, ih h.tail]

theorem ssaFrom (h : Numbers σ nIn i defined gs) :
    ssaFrom (nIn + i) (renumGates nIn σ i gs) := by
  induction gs generalizing i defined with
  | nil => trivial
  | cons g gs ih =>
    refine ⟨rfl, fun n hn => ?_, ih h.tail⟩
    rw [Op.fanin_rename] at hn
    obtain ⟨m, hm, rfl⟩ := List.mem_map.1 hn
    exact h.below m (h.fanin m hm)

/-- The renumbered gates compute at the new names what the gates compute at the old ones. The net
that is written next is named above everything defined. -/
theorem run_renumGates (h : Numbers σ nIn i defined gs) {env env' : Env}
    (hagree : ∀ n ∈ defined, env (σ n) = env' n) {n : Net}
    (hn : n ∈ defined ∨ n ∈ gs.map Gate.out) :
    run env (renumGates nIn σ i gs) (σ n) = run env' gs n := by
  induction gs generalizing i defined env env' with
  | nil => exact hagree n (hn.resolve_right List.not_mem_nil)
  | cons g gs ih =>
    refine ih h.tail (fun m hm => ?_) (by simp only [List.map_cons, List.mem_cons] at hn ⊢; tauto)
    have heval : (g.op.rename σ).eval env = g.op.eval env' := by
      rw [Op.eval_rename]
      exact Op.eval_congr fun a ha => hagree a (h.fanin a ha)
    by_cases hmg : m = g.out
    · rw [hmg, h.head, upd_self, upd_self, heval]
    · have hm := (List.mem_cons.1 hm).resolve_left hmg
      rw [upd_of_ne _ _ (Nat.ne_of_lt (h.below m hm)), upd_of_ne _ _ hmg, hagree m hm]

end Numbers

/-! ### The renumbered circuit -/

namespace Circ

variable {c : Circ} {n : Net}

theorem renum_of_lt (h : n < c.nIn) : renum c n = n := if_pos h

theorem Wf.renum_out (hc : c.Wf) {k : ℕ} (hk : k < c.gates.length) :
    renum c c.gates[k].out = c.nIn + k := by
  have hidx := hc.nodup.idxOf_getElem k (by simpa using hk)
  rw [List.getElem_map] at hidx
  rw [renum, if_neg (Nat.not_lt.2 (hc.le_out _ (List.getElem_mem hk))), hidx]

theorem Wf.numbers (hc : c.Wf) : Numbers (renum c) c.nIn 0 c.inputs c.gates :=
  ⟨hc.gates, fun _ hn => (renum_of_lt (mem_inputs.1 hn)).symm ▸ mem_inputs.1 hn,
    fun _ hk => hc.renum_out hk⟩

theorem Wf.normalize_gates (hc : c.Wf) :
    (normalize c).gates = c.gates.map fun g => ⟨renum c g.out, g.op.rename (renum c)⟩ :=
  hc.numbers.renumGates_eq

/-- **The renumbered circuit is numbered in order.** -/
theorem Wf.normalize_ssa (hc : c.Wf) : (normalize c).Ssa := by
  refine ⟨hc.numbers.ssaFrom, fun n hn => ?_⟩
  obtain ⟨m, hm, rfl⟩ := List.mem_map.1 hn
  rw [normalize, length_renumGates]
  rcases mem_defined.1 (hc.outs m hm) with hlt | hmem
  · rw [renum_of_lt hlt]
    exact Nat.lt_add_right _ hlt
  · obtain ⟨g, hg, rfl⟩ := List.mem_map.1 hmem
    obtain ⟨k, hk, rfl⟩ := List.getElem_of_mem hg
    rw [hc.renum_out hk]
    exact Nat.add_lt_add_left hk _

/-- **The renumbering preserves the meaning of a well-formed circuit.** -/
theorem Wf.sem_normalize (hc : c.Wf) (ins : Env) : sem (normalize c) ins = sem c ins := by
  rw [sem, normalize, List.map_map]
  refine List.map_congr_left fun n hn => hc.numbers.run_renumGates (fun m hm => ?_) ?_
  · rw [renum_of_lt (mem_inputs.1 hm)]
  · rw [mem_inputs]
    exact mem_defined.1 (hc.outs n hn)

/-- What an output needs, it needs under its new name. -/
theorem Wf.needed_normalize (hc : c.Wf) (h : c.Needed n) : (normalize c).Needed (renum c n) := by
  induction h with
  | out h => exact .out (List.mem_map_of_mem h)
  | @read g n hg _ hn ih =>
    have hmem : ⟨renum c g.out, g.op.rename (renum c)⟩ ∈ (normalize c).gates :=
      hc.normalize_gates ▸ List.mem_map_of_mem hg
    refine .read hmem ih ?_
    rw [Op.fanin_rename]
    exact List.mem_map_of_mem hn

theorem Ssa.renum_eq (h : c.Ssa) (hn : n < c.nIn + c.gates.length) : renum c n = n := by
  by_cases hlt : n < c.nIn
  · exact renum_of_lt hlt
  · have hk : n - c.nIn < c.gates.length :=
      Nat.sub_lt_left_of_lt_add (Nat.le_of_not_lt hlt) hn
    have hout := (h.gates.getElem hk).1
    rw [Nat.add_sub_cancel' (Nat.le_of_not_lt hlt)] at hout
    have hren := h.wf.renum_out hk
    rwa [hout, Nat.add_sub_cancel' (Nat.le_of_not_lt hlt)] at hren

/-- A circuit that is numbered in order stays as it is. -/
theorem Ssa.normalize_eq (h : c.Ssa) : normalize c = c := by
  have hgates : (normalize c).gates = c.gates := by
    rw [h.wf.normalize_gates]
    refine (List.map_congr_left fun g hg => ?_).trans (List.map_id _)
    have hlt := h.gates.out_lt hg
    have hop : g.op.rename (renum c) = g.op.rename id :=
      Op.rename_congr fun n hn => h.renum_eq ((h.gates.fanin_lt_out hg hn).trans hlt)
    rw [h.renum_eq hlt, hop, Op.rename_id]
    rfl
  have houts : c.outs.map (renum c) = c.outs :=
    (List.map_congr_left fun n hn => h.renum_eq (h.outs n hn)).trans (List.map_id _)
  cases c
  simp only [normalize, Circ.mk.injEq, true_and]
  exact ⟨hgates, houts⟩

end Circ

end Saltworks.HDL
