import Saltworks.HDL.EmitN
import Saltworks.Importer.ClockedNetlist

/-!
# The equivalence certificate

A netlist that came back from synthesis is checked against the circuit that it was made from: the
datum of its import and the netlist that the circuit is emitted as must have the same truth tables
at their outputs. The tables are evaluated bit-sliced, once for all configurations of the inputs
and the state (`Certified`).

The certificate passes if and only if the clocked netlist runs as the sequential circuit does, from
all contents of its flops and for any number of cycles (`certified_iff_runs`). Therefore a
certificate that fails is no artefact of the check: the netlist has a cycle that the circuit does
not have.

## Main definitions

* `Seq.Wf`, `runTrace`: sequential circuits and their runs.
* `Ports`: the import and the circuit have the same ports.
* `Certified`: the certificate.

## Main results

* `certified_iff_values`: the certificate is about the values of the outputs.
* `certified_iff_runs`: the certificate is about the runs of the clocked netlist.
-/

namespace Saltworks.HDL

/-! ### Sequential circuits -/

/-- The core is wired consistently with the declared widths. -/
structure Seq.Wf (m : Seq) : Prop where
  core : m.core.Wf
  nIn : m.core.nIn = m.nIn + m.nState
  outs : m.core.outs.length = m.nOut + m.nState

/-- Run an input trace from an initial state, collecting the outputs. -/
def runTrace (m : Seq) : List Bool → List (List Bool) → List (List Bool) × List Bool
  | st, [] => ([], st)
  | st, i :: is =>
    let (o, st') := stepSeq m st i
    let (os, stf) := runTrace m st' is
    (o :: os, stf)

/-- A trace is put together from its cycles. -/
theorem runTrace_eq {m : Seq} {n : ℕ} {s o x : ℕ → List Bool}
    (h : ∀ t < n, stepSeq m (s t) (x t) = (o t, s (t + 1))) :
    runTrace m (s 0) ((List.range n).map x) = ((List.range n).map o, s n) := by
  induction n generalizing s o x with
  | zero => rfl
  | succ n ih =>
    have hrest := ih (s := fun t => s (t + 1)) (o := fun t => o (t + 1))
      (x := fun t => x (t + 1)) fun t ht => h (t + 1) (Nat.succ_lt_succ ht)
    rw [List.range_succ_eq_map, List.map_cons, List.map_cons, List.map_map, List.map_map,
      runTrace, h 0 (Nat.succ_pos n)]
    exact congrArg (fun p : List (List Bool) × List Bool => (o 0 :: p.1, p.2)) hrest

/-- A circuit depends on its inputs. -/
theorem Circ.Wf.sem_congr {c : Circ} (hc : c.Wf) {ins ins' : ℕ → Bool}
    (h : ∀ i < c.nIn, ins i = ins' i) : sem c ins = sem c ins' := by
  rw [← values_emitPipeline' hc, ← values_emitPipeline' hc]
  refine List.map_congr_left fun k _ => ?_
  rw [Silicon.Netlist.value, Silicon.Netlist.runP_congr fun i hi =>
    h i ((inputsFirst_emitPipeline' c).inputsBelow i hi)]
  rfl

end Saltworks.HDL

namespace Saltworks.Importer

open Silicon HDL

/-! ### The certificate -/

/-- The import and the circuit have the same ports: the design inputs and outputs, and one state
bit for each flop that the treatment cuts. -/
structure Ports (imp : Imported) (m : Seq) : Prop where
  wf : m.Wf
  nIn : m.nIn = imp.ndesignIn
  nOut : m.nOut = imp.ndesignOut
  nState : m.nState = imp.auto.length

/-- The certificate: the datum of the import and the netlist of the circuit have the same truth
tables at their outputs. -/
def Certified (imp : Imported) (m : Seq) : Prop :=
  outsOf (runS (2 ^ m.core.nIn) (col m.core.nIn) [] imp.datum.gates) imp.datum.outs =
    outsOf (runS (2 ^ m.core.nIn) (col m.core.nIn) [] (emitPipeline' m.core))
      (normalize (opt m.core)).outs

instance (imp : Imported) (m : Seq) : Decidable (Certified imp m) :=
  inferInstanceAs (Decidable (_ = _))

/-- The design inputs of a cycle, as the circuit reads them. -/
def portValues (m : Seq) (x : ℕ → Bool) : List Bool := (List.range m.nIn).map x

/-- The contents of the flops under an assignment to the inputs of the datum. -/
def contents (r : Request) (imp : Imported) (ins : ℕ → Bool) (nm : Net) : Bool :=
  ins ((r.ins ++ imp.auto.map Flop.q).idxOf nm)

theorem idxOf_of_getElem? {α : Type*} [DecidableEq α] {l : List α} (hnd : l.Nodup) {k : ℕ} {a : α}
    (ha : l[k]? = some a) : l.idxOf a = k := by
  obtain ⟨hk, rfl⟩ := List.getElem?_eq_some_iff.mp ha
  exact hnd.idxOf_getElem k hk

section Certificate

variable {depth : ℕ} {r : Request} {imp : Imported} {m : Seq} (h : Accepted depth r imp)
  (hcuts : imp.cuts = []) (hports : Ports imp m)

include h in
theorem Accepted.inputsFirst : imp.datum.gates.InputsFirst imp.source.inputs.length := by
  have htrue : Closed imp.source (fun _ => false) fun _ _ => True := by
    constructor <;> intros <;> trivial
  exact (elaborate_closed htrue h.datum).1

include h hcuts hports

theorem Ports.length_inputs : imp.source.inputs.length = m.core.nIn := by
  rw [h.inputs, hcuts, List.append_nil, List.length_append, List.length_map, ← h.ndesignIn,
    hports.wf.nIn, hports.nIn, hports.nState]

/-- The certificate is about the values of the outputs. -/
theorem certified_iff_values :
    Certified imp m ↔
      ∀ ins, imp.datum.outs.map (imp.datum.gates.value ins) = sem m.core ins := by
  have hbelow := h.inputsFirst.inputsBelow
  rw [hports.length_inputs h hcuts] at hbelow
  rw [Certified, outsOf_eq_iff hbelow (inputsFirst_emitPipeline' m.core).inputsBelow]
  exact forall_congr' fun ins => by rw [values_emitPipeline' hports.wf.core]

/-! ### One cycle -/

omit h hcuts in
/-- The datum is fed what the core of the circuit reads. -/
theorem Ports.inputs_eq (st : List Bool) (x : ℕ → Bool) :
    imp.inputs st x = m.env (portValues m x) st := by
  funext k
  rw [Imported.inputs, Seq.env, hports.nIn]
  split_ifs with hk
  · simp [portValues, hports.nIn, hk]
  · rfl

/-- One cycle of the iterated datum is one cycle of the circuit. -/
theorem Certified.stepSeq_eq (hcert : Certified imp m) (st : List Bool) (x : ℕ → Bool) :
    stepSeq m st (portValues m x) = (imp.design st x, imp.machine.step st x) := by
  have hvalues := (certified_iff_values h hcuts hports).1 hcert (imp.inputs st x)
  rw [stepSeq, ← hports.inputs_eq, ← hvalues, hports.nOut]
  rfl

/-! ### Every assignment is a cycle -/

omit hports in
theorem Accepted.nodup_append : (r.ins ++ imp.auto.map Flop.q).Nodup := by
  have hnd := h.nodup_inputs
  rwa [h.inputs, hcuts, List.append_nil] at hnd

omit hports in
/-- An assignment feeds back the flops that are cut by hand. -/
theorem handCutFed_contents (ins : ℕ → Bool) : HandCutFed r (contents r imp ins) ins := by
  intro k nm hk _
  have hlt := (List.getElem?_eq_some_iff.mp hk).1
  rw [contents, idxOf_of_getElem? (h.nodup_append hcuts)
    ((List.getElem?_append_left hlt).trans hk)]

/-- The cycle of an assignment feeds the datum with it. -/
theorem inputs_contents (ins : ℕ → Bool) {k : ℕ} (hk : k < m.core.nIn) :
    imp.inputs (imp.auto.map fun f => contents r imp ins f.q) ins k = ins k := by
  rw [Imported.inputs]
  split_ifs with hlt
  · rfl
  · have hle := Nat.le_of_not_lt hlt
    have hlen : k - imp.ndesignIn < imp.auto.length := by
      rw [hports.wf.nIn, hports.nIn, hports.nState] at hk
      omega
    have hq : (r.ins ++ imp.auto.map Flop.q)[k]? = some imp.auto[k - imp.ndesignIn].q := by
      rw [List.getElem?_append_right (h.ndesignIn ▸ hle), ← h.ndesignIn, List.getElem?_map,
        List.getElem?_eq_getElem hlen]
      rfl
    have hidx := idxOf_of_getElem? (h.nodup_append hcuts) hq
    simp [contents, hlen, hidx]

/-! ### Runs -/

/-- A certificate that passes makes every run of the netlist a run of the circuit. -/
theorem Certified.runTrace_eq (hcert : Certified imp m) {x : ℕ → ℕ → Bool} {σ : ℕ → Net → Bool}
    {o : ℕ → List Bool} {n : ℕ}
    (hclk : ∀ t < n, Clocks r imp.source.pinned (σ t) (x t) (o t) (σ (t + 1)))
    (hfed : ∀ t < n, HandCutFed r (σ t) (x t)) :
    runTrace m (imp.auto.map fun f => σ 0 f.q) ((List.range n).map fun t => portValues m (x t)) =
      ((List.range n).map o, imp.auto.map fun f => σ n f.q) := by
  refine HDL.runTrace_eq (s := fun t => imp.auto.map fun f => σ t f.q) fun t ht => ?_
  rw [hcert.stepSeq_eq h hcuts hports, design_eq_of_clocks hcuts (hfed t ht) h (hclk t ht),
    next_eq_of_clocks hcuts (hfed t ht) h (hclk t ht)]

/-- A cycle of the netlist in which it goes as the circuit does shows the outputs of the core. -/
theorem values_eq_sem {x : ℕ → Bool} {σ σ' : Net → Bool} {o : List Bool}
    (hclk : Clocks r imp.source.pinned σ x o σ') (hfed : HandCutFed r σ x)
    (hstep : stepSeq m (imp.auto.map fun f => σ f.q) (portValues m x) =
      (o, imp.auto.map fun f => σ' f.q)) :
    imp.values (imp.auto.map fun f => σ f.q) x =
      sem m.core (imp.inputs (imp.auto.map fun f => σ f.q) x) := by
  rw [← design_eq_of_clocks hcuts hfed h hclk, ← next_eq_of_clocks hcuts hfed h hclk, stepSeq,
    Prod.mk.injEq, ← hports.inputs_eq, hports.nOut] at hstep
  rw [← List.take_append_drop imp.ndesignOut (imp.values _ x),
    ← List.take_append_drop imp.ndesignOut (sem m.core _), hstep.1, hstep.2]
  rfl

/-- The certificate passes where every cycle of the netlist goes as the circuit does. -/
theorem certified_of_cycles (hsingle : SinglyDriven r.insts r.assigns)
    (hcycle : ∀ x σ o σ', Clocks r imp.source.pinned σ x o σ' → HandCutFed r σ x →
      stepSeq m (imp.auto.map fun f => σ f.q) (portValues m x) =
        (o, imp.auto.map fun f => σ' f.q)) : Certified imp m := by
  refine (certified_iff_values h hcuts hports).2 fun ins => ?_
  have hfed := handCutFed_contents h hcuts ins
  obtain ⟨o, σ', hclk⟩ := exists_clocks hcuts hfed h hsingle
  have hvalues := values_eq_sem h hcuts hports hclk hfed (hcycle _ _ _ _ hclk hfed)
  -- the assignment that the cycle feeds the datum is the given one on its inputs
  have hins := fun k hk => inputs_contents h hcuts hports ins (k := k) hk
  rw [hports.wf.core.sem_congr hins] at hvalues
  rw [← hvalues]
  refine List.map_congr_left fun k _ => ?_
  have hbelow := h.inputsFirst.inputsBelow
  rw [hports.length_inputs h hcuts] at hbelow
  rw [Netlist.value, Netlist.value, Netlist.runP_congr fun i hi => (hins i (hbelow i hi)).symm]

end Certificate

/-- **The certificate is exact.** For an accepted import without a net that two drivers drive and a
well-formed circuit with the same ports, the certificate passes if and only if every run of the
clocked netlist is a run of the circuit: from the same contents and on the same inputs it shows
the same outputs and ends in the same contents. -/
theorem certified_iff_runs {depth seqInText : ℕ} {r : Request} {imp : Imported} {m : Seq}
    (h : importNetlist depth r seqInText = .ok imp) (hcut : r.cut = none)
    (hsingle : SinglyDriven r.insts r.assigns) (hports : Ports imp m) :
    Certified imp m ↔
      ∀ (x : ℕ → ℕ → Bool) (σ : ℕ → Net → Bool) (o : ℕ → List Bool) (n : ℕ),
        (∀ t < n, Clocks r imp.source.pinned (σ t) (x t) (o t) (σ (t + 1))) →
        (∀ t < n, HandCutFed r (σ t) (x t)) →
        runTrace m (imp.auto.map fun f => σ 0 f.q)
            ((List.range n).map fun t => portValues m (x t)) =
          ((List.range n).map o, imp.auto.map fun f => σ n f.q) := by
  have hacc := importNetlist_accepted h
  have hcuts : imp.cuts = [] := by
    have := hacc.cuts
    rw [cutNets, hcut] at this
    exact (Except.ok.inj this).symm
  refine ⟨fun hcert x σ o n hclk hfed => hcert.runTrace_eq hacc hcuts hports hclk hfed,
    fun hruns => certified_of_cycles hacc hcuts hports hsingle fun x σ o σ' hclk hfed => ?_⟩
  have hrun := hruns (fun _ => x) (twoStates σ σ') (fun _ => o) 1
    (fun t ht => by rw [Nat.lt_one_iff.mp ht]; exact hclk)
    (fun t ht => by rw [Nat.lt_one_iff.mp ht]; exact hfed)
  simpa [runTrace, twoStates, Prod.ext_iff] using hrun

/-- The circuit of `pairRequest`, with the enable flop as its state. -/
def pairSeq : Seq where
  nIn := 3
  nOut := 2
  nState := 1
  core := {
    nIn := 4
    gates := [⟨4, .not 2⟩, ⟨5, .and 1 0⟩, ⟨6, .xor 3 5⟩]
    outs := [3, 4, 6] }

theorem certified_iff_runs_pair : Certified pairImport pairSeq ∧
    ∀ (x : ℕ → ℕ → Bool) (σ : ℕ → Net → Bool) (o : ℕ → List Bool) (n : ℕ),
      (∀ t < n, Clocks pairRequest [("rst_n", true)] (σ t) (x t) (o t) (σ (t + 1))) →
      (∀ t < n, HandCutFed pairRequest (σ t) (x t)) →
      runTrace pairSeq [σ 0 "q"] ((List.range n).map fun t => portValues pairSeq (x t)) =
        ((List.range n).map o, [σ n "q"]) := by
  have hports : Ports pairImport pairSeq := ⟨⟨by decide, rfl, rfl⟩, rfl, rfl, rfl⟩
  have hcert : Certified pairImport pairSeq := by decide
  exact ⟨hcert, (certified_iff_runs importNetlist_pairRequest rfl singlyDriven_pairRequest
    hports).1 hcert⟩

end Saltworks.Importer
