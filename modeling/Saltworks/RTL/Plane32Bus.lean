import Saltworks.Machine.Synchronous
import Saltworks.RTL.BusAdapt8

/-!
# The bus plane `plane32bus`

`RTL/plane32bus.v` composes `core32` with `busadapt8`: the core is enabled by `retire`, decodes
the word `c_instr` that the adapter presents, and hands its strobes back to the arbitration in
the same cycle. There is no combinational loop, since `c_instr` depends on the adapter's
registers and the input byte only.

## Main definitions

* `Plane32Bus.State`, `Plane32Bus.Input`, `Plane32Bus.posedge`: the composition and its edge.
* `Plane32Bus.IsReset`: a state that some reset edge leaves behind.
* `Plane32Bus.machine`: the plane with `rst_n` high, driven by a byte and `sof` in each cycle.
-/

namespace Saltworks.RTL.Plane32Bus

/-- The registers of the plane. -/
structure State where
  core : Core32.State
  bus : BusAdapt8.State

/-- The host's side of one cycle: the byte on `instr_byte` and the level of `sof`. -/
structure Input where
  instrByte : BitVec 8
  sof : Bool

section Wires

variable (s : State) (i : Input)

def cInstr : Word := BusAdapt8.cInstr s.bus i.instrByte

def cDmemReq : Bool := Core32.dmemReq (cInstr s i)

def cDmemWe : Bool := Core32.dmemWe (cInstr s i)

def retire : Bool := BusAdapt8.retire s.bus (cDmemReq s i)

def addrByte : BitVec 8 :=
  BusAdapt8.pinOut s.bus (Core32.imemAddr s.core) (Core32.dmemAddr s.core (cInstr s i))
    (Core32.dmemWdata s.core (cInstr s i))

def phaseO : BitVec 2 := BusAdapt8.phasePins s.bus

end Wires

/-- The clock edge of the composition. -/
def posedge (rstN : Bool) (s : State) (i : Input) : State where
  core := Core32.posedge rstN (retire s i) (cInstr s i) (BusAdapt8.cDmemRdata s.bus) s.core
  bus := BusAdapt8.posedge rstN i.sof i.instrByte (cDmemReq s i) (cDmemWe s i) s.bus

/-- A state left behind by a reset edge, from whatever state and inputs. The register file has no
reset, so it is arbitrary. -/
def IsReset (s : State) : Prop := ∃ s₀ i₀, s = posedge false s₀ i₀

/-- A reset state has `pc_r` and every adapter register cleared, and any register file. -/
theorem isReset_iff (s : State) :
    IsReset s ↔ s.core.pcR = 0#32 ∧ s.bus = BusAdapt8.resetState := by
  constructor
  · rintro ⟨s₀, i₀, rfl⟩
    exact ⟨rfl, rfl⟩
  · obtain ⟨⟨pc, regs⟩, bus⟩ := s
    rintro ⟨rfl, rfl⟩
    exact ⟨⟨⟨0#32, regs⟩, BusAdapt8.resetState⟩, ⟨0#8, false⟩, rfl⟩

/-- The state after reset with a zero register file. -/
def zeroReset : State := ⟨⟨0#32, fun _ => 0#32⟩, BusAdapt8.resetState⟩

theorem isReset_zeroReset : IsReset zeroReset := (isReset_iff _).2 ⟨rfl, rfl⟩

/-- The plane clocked with `rst_n` high. -/
def machine : Synchronous.Machine State Input where
  step s i := posedge true s i

theorem run_succ (s₀ : State) (inp : ℕ → Input) (t : ℕ) :
    machine.run s₀ inp (t + 1) = posedge true (machine.run s₀ inp t) (inp t) := rfl

end Saltworks.RTL.Plane32Bus
