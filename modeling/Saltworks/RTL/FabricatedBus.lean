import Saltworks.RTL.Plane32Bus

/-!
# The bus plane of the submitted design

`Fabricated/01e19f7/src` keeps the sources of the submitted design. Its `core32` and `plane32bus`
are those of `RTL/`, its `busadapt8` is older: a load owns one loop, in which its address leaves
and its word arrives, and there is no register `load_beat`. A store owns two loops in both.

The wires below are written again from the older source; what the two adapters share without
reference to their registers (`Kind`, `byteOut`, `capture`, `dataKind`) is taken from `BusAdapt8`.

## Main definitions

* `Fabricated.BusState`, `Fabricated.busPosedge`: the registers of the adapter and its clock edge.
* `Fabricated.busRetire`: the strobe that ends an instruction.
* `Fabricated.State`, `Fabricated.posedge`, `Fabricated.machine`: the plane.
* `Fabricated.pins`: the values of `pin_out` and `phase_pins` in a cycle.
-/

namespace Saltworks.RTL.Fabricated

open BusAdapt8 (Kind byteOut capture dataKind)
open Plane32Bus (Input)

/-- The registers of the adapter. -/
structure BusState where
  phase : BitVec 2
  kind : Kind
  storeBeat : Bool
  fetchOwed : Bool
  inAcc : Word
  instrR : Word
  rdataR : Word
  deriving DecidableEq

/-! ### Wires of the adapter -/

section Wires

variable (b : BusState)

def loopEnd : Bool := b.phase == 3#2

def instrAvail : Bool := b.kind == .fetch && b.phase == 3#2

/-- The byte on the pins over the three captured. -/
def assembled (pinIn : BitVec 8) : Word := pinIn ++ b.inAcc.extractLsb' 0 24

def busInstr (pinIn : BitVec 8) : Word :=
  if b.kind == .fetch && b.phase == 3#2 then assembled b pinIn else b.instrR

/-- An instruction ends: at the end of a fetch loop if it needs no data, of every load loop, and
of the data loop of a store. -/
def busRetire (req : Bool) : Bool :=
  loopEnd b &&
    match b.kind with
    | .fetch => !req
    | .load => true
    | .store => b.storeBeat
    | .idle => true

def memRetireNow (req : Bool) : Bool :=
  loopEnd b && busRetire b req && (b.kind == .store || b.kind == .load)

def staleDecode (req : Bool) : Bool := (b.fetchOwed || memRetireNow b req) && !instrAvail b

def phasePins : BitVec 2 := if b.phase == 0#2 then b.kind.code else b.phase

def outWord (imemAddr dmemAddr dmemWdata : Word) : Word :=
  if b.kind == .fetch then imemAddr
  else if b.kind == .store && b.storeBeat then dmemWdata
  else dmemAddr

def pinOut (imemAddr dmemAddr dmemWdata : Word) : BitVec 8 :=
  byteOut b.phase (outWord b imemAddr dmemAddr dmemWdata)

/-! ### Next values -/

def nextPhase (rstN sof : Bool) : BitVec 2 :=
  if !rstN then 0#2 else if sof then 0#2 else b.phase + 1#2

def nextFetchOwed (rstN req : Bool) : Bool :=
  if !rstN then false
  else if instrAvail b then false
  else if memRetireNow b req then true
  else b.fetchOwed

/-- The next values of `kind` and `store_beat`. -/
def nextArb (rstN sof req we : Bool) : Kind × Bool :=
  if !rstN then (.fetch, false)
  else if sof then (if !staleDecode b req && req then dataKind we else .fetch, false)
  else if loopEnd b then
    if busRetire b req then (.fetch, false)
    else if b.kind == .fetch then (dataKind we, false)
    else (b.kind, true)
  else (b.kind, b.storeBeat)

end Wires

/-- The clock edge of the adapter. -/
def busPosedge (rstN sof : Bool) (pinIn : BitVec 8) (req we : Bool) (b : BusState) : BusState where
  phase := nextPhase b rstN sof
  kind := (nextArb b rstN sof req we).1
  storeBeat := (nextArb b rstN sof req we).2
  fetchOwed := nextFetchOwed b rstN req
  inAcc := if !rstN then 0#32 else capture b.phase b.inAcc pinIn
  instrR :=
    if !rstN then 0#32
    else if b.phase == 3#2 && b.kind == .fetch then assembled b pinIn
    else b.instrR
  rdataR :=
    if !rstN then 0#32
    else if b.phase == 3#2 && b.kind == .load then assembled b pinIn
    else b.rdataR

/-- The adapter after a reset edge. -/
def busReset : BusState := ⟨0#2, .fetch, false, false, 0#32, 0#32, 0#32⟩

/-! ### The plane -/

/-- The registers of the plane. -/
structure State where
  core : Core32.State
  bus : BusState

section Plane

variable (s : State) (i : Input)

def cInstr : Word := busInstr s.bus i.instrByte

def cDmemReq : Bool := Core32.dmemReq (cInstr s i)

def cDmemWe : Bool := Core32.dmemWe (cInstr s i)

def retire : Bool := busRetire s.bus (cDmemReq s i)

def addrByte : BitVec 8 :=
  pinOut s.bus (Core32.imemAddr s.core) (Core32.dmemAddr s.core (cInstr s i))
    (Core32.dmemWdata s.core (cInstr s i))

def phaseO : BitVec 2 := phasePins s.bus

/-- The values of `pin_out` and `phase_pins` in a cycle. -/
def pins : BitVec 8 × BitVec 2 := (addrByte s i, phaseO s)

end Plane

/-- The clock edge of the composition. -/
def posedge (rstN : Bool) (s : State) (i : Input) : State where
  core := Core32.posedge rstN (retire s i) (cInstr s i) s.bus.rdataR s.core
  bus := busPosedge rstN i.sof i.instrByte (cDmemReq s i) (cDmemWe s i) s.bus

/-- A state left behind by a reset edge, from whatever state and inputs. -/
def IsReset (s : State) : Prop := ∃ s₀ i₀, s = posedge false s₀ i₀

/-- A reset state has `pc_r` and every adapter register cleared, and any register file. -/
theorem isReset_iff (s : State) : IsReset s ↔ s.core.pcR = 0#32 ∧ s.bus = busReset := by
  constructor
  · rintro ⟨s₀, i₀, rfl⟩
    exact ⟨rfl, rfl⟩
  · obtain ⟨⟨pc, regs⟩, bus⟩ := s
    rintro ⟨rfl, rfl⟩
    exact ⟨⟨⟨0#32, regs⟩, busReset⟩, ⟨0#8, false⟩, rfl⟩

/-- The state one edge after reset with the register file `r0`. -/
def reset (r0 : BitVec 5 → Word) : State := ⟨⟨0#32, r0⟩, busReset⟩

theorem isReset_reset (r0 : BitVec 5 → Word) : IsReset (reset r0) := (isReset_iff _).2 ⟨rfl, rfl⟩

/-- The plane clocked with `rst_n` high. -/
def machine : Synchronous.Machine State Input where
  step s i := posedge true s i

end Saltworks.RTL.Fabricated
