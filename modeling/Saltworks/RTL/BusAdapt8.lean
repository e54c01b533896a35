import Saltworks.RTL.Core32

/-!
# The byte-phase bus adapter `busadapt8`

One clock edge of `RTL/busadapt8.v`. A bus loop is four cycles, numbered by `phase`, and carries
one word, low byte first, in each direction. `kind` says what the current loop is doing; a data
transaction owns two loops, an address loop and a data loop, told apart by `store_beat` and
`load_beat`. `sof` restarts the loop at phase 0 in any cycle.

`fetch_owed` marks the cycles after a data transaction retires in which the decode in front of
the adapter still belongs to the instruction that retired; `sof` must not re-derive `kind` from
it (`staleDecode`).

## Main definitions

* `BusAdapt8.State`, `BusAdapt8.posedge`: the registers and the clock edge.
* `BusAdapt8.retire`: the strobe that ends an instruction.
* `BusAdapt8.cInstr`, `BusAdapt8.cDmemRdata`: the words handed to the core.
* `BusAdapt8.pinOut`, `BusAdapt8.phasePins`: the pins.
-/

namespace Saltworks.RTL.BusAdapt8

/-- What a loop is doing: the values `T_IDLE`, `T_FETCH`, `T_LOAD` and `T_STORE` of the register
`kind`. -/
inductive Kind where
  | idle | fetch | load | store
  deriving DecidableEq, Repr

/-- The type code that the phase pins carry in phase 0. -/
def Kind.code : Kind → BitVec 2
  | .idle => 0b00#2
  | .fetch => 0b01#2
  | .load => 0b10#2
  | .store => 0b11#2

/-- The registers of the adapter. -/
structure State where
  phase : BitVec 2
  kind : Kind
  storeBeat : Bool
  loadBeat : Bool
  fetchOwed : Bool
  inAcc : Word
  instrR : Word
  rdataR : Word
  deriving DecidableEq

/-! ### Wires -/

section Wires

variable (b : State)

def loopEnd : Bool := b.phase == 3#2

/-- The cycle in which a fetched word is complete: the last phase of a fetch loop. -/
def instrAvail : Bool := b.kind == .fetch && b.phase == 3#2

/-- The word assembled at the end of a loop: the byte on the pins over the three captured. -/
def assembled (pinIn : BitVec 8) : Word := pinIn ++ b.inAcc.extractLsb' 0 24

/-- The instruction in front of the core, with the bypass of the word just assembled. -/
def cInstr (pinIn : BitVec 8) : Word :=
  if b.kind == .fetch && b.phase == 3#2 then assembled b pinIn else b.instrR

def cDmemRdata : Word := b.rdataR

/-- An instruction ends: at the end of a fetch loop if it needs no data, else at the end of its
data loop. -/
def retire (req : Bool) : Bool :=
  loopEnd b &&
    match b.kind with
    | .fetch => !req
    | .load => b.loadBeat
    | .store => b.storeBeat
    | .idle => true

def memRetireNow (req : Bool) : Bool :=
  loopEnd b && retire b req && (b.kind == .store || b.kind == .load)

/-- The decode in front of the adapter belongs to an instruction that has retired. -/
def staleDecode (req : Bool) : Bool := (b.fetchOwed || memRetireNow b req) && !instrAvail b

def phasePins : BitVec 2 := if b.phase == 0#2 then b.kind.code else b.phase

def outWord (imemAddr dmemAddr dmemWdata : Word) : Word :=
  if b.kind == .fetch then imemAddr
  else if b.kind == .store && b.storeBeat then dmemWdata
  else dmemAddr

/-- The byte of a word that leaves in a phase. -/
def byteOut (phase : BitVec 2) (w : Word) : BitVec 8 :=
  if phase == 0#2 then w.extractLsb' 0 8
  else if phase == 1#2 then w.extractLsb' 8 8
  else if phase == 2#2 then w.extractLsb' 16 8
  else w.extractLsb' 24 8

def pinOut (imemAddr dmemAddr dmemWdata : Word) : BitVec 8 :=
  byteOut b.phase (outWord b imemAddr dmemAddr dmemWdata)

/-! ### Next values -/

def nextPhase (rstN sof : Bool) : BitVec 2 :=
  if !rstN then 0#2 else if sof then 0#2 else b.phase + 1#2

def nextFetchOwed (rstN req : Bool) : Bool :=
  if !rstN then false
  else if instrAvail b then false
  else if memRetireNow b req then true
  else b.fetchOwed

/-- The kind of a data transaction. -/
def dataKind (we : Bool) : Kind := if we then .store else .load

/-- The next values of `kind`, `store_beat` and `load_beat`. -/
def nextArb (rstN sof req we : Bool) : Kind × Bool × Bool :=
  if !rstN then (.fetch, false, false)
  else if sof then (if !staleDecode b req && req then dataKind we else .fetch, false, false)
  else if loopEnd b then
    if retire b req then (.fetch, false, false)
    else if b.kind == .fetch then (dataKind we, false, false)
    else if b.kind == .store then (b.kind, true, b.loadBeat)
    else (b.kind, b.storeBeat, true)
  else (b.kind, b.storeBeat, b.loadBeat)

/-- The byte on the pins, captured into its place of `in_acc`. -/
def capture (phase : BitVec 2) (acc : Word) (pinIn : BitVec 8) : Word :=
  if phase == 0#2 then acc.extractLsb' 8 24 ++ pinIn
  else if phase == 1#2 then acc.extractLsb' 16 16 ++ (pinIn ++ acc.extractLsb' 0 8)
  else if phase == 2#2 then acc.extractLsb' 24 8 ++ (pinIn ++ acc.extractLsb' 0 16)
  else acc

end Wires

/-- The clock edge, for the request `req` and write strobe `we` that the core decodes from
`c_instr` in the same cycle. -/
def posedge (rstN sof : Bool) (pinIn : BitVec 8) (req we : Bool) (b : State) : State where
  phase := nextPhase b rstN sof
  kind := (nextArb b rstN sof req we).1
  storeBeat := (nextArb b rstN sof req we).2.1
  loadBeat := (nextArb b rstN sof req we).2.2
  fetchOwed := nextFetchOwed b rstN req
  inAcc := if !rstN then 0#32 else capture b.phase b.inAcc pinIn
  instrR :=
    if !rstN then 0#32
    else if b.phase == 3#2 && b.kind == .fetch then assembled b pinIn
    else b.instrR
  rdataR :=
    if !rstN then 0#32
    else if b.phase == 3#2 && (b.kind == .load && b.loadBeat) then assembled b pinIn
    else b.rdataR

/-- The state after a reset edge. -/
def resetState : State where
  phase := 0#2
  kind := .fetch
  storeBeat := false
  loadBeat := false
  fetchOwed := false
  inAcc := 0#32
  instrR := 0#32
  rdataR := 0#32

/-- A reset edge gives the same state from everywhere. -/
@[simp] theorem posedge_reset (sof : Bool) (pinIn : BitVec 8) (req we : Bool) (b : State) :
    posedge false sof pinIn req we b = resetState := rfl

/-- A cycle is in phase 0, 1, 2 or 3. -/
theorem phase_cases (p : BitVec 2) : p = 0#2 ∨ p = 1#2 ∨ p = 2#2 ∨ p = 3#2 := by
  revert p
  decide

end Saltworks.RTL.BusAdapt8
