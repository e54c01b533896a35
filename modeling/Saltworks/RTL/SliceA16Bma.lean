import Saltworks.Machine.Synchronous
import Saltworks.RTL.Core32

/-!
# The byte-serial core `slicea16bma`

One clock edge of `RTL/slicea16bma.v`: a core with sixteen registers that fetches and executes in
one loop of four phases. The bytes of `pc_r` leave in the four phases, low byte first; in every
cycle the byte on `instr_byte` enters `ir` from the top; in phase 3 the word in `ir` is executed.

The guard `in_range` looks at the top bits of the three register fields of the word, whether or
not its format has a register there.

## Main definitions

* `SliceA16Bma.State`, `SliceA16Bma.posedge`, `SliceA16Bma.machine`: the registers and the edge.
* `SliceA16Bma.inRange`: the guard.
* `SliceA16Bma.addrByte`: the byte of `pc_r` on the pins.
-/

namespace Saltworks.RTL.SliceA16Bma

/-- The registers. Entry `0` of `rf` does not exist in the source; nothing reads it. -/
structure State where
  phase : BitVec 2
  pcR : Word
  ir : Word
  rf : BitVec 4 → Word

/-! ### Decode -/

section Decode

variable (instr : Word)

def opcode : BitVec 7 := instr.extractLsb' 0 7

def funct3 : BitVec 3 := instr.extractLsb' 12 3

def funct7 : BitVec 7 := instr.extractLsb' 25 7

def rs1 : BitVec 5 := instr.extractLsb' 15 5

def rs2 : BitVec 5 := instr.extractLsb' 20 5

def rd : BitVec 5 := instr.extractLsb' 7 5

/-- The guard on the register fields. -/
def inRange : Bool :=
  (rs1 instr).getLsbD 4 == false && (rs2 instr).getLsbD 4 == false &&
    (rd instr).getLsbD 4 == false

def isRtype : Bool := opcode instr == 0b0110011#7 && funct7 instr == 0b0000000#7 && inRange instr

def isAdd : Bool := isRtype instr && funct3 instr == 0b000#3

def isXor : Bool := isRtype instr && funct3 instr == 0b100#3

def isSlt : Bool := isRtype instr && funct3 instr == 0b010#3

def isAddi : Bool := opcode instr == 0b0010011#7 && funct3 instr == 0b000#3 && inRange instr

def isBeq : Bool := opcode instr == 0b1100011#7 && funct3 instr == 0b000#3 && inRange instr

def immI : Word := BitVec.replicate 20 (instr.extractLsb' 31 1) ++ instr.extractLsb' 20 12

def immB : Word :=
  BitVec.replicate 20 (instr.extractLsb' 31 1) ++ (instr.extractLsb' 7 1 ++
    (instr.extractLsb' 25 6 ++ (instr.extractLsb' 8 4 ++ 0#1)))

end Decode

/-! ### Datapath -/

/-- A read port of the register file, by the low four bits of a register name. -/
def readPort (s : State) (r : BitVec 5) : Word :=
  if r.extractLsb' 0 4 == 0#4 then 0#32 else s.rf (r.extractLsb' 0 4)

section Datapath

variable (s : State)

def instrCommit : Bool := s.phase == 3#2

def rfWe : Bool :=
  instrCommit s && (isAdd s.ir || isXor s.ir || isSlt s.ir || isAddi s.ir) &&
    (rd s.ir).extractLsb' 0 4 != 0#4

def rs1V : Word := readPort s (rs1 s.ir)

def rs2V : Word := readPort s (rs2 s.ir)

def opndB : Word := if isAddi s.ir then immI s.ir else rs2V s

def aluY : Word :=
  if isXor s.ir then rs1V s ^^^ opndB s
  else if isSlt s.ir then 0#31 ++ BitVec.ofBool ((rs1V s).slt (opndB s))
  else rs1V s + opndB s

def brTaken : Bool := isBeq s.ir && rs1V s == rs2V s

def pcAddend : Word := if brTaken s then immB s.ir else 4#32

def addrByte : BitVec 8 :=
  if s.phase == 0#2 then s.pcR.extractLsb' 0 8
  else if s.phase == 1#2 then s.pcR.extractLsb' 8 8
  else if s.phase == 2#2 then s.pcR.extractLsb' 16 8
  else s.pcR.extractLsb' 24 8

def phaseO : BitVec 2 := s.phase

end Datapath

/-- The clock edge. -/
def posedge (rstN : Bool) (s : State) (instrByte : BitVec 8) : State where
  phase := if !rstN then 0#2 else s.phase + 1#2
  pcR := if !rstN then 0#32 else if instrCommit s then s.pcR + pcAddend s else s.pcR
  ir := if !rstN then 0#32 else instrByte ++ s.ir.extractLsb' 8 24
  rf :=
    if !rstN then fun _ => 0#32
    else if instrCommit s && rfWe s then
      fun r => if r = (rd s.ir).extractLsb' 0 4 then aluY s else s.rf r
    else s.rf

/-- The state after a reset edge. -/
def resetState : State := ⟨0#2, 0#32, 0#32, fun _ => 0#32⟩

/-- A reset edge gives the same state from everywhere. -/
@[simp] theorem posedge_false (s : State) (b : BitVec 8) : posedge false s b = resetState := rfl

/-- The core clocked with `rst_n` high, driven by bytes. -/
def machine : Synchronous.Machine State (BitVec 8) where
  step s b := posedge true s b

end Saltworks.RTL.SliceA16Bma
