import Mathlib.Tactic.Common

/-!
# The single-cycle core `core32`

One clock edge of `RTL/core32.v`: decode, immediates, two register read ports, the ALU, the
branch comparison, the next `pc` and the write-back multiplexer, in the source's own words. The
wires are functions of the registers and of the instruction word; `posedge` is the clock edge.

Two facts of the language shape the definitions.

* The register file is written on `en`, never gated by `rst_n`, while `pc_r` is cleared by it.
* The ten results of the ALU stand in one `?:` chain. Verilog makes such a chain signed only if
  every one of its operands is, and hands that signedness down to the operands that it sizes;
  one unsigned arm is enough to turn the `>>>` of the `4'hd` arm into a logical shift
  (`aluArmSigned`). The comparisons stand inside a concatenation, which sizes nothing, so they
  keep the signedness of their own operands.

## Main definitions

* `Core32.State`, `Core32.posedge`: the registers and the clock edge.
* `Core32.aluY`, `Core32.brTaken`, `Core32.pcNext`, `Core32.wbVal`: the datapath.
* `Core32.dmemReq`, `Core32.dmemWe`, `Core32.dmemAddr`, `Core32.dmemWdata`, `Core32.imemAddr`:
  the ports.
-/

namespace Saltworks.RTL

/-- A 32-bit word. -/
abbrev Word := BitVec 32

namespace Core32

/-- The registers of `core32`: `pc_r` and `regs[1..31]`. Entry `0` of `regs` does not exist in
the source; no read port reads it and no write port writes it. -/
structure State where
  pcR : Word
  regs : BitVec 5 → Word

/-! ### Decode -/

section Decode

variable (instr : Word)

def opcode : BitVec 7 := instr.extractLsb' 0 7

def funct3 : BitVec 3 := instr.extractLsb' 12 3

/-- `instr[30]`, the one bit of `funct7` that the core reads. -/
def f7 : Bool := instr.getLsbD 30

def rs1 : BitVec 5 := instr.extractLsb' 15 5

def rs2 : BitVec 5 := instr.extractLsb' 20 5

def rd : BitVec 5 := instr.extractLsb' 7 5

def isLui : Bool := opcode instr == 0b0110111#7

def isAuipc : Bool := opcode instr == 0b0010111#7

def isJal : Bool := opcode instr == 0b1101111#7

def isJalr : Bool := opcode instr == 0b1100111#7

def isBr : Bool := opcode instr == 0b1100011#7

def isLoad : Bool := opcode instr == 0b0000011#7

def isStore : Bool := opcode instr == 0b0100011#7

def isImmop : Bool := opcode instr == 0b0010011#7

def isRegop : Bool := opcode instr == 0b0110011#7

def isWord : Bool := funct3 instr == 0b010#3

def isLoadW : Bool := isLoad instr && isWord instr

def isStoreW : Bool := isStore instr && isWord instr

def regWe : Bool :=
  isLui instr || isAuipc instr || isJal instr || isJalr instr || isLoadW instr ||
    isImmop instr || isRegop instr

def aluSrc : Bool := isImmop instr || isLoad instr || isStore instr || isJalr instr

/-- `{f7, funct3}` for a register operation and `{1'b0, funct3}` for an immediate one. -/
def aluOp : BitVec 4 :=
  if isRegop instr then BitVec.ofBool (f7 instr) ++ funct3 instr
  else if isImmop instr then 0#1 ++ funct3 instr
  else 0#4

/-! ### Immediates -/

def immI : Word := BitVec.replicate 20 (instr.extractLsb' 31 1) ++ instr.extractLsb' 20 12

def immS : Word :=
  BitVec.replicate 20 (instr.extractLsb' 31 1) ++
    (instr.extractLsb' 25 7 ++ instr.extractLsb' 7 5)

def immB : Word :=
  BitVec.replicate 19 (instr.extractLsb' 31 1) ++
    (instr.extractLsb' 31 1 ++ (instr.extractLsb' 7 1 ++
      (instr.extractLsb' 25 6 ++ (instr.extractLsb' 8 4 ++ 0#1))))

def immU : Word := instr.extractLsb' 12 20 ++ 0#12

def immJ : Word :=
  BitVec.replicate 11 (instr.extractLsb' 31 1) ++
    (instr.extractLsb' 31 1 ++ (instr.extractLsb' 12 8 ++
      (instr.extractLsb' 20 1 ++ (instr.extractLsb' 21 10 ++ 0#1))))

def imm : Word :=
  if isStore instr then immS instr
  else if isBr instr then immB instr
  else if isLui instr || isAuipc instr then immU instr
  else if isJal instr then immJ instr
  else immI instr

/-- The strobe `dmem_req`: a word load or a word store. -/
def dmemReq : Bool := isLoadW instr || isStoreW instr

/-- The strobe `dmem_we`: a word store. -/
def dmemWe : Bool := isStoreW instr

end Decode

/-! ### Datapath -/

/-- A read port of the register file: `x0` reads zero. -/
def readPort (s : State) (r : BitVec 5) : Word := if r == 0#5 then 0#32 else s.regs r

/-- Whether each arm of the ALU's `?:` chain is a signed expression, from the first arm to the
last; only `$signed(rf1) >>> b_op[4:0]` is. -/
def aluArmSigned : List Bool :=
  [false, false, false, false, false, false, false, true, false, false]

/-- Verilog's `>>>` on a word: arithmetic in a signed expression, logical in an unsigned one. -/
def shiftRightArith (signed : Bool) (x : Word) (n : ℕ) : Word :=
  if signed then x.sshiftRight n else x >>> n

section Datapath

variable (s : State) (instr dmemRdata : Word)

def rf1 : Word := readPort s (rs1 instr)

def rf2 : Word := readPort s (rs2 instr)

def bOp : Word := if aluSrc instr then imm instr else rf2 s instr

/-- The result of the ALU for the two operands, by the code `alu_op`. -/
def alu (op : BitVec 4) (a b : Word) : Word :=
  if op == 0x0#4 then a + b
  else if op == 0x8#4 then a - b
  else if op == 0x1#4 then a <<< (b.extractLsb' 0 5).toNat
  else if op == 0x2#4 then 0#31 ++ BitVec.ofBool (a.slt b)
  else if op == 0x3#4 then 0#31 ++ BitVec.ofBool (a.ult b)
  else if op == 0x4#4 then a ^^^ b
  else if op == 0x5#4 then a >>> (b.extractLsb' 0 5).toNat
  else if op == 0xd#4 then shiftRightArith (aluArmSigned.all id) a (b.extractLsb' 0 5).toNat
  else if op == 0x6#4 then a ||| b
  else a &&& b

def aluY : Word := alu (aluOp instr) (rf1 s instr) (bOp s instr)

def brTaken : Bool :=
  isBr instr &&
    (if funct3 instr == 0b000#3 then rf1 s instr == rf2 s instr
     else if funct3 instr == 0b001#3 then rf1 s instr != rf2 s instr
     else if funct3 instr == 0b100#3 then (rf1 s instr).slt (rf2 s instr)
     else if funct3 instr == 0b101#3 then !(rf1 s instr).slt (rf2 s instr)
     else if funct3 instr == 0b110#3 then (rf1 s instr).ult (rf2 s instr)
     else (rf2 s instr).ule (rf1 s instr))

def pcPlus4 : Word := s.pcR + 4#32

def pcPlusImm : Word := s.pcR + imm instr

def pcNext : Word :=
  if isJalr instr then (rf1 s instr + imm instr) &&& ~~~1#32
  else if isJal instr || brTaken s instr then pcPlusImm s instr
  else pcPlus4 s

/-! ### Ports and write-back -/

def imemAddr : Word := s.pcR.extractLsb' 2 30 ++ 0#2

def dmemAddr : Word := aluY s instr

def dmemWdata : Word := rf2 s instr

def wbVal : Word :=
  if isLoadW instr then dmemRdata
  else if isJal instr || isJalr instr then pcPlus4 s
  else if isLui instr then imm instr
  else if isAuipc instr then pcPlusImm s instr
  else aluY s instr

end Datapath

/-- The register file after a write of `v` to entry `r`. -/
def writeReg (regs : BitVec 5 → Word) (r : BitVec 5) (v : Word) : BitVec 5 → Word :=
  fun j => if j = r then v else regs j

/-- The clock edge. -/
def posedge (rstN en : Bool) (instr dmemRdata : Word) (s : State) : State where
  pcR := if !rstN then 0#32 else if en then pcNext s instr else s.pcR
  regs :=
    if en && regWe instr && rd instr != 0#5 then
      writeReg s.regs (rd instr) (wbVal s instr dmemRdata)
    else s.regs

/-! ### What an edge keeps -/

/-- With `en` low and `rst_n` high the core holds every register. -/
@[simp] theorem posedge_stall (instr dmemRdata : Word) (s : State) :
    posedge true false instr dmemRdata s = s := rfl

/-- A reset edge clears `pc_r`. -/
@[simp] theorem posedge_reset_pcR (en : Bool) (instr dmemRdata : Word) (s : State) :
    (posedge false en instr dmemRdata s).pcR = 0#32 := rfl

/-- The `>>>` of the ALU is a logical shift: the chain it stands in has unsigned arms. -/
theorem alu_sra (a b : Word) : alu 0xd#4 a b = a >>> (b.extractLsb' 0 5).toNat := rfl

/-- A word that requests the data port writes it if and only if it is not a word load. -/
theorem isLoadW_eq_not_dmemWe {instr : Word} (h : dmemReq instr = true) :
    isLoadW instr = !dmemWe instr := by
  simp only [dmemReq, dmemWe, isLoadW, isStoreW, isLoad, isStore] at h ⊢
  by_cases hl : opcode instr = 0b0000011#7
  · simp_all
  · simp_all

end Core32

end Saltworks.RTL
