import Saltworks.RTL.Core32

/-!
# The edge of `core32`, by opcode

One lemma for each group of instruction words that `core32` tells apart: what an enabled edge
with `rst_n` high does to `pc_r` and the register file, and what the data port carries in that
cycle. The instruction-level comparisons use these and never unfold the core.

## Main definitions

* `Core32.writeRd`: the register file after an instruction that writes `rd`.

## Main results

* `Core32.posedge_regop`, `Core32.posedge_immop`, `Core32.posedge_branch`, …: the edge.
* `Core32.dmemReq_of_load`, `Core32.dmemReq_of_store`, `Core32.dmemReq_eq_false`: the data port.
-/

namespace Saltworks.RTL.Core32

/-- The register file after an instruction writes `v` to `r`; `x0` is not written. -/
def writeRd (regs : BitVec 5 → Word) (r : BitVec 5) (v : Word) : BitVec 5 → Word :=
  if r = 0#5 then regs else writeReg regs r v

theorem readPort_eq (s : State) (r : BitVec 5) :
    readPort s r = if r = 0#5 then 0#32 else s.regs r := by
  by_cases h : r = 0#5 <;> simp [readPort, h]

variable {instr : Word}

/-- The edge of an instruction that writes a register. -/
theorem posedge_of_regWe (h : regWe instr = true) (rdata : Word) (s : State) :
    posedge true true instr rdata s =
      ⟨pcNext s instr, writeRd s.regs (rd instr) (wbVal s instr rdata)⟩ := by
  by_cases hr : rd instr = 0#5 <;> simp [posedge, writeRd, h, hr]

/-- The edge of an instruction that writes no register. -/
theorem posedge_of_not_regWe (h : regWe instr = false) (rdata : Word) (s : State) :
    posedge true true instr rdata s = ⟨pcNext s instr, s.regs⟩ := by
  simp [posedge, h]

/-- Bit 30 is a bit of `funct7`. -/
theorem f7_eq_getLsbD (instr : Word) : f7 instr = (instr.extractLsb' 25 7).getLsbD 5 := by
  simp [f7]

section Groups

variable (s : State) (rdata : Word)

theorem posedge_lui (h : opcode instr = 0b0110111#7) :
    posedge true true instr rdata s =
      ⟨s.pcR + 4#32, writeRd s.regs (rd instr) (immU instr)⟩ := by
  rw [posedge_of_regWe (by simp [regWe, isLui, h])]
  simp [pcNext, wbVal, pcPlus4, imm, brTaken, isLui, isAuipc, isJal, isJalr, isBr, isLoadW,
    isLoad, isStore, h]

theorem posedge_auipc (h : opcode instr = 0b0010111#7) :
    posedge true true instr rdata s =
      ⟨s.pcR + 4#32, writeRd s.regs (rd instr) (s.pcR + immU instr)⟩ := by
  rw [posedge_of_regWe (by simp [regWe, isAuipc, h])]
  simp [pcNext, wbVal, pcPlus4, pcPlusImm, imm, brTaken, isLui, isAuipc, isJal, isJalr, isBr,
    isLoadW, isLoad, isStore, h]

theorem posedge_jal (h : opcode instr = 0b1101111#7) :
    posedge true true instr rdata s =
      ⟨s.pcR + immJ instr, writeRd s.regs (rd instr) (s.pcR + 4#32)⟩ := by
  rw [posedge_of_regWe (by simp [regWe, isJal, h])]
  simp [pcNext, wbVal, pcPlus4, pcPlusImm, imm, isLui, isAuipc, isJal, isJalr, isBr, isLoadW,
    isLoad, isStore, h]

theorem posedge_jalr (h : opcode instr = 0b1100111#7) :
    posedge true true instr rdata s =
      ⟨(readPort s (rs1 instr) + immI instr) &&& ~~~1#32,
        writeRd s.regs (rd instr) (s.pcR + 4#32)⟩ := by
  rw [posedge_of_regWe (by simp [regWe, isJalr, h])]
  simp [pcNext, wbVal, pcPlus4, imm, rf1, isLui, isAuipc, isJal, isJalr, isBr, isLoadW, isLoad,
    isStore, h]

theorem posedge_branch (h : opcode instr = 0b1100011#7) :
    posedge true true instr rdata s =
      ⟨if brTaken s instr then s.pcR + immB instr else s.pcR + 4#32, s.regs⟩ := by
  rw [posedge_of_not_regWe (by simp [regWe, isLui, isAuipc, isJal, isJalr, isLoadW, isLoad,
    isImmop, isRegop, h])]
  simp [pcNext, pcPlus4, pcPlusImm, imm, isJal, isJalr, isBr, isStore, h]

theorem posedge_load (h : opcode instr = 0b0000011#7) (hw : funct3 instr = 0b010#3) :
    posedge true true instr rdata s = ⟨s.pcR + 4#32, writeRd s.regs (rd instr) rdata⟩ := by
  rw [posedge_of_regWe (by simp [regWe, isLoadW, isLoad, isWord, h, hw])]
  simp [pcNext, wbVal, pcPlus4, brTaken, isJal, isJalr, isBr, isLoadW, isLoad, isWord, h, hw]

theorem posedge_store (h : opcode instr = 0b0100011#7) :
    posedge true true instr rdata s = ⟨s.pcR + 4#32, s.regs⟩ := by
  rw [posedge_of_not_regWe (by simp [regWe, isLui, isAuipc, isJal, isJalr, isLoadW, isLoad,
    isImmop, isRegop, h])]
  simp [pcNext, pcPlus4, brTaken, isJal, isJalr, isBr, h]

theorem posedge_immop (h : opcode instr = 0b0010011#7) :
    posedge true true instr rdata s =
      ⟨s.pcR + 4#32, writeRd s.regs (rd instr)
        (alu (0#1 ++ funct3 instr) (readPort s (rs1 instr)) (immI instr))⟩ := by
  rw [posedge_of_regWe (by simp [regWe, isImmop, h])]
  simp [pcNext, wbVal, pcPlus4, brTaken, aluY, aluOp, bOp, aluSrc, imm, rf1, isLui, isAuipc,
    isJal, isJalr, isBr, isLoadW, isLoad, isStore, isImmop, isRegop, h]

theorem posedge_regop (h : opcode instr = 0b0110011#7) :
    posedge true true instr rdata s =
      ⟨s.pcR + 4#32, writeRd s.regs (rd instr) (alu (BitVec.ofBool (f7 instr) ++ funct3 instr)
        (readPort s (rs1 instr)) (readPort s (rs2 instr)))⟩ := by
  rw [posedge_of_regWe (by simp [regWe, isRegop, h])]
  simp [pcNext, wbVal, pcPlus4, brTaken, aluY, aluOp, bOp, aluSrc, rf1, rf2, isLui, isAuipc,
    isJal, isJalr, isBr, isLoadW, isLoad, isStore, isImmop, isRegop, h]

end Groups

/-! ### The data port -/

theorem dmemReq_eq_false (hl : opcode instr ≠ 0b0000011#7) (hs : opcode instr ≠ 0b0100011#7) :
    dmemReq instr = false := by
  simp [dmemReq, isLoadW, isStoreW, isLoad, isStore, hl, hs]

theorem dmemWe_eq_false (hs : opcode instr ≠ 0b0100011#7) : dmemWe instr = false := by
  simp [dmemWe, isStoreW, isStore, hs]

theorem dmemReq_of_load (h : opcode instr = 0b0000011#7) (hw : funct3 instr = 0b010#3) :
    dmemReq instr = true ∧ dmemWe instr = false := by
  simp [dmemReq, dmemWe, isLoadW, isStoreW, isLoad, isStore, isWord, h, hw]

theorem dmemReq_of_store (h : opcode instr = 0b0100011#7) (hw : funct3 instr = 0b010#3) :
    dmemReq instr = true ∧ dmemWe instr = true := by
  simp [dmemReq, dmemWe, isLoadW, isStoreW, isLoad, isStore, isWord, h, hw]

theorem dmemAddr_load (h : opcode instr = 0b0000011#7) (s : State) :
    dmemAddr s instr = readPort s (rs1 instr) + immI instr := by
  simp [dmemAddr, aluY, aluOp, bOp, aluSrc, alu, imm, rf1, isLui, isAuipc, isJal, isBr, isLoad,
    isStore, isImmop, isRegop, h]

theorem dmemAddr_store (h : opcode instr = 0b0100011#7) (s : State) :
    dmemAddr s instr = readPort s (rs1 instr) + immS instr := by
  simp [dmemAddr, aluY, aluOp, bOp, aluSrc, alu, imm, rf1, isLoad, isStore, isImmop, isRegop, h]

end Saltworks.RTL.Core32
