import Saltworks.Machine.Synchronous

/-!
# The kernel ISA

The seven-instruction subset of RV32I that the memory plane and the byte-serial cores are built
for, after `HDL/ISA.lean`: five instructions on registers, a word load and a word store into eight
words of data memory. A load or store at a misaligned or out-of-range address writes neither a
register nor a memory word, advances `pc` and sets a sticky flag.

## Main definitions

* `St`, `St.get`, `St.set`: the state and its register file.
* `AddrClass`, `addrClass`: the classification of data addresses.
* `Instr`, `step`, `decode`, `Encodes`: instructions, their meaning and their encoding.
* `traps`: whether an instruction takes the trapping arm.

## Main results

* `decode_eq_some_iff`: the fields of a word that decodes.
* `run_trapped`: the sticky flag over a run.
-/

namespace Saltworks.ISA

/-- The state. -/
structure St where
  regs : Vector (BitVec 32) 32
  pc : BitVec 32
  mem : Vector (BitVec 32) 8
  trapped : Bool

/-- The classes of data addresses. -/
inductive AddrClass where
  | ok
  | misaligned
  | outOfRange
  deriving DecidableEq, Repr

/-- The class of a byte address; the range is tested first. -/
def addrClass (a : BitVec 32) : AddrClass :=
  if 32 ≤ a.toNat then .outOfRange
  else if a.toNat % 4 ≠ 0 then .misaligned
  else .ok

/-- An address in the class `ok` lies in one of the eight words. -/
theorem addrClass_ok_lt {a : BitVec 32} (h : addrClass a = .ok) : a.toNat / 4 < 8 := by
  simp only [addrClass] at h
  split_ifs at h with h32
  omega

theorem addrClass_eq_ok_iff {a : BitVec 32} :
    addrClass a = .ok ↔ a.toNat < 32 ∧ a.toNat % 4 = 0 := by
  simp only [addrClass]
  split_ifs with h32 h4
  · simp; omega
  · simp; omega
  · simp; omega

/-- The instructions. The immediate of `BEQ` holds bits 12 to 1 of the displacement. -/
inductive Instr where
  | ADD (rd rs1 rs2 : Fin 32)
  | ADDI (rd rs1 : Fin 32) (imm : BitVec 12)
  | XOR (rd rs1 rs2 : Fin 32)
  | SLT (rd rs1 rs2 : Fin 32)
  | BEQ (rs1 rs2 : Fin 32) (imm : BitVec 12)
  | LW (rd rs1 : Fin 32) (imm : BitVec 12)
  | SW (rs1 rs2 : Fin 32) (imm : BitVec 12)
  deriving DecidableEq, Repr

/-- The register that reads as zero. -/
abbrev x0 : Fin 32 := 0

namespace St

def get (s : St) (r : Fin 32) : BitVec 32 := if r = 0 then 0#32 else s.regs[r.val]

def set (s : St) (r : Fin 32) (v : BitVec 32) : St :=
  if r = 0 then s else { s with regs := s.regs.set r.val v }

/-- Fall through. -/
def next (s : St) : St := { s with pc := s.pc + 4#32 }

variable (s : St) (r : Fin 32) (v : BitVec 32)

@[simp] theorem get_zero : s.get 0 = 0#32 := rfl

@[simp] theorem next_pc : s.next.pc = s.pc + 4#32 := rfl

@[simp] theorem next_mem : s.next.mem = s.mem := rfl

@[simp] theorem next_trapped : s.next.trapped = s.trapped := rfl

@[simp] theorem get_next : s.next.get r = s.get r := rfl

@[simp] theorem set_pc : (s.set r v).pc = s.pc := by
  by_cases h : r = 0 <;> simp [set, h]

@[simp] theorem set_mem : (s.set r v).mem = s.mem := by
  by_cases h : r = 0 <;> simp [set, h]

@[simp] theorem set_trapped : (s.set r v).trapped = s.trapped := by
  by_cases h : r = 0 <;> simp [set, h]

/-- Read over write. -/
theorem get_set (r' : Fin 32) :
    (s.set r v).get r' = if r' = 0 then 0#32 else if r' = r then v else s.get r' := by
  by_cases h' : r' = 0
  · simp [h']
  · by_cases h : r = 0
    · subst h
      simp [set, h']
    · simp only [get, set, h', h, if_false, Vector.getElem_set, Fin.val_inj, eq_comm (a := r')]

end St

/-- The byte displacement of a branch. -/
def bOffset (imm : BitVec 12) : BitVec 32 := imm.signExtend 32 <<< 1

/-- One instruction. -/
def step (s : St) : Instr → St
  | .ADD rd a b => (s.set rd (s.get a + s.get b)).next
  | .ADDI rd a imm => (s.set rd (s.get a + imm.signExtend 32)).next
  | .XOR rd a b => (s.set rd (s.get a ^^^ s.get b)).next
  | .SLT rd a b => (s.set rd (if (s.get a).slt (s.get b) then 1#32 else 0#32)).next
  | .BEQ a b imm => if s.get a = s.get b then { s with pc := s.pc + bOffset imm } else s.next
  | .LW rd a imm =>
    let addr := s.get a + imm.signExtend 32
    if h : addrClass addr = .ok then
      (s.set rd (s.mem.get ⟨addr.toNat / 4, addrClass_ok_lt h⟩)).next
    else { s with trapped := true }.next
  | .SW a b imm =>
    let addr := s.get a + imm.signExtend 32
    if h : addrClass addr = .ok then
      { s with mem := s.mem.set (addr.toNat / 4) (s.get b) (addrClass_ok_lt h) }.next
    else { s with trapped := true }.next

/-- The instruction takes the trapping arm of `step`. -/
def traps (s : St) : Instr → Bool
  | .LW _ a imm | .SW a _ imm => addrClass (s.get a + imm.signExtend 32) != .ok
  | _ => false

/-- The sticky flag records every trapping arm. -/
theorem step_trapped (s : St) (i : Instr) : (step s i).trapped = (s.trapped || traps s i) := by
  cases i with
  | ADD | ADDI | XOR | SLT => simp [step, traps]
  | BEQ a b imm =>
    simp only [step, traps, Bool.or_false]
    split_ifs <;> rfl
  | LW rd a imm =>
    simp only [step, traps]
    split_ifs with h <;> simp [h]
  | SW a b imm =>
    simp only [step, traps]
    split_ifs with h <;> simp [h]

/-! ### Runs -/

/-- The ISA as a machine, driven by instructions. -/
def machine : Synchronous.Machine St Instr where
  step := step

/-- Over a run the sticky flag is the disjunction of the traps. -/
theorem run_trapped (s : St) (is : ℕ → Instr) (n : ℕ) :
    (machine.run s is n).trapped =
      (s.trapped || (List.range n).any fun t => traps (machine.run s is t) (is t)) := by
  induction n with
  | zero => simp
  | succ n ih =>
    have hstep : (machine.run s is (n + 1)).trapped =
        ((machine.run s is n).trapped || traps (machine.run s is n) (is n)) :=
      step_trapped _ _
    rw [hstep, ih, List.range_succ, List.any_append, Bool.or_assoc]
    simp

/-! ### Encoding -/

/-- The register that a field names. -/
def toReg (b : BitVec 5) : Fin 32 := ⟨b.toNat, b.isLt⟩

@[simp] theorem toReg_inj {b c : BitVec 5} : toReg b = toReg c ↔ b = c :=
  ⟨fun h => BitVec.eq_of_toNat_eq (congrArg Fin.val h), congrArg toReg⟩

@[simp] theorem toReg_eq_zero {b : BitVec 5} : toReg b = 0 ↔ b = 0#5 :=
  toReg_inj (c := 0#5)

section Fields

variable (w : BitVec 32)

/-- The immediate of an I-type word. -/
def immI : BitVec 12 := w.extractLsb' 20 12

/-- The immediate of an S-type word. -/
def immS : BitVec 12 := w.extractLsb' 25 7 ++ w.extractLsb' 7 5

/-- Bits 12 to 1 of the displacement of a B-type word. -/
def immB : BitVec 12 :=
  w.extractLsb' 31 1 ++ (w.extractLsb' 7 1 ++ (w.extractLsb' 25 6 ++ w.extractLsb' 8 4))

end Fields

/-- Decode; a word outside of the subset is none. -/
def decode (w : BitVec 32) : Option Instr :=
  let opcode := w.extractLsb' 0 7
  let rd := toReg (w.extractLsb' 7 5)
  let funct3 := w.extractLsb' 12 3
  let rs1 := toReg (w.extractLsb' 15 5)
  let rs2 := toReg (w.extractLsb' 20 5)
  let funct7 := w.extractLsb' 25 7
  if opcode = 0b0110011#7 && funct7 = 0#7 then
    if funct3 = 0#3 then some (.ADD rd rs1 rs2)
    else if funct3 = 4#3 then some (.XOR rd rs1 rs2)
    else if funct3 = 2#3 then some (.SLT rd rs1 rs2)
    else none
  else if opcode = 0b0010011#7 && funct3 = 0#3 then some (.ADDI rd rs1 (immI w))
  else if opcode = 0b1100011#7 && funct3 = 0#3 then some (.BEQ rs1 rs2 (immB w))
  else if opcode = 0b0000011#7 && funct3 = 0b010#3 then some (.LW rd rs1 (immI w))
  else if opcode = 0b0100011#7 && funct3 = 0b010#3 then some (.SW rs1 rs2 (immS w))
  else none

/-- The fields of a word that decodes to a given instruction. -/
inductive Encodes (w : BitVec 32) : Instr → Prop
  | add (ho : w.extractLsb' 0 7 = 0b0110011#7) (h7 : w.extractLsb' 25 7 = 0#7)
      (h3 : w.extractLsb' 12 3 = 0#3) :
      Encodes w (.ADD (toReg (w.extractLsb' 7 5)) (toReg (w.extractLsb' 15 5))
        (toReg (w.extractLsb' 20 5)))
  | xor (ho : w.extractLsb' 0 7 = 0b0110011#7) (h7 : w.extractLsb' 25 7 = 0#7)
      (h3 : w.extractLsb' 12 3 = 4#3) :
      Encodes w (.XOR (toReg (w.extractLsb' 7 5)) (toReg (w.extractLsb' 15 5))
        (toReg (w.extractLsb' 20 5)))
  | slt (ho : w.extractLsb' 0 7 = 0b0110011#7) (h7 : w.extractLsb' 25 7 = 0#7)
      (h3 : w.extractLsb' 12 3 = 2#3) :
      Encodes w (.SLT (toReg (w.extractLsb' 7 5)) (toReg (w.extractLsb' 15 5))
        (toReg (w.extractLsb' 20 5)))
  | addi (ho : w.extractLsb' 0 7 = 0b0010011#7) (h3 : w.extractLsb' 12 3 = 0#3) :
      Encodes w (.ADDI (toReg (w.extractLsb' 7 5)) (toReg (w.extractLsb' 15 5)) (immI w))
  | beq (ho : w.extractLsb' 0 7 = 0b1100011#7) (h3 : w.extractLsb' 12 3 = 0#3) :
      Encodes w (.BEQ (toReg (w.extractLsb' 15 5)) (toReg (w.extractLsb' 20 5)) (immB w))
  | lw (ho : w.extractLsb' 0 7 = 0b0000011#7) (h3 : w.extractLsb' 12 3 = 2#3) :
      Encodes w (.LW (toReg (w.extractLsb' 7 5)) (toReg (w.extractLsb' 15 5)) (immI w))
  | sw (ho : w.extractLsb' 0 7 = 0b0100011#7) (h3 : w.extractLsb' 12 3 = 2#3) :
      Encodes w (.SW (toReg (w.extractLsb' 15 5)) (toReg (w.extractLsb' 20 5)) (immS w))

/-- The fields of a word that decodes. -/
theorem decode_eq_some_iff {w : BitVec 32} {i : Instr} : decode w = some i ↔ Encodes w i := by
  constructor
  · intro h
    simp only [decode, Bool.and_eq_true, decide_eq_true_eq] at h
    split_ifs at h with h1 h2 h3 h4 h5 h6 h7 h8 <;> obtain rfl := Option.some.inj h
    · exact .add h1.1 h1.2 h2
    · exact .xor h1.1 h1.2 h3
    · exact .slt h1.1 h1.2 h4
    · exact .addi h5.1 h5.2
    · exact .beq h6.1 h6.2
    · exact .lw h7.1 h7.2
    · exact .sw h8.1 h8.2
  · rintro (⟨ho, h7, h3⟩ | ⟨ho, h7, h3⟩ | ⟨ho, h7, h3⟩ | ⟨ho, h3⟩ | ⟨ho, h3⟩ | ⟨ho, h3⟩ |
      ⟨ho, h3⟩)
    all_goals simp_all [decode]

end Saltworks.ISA
