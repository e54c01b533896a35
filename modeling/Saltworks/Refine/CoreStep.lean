import Saltworks.RTL.Core32Edge
import Saltworks.Refine.Statement
import Saltworks.Word.Extend

/-!
# One edge of `core32` is one instruction with erratum E

The decoder of the specification checks every field, the core reads the opcode, `funct3` and one
bit of `funct7`. `decode_eq_some` says which fields of the word a decoded instruction fixes, and
from it one enabled edge of the core on an instruction in scope is `exec true` whose previous load
word is the value on `dmem_rdata`.

## Main definitions

* `Op.opcode`, `Op.funct3`, `Op.f7`, `Op.imm`: the fields of an instruction word.
* `archOf`: the architectural state that the core's registers hold.
* `dataLoops`, `coreLoops`: the bus loops that the core's ports ask for.

## Main results

* `decode_eq_some`: the fields of a word that decodes.
* `exec_true_core`: one edge of the core is one instruction of `exec true`.
-/

namespace Saltworks.Refine

open RTL

/-! ### Fields -/

namespace Op

/-- The opcode of an instruction. -/
def opcode : Op → BitVec 7
  | lui => 0b0110111#7
  | auipc => 0b0010111#7
  | jal => 0b1101111#7
  | jalr => 0b1100111#7
  | beq | bne | blt | bge | bltu | bgeu => 0b1100011#7
  | lw => 0b0000011#7
  | sw => 0b0100011#7
  | addi | slti | sltiu | xori | ori | andi | slli | srli | srai => 0b0010011#7
  | add | sub | sll | slt | sltu | xor | srl | sra | or | and => 0b0110011#7

/-- The field `funct3` of an instruction that has one. -/
def funct3 : Op → Option (BitVec 3)
  | lui | auipc | jal => none
  | jalr => some 0#3
  | beq => some 0#3
  | bne => some 1#3
  | blt => some 4#3
  | bge => some 5#3
  | bltu => some 6#3
  | bgeu => some 7#3
  | lw => some 2#3
  | sw => some 2#3
  | addi | add | sub => some 0#3
  | slli | sll => some 1#3
  | slti | slt => some 2#3
  | sltiu | sltu => some 3#3
  | xori | xor => some 4#3
  | srli | srai | srl | sra => some 5#3
  | ori | or => some 6#3
  | andi | and => some 7#3

/-- Bit 30 of a register operation. -/
def f7 : Op → Option Bool
  | add | sll | slt | sltu | xor | srl | or | and => some false
  | sub | sra => some true
  | _ => none

/-- The immediate of an instruction word, by its format. -/
def imm : Op → Word → Word
  | lui | auipc => immU
  | jal => immJ
  | beq | bne | blt | bge | bltu | bgeu => immB
  | sw => immS
  | jalr | lw | addi | slti | sltiu | xori | ori | andi | slli | srli | srai => immI
  | _ => fun _ => 0#32

end Op

theorem funct3_cases (f : BitVec 3) :
    f = 0#3 ∨ f = 1#3 ∨ f = 2#3 ∨ f = 3#3 ∨ f = 4#3 ∨ f = 5#3 ∨ f = 6#3 ∨ f = 7#3 := by
  revert f
  decide

theorem branchOp_eq_some {f3 : BitVec 3} {op : Op} (h : branchOp f3 = some op) :
    op.opcode = 0b1100011#7 ∧ op.funct3 = some f3 ∧ op.f7 = none ∧ op.imm = immB := by
  simp only [branchOp] at h
  split_ifs at h <;> obtain rfl := Option.some.inj h <;> subst f3 <;> exact ⟨rfl, rfl, rfl, rfl⟩

theorem immOp_eq_some {f3 : BitVec 3} {f7 : BitVec 7} {op : Op} (h : immOp f3 f7 = some op) :
    op.opcode = 0b0010011#7 ∧ op.funct3 = some f3 ∧ op.f7 = none ∧ op.imm = immI := by
  simp only [immOp] at h
  split_ifs at h
  all_goals first
    | cases h
      subst f3
      exact ⟨rfl, rfl, rfl, rfl⟩
    | cases h
      rcases funct3_cases f3 with rfl | rfl | rfl | rfl | rfl | rfl | rfl | rfl <;> first
        | contradiction
        | exact ⟨rfl, rfl, rfl, rfl⟩

theorem regOp_eq_some {f3 : BitVec 3} {f7 : BitVec 7} {op : Op} (h : regOp f3 f7 = some op) :
    op.opcode = 0b0110011#7 ∧ op.funct3 = some f3 ∧ op.f7 = some (f7.getLsbD 5) ∧
      op.imm = fun _ => 0#32 := by
  by_cases h0 : f7 = 0#7
  · subst h0
    rcases funct3_cases f3 with rfl | rfl | rfl | rfl | rfl | rfl | rfl | rfl <;>
      simp only [regOp, BitVec.reduceEq, if_true, if_false] at h <;>
      obtain rfl := Option.some.inj h <;> exact ⟨rfl, rfl, rfl, rfl⟩
  · simp only [regOp, h0, if_false] at h
    split_ifs at h <;> obtain rfl := Option.some.inj h <;> subst f3 f7 <;>
      exact ⟨rfl, rfl, rfl, rfl⟩

/-- What a word that decodes fixes: its register fields, its immediate, its opcode, and the
fields `funct3` and bit 30 of an operation that has them. -/
theorem decode_eq_some {w : Word} {d : Dec} (h : decode w = some d) :
    d = ⟨d.op, Core32.rd w, Core32.rs1 w, Core32.rs2 w, d.op.imm w⟩ ∧
      Core32.opcode w = d.op.opcode ∧ (∀ f, d.op.funct3 = some f → Core32.funct3 w = f) ∧
      ∀ b, d.op.f7 = some b → Core32.f7 w = b := by
  have hf7 := Core32.f7_eq_getLsbD w
  simp only [decode] at h
  split_ifs at h with h1 h2 h3 h4 h4' h5 h6 h6' h7 h7' h8 h9
  · obtain rfl := Option.some.inj h
    exact ⟨rfl, h1, by simp [Op.funct3], by simp [Op.f7]⟩
  · obtain rfl := Option.some.inj h
    exact ⟨rfl, h2, by simp [Op.funct3], by simp [Op.f7]⟩
  · obtain rfl := Option.some.inj h
    exact ⟨rfl, h3, by simp [Op.funct3], by simp [Op.f7]⟩
  · obtain rfl := Option.some.inj h
    exact ⟨rfl, h4, by simp [Op.funct3, Core32.funct3, h4'], by simp [Op.f7]⟩
  · obtain ⟨op, hop, rfl⟩ := Option.map_eq_some_iff.1 h
    obtain ⟨ho, hf, hb, hi⟩ := branchOp_eq_some hop
    exact ⟨by rw [hi]; rfl, h5.trans ho.symm, by simp [hf, Core32.funct3], by simp [hb]⟩
  · obtain rfl := Option.some.inj h
    exact ⟨rfl, h6, by simp [Op.funct3, Core32.funct3, h6'], by simp [Op.f7]⟩
  · obtain rfl := Option.some.inj h
    exact ⟨rfl, h7, by simp [Op.funct3, Core32.funct3, h7'], by simp [Op.f7]⟩
  · obtain ⟨op, hop, rfl⟩ := Option.map_eq_some_iff.1 h
    obtain ⟨ho, hf, hb, hi⟩ := immOp_eq_some hop
    exact ⟨by rw [hi]; rfl, h8.trans ho.symm, by simp [hf, Core32.funct3], by simp [hb]⟩
  · obtain ⟨op, hop, rfl⟩ := Option.map_eq_some_iff.1 h
    obtain ⟨ho, hf, hb, hi⟩ := regOp_eq_some hop
    exact ⟨by rw [hi]; rfl, h9.trans ho.symm, by simp [hf, Core32.funct3],
      fun b hb' => hf7.trans (Option.some.inj (hb.symm.trans hb'))⟩

/-! ### Immediates -/

section Immediates

variable (w : Word)

theorem core_immI : Core32.immI w = immI w :=
  BitVec.replicate_append_eq_signExtend _ _ (by simp)

theorem core_immS : Core32.immS w = immS w :=
  BitVec.replicate_append_append_eq_signExtend _ _ _ (by decide) (by simp)

theorem core_immB : Core32.immB w = immB w :=
  BitVec.replicate_append_append_eq_signExtend _ _ _ (by decide) (by simp)

theorem core_immU : Core32.immU w = immU w := (BitVec.setWidth_eq _).symm

theorem core_immJ : Core32.immJ w = immJ w :=
  BitVec.replicate_append_append_eq_signExtend _ _ _ (by decide) (by simp)

end Immediates

/-! ### One edge -/

/-- The architectural state that the registers of the core hold. -/
def archOf (s : Core32.State) : Arch := ⟨s.pcR, s.regs⟩

@[simp] theorem archOf_pc (s : Core32.State) : (archOf s).pc = s.pcR := rfl

@[simp] theorem get_archOf (s : Core32.State) (r : BitVec 5) :
    (archOf s).get r = Core32.readPort s r := (Core32.readPort_eq s r).symm

/-- The data loops that the values of the ports `dmem_req`, `dmem_we`, `dmem_addr` and
`dmem_wdata` ask for. -/
def dataLoops (req we : Bool) (addr wdata : Word) : List Loop :=
  if req then if we then [⟨.store, addr⟩, ⟨.store, wdata⟩] else [⟨.load, addr⟩] else []

/-- The bus loops of an instruction word in front of the core: its fetch, and what the data port
asks for. -/
def coreLoops (s : Core32.State) (w : Word) : List Loop :=
  ⟨.fetch, s.pcR⟩ :: dataLoops (Core32.dmemReq w) (Core32.dmemWe w) (Core32.dmemAddr s w)
    (Core32.dmemWdata s w)

/-- One edge of the core on the word `w`, with `v` on `dmem_rdata` and `lword` the word of the
host: the state and the loops it stands for. -/
def coreStep (s : Core32.State) (w v lword : Word) : EState × List Loop :=
  (⟨archOf (Core32.posedge true true w v s), if Core32.isLoadW w then lword else v⟩,
    coreLoops s w)

section Step

variable {s : Core32.State} {w v lword : Word}

theorem archOf_writeRd (pc : Word) (r : BitVec 5) (x : Word) :
    archOf ⟨pc, Core32.writeRd s.regs r x⟩ = { (archOf s).set r x with pc := pc } := by
  by_cases hr : r = 0#5
  · simp [archOf, Core32.writeRd, Arch.set, hr]
  · simp only [archOf, Core32.writeRd, Arch.set, hr, if_false]
    rfl

/-- An instruction that is neither a load nor a store makes its fetch loop only. -/
theorem coreStep_plain (hl : Core32.opcode w ≠ 0b0000011#7) (hs : Core32.opcode w ≠ 0b0100011#7)
    {a : Arch} (ha : archOf (Core32.posedge true true w v s) = a) :
    coreStep s w v lword = (⟨a, v⟩, [⟨.fetch, s.pcR⟩]) := by
  simp [coreStep, coreLoops, dataLoops, Core32.dmemReq_eq_false hl hs, Core32.isLoadW,
    Core32.isLoad, hl, ha]

/-- An immediate operation. -/
theorem coreStep_immop (h : Core32.opcode w = 0b0010011#7) {x : Word}
    (hx : Core32.alu (0#1 ++ Core32.funct3 w) (Core32.readPort s (Core32.rs1 w)) (immI w) = x) :
    coreStep s w v lword =
      (⟨{ (archOf s).set (Core32.rd w) x with pc := s.pcR + 4#32 }, v⟩, [⟨.fetch, s.pcR⟩]) := by
  refine coreStep_plain (by simp [h]) (by simp [h]) ?_
  rw [Core32.posedge_immop s v h, archOf_writeRd, core_immI, hx]

/-- A register operation. -/
theorem coreStep_regop (h : Core32.opcode w = 0b0110011#7) {x : Word}
    (hx : Core32.alu (BitVec.ofBool (Core32.f7 w) ++ Core32.funct3 w)
      (Core32.readPort s (Core32.rs1 w)) (Core32.readPort s (Core32.rs2 w)) = x) :
    coreStep s w v lword =
      (⟨{ (archOf s).set (Core32.rd w) x with pc := s.pcR + 4#32 }, v⟩, [⟨.fetch, s.pcR⟩]) := by
  refine coreStep_plain (by simp [h]) (by simp [h]) ?_
  rw [Core32.posedge_regop s v h, archOf_writeRd, hx]

/-- A branch. -/
theorem coreStep_branch (h : Core32.opcode w = 0b1100011#7) {b : Bool}
    (hb : Core32.brTaken s w = b) :
    coreStep s w v lword =
      (⟨{ archOf s with pc := if b then s.pcR + immB w else s.pcR + 4#32 }, v⟩,
        [⟨.fetch, s.pcR⟩]) := by
  refine coreStep_plain (by simp [h]) (by simp [h]) ?_
  rw [Core32.posedge_branch s v h, hb, core_immB]
  rfl

/-- A word load. -/
theorem coreStep_load (h : Core32.opcode w = 0b0000011#7) (hw : Core32.funct3 w = 2#3) :
    coreStep s w v lword =
      (⟨{ (archOf s).set (Core32.rd w) v with pc := s.pcR + 4#32 }, lword⟩,
        [⟨.fetch, s.pcR⟩, ⟨.load, Core32.readPort s (Core32.rs1 w) + immI w⟩]) := by
  obtain ⟨hreq, hwe⟩ := Core32.dmemReq_of_load h hw
  have hload : Core32.isLoadW w = true := by
    simp [Core32.isLoadW, Core32.isLoad, Core32.isWord, h, hw]
  simp [coreStep, coreLoops, dataLoops, hreq, hwe, hload, Core32.posedge_load s v h hw,
    archOf_writeRd, Core32.dmemAddr_load h, core_immI]

/-- A word store. -/
theorem coreStep_store (h : Core32.opcode w = 0b0100011#7) (hw : Core32.funct3 w = 2#3) :
    coreStep s w v lword =
      (⟨{ archOf s with pc := s.pcR + 4#32 }, v⟩,
        [⟨.fetch, s.pcR⟩, ⟨.store, Core32.readPort s (Core32.rs1 w) + immS w⟩,
          ⟨.store, Core32.readPort s (Core32.rs2 w)⟩]) := by
  obtain ⟨hreq, hwe⟩ := Core32.dmemReq_of_store h hw
  have hload : Core32.isLoadW w = false := by simp [Core32.isLoadW, Core32.isLoad, h]
  simp [coreStep, coreLoops, dataLoops, hreq, hwe, hload, Core32.posedge_store s v h, archOf,
    Core32.dmemAddr_store h, core_immS, Core32.dmemWdata, Core32.rf2]

end Step

theorem eq_of_jumpTo {t t' : Word} (h : jumpTo t = some t') : t' = t := by
  simp only [jumpTo] at h
  split_ifs at h
  exact (Option.some.inj h).symm

/-- A branch in scope, taken or not. -/
theorem eq_of_branch {α : Type*} {f : Word → α} {b : Bool} {t u : Word} {r : α}
    (h : (if b then (jumpTo t).map f else some (f u)) = some r) : r = f (if b then t else u) := by
  cases b with
  | false => exact (Option.some.inj h).symm
  | true =>
    obtain ⟨t', ht, rfl⟩ := Option.map_eq_some_iff.1 h
    rw [eq_of_jumpTo ht, if_pos rfl]

theorem alu_flag (b : Bool) : (0#31 ++ BitVec.ofBool b : Word) = flag b :=
  BitVec.zero_append_ofBool b

/-- **One edge, one instruction.** An enabled edge of the core on a word that decodes and is in
scope is one instruction with erratum E, the word of the load before being what stands on
`dmem_rdata`. -/
theorem exec_true_core {s : Core32.State} {w v lword : Word} {d : Dec} (hd : decode w = some d)
    {r : EState × List Loop} (hr : exec true ⟨archOf s, v⟩ d lword = some r) :
    r = coreStep s w v lword := by
  obtain ⟨hfields, hop, hf3, hf7⟩ := decode_eq_some hd
  obtain ⟨op, rd, rs1, rs2, imm⟩ := d
  simp only [Dec.mk.injEq, true_and] at hfields
  obtain ⟨rfl, rfl, rfl, rfl⟩ := hfields
  clear hd
  cases op <;> simp only [exec, get_archOf, archOf_pc, Option.some.injEq] at hr hop hf3 hf7
  case addi | slti | sltiu | xori | ori | andi | slli | srli | srai =>
    obtain rfl := hr
    refine (coreStep_immop hop ?_).symm
    rw [hf3 _ rfl]
    simp [Core32.alu, alu_flag, shamt, shiftRightA, Op.imm]
  case add | sub | sll | slt | sltu | xor | srl | sra | or | and =>
    obtain rfl := hr
    refine (coreStep_regop hop ?_).symm
    rw [hf3 _ rfl, hf7 _ rfl]
    simp [Core32.alu, alu_flag, shamt, shiftRightA, Core32.shiftRightArith, Core32.aluArmSigned]
  case beq | bne | blt | bge | bltu | bgeu =>
    obtain rfl := eq_of_branch hr
    rw [coreStep_branch hop rfl]
    simp [Core32.brTaken, Core32.isBr, Core32.rf1, Core32.rf2, hop, Op.opcode, hf3 _ rfl, Op.imm,
      BitVec.ule_eq_not_ult]
  case lui =>
    obtain rfl := hr
    refine (coreStep_plain (by simp [hop, Op.opcode]) (by simp [hop, Op.opcode]) ?_).symm
    rw [Core32.posedge_lui s v hop, archOf_writeRd, core_immU]
    rfl
  case auipc =>
    obtain rfl := hr
    refine (coreStep_plain (by simp [hop, Op.opcode]) (by simp [hop, Op.opcode]) ?_).symm
    rw [Core32.posedge_auipc s v hop, archOf_writeRd, core_immU]
    rfl
  case jal =>
    obtain ⟨t, ht, rfl⟩ := Option.map_eq_some_iff.1 hr
    obtain rfl := eq_of_jumpTo ht
    refine (coreStep_plain (by simp [hop, Op.opcode]) (by simp [hop, Op.opcode]) ?_).symm
    rw [Core32.posedge_jal s v hop, archOf_writeRd, core_immJ]
    rfl
  case jalr =>
    obtain ⟨t, ht, rfl⟩ := Option.map_eq_some_iff.1 hr
    obtain rfl := eq_of_jumpTo ht
    refine (coreStep_plain (by simp [hop, Op.opcode]) (by simp [hop, Op.opcode]) ?_).symm
    rw [Core32.posedge_jalr s v hop, archOf_writeRd, core_immI]
    rfl
  case lw =>
    obtain ⟨-, hr⟩ := Option.ite_none_left_eq_some.1 hr
    obtain rfl := Option.some.inj hr
    rw [coreStep_load hop (hf3 _ rfl)]
    rfl
  case sw =>
    obtain ⟨-, hr⟩ := Option.ite_none_left_eq_some.1 hr
    obtain rfl := Option.some.inj hr
    rw [coreStep_store hop (hf3 _ rfl)]
    rfl

end Saltworks.Refine
