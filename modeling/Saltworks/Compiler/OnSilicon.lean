import Saltworks.Compiler.Correctness
import Saltworks.Firmware.Computer
import Saltworks.Kernel.MemPlane

/-!
# Compiled programs on the hardware

Two machines execute the compiled code. The memory plane `memplane8` is handed the word at its
`imem_addr` in every cycle; it executes one instruction a cycle. The bus plane is in closed loop
with the firmware of its memory server, which holds the words in its program image; each
instruction takes the four cycles of a fetch loop. On both a statement runs as its big-step
semantics says. The code has neither loads nor stores: nothing traps and no memory changes.

## Main definitions

* `touchesMem`: loads and stores; `plain`: what compiled code consists of; `PlainAt`.
* `CoreRelated`: `pc` and the registers of a core are those of the ISA.
* `Loaded`: a memory of words holds a program; `romStep`: `memplane8` with such a memory.

## Main results

* `CoreRelated.step`: one instruction of the core.
* `memPlane_runs_compiled`: `memplane8`.
* `chip_runs_compiled`: chip and firmware.
-/

namespace Saltworks.Compiler

open ISA TinyRust Synchronous RTL
open Kernel (Related ClobbersOnTrap)

/-! ### The instructions of compiled code -/

/-- The instruction reads or writes the memory. -/
def touchesMem : Instr → Bool
  | .LW .. | .SW .. => true
  | .ADD .. | .ADDI .. | .XOR .. | .SLT .. | .BEQ .. => false

/-- The instruction is on registers only, and does not branch between two instructions. -/
def plain : Instr → Bool
  | .LW .. | .SW .. => false
  | .ADD .. | .ADDI .. | .XOR .. | .SLT .. => true
  | .BEQ _ _ imm => imm.toNat % 2 == 0

theorem touchesMem_of_plain {i : Instr} (h : plain i = true) : touchesMem i = false := by
  cases i <;> simp_all [plain, touchesMem]

variable {Γ : Ctx} {reg : RegMap} {d : ℕ} {c : List Instr}

theorem plain_whileExit (a b : Fin 32) (nb : ℕ) : plain (.BEQ a b (whileExit nb)) = true := by
  have heven : (whileExit nb).toNat % 2 = 0 := by
    rw [whileExit, BitVec.toNat_ofNat]
    omega
  rw [plain, heven]
  rfl

theorem plain_whileBack (a b : Fin 32) (nc nb : ℕ) :
    plain (.BEQ a b (whileBack nc nb)) = true := by
  have heven (z : ℤ) : (BitVec.ofInt 12 (-(2 * z))).toNat % 2 = 0 := by
    rw [BitVec.toNat_ofInt]
    omega
  have hback : (whileBack nc nb).toNat % 2 = 0 := heven _
  rw [plain, hback]
  rfl

theorem binOp_plain {mk : Fin 32 → Fin 32 → Fin 32 → Instr} {ca cb : List Instr}
    (hmk : ∀ x y z, plain (mk x y z) = true) (hbin : binOp mk ca cb d = some c)
    (ha : ∀ i ∈ ca, plain i = true) (hb : ∀ i ∈ cb, plain i = true) : ∀ i ∈ c, plain i = true := by
  obtain ⟨rd, rs, -, -, rfl⟩ := binOp_eq_some.1 hbin
  intro i hi
  simp only [List.mem_append, List.mem_singleton] at hi
  obtain (hi | hi) | rfl := hi
  · exact ha i hi
  · exact hb i hi
  · exact hmk _ _ _

theorem compileE_plain {e : Exp} (hc : compileE Γ reg e d = some c) : ∀ i ∈ c, plain i = true := by
  induction e generalizing d c with
  | var x =>
    obtain ⟨rd, rs, -, -, rfl⟩ := compileE_var.1 hc
    simp [plain]
  | const n =>
    obtain ⟨rd, imm, -, -, rfl⟩ := compileE_const.1 hc
    simp [plain]
  | tt =>
    obtain ⟨rd, -, rfl⟩ := compileE_tt.1 hc
    simp [plain]
  | ff =>
    obtain ⟨rd, -, rfl⟩ := compileE_ff.1 hc
    simp [plain]
  | add a b iha ihb =>
    obtain ⟨ca, cb, hca, hcb, hbin⟩ := compileE_add.1 hc
    exact binOp_plain (fun _ _ _ => rfl) hbin (iha hca) (ihb hcb)
  | xor a b iha ihb =>
    obtain ⟨ca, cb, hca, hcb, hbin⟩ := compileE_xor.1 hc
    exact binOp_plain (fun _ _ _ => rfl) hbin (iha hca) (ihb hcb)
  | slt a b iha ihb =>
    obtain ⟨ca, cb, hca, hcb, hbin⟩ := compileE_slt.1 hc
    exact binOp_plain (fun _ _ _ => rfl) hbin (iha hca) (ihb hcb)

/-- Compiled code has neither loads nor stores, and its branches lead to instructions. -/
theorem compileS_plain {stm : Stmt} (hc : compileS reg d Γ stm = some c) :
    ∀ i ∈ c, plain i = true := by
  induction stm generalizing Γ c with
  | skip =>
    obtain rfl : [] = c := Option.some.inj hc
    simp
  | assign x e =>
    obtain ⟨ce, rd, rx, hce, -, -, rfl⟩ := compileS_assign.1 hc
    have hmove : plain (.ADDI rx rd 0) = true := rfl
    simpa [or_imp, forall_and] using ⟨compileE_plain hce, hmove⟩
  | letmut x ty e body ih =>
    obtain ⟨ce, rd, rl, cb, hce, -, -, hcb, rfl⟩ := compileS_letmut.1 hc
    have hmove : plain (.ADDI rl rd 0) = true := rfl
    simpa [or_imp, forall_and] using ⟨compileE_plain hce, hmove, ih hcb⟩
  | seq s t ihs iht =>
    obtain ⟨cs, ct, hcs, hct, rfl⟩ := compileS_seq.1 hc
    simpa [or_imp, forall_and] using ⟨ihs hcs, iht hct⟩
  | ite => simp [compileS] at hc
  | «while» e body ih =>
    obtain ⟨cc, rd, cb, hcc, -, hcb, -, rfl⟩ := compileS_while.1 hc
    simpa [or_imp, forall_and, plain_whileExit, plain_whileBack] using
      ⟨compileE_plain hcc, ih hcb⟩

/-- In the block of `n` instructions at `p` the program has plain instructions. -/
def PlainAt (image : List Instr) (p n : ℕ) : Prop :=
  ∀ s : St, Inside p n s → ∃ i, fetch image s.pc = some i ∧ plain i = true

theorem plainAt_of_codeAt {image : List Instr} {p : ℕ} (hcode : CodeAt image p c)
    (hc : ∀ i ∈ c, plain i = true) : PlainAt image p c.length := by
  rintro s ⟨j, hj, hpc⟩
  refine ⟨c.get ⟨j, hj⟩, ?_, hc _ (List.get_mem c _)⟩
  rw [fetch_of_codeAt hcode hpc hj, List.getElem?_eq_getElem hj]
  rfl

theorem Placed.plainAt {image : List Instr} {stm : Stmt} {p : ℕ}
    (hp : Placed image reg d Γ stm c p) : PlainAt image p c.length :=
  plainAt_of_codeAt hp.code (compileS_plain hp.compiled)

/-! ### One instruction of the core -/

/-- `pc` and the registers of the core are those of the ISA. -/
structure CoreRelated (core : Core32.State) (s : St) : Prop where
  pc : core.pcR = s.pc
  regs : ∀ r : BitVec 5, Core32.readPort core r = s.get (toReg r)

theorem dmemReq_encode {i : Instr} (hi : touchesMem i = false) :
    Core32.dmemReq (encode i) = false := by
  have hopcode : Core32.opcode (encode i) = 0b0110011#7 ∨ Core32.opcode (encode i) = 0b0010011#7 ∨
      Core32.opcode (encode i) = 0b1100011#7 := by
    cases i with
    | ADD rd a b | XOR rd a b | SLT rd a b => exact .inl (wR_fields _ rd a b).1
    | ADDI rd a imm => exact .inr (.inl (wI_fields _ _ imm rd a).1)
    | BEQ a b imm => exact .inr (.inr (wB_fields a b _ _ _ _).1)
    | LW | SW => simp [touchesMem] at hi
  obtain h | h | h := hopcode
  all_goals exact Core32.dmemReq_eq_false (by rw [h]; decide) (by rw [h]; decide)

/-- The data port is not read unless the word is a load. -/
theorem posedge_rdata {w : Word} (hw : Core32.dmemReq w = false) (v v' : Word) (s : Core32.State) :
    Core32.posedge true true w v s = Core32.posedge true true w v' s := by
  have hload : Core32.isLoadW w = false := (Bool.or_eq_false_iff.1 hw).1
  simp [Core32.posedge, Core32.wbVal, hload]

theorem not_clobbersOnTrap {i : Instr} (hi : touchesMem i = false) (s : St) :
    ¬ClobbersOnTrap s i := by
  cases i <;> simp_all [touchesMem, ClobbersOnTrap]

theorem traps_eq_false {i : Instr} (hi : touchesMem i = false) (s : St) : traps s i = false := by
  cases i <;> simp_all [touchesMem, traps]

/-- One instruction that is no load or store, whatever is on the data port. -/
theorem CoreRelated.step {core : Core32.State} {s : St} (h : CoreRelated core s) {i : Instr}
    (hi : touchesMem i = false) (rdata : Word) :
    CoreRelated (Core32.posedge true true (encode i) rdata core) (ISA.step s i) := by
  have hrel : Related ⟨core, fun k => s.mem[k.toNat]⟩ s := ⟨h.pc, h.regs, fun _ => rfl⟩
  have hstep := (Kernel.related_step_iff hrel (decode_encode i)).2 (not_clobbersOnTrap hi s)
  rw [posedge_rdata (dmemReq_encode hi) rdata]
  exact ⟨hstep.pc, hstep.regs⟩

/-! ### The memory plane -/

/-- The words that the memory answers at the addresses of a program encode its instructions. -/
def Loaded (mem : Word → Word) (image : List Instr) : Prop :=
  ∀ pc i, fetch image pc = some i → mem pc = encode i

/-- `memplane8` with a memory of words at its instruction port. -/
def romStep (rom : Word → Word) (m : MemPlane8.State) : MemPlane8.State :=
  MemPlane8.posedge true m (rom (Core32.imemAddr m.core))

theorem aligned_of_fetch {image : List Instr} {pc : Word} {i : Instr}
    (h : fetch image pc = some i) : pc.extractLsb' 0 2 = 0#2 := by
  rw [fetch] at h
  split_ifs at h with hpc
  refine BitVec.eq_of_toNat_eq ?_
  rw [BitVec.extractLsb'_toNat, Nat.shiftRight_zero]
  exact hpc

/-- The word at the instruction port. -/
theorem rom_imemAddr {rom : Word → Word} {image : List Instr} (hrom : Loaded rom image)
    {core : Core32.State} {i : Instr} (h : fetch image core.pcR = some i) :
    rom (Core32.imemAddr core) = encode i := by
  rw [Refine.imemAddr_of_aligned (aligned_of_fetch h)]
  exact hrom _ _ h

section MemPlane

variable {rom : Word → Word} {image : List Instr} {stm : Stmt} {σ : State} {p : ℕ}
  {m : MemPlane8.State}

/-- The states of the ISA cover those of the plane. -/
theorem exists_related (m : MemPlane8.State) : ∃ s : St, Related m s := by
  refine ⟨⟨.ofFn fun r => m.core.regs (ofReg r), m.core.pcR, .ofFn fun k => m.mem (BitVec.ofFin k),
    false⟩, rfl, fun r => ?_, fun k => ?_⟩
  · by_cases hr : r = 0#5
    · rw [hr]
      rfl
    · rw [Core32.readPort_eq, if_neg hr, St.get, if_neg (by simpa using hr)]
      simp [toReg, ofReg]
  · simp

/-- Where the instructions are plain the plane executes those of the ISA, and leaves its memory
alone. -/
theorem related_romStep {n : ℕ} (hplain : PlainAt image p n) (hrom : Loaded rom image) {s : St}
    (h : Related m s) (hin : Inside p n s) :
    Related (romStep rom m) (tick image s) ∧ (romStep rom m).mem = m.mem ∧
      MemPlane8.dmemTrap m (rom (Core32.imemAddr m.core)) = false := by
  obtain ⟨i, hfetch, hi⟩ := hplain s hin
  have hi := touchesMem_of_plain hi
  have hword : rom (Core32.imemAddr m.core) = encode i :=
    rom_imemAddr hrom (by rw [h.pc, hfetch])
  have hwe : Core32.dmemWe (encode i) = false :=
    (Bool.or_eq_false_iff.1 (dmemReq_encode hi)).2
  refine ⟨?_, ?_, ?_⟩
  · rw [romStep, hword, tick_of_fetch hfetch]
    exact (Kernel.related_step_iff h (decode_encode i)).2 (not_clobbersOnTrap hi s)
  · rw [romStep, hword, Kernel.posedge_eq_of_not_we hwe]
  · rw [hword, Kernel.dmemTrap_eq h (decode_encode i), traps_eq_false hi]

theorem inside_of_inBlock {n : ℕ} {s : St} (h : Related m s)
    (hin : InBlock (·.core.pcR) p n m) : Inside p n s := by
  obtain ⟨j, hj, hpc⟩ := hin
  exact ⟨j, hj, by rw [← h.pc, hpc]⟩

/-- As long as the plane has not left the plain instructions its trap is low, and its data memory
stays as it was. -/
theorem quiet_of_plainAt {n : ℕ} (hplain : PlainAt image p n) (hrom : Loaded rom image) {k : ℕ}
    (hk : ∀ t < k, InBlock (·.core.pcR) p n ((romStep rom)^[t] m)) :
    ((romStep rom)^[k] m).mem = m.mem ∧
      ∀ t < k, MemPlane8.dmemTrap ((romStep rom)^[t] m)
        (rom (Core32.imemAddr ((romStep rom)^[t] m).core)) = false := by
  obtain ⟨s, hs⟩ := exists_related m
  have hrun (t : ℕ) (ht : t ≤ k) : Related ((romStep rom)^[t] m) ((tick image)^[t] s) ∧
      ((romStep rom)^[t] m).mem = m.mem := by
    refine iterate_simulate (R := fun m' s' => Related m' s' ∧ m'.mem = m.mem)
      (P := InBlock (·.core.pcR) p n) (fun m' s' h hin => ?_) ⟨hs, rfl⟩
      fun u hu => hk u (by omega)
    obtain ⟨hrel, hmem, -⟩ := related_romStep hplain hrom h.1 (inside_of_inBlock h.1 hin)
    exact ⟨hrel, hmem.trans h.2⟩
  refine ⟨(hrun k le_rfl).2, fun t ht => ?_⟩
  obtain ⟨hrel, -⟩ := hrun t (by omega)
  exact (related_romStep hplain hrom hrel (inside_of_inBlock hrel (hk t ht))).2.2

/-- **Compiled programs on `memplane8`.** With the program in the memory at its instruction port,
`memplane8` runs the statement from any state that is at its code and holds its cells. As long as
it has not left the code its trap is low, and its data memory stays as it was. -/
theorem memPlane_runs_compiled (hreg : RegOk reg d) (hp : Placed image reg d Γ stm c p)
    (hrom : Loaded rom image) (hpc : m.core.pcR.toNat = 4 * p) (hok : stateOK Γ σ)
    (hcells : ∀ i : Fin poolSize, i.val < Γ.length →
      Core32.readPort m.core (ofReg (reg i)) = σ i.val) :
    Runs (romStep rom) (·.core.pcR) (fun m r => Core32.readPort m.core (ofReg r)) reg Γ stm σ p
        c.length m ∧
      ∀ n, (∀ t < n, InBlock (·.core.pcR) p c.length ((romStep rom)^[t] m)) →
        ((romStep rom)^[n] m).mem = m.mem ∧
          ∀ t < n, MemPlane8.dmemTrap ((romStep rom)^[t] m)
            (rom (Core32.imemAddr ((romStep rom)^[t] m).core)) = false := by
  obtain ⟨s, hs⟩ := exists_related m
  have hcell (s : St) (m : MemPlane8.State) (r : Fin 32) (h : Related m s) :
      Core32.readPort m.core (ofReg r) = s.get r := by
    rw [h.regs, toReg_ofReg]
  have hat : At reg Γ σ p s :=
    ⟨by rw [← hs.pc, hpc], hok, fun i hi => by rw [← hcell s m _ hs, hcells i hi]⟩
  refine ⟨?_, fun n hn => quiet_of_plainAt hp.plainAt hrom hn⟩
  exact runs_of_simulation (R := fun s m => Related m s) hreg hp hat
    (fun _ _ h hin => (related_romStep hp.plainAt hrom h hin).1) (fun _ _ h => h.pc) hcell hs

/-- `while x0 < 7 { x0 = x0 + 3 }`, of which `x0` is the only cell. -/
def countStmt : Stmt :=
  .while (.slt (.var 0) (.const 7)) (.assign 0 (.add (.var 0) (.const 3)))

/-- The context of `countStmt`. -/
def countCtx : Ctx := [(0, .i32)]

/-- From `0` the loop counts to `9`. -/
theorem bigStep_countStmt (σ : State) : BigStep countCtx countStmt (upd σ 0 0)
    (upd (upd (upd (upd σ 0 0) 0 3) 0 6) 0 9) := by
  have hround {σ : State} {v : BitVec 32} (hv : v.slt 7#32 = true) :
      evalE countCtx (upd σ 0 v) (.slt (.var 0) (.const 7)) = 1 ∧
        BigStep countCtx (.assign 0 (.add (.var 0) (.const 3))) (upd σ 0 v)
          (upd (upd σ 0 v) 0 (v + 3)) := by
    refine ⟨?_, .assign⟩
    simp [evalE, countCtx, slotOf, lookLvl, upd, hv]
  obtain ⟨hc₀, h₀⟩ := hround (σ := σ) (v := 0) rfl
  obtain ⟨hc₁, h₁⟩ := hround (σ := upd σ 0 0) (v := 3) rfl
  obtain ⟨hc₂, h₂⟩ := hround (σ := upd (upd σ 0 0) 0 3) (v := 6) rfl
  exact .whileT hc₀ h₀ (.whileT hc₁ h₁ (.whileT hc₂ h₂ (.whileF rfl)))

/-- The registers of `countStmt`: its cell and its temporaries. -/
def x1 : Fin 32 := toReg 1#5

def x16 : Fin 32 := toReg 16#5

def x17 : Fin 32 := toReg 17#5

/-- The code of `countStmt`. -/
def countCode : List Instr :=
  [.ADDI x16 x1 0#12, .ADDI x17 x0 7#12, .SLT x16 x16 x17, .BEQ x16 x0 12#12,
    .ADDI x16 x1 0#12, .ADDI x17 x0 3#12, .ADD x16 x16 x17, .ADDI x1 x16 0#12,
    .BEQ x0 x0 0xff0#12]

theorem placed_countCode : Placed countCode regCanonical 16 countCtx countStmt countCode 0 :=
  ⟨by decide, by decide, .self _, by decide⟩

theorem stateOK_countCtx (σ : State) : stateOK countCtx σ := by
  intro x l t h ht
  simp only [countCtx, lookLvl] at h
  split_ifs at h
  simp_all

/-- A memory that holds `countCode`. -/
def countRom (a : Word) : Word := ((fetch countCode a).map encode).getD 0#32

theorem loaded_countRom : Loaded countRom countCode := fun pc i h => by simp [countRom, h]

/-- `memplane8` counts to `9`. -/
theorem memPlane_runs_countCode : ∃ k, Core32.readPort
    ((romStep countRom)^[k] ⟨⟨0#32, fun _ => 0#32⟩, fun _ => 0#32⟩).core 1#5 = 9#32 := by
  have hruns := memPlane_runs_compiled (m := ⟨⟨0#32, fun _ => 0#32⟩, fun _ => 0#32⟩)
    (σ := upd (fun _ => 0) 0 0) regOk_regCanonical placed_countCode loaded_countRom rfl
    (stateOK_countCtx _) fun i _ => by simp [Core32.readPort_eq, upd]
  obtain ⟨k, m', hleads, -, hcells⟩ := hruns.1.ends _ (bigStep_countStmt _)
  refine ⟨k, ?_⟩
  rw [hleads.arrives]
  exact hcells ⟨0, by decide⟩ (by decide)

end MemPlane

/-! ### The chip and its firmware -/

section Chip

open Firmware
open Refine (Boundary)

variable {cl : ClosedLoop} {image : List Instr} {stm : Stmt} {σ : State}

/-- A plain instruction leaves `pc` a multiple of four. -/
theorem aligned_step {s : St} {i : Instr} (hi : plain i = true) (hpc : s.pc.toNat % 4 = 0) :
    (ISA.step s i).pc.toNat % 4 = 0 := by
  have hnext : (s.pc + 4#32).toNat % 4 = 0 := by
    rw [BitVec.toNat_add]
    simp
    omega
  cases i with
  | ADD | ADDI | XOR | SLT => simpa [ISA.step] using hnext
  | LW | SW => simp [plain] at hi
  | BEQ a b imm =>
    have himm : imm.toNat % 2 = 0 := by simpa [plain] using hi
    have hoff : (bOffset imm).toNat % 4 = 0 := by
      have hlow : (imm.signExtend 32).toNat % 2 = 0 := by
        rw [BitVec.toNat_signExtend, BitVec.toNat_setWidth]
        split_ifs <;> omega
      rw [bOffset, BitVec.toNat_shiftLeft, Nat.shiftLeft_eq]
      omega
    simp only [ISA.step]
    split_ifs
    · rw [BitVec.toNat_add]
      omega
    · exact hnext

/-- The program image of a program of at most 64 instructions. -/
def imageBytes (image : List Instr) : Bytes := fun a =>
  byte ((image.map encode).getD (a.toNat / 4) 0#32) (a.setWidth 2)

theorem loaded_imageBytes (h64 : image.length ≤ 64) :
    Loaded (fun a => rd32 (imageBytes image) (a.setWidth 8)) image := by
  intro pc i hfetch
  rw [fetch] at hfetch
  split_ifs at hfetch with halign
  obtain ⟨hlt, hi⟩ := List.getElem?_eq_some_iff.1 hfetch
  refine eq_of_byte_eq fun p => ?_
  have hp := p.isLt
  have haddr : (pc.setWidth 8 + p.setWidth 8 : BitVec 8).toNat = pc.toNat + p.toNat := by
    rw [BitVec.toNat_add, BitVec.toNat_setWidth, BitVec.toNat_setWidth]
    omega
  have hindex : (pc.toNat + p.toNat) / 4 = pc.toNat / 4 := by omega
  have hphase : (pc.setWidth 8 + p.setWidth 8 : BitVec 8).setWidth 2 = p := by
    refine BitVec.eq_of_toNat_eq ?_
    rw [BitVec.toNat_setWidth, haddr]
    omega
  have hword : (image.map encode).getD (pc.toNat / 4) 0#32 = encode i := by
    simp [List.getD, hfetch]
  rw [byte_rd32, imageBytes, hphase, haddr, hindex, hword]

/-- The chip between two instructions, `k` of them executed, with the firmware's memory as it was
at first. -/
structure Between (cl : ClosedLoop) (k : ℕ) (s : St) : Prop where
  boundary : Boundary (cl.plane (4 * k))
  core : CoreRelated (cl.plane (4 * k)).core s
  mem : (cl.server (4 * k)).mem = cl.data
  retired : Refine.retiredBefore (cl.plane 0) cl.pinIn (4 * k) = k

/-- Where the instructions are plain chip and firmware execute those of the ISA. -/
theorem Between.tick {p n k : ℕ} {s : St} (hblock : PlainAt image p n)
    (hload : Loaded (fun a => rd32 cl.prog (a.setWidth 8)) image) (h : Between cl k s)
    (hin : Inside p n s) : Between cl (k + 1) (ISA.tick image s) := by
  obtain ⟨i, hfetch, hplain⟩ := hblock s hin
  have hi := touchesMem_of_plain hplain
  have hword : Plane32Bus.hostWord (cl.rest (4 * k)) 0 = encode i := by
    rw [cl.fetchedWord h.boundary, h.core.pc]
    exact hload _ _ hfetch
  obtain ⟨s', hemit, hphase, hkind, harb, hcore, -⟩ :=
    Refine.fetchLoop_plain h.boundary (by rw [hword, dmemReq_encode hi])
  have hend : cl.plane (4 * (k + 1)) = s' := by
    rw [Nat.mul_add, ← cl.run_rest, ← hemit.run]
    rfl
  rw [hword] at hcore
  have hrel : CoreRelated s'.core (ISA.step s i) := by
    rw [hcore]
    exact h.core.step hi _
  rw [tick_of_fetch hfetch]
  refine ⟨?_, by rw [hend]; exact hrel, ?_, ?_⟩
  · rw [hend]
    refine ⟨hphase, hkind, harb, ?_⟩
    obtain ⟨j, -, hpc⟩ := hin
    have halign := aligned_step hplain (s := s) (by omega)
    rw [hrel.pc]
    refine BitVec.eq_of_toNat_eq ?_
    rw [BitVec.extractLsb'_toNat, Nat.shiftRight_zero]
    exact halign
  · have hmem := cl.mem_of_not_store hemit (by simp) (by
      rw [← cl.run_rest, Plane32Bus.run_inLoop h.boundary.phase _ (by simp)]
      exact fun hk => absurd (h.boundary.kind.symm.trans hk) (by decide))
    rw [Nat.mul_add]
    exact hmem.trans h.mem
  · have hone := Refine.retiredBefore_of_emits hemit le_rfl (by simp)
    rw [Nat.mul_add, Refine.retiredBefore_add, h.retired, ← cl.plane_eq_run]
    congr 1

/-- The registers at reset are those of a state of the ISA. -/
theorem exists_between_zero (cl : ClosedLoop) : ∃ s, Between cl 0 s := by
  obtain ⟨s, hs⟩ := exists_related ⟨(cl.plane 0).core, fun _ => 0#32⟩
  have h0 := ClosedLoop.Computes.init cl
  exact ⟨s, h0.boundary, ⟨hs.pc, hs.regs⟩, h0.mem, h0.retired⟩

theorem pcR_zero (cl : ClosedLoop) : (cl.plane 0).core.pcR = 0#32 :=
  ((Plane32Bus.isReset_iff _).1 cl.isReset).1

/-- **Compiled programs on the chip.** With the program in the firmware's program image, at
address `0`, and its cells in the registers at reset, chip and firmware run the statement, four
cycles an instruction. After `k` instructions in the code `k` instructions have retired, and the
firmware's memory is as it was. -/
theorem chip_runs_compiled (cl : ClosedLoop) (hreg : RegOk reg d)
    (hp : Placed image reg d Γ stm c 0)
    (hload : Loaded (fun a => rd32 cl.prog (a.setWidth 8)) image) (hok : stateOK Γ σ)
    (hcells : ∀ i : Fin poolSize, i.val < Γ.length →
      Core32.readPort (cl.plane 0).core (ofReg (reg i)) = σ i.val) :
    Runs (· + 1) (fun k => (cl.plane (4 * k)).core.pcR)
        (fun k r => Core32.readPort (cl.plane (4 * k)).core (ofReg r)) reg Γ stm σ 0 c.length 0 ∧
      ∀ k, (∀ t < k, InBlock (fun k => (cl.plane (4 * k)).core.pcR) 0 c.length t) →
        Refine.retiredBefore (cl.plane 0) cl.pinIn (4 * k) = k ∧
          (cl.server (4 * k)).mem = cl.data := by
  have hcell (core : Core32.State) (s : St) (r : Fin 32) (h : CoreRelated core s) :
      Core32.readPort core (ofReg r) = s.get r := by
    rw [h.regs, toReg_ofReg]
  obtain ⟨s, hbetween⟩ := exists_between_zero cl
  have hat : At reg Γ σ 0 s := by
    refine ⟨?_, hok, fun i hi => ?_⟩
    · rw [← hbetween.core.pc, pcR_zero]
      rfl
    · rw [← hcell _ s _ hbetween.core, hcells i hi]
  refine ⟨?_, fun k hk => ?_⟩
  · exact runs_of_simulation (R := fun s k => Between cl k s) hreg hp hat
      (fun s k h hin => h.tick hp.plainAt hload hin) (fun s k h => h.core.pc)
      (fun s k r h => hcell _ s r h.core) hbetween
  · have hrun (t : ℕ) (ht : t ≤ k) : Between cl t ((ISA.tick image)^[t] s) := by
      have hiter := iterate_simulate (f := (· + 1)) (g := ISA.tick image)
        (R := fun t s => Between cl t s)
        (P := InBlock (fun k => (cl.plane (4 * k)).core.pcR) 0 c.length) (n := t) (s := 0)
        (fun t s h ⟨j, hj, hpc'⟩ => h.tick hp.plainAt hload ⟨j, hj, by rw [← h.core.pc, hpc']⟩)
        hbetween fun u hu => by simpa using hk u (by omega)
      simpa using hiter
    exact ⟨(hrun k le_rfl).retired, (hrun k le_rfl).mem⟩

/-- Chip and firmware count to `9`. -/
theorem chip_runs_countCode : ∃ k, Core32.readPort ((ClosedLoop.ofImages (imageBytes countCode)
    (fun _ => 0#8) Plane32Bus.zeroReset Plane32Bus.isReset_zeroReset).plane (4 * k)).core 1#5 =
      9#32 := by
  have hruns := chip_runs_compiled (.ofImages (imageBytes countCode) (fun _ => 0#8)
    Plane32Bus.zeroReset Plane32Bus.isReset_zeroReset) (σ := upd (fun _ => 0) 0 0)
    regOk_regCanonical placed_countCode (loaded_imageBytes (by decide)) (stateOK_countCtx _)
    fun i _ => by
      rw [Core32.readPort_eq]
      simp [upd, ClosedLoop.ofImages, ClosedLoop.states, Plane32Bus.zeroReset]
  obtain ⟨k, k', hleads, -, hcells⟩ := hruns.1.ends _ (bigStep_countStmt _)
  exact ⟨k', hcells ⟨0, by decide⟩ (by decide)⟩

end Chip

end Saltworks.Compiler
