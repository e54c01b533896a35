import Saltworks.Bus.Loop
import Saltworks.HDL.ISA
import Saltworks.RTL.SliceA16Bma
import Saltworks.Word.Extend

/-!
# The byte-serial core against the kernel ISA

`slicea16bma` executes, at the end of each loop of four phases, the word whose bytes it was given
in the four cycles before. On the five instructions of its subset it takes the step of the ISA, and
on every other word it advances `pc_r` by four, with one exception: the guard on register names
also looks at a bit of the immediate of `ADDI` and `BEQ`, and treats such a word as out of range
when that bit is set.

## Main definitions

* `Represents`: the state of the ISA that the core's registers stand for.
* `InSubset`, `CommitSpec`: what the core is for.
* `Misguarded`: an instruction of the subset that the guard refuses, with an effect.

## Main results

* `commitSpec_iff`: one commit.
* `slicea16_iff`: every commit of every run.
-/

namespace Saltworks.Kernel.SliceA16

open RTL RTL.SliceA16Bma ISA

/-! ### Register names -/

theorem getLsbD_four_eq_false_iff {r : BitVec 5} : r.getLsbD 4 = false ↔ r.toNat < 16 := by
  have hlt := r.isLt
  rw [BitVec.getLsbD, Nat.testBit_eq_decide_div_mod_eq, decide_eq_false_iff_not]
  omega

/-- The register with a four-bit name. -/
def lowReg (r : BitVec 4) : Fin 32 := ⟨r.toNat, by omega⟩

theorem lowReg_eq_toReg_iff {r : BitVec 4} {q : BitVec 5} (hq : q.toNat < 16) :
    lowReg r = toReg q ↔ r = q.extractLsb' 0 4 := by
  rw [lowReg, toReg, Fin.mk.injEq, ← BitVec.toNat_inj, BitVec.extractLsb'_toNat,
    Nat.shiftRight_zero, Nat.mod_eq_of_lt hq]

theorem lowReg_eq_zero_iff {r : BitVec 4} : lowReg r = 0 ↔ r = 0#4 :=
  lowReg_eq_toReg_iff (q := 0#5) (by decide)

/-- The core's registers stand for `pc` and `x1, …, x15` of the state of the ISA. -/
structure Represents (s : State) (st : St) : Prop where
  pc : s.pcR = st.pc
  regs : ∀ r : BitVec 4, r ≠ 0#4 → s.rf r = st.get (lowReg r)

variable {s : State} {st : St}

theorem Represents.readPort (h : Represents s st) {r : BitVec 5} (hr : r.toNat < 16) :
    readPort s r = st.get (toReg r) := by
  rw [← (lowReg_eq_toReg_iff hr).2 rfl]
  by_cases h0 : r.extractLsb' 0 4 = 0#4
  · rw [lowReg_eq_zero_iff.2 h0, St.get_zero, SliceA16Bma.readPort, h0]
    rfl
  · rw [← h.regs _ h0, SliceA16Bma.readPort]
    simp [h0]

/-! ### What the core is for -/

/-- The instructions of the subset: five operations, on registers below `x16`. -/
def InSubset : Instr → Prop
  | .ADD rd a b | .XOR rd a b | .SLT rd a b => rd.val < 16 ∧ a.val < 16 ∧ b.val < 16
  | .ADDI rd a _ => rd.val < 16 ∧ a.val < 16
  | .BEQ a b _ => a.val < 16 ∧ b.val < 16
  | .LW _ _ _ | .SW _ _ _ => False

/-- No register changes and `pc_r` advances by four. -/
def Skips (s s' : State) : Prop := s'.pcR = s.pcR + 4#32 ∧ ∀ r, r ≠ 0#4 → s'.rf r = s.rf r

/-- What a commit of the word `w` does, from a state that stands for `st`. -/
def CommitSpec (st : St) (w : Word) (s s' : State) : Prop :=
  (∀ i, decode w = some i → InSubset i → Represents s' (step st i)) ∧
    ((∀ i, decode w = some i → ¬InSubset i) → Skips s s')

/-- An instruction of the subset that the guard refuses although it would change the state: bit 4
of the immediate of `ADDI`, or of the displacement of `BEQ`, is set. -/
def Misguarded (st : St) : Instr → Prop
  | .ADDI rd a imm => InSubset (.ADDI rd a imm) ∧ imm.getLsbD 4 = true ∧ rd ≠ x0 ∧
      st.get a + imm.signExtend 32 ≠ st.get rd
  | .BEQ a b imm => InSubset (.BEQ a b imm) ∧ imm.getLsbD 3 = true ∧ st.get a = st.get b
  | _ => False

theorem commitSpec_iff_of_decode {w : Word} {i : Instr} (hd : decode w = some i)
    {s s' : State} :
    CommitSpec st w s s' ↔
      (InSubset i → Represents s' (step st i)) ∧ (¬InSubset i → Skips s s') := by
  simp [CommitSpec, hd]

/-! ### The guard -/

section Guard

variable {w : Word}

theorem inRange_eq_true_iff :
    inRange w = true ↔ (rs1 w).toNat < 16 ∧ (rs2 w).toNat < 16 ∧ (rd w).toNat < 16 := by
  simp only [inRange, Bool.and_eq_true, beq_iff_eq, getLsbD_four_eq_false_iff, and_assoc]

/-- The guard on an `ADDI` reads bit 4 of the immediate. -/
theorem getLsbD_rs2 (w : Word) : (rs2 w).getLsbD 4 = (ISA.immI w).getLsbD 4 := by
  simp [rs2, ISA.immI]

/-- The guard on a `BEQ` reads bit 4 of the displacement. -/
theorem getLsbD_rd (w : Word) : (rd w).getLsbD 4 = (ISA.immB w).getLsbD 3 := by
  rw [ISA.immB, BitVec.getLsbD_append, BitVec.getLsbD_append, BitVec.getLsbD_append]
  simp [rd]

theorem slice_immI (w : Word) : SliceA16Bma.immI w = (ISA.immI w).signExtend 32 :=
  BitVec.replicate_append_eq_signExtend _ _ (by simp)

theorem slice_immB (w : Word) : SliceA16Bma.immB w = bOffset (ISA.immB w) := by
  rw [bOffset, ← BitVec.signExtend_append_zero (by decide), ISA.immB, BitVec.append_assoc,
    BitVec.append_assoc, BitVec.append_assoc]
  exact BitVec.replicate_append_eq_signExtend_append _ _

theorem four_ne_bOffset {imm : BitVec 12} (h : imm.getLsbD 3 = true) : 4#32 ≠ bOffset imm := by
  intro heq
  have hbit := congrArg (fun x => x.getLsbD 4) heq
  simp [bOffset, BitVec.getElem_signExtend] at hbit
  simp [hbit] at h

/-- The word is none of the five instructions as the core decodes them. -/
structure Idle (w : Word) : Prop where
  add : isAdd w = false
  xor : isXor w = false
  slt : isSlt w = false
  addi : isAddi w = false
  beq : isBeq w = false

/-- A word that the guard refuses. -/
theorem idle_of_not_inRange (h : inRange w = false) : Idle w := by
  constructor <;> simp [isAdd, isXor, isSlt, isRtype, isAddi, isBeq, h]

/-- A word that does not decode. -/
theorem idle_of_decode_eq_none (h : decode w = none) : Idle w := by
  have hno (i : Instr) : ¬Encodes w i := fun hi => by
    rw [decode_eq_some_iff.2 hi] at h
    cases h
  constructor <;> by_contra hflag <;>
    simp only [isAdd, isXor, isSlt, isRtype, isAddi, isBeq, Bool.not_eq_false, Bool.and_eq_true,
      beq_iff_eq] at hflag
  · exact hno _ (.add hflag.1.1.1 hflag.1.1.2 hflag.2)
  · exact hno _ (.xor hflag.1.1.1 hflag.1.1.2 hflag.2)
  · exact hno _ (.slt hflag.1.1.1 hflag.1.1.2 hflag.2)
  · exact hno _ (.addi hflag.1.1 hflag.1.2)
  · exact hno _ (.beq hflag.1.1 hflag.1.2)

/-- A load or a store. -/
theorem idle_of_opcode (h : w.extractLsb' 0 7 = 0b0000011#7 ∨ w.extractLsb' 0 7 = 0b0100011#7) :
    Idle w := by
  obtain h | h := h <;> constructor <;>
    simp [isAdd, isXor, isSlt, isRtype, isAddi, isBeq, opcode, h]

end Guard

/-! ### One commit -/

section Commit

variable (hp : s.phase = 3#2) (b : BitVec 8)
include hp

theorem skips_of_idle (h : Idle s.ir) : Skips s (posedge true s b) := by
  refine ⟨?_, fun r _ => ?_⟩
  · simp [posedge, instrCommit, hp, pcAddend, brTaken, h.beq]
  · simp [posedge, rfWe, h.add, h.xor, h.slt, h.addi]

/-- A commit that writes a register takes the step that writes it. -/
theorem represents_write (h : Represents s st)
    (hflag : (isAdd s.ir || isXor s.ir || isSlt s.ir || isAddi s.ir) = true)
    (hbeq : isBeq s.ir = false) (hrd : (rd s.ir).toNat < 16) :
    Represents (posedge true s b) (st.set (toReg (rd s.ir)) (aluY s)).next := by
  refine ⟨?_, fun r hr => ?_⟩
  · simp [posedge, instrCommit, hp, pcAddend, brTaken, hbeq, h.pc]
  · have hrf : (posedge true s b).rf r =
        if r = (rd s.ir).extractLsb' 0 4 then aluY s else s.rf r := by
      by_cases h0 : (rd s.ir).extractLsb' 0 4 = 0#4
      · simp [posedge, rfWe, h0, hr]
      · simp [posedge, rfWe, instrCommit, hp, hflag, h0]
    rw [hrf, h.regs r hr, St.get_next, St.get_set, if_neg (lowReg_eq_zero_iff.not.2 hr)]
    simp only [lowReg_eq_toReg_iff hrd]

omit hp in
/-- A commit that skips agrees with a step that writes `v` only if the register holds it. -/
theorem represents_of_skips_iff {s' : State} (h : Represents s st) (hs : Skips s s') {q : BitVec 5}
    (hq : q.toNat < 16) (v : Word) :
    Represents s' (st.set (toReg q) v).next ↔ toReg q = 0 ∨ v = st.get (toReg q) := by
  rw [← (lowReg_eq_toReg_iff hq).2 rfl]
  constructor
  · intro h'
    by_cases h0 : q.extractLsb' 0 4 = 0#4
    · exact .inl (lowReg_eq_zero_iff.2 h0)
    · have hr := h'.regs _ h0
      rw [hs.2 _ h0, h.regs _ h0, St.get_next, St.get_set, if_neg (lowReg_eq_zero_iff.not.2 h0),
        if_pos rfl] at hr
      exact .inr hr.symm
  · intro hv
    refine ⟨by rw [hs.1, h.pc]; simp, fun r hr => ?_⟩
    rw [hs.2 r hr, h.regs r hr, St.get_next, St.get_set, if_neg (lowReg_eq_zero_iff.not.2 hr)]
    split_ifs with hrq
    · obtain h0 | rfl := hv
      · exact absurd (hrq.trans h0) (lowReg_eq_zero_iff.not.2 hr)
      · rw [hrq]
    · rfl

/-- A commit of an instruction whose operands are exactly what the guard looks at. -/
theorem commit_of_inRange_iff {i : Instr} (hsub : InSubset i ↔ inRange s.ir = true)
    (hstep : inRange s.ir = true → Represents (posedge true s b) (step st i)) :
    (InSubset i → Represents (posedge true s b) (step st i)) ∧
      (¬InSubset i → Skips s (posedge true s b)) := by
  refine ⟨fun hi => hstep (hsub.1 hi), fun hi => skips_of_idle hp b (idle_of_not_inRange ?_)⟩
  rw [hsub] at hi
  simpa using hi

/-- A commit of a register operation. -/
theorem commit_rtype (h : Represents s st) (ho : s.ir.extractLsb' 0 7 = 0b0110011#7)
    {i : Instr} {v : Word}
    (hsub : InSubset i ↔ (rd s.ir).toNat < 16 ∧ (rs1 s.ir).toNat < 16 ∧ (rs2 s.ir).toNat < 16)
    (hflag : inRange s.ir = true →
      (isAdd s.ir || isXor s.ir || isSlt s.ir || isAddi s.ir) = true)
    (halu : inRange s.ir = true → rs1V s = st.get (toReg (rs1 s.ir)) →
      rs2V s = st.get (toReg (rs2 s.ir)) → aluY s = v)
    (hi : step st i = (st.set (toReg (rd s.ir)) v).next) :
    (InSubset i → Represents (posedge true s b) (step st i)) ∧
      (¬InSubset i → Skips s (posedge true s b)) := by
  refine commit_of_inRange_iff hp b (by rw [hsub, inRange_eq_true_iff]; tauto) fun hr => ?_
  obtain ⟨h1, h2, hrd⟩ := inRange_eq_true_iff.1 hr
  rw [hi, ← halu hr (h.readPort h1) (h.readPort h2)]
  exact represents_write hp b h (hflag hr) (by simp [isBeq, opcode, ho]) hrd

/-- A commit of an `ADDI`. -/
theorem commit_addi (h : Represents s st) (ho : s.ir.extractLsb' 0 7 = 0b0010011#7)
    (h3 : s.ir.extractLsb' 12 3 = 0#3) {i : Instr}
    (hi : i = .ADDI (toReg (rd s.ir)) (toReg (rs1 s.ir)) (ISA.immI s.ir)) :
    (InSubset i → Represents (posedge true s b) (step st i)) ∧
      (¬InSubset i → Skips s (posedge true s b)) ↔ ¬Misguarded st i := by
  subst hi
  by_cases hr : inRange s.ir = true
  · obtain ⟨h1, h2, hrd⟩ := inRange_eq_true_iff.1 hr
    have hbit : (ISA.immI s.ir).getLsbD 4 = false := by
      rw [← getLsbD_rs2, getLsbD_four_eq_false_iff]
      exact h2
    have hflag : isAddi s.ir = true := by simp [isAddi, opcode, funct3, ho, h3, hr]
    have halu : aluY s = st.get (toReg (rs1 s.ir)) + (ISA.immI s.ir).signExtend 32 := by
      rw [aluY, opndB, hflag, if_pos rfl, slice_immI, rs1V, h.readPort h1]
      simp [isXor, isSlt, isRtype, opcode, ho]
    refine iff_of_true ⟨fun _ => ?_, fun hn => absurd ⟨hrd, h1⟩ hn⟩
      fun hm => Bool.false_ne_true (hbit.symm.trans hm.2.1)
    rw [step, ← halu]
    exact represents_write hp b h (by simp [hflag]) (by simp [isBeq, opcode, ho]) hrd
  · have hskip := skips_of_idle hp b (idle_of_not_inRange (Bool.eq_false_iff.2 hr))
    constructor
    · rintro ⟨hrep, -⟩ ⟨hsub, -, hrd, hne⟩
      exact ((represents_of_skips_iff h hskip hsub.1 _).1 (hrep hsub)).elim hrd hne
    · intro hm
      refine ⟨fun hsub => (represents_of_skips_iff h hskip hsub.1 _).2 ?_, fun _ => hskip⟩
      have hbit : (ISA.immI s.ir).getLsbD 4 = true := by
        rw [← getLsbD_rs2]
        by_contra hno
        exact hr (inRange_eq_true_iff.2 ⟨hsub.2,
          getLsbD_four_eq_false_iff.1 (Bool.eq_false_iff.2 hno), hsub.1⟩)
      by_contra hno
      push Not at hno
      exact hm ⟨hsub, hbit, hno.1, hno.2⟩

/-- A commit of a `BEQ`. -/
theorem commit_beq (h : Represents s st) (ho : s.ir.extractLsb' 0 7 = 0b1100011#7)
    (h3 : s.ir.extractLsb' 12 3 = 0#3) {i : Instr}
    (hi : i = .BEQ (toReg (rs1 s.ir)) (toReg (rs2 s.ir)) (ISA.immB s.ir)) :
    (InSubset i → Represents (posedge true s b) (step st i)) ∧
      (¬InSubset i → Skips s (posedge true s b)) ↔ ¬Misguarded st i := by
  subst hi
  by_cases hr : inRange s.ir = true
  · obtain ⟨h1, h2, hrd⟩ := inRange_eq_true_iff.1 hr
    have hbit : (ISA.immB s.ir).getLsbD 3 = false := by
      rw [← getLsbD_rd, getLsbD_four_eq_false_iff]
      exact hrd
    have hflag : isBeq s.ir = true := by simp [isBeq, opcode, funct3, ho, h3, hr]
    refine iff_of_true ⟨fun _ => ?_, fun hn => absurd ⟨h1, h2⟩ hn⟩
      fun hm => Bool.false_ne_true (hbit.symm.trans hm.2.1)
    have hrf : (posedge true s b).rf = s.rf := by
      simp [posedge, rfWe, isAdd, isXor, isSlt, isRtype, isAddi, opcode, ho]
    have hpc : (posedge true s b).pcR = s.pcR + if st.get (toReg (rs1 s.ir)) =
        st.get (toReg (rs2 s.ir)) then bOffset (ISA.immB s.ir) else 4#32 := by
      simp [posedge, instrCommit, hp, pcAddend, brTaken, hflag, slice_immB, rs1V, rs2V,
        h.readPort h1, h.readPort h2]
    rw [step]
    split_ifs with heq
    · exact ⟨by rw [hpc, if_pos heq, h.pc], fun r hr0 => by rw [hrf]; exact h.regs r hr0⟩
    · exact ⟨by rw [hpc, if_neg heq, h.pc]; rfl, fun r hr0 => by rw [hrf]; exact h.regs r hr0⟩
  · have hskip := skips_of_idle hp b (idle_of_not_inRange (Bool.eq_false_iff.2 hr))
    constructor
    · rintro ⟨hrep, -⟩ ⟨hsub, hbit, heq⟩
      have hpc := (hrep hsub).pc
      rw [step, if_pos heq, hskip.1, h.pc] at hpc
      exact four_ne_bOffset hbit ((BitVec.add_right_inj _).1 hpc)
    · intro hm
      refine ⟨fun hsub => ?_, fun _ => hskip⟩
      have hbit : (ISA.immB s.ir).getLsbD 3 = true := by
        rw [← getLsbD_rd]
        by_contra hno
        exact hr (inRange_eq_true_iff.2 ⟨hsub.1, hsub.2,
          getLsbD_four_eq_false_iff.1 (Bool.eq_false_iff.2 hno)⟩)
      have hne : st.get (toReg (rs1 s.ir)) ≠ st.get (toReg (rs2 s.ir)) := fun heq =>
        hm ⟨hsub, hbit, heq⟩
      rw [step, if_neg hne]
      exact ⟨by rw [hskip.1, h.pc]; rfl, fun r hr0 => by rw [hskip.2 r hr0]; exact h.regs r hr0⟩

/-- **One commit.** A commit does what the core is for unless the guard refuses an instruction of
the subset that would change the state. -/
theorem commitSpec_iff (h : Represents s st) :
    CommitSpec st s.ir s (posedge true s b) ↔ ∀ i, decode s.ir = some i → ¬Misguarded st i := by
  cases hd : decode s.ir with
  | none =>
    refine iff_of_true ⟨by simp [hd], fun _ => ?_⟩ (by simp)
    exact skips_of_idle hp b (idle_of_decode_eq_none hd)
  | some i =>
    rw [commitSpec_iff_of_decode hd]
    simp only [Option.some.injEq, forall_eq']
    cases decode_eq_some_iff.1 hd with
    | add ho h7 h3 =>
      refine iff_of_true (commit_rtype hp b h ho Iff.rfl (fun hr => ?_) (fun hr e1 e2 => ?_) rfl)
        not_false
      · simp [isAdd, isRtype, opcode, funct7, funct3, ho, h7, h3, hr]
      · simp [aluY, opndB, isXor, isSlt, isAddi, opcode, funct3, ho, h3, e1, e2, rs1, rs2]
    | xor ho h7 h3 =>
      refine iff_of_true (commit_rtype hp b h ho Iff.rfl (fun hr => ?_) (fun hr e1 e2 => ?_) rfl)
        not_false
      · simp [isXor, isRtype, opcode, funct7, funct3, ho, h7, h3, hr]
      · simp [aluY, opndB, isXor, isRtype, isAddi, opcode, funct7, funct3, ho, h7, h3, hr, e1, e2,
          rs1, rs2]
    | slt ho h7 h3 =>
      refine iff_of_true (commit_rtype hp b h ho Iff.rfl (fun hr => ?_) (fun hr e1 e2 => ?_) rfl)
        not_false
      · simp [isSlt, isRtype, opcode, funct7, funct3, ho, h7, h3, hr]
      · rw [aluY, opndB, e1, e2, BitVec.zero_append_ofBool]
        simp [isXor, isSlt, isRtype, isAddi, opcode, funct7, funct3, ho, h7, h3, hr, rs1, rs2]
    | addi ho h3 => exact commit_addi hp b h ho h3 rfl
    | beq ho h3 => exact commit_beq hp b h ho h3 rfl
    | lw ho h3 =>
      exact iff_of_true
        ⟨False.elim, fun _ => skips_of_idle hp b (idle_of_opcode (.inl ho))⟩ not_false
    | sw ho h3 =>
      exact iff_of_true
        ⟨False.elim, fun _ => skips_of_idle hp b (idle_of_opcode (.inr ho))⟩ not_false

end Commit

/-! ### Runs -/

/-- A state left behind by a reset edge. -/
def IsReset (s : State) : Prop := ∃ s₀ b, s = posedge false s₀ b

theorem isReset_resetState : IsReset resetState := ⟨resetState, 0#8, rfl⟩

variable {s₀ : State}

theorem run_succ (s : State) (bs : ℕ → BitVec 8) (t : ℕ) :
    machine.run s bs (t + 1) = posedge true (machine.run s bs t) (bs t) := rfl

/-- The phase counts the cycles since reset. -/
theorem phase_run (hs : IsReset s₀) (bs : ℕ → BitVec 8) (t : ℕ) :
    (machine.run s₀ bs t).phase = BitVec.ofNat 2 t := by
  induction t with
  | zero =>
    obtain ⟨s, b, rfl⟩ := hs
    rfl
  | succ t ih =>
    have hstep : (machine.run s₀ bs (t + 1)).phase = (machine.run s₀ bs t).phase + 1#2 := rfl
    rw [hstep, ih]
    apply BitVec.eq_of_toNat_eq
    simp

/-- Outside of phase 3 an edge keeps `pc_r` and the registers. -/
theorem run_succ_of_phase_ne (bs : ℕ → BitVec 8) {t : ℕ}
    (hp : (machine.run s₀ bs t).phase ≠ 3#2) :
    (machine.run s₀ bs (t + 1)).pcR = (machine.run s₀ bs t).pcR ∧
      (machine.run s₀ bs (t + 1)).rf = (machine.run s₀ bs t).rf := by
  rw [run_succ]
  simp [posedge, instrCommit, hp]

theorem ir_run_succ (bs : ℕ → BitVec 8) (t : ℕ) :
    (machine.run s₀ bs (t + 1)).ir = bs t ++ (machine.run s₀ bs t).ir.extractLsb' 8 24 := rfl

/-- `ir` holds the four latest bytes, the latest on top. -/
theorem ir_run (bs : ℕ → BitVec 8) (t : ℕ) :
    (machine.run s₀ bs (t + 4)).ir = Plane32Bus.hostWord bs t := by
  rw [ir_run_succ, ir_run_succ, ir_run_succ, ir_run_succ, Plane32Bus.hostWord]
  apply BitVec.eq_of_getLsbD_eq
  intro i hi
  simp only [BitVec.getLsbD_append, BitVec.getLsbD_extractLsb']
  split_ifs <;> grind

/-- At the first commit the low byte of `ir` is still that of the reset. -/
theorem opcode_run_three (hs : IsReset s₀) (bs : ℕ → BitVec 8) :
    opcode (machine.run s₀ bs 3).ir = 0#7 := by
  have h0 : (machine.run s₀ bs 0).ir = 0#32 := by
    obtain ⟨s, b, rfl⟩ := hs
    rfl
  rw [opcode, ir_run_succ, ir_run_succ, ir_run_succ, h0]
  apply BitVec.eq_of_getLsbD_eq
  intro i hi
  simp only [BitVec.getLsbD_append, BitVec.getLsbD_extractLsb']
  split_ifs <;> grind

/-- The four phases of a loop spell the `pc_r` of its first phase, low byte first. -/
theorem addrByte_run (hs : IsReset s₀) (bs : ℕ → BitVec 8) (c : ℕ) {j : ℕ} (hj : j < 4) :
    (machine.run s₀ bs (4 * c + j)).phase = BitVec.ofNat 2 j ∧
      addrByte (machine.run s₀ bs (4 * c + j)) =
        (machine.run s₀ bs (4 * c)).pcR.extractLsb' (8 * j) 8 := by
  have hphase (j : ℕ) : (machine.run s₀ bs (4 * c + j)).phase = BitVec.ofNat 2 j := by
    rw [phase_run hs]
    apply BitVec.eq_of_toNat_eq
    simp
  have hpc : (machine.run s₀ bs (4 * c + j)).pcR = (machine.run s₀ bs (4 * c)).pcR := by
    induction j with
    | zero => rfl
    | succ j ih =>
      rw [← ih (by omega), ← Nat.add_assoc]
      refine (run_succ_of_phase_ne bs ?_).1
      rw [hphase]
      obtain rfl | rfl | rfl : j = 0 ∨ j = 1 ∨ j = 2 := by omega
      all_goals decide
  refine ⟨hphase j, ?_⟩
  rw [addrByte, hphase, hpc]
  obtain rfl | rfl | rfl | rfl : j = 0 ∨ j = 1 ∨ j = 2 ∨ j = 3 := by omega
  all_goals rfl

/-- The first commit after reset advances `pc_r` and writes no register. -/
theorem first_commit (hs : IsReset s₀) (bs : ℕ → BitVec 8) :
    (machine.run s₀ bs 3).pcR = 0#32 ∧ (machine.run s₀ bs 4).pcR = 4#32 ∧
      ∀ r, r ≠ 0#4 → (machine.run s₀ bs 4).rf r = (machine.run s₀ bs 3).rf r := by
  have hpc (t : ℕ) (ht : t ≤ 3) : (machine.run s₀ bs t).pcR = 0#32 := by
    induction t with
    | zero =>
      obtain ⟨s, b, rfl⟩ := hs
      rfl
    | succ t ih =>
      rw [← ih (by omega)]
      refine (run_succ_of_phase_ne bs ?_).1
      rw [phase_run hs]
      obtain rfl | rfl | rfl : t = 0 ∨ t = 1 ∨ t = 2 := by omega
      all_goals decide
  have hidle : Idle (machine.run s₀ bs 3).ir := by
    constructor <;> simp [isAdd, isXor, isSlt, isRtype, isAddi, isBeq, opcode_run_three hs bs]
  have hskip := skips_of_idle (phase_run hs bs 3) (bs 3) hidle
  refine ⟨hpc 3 (Nat.le_refl 3), ?_, hskip.2⟩
  rw [run_succ, hskip.1, hpc 3 (Nat.le_refl 3)]
  rfl

/-- **The byte-serial core and the kernel ISA.** After any reset, for every byte stream: each loop
spells `pc_r`; the first commit advances `pc_r` to four and writes no register; and each later
commit, of the word `w` that the four bytes before it make, does what the core is for from the
state it stands for, unless `w` is an `ADDI` or a `BEQ` of the subset that the guard refuses for a
bit of its immediate and that would change the state. -/
theorem slicea16_iff (hs : IsReset s₀) (bs : ℕ → BitVec 8) :
    (∀ c j, j < 4 → (machine.run s₀ bs (4 * c + j)).phase = BitVec.ofNat 2 j ∧
        addrByte (machine.run s₀ bs (4 * c + j)) =
          (machine.run s₀ bs (4 * c)).pcR.extractLsb' (8 * j) 8) ∧
      ((machine.run s₀ bs 3).pcR = 0#32 ∧ (machine.run s₀ bs 4).pcR = 4#32 ∧
        ∀ r, r ≠ 0#4 → (machine.run s₀ bs 4).rf r = (machine.run s₀ bs 3).rf r) ∧
      ∀ t, (machine.run s₀ bs (t + 4)).phase = 3#2 → ∀ st,
        Represents (machine.run s₀ bs (t + 4)) st →
        (CommitSpec st (Plane32Bus.hostWord bs t) (machine.run s₀ bs (t + 4))
            (machine.run s₀ bs (t + 5)) ↔
          ∀ i, decode (Plane32Bus.hostWord bs t) = some i → ¬Misguarded st i) := by
  refine ⟨fun c j hj => addrByte_run hs bs c hj, first_commit hs bs, fun t hp st h => ?_⟩
  rw [← ir_run bs t]
  exact commitSpec_iff hp (bs (t + 4)) h

/-- A host that gives `addi x1, x0, 16` to the second commit. -/
def addiHost (t : ℕ) : BitVec 8 := [0#8, 0#8, 0#8, 0x93#8, 0x00#8, 0x00#8, 0x01#8].getD t 0#8

/-- The state that the core stands for at its second commit. -/
def secondCommit : St := ⟨.replicate 32 0#32, 4#32, .replicate 8 0#32, false⟩

theorem represents_secondCommit : Represents (machine.run resetState addiHost 7) secondCommit := by
  refine ⟨by decide, fun r _ => ?_⟩
  revert r
  decide

/-- The core does not execute `addi x1, x0, 16`. -/
theorem not_commitSpec :
    ¬ ∀ (s₀ : State) (bs : ℕ → BitVec 8) (t : ℕ) (st : St), IsReset s₀ →
      (machine.run s₀ bs (t + 4)).phase = 3#2 → Represents (machine.run s₀ bs (t + 4)) st →
      CommitSpec st (Plane32Bus.hostWord bs t) (machine.run s₀ bs (t + 4))
        (machine.run s₀ bs (t + 5)) := by
  intro hall
  have hspec := hall resetState addiHost 3 secondCommit isReset_resetState (by decide)
    represents_secondCommit
  have hbad := (hspec.1 (.ADDI 1 0 16#12) (by decide) ⟨by decide, by decide⟩).regs 1#4
    (by decide)
  revert hbad
  decide

/-- The equivalence at that commit. -/
theorem slicea16_iff_addiHost :
    CommitSpec secondCommit (Plane32Bus.hostWord addiHost 3) (machine.run resetState addiHost 7)
        (machine.run resetState addiHost 8) ↔
      ∀ i, decode (Plane32Bus.hostWord addiHost 3) = some i → ¬Misguarded secondCommit i :=
  (slicea16_iff isReset_resetState addiHost).2.2 3 (by decide) secondCommit
    represents_secondCommit

end Saltworks.Kernel.SliceA16
