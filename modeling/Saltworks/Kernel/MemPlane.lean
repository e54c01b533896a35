import Saltworks.HDL.ISA
import Saltworks.RTL.Core32Edge
import Saltworks.RTL.MemPlane8
import Saltworks.Word.Extend

/-!
# The memory plane against the kernel ISA

`memplane8` and the ISA run side by side on the encodings of the same instructions. The address
mask raises its trap exactly on the trapping arms and suppresses the write of the memory, but
nothing suppresses the register write of a load that traps: the core writes the word at the
truncated index into `rd`. `related_iff` says that this is the only difference.

## Main definitions

* `Related`: the two states agree on `pc`, the registers and the memory.
* `ClobbersOnTrap`: a trapping load that changes its register.

## Main results

* `related_step_iff`, `dmemTrap_eq`: one step.
* `related_iff`: a run stays related exactly as long as no trapping load changes its register.
-/

namespace Saltworks.Kernel

open RTL ISA

/-! ### The address mask -/

theorem misaligned_eq (a : Word) : DmemAddr8.misaligned a = decide (a.toNat % 4 ≠ 0) := by
  rw [DmemAddr8.misaligned, BitVec.getLsbD, BitVec.getLsbD, Nat.testBit_eq_decide_div_mod_eq,
    Nat.testBit_eq_decide_div_mod_eq, ← Bool.decide_or]
  refine decide_eq_decide.2 ?_
  omega

theorem outOfRange_eq (a : Word) : DmemAddr8.outOfRange a = decide (32 ≤ a.toNat) := by
  have hlt := a.isLt
  have hzero : a.extractLsb' 5 27 = 0#27 ↔ a.toNat < 32 := by
    rw [← BitVec.toNat_inj, BitVec.extractLsb'_toNat, Nat.shiftRight_eq_div_pow, BitVec.toNat_ofNat]
    omega
  rw [DmemAddr8.outOfRange, Bool.eq_iff_iff, bne_iff_ne, ne_eq, hzero, decide_eq_true_eq]
  omega

/-- The two trap bits together are the classes other than `ok`. -/
theorem badAddress_eq (a : Word) :
    (DmemAddr8.misaligned a || DmemAddr8.outOfRange a) = (addrClass a != .ok) := by
  rw [misaligned_eq, outOfRange_eq, Bool.eq_iff_iff, Bool.or_eq_true, decide_eq_true_eq,
    decide_eq_true_eq, bne_iff_ne, Ne, Ne, addrClass_eq_ok_iff]
  omega

theorem trap_eq (a : Word) (req : Bool) :
    DmemAddr8.trap a req = (req && addrClass a != .ok) := by
  rw [DmemAddr8.trap, badAddress_eq]

/-- The write strobe is the store's, suppressed outside of the class `ok`. -/
theorem weOut_eq (a : Word) (req weIn : Bool) :
    DmemAddr8.weOut a req weIn = (weIn && req && addrClass a == .ok) := by
  have h := badAddress_eq a
  rw [DmemAddr8.weOut, Bool.and_assoc, ← Bool.not_or, h]
  cases addrClass a <;> rfl

/-- The word index of an address in range. -/
theorem toNat_wordIndex {a : Word} (h : addrClass a = .ok) :
    (DmemAddr8.wordIndex a).toNat = a.toNat / 4 := by
  have hlt := addrClass_ok_lt h
  rw [DmemAddr8.wordIndex, BitVec.extractLsb'_toNat, Nat.shiftRight_eq_div_pow]
  omega

/-! ### Related states -/

/-- The states of the plane and of the ISA agree on `pc`, on every register as it is read and on
the eight words of memory. -/
structure Related (p : MemPlane8.State) (s : St) : Prop where
  pc : p.core.pcR = s.pc
  regs : ∀ r : BitVec 5, Core32.readPort p.core r = s.get (toReg r)
  mem : ∀ k : BitVec 3, p.mem k = s.mem[k.toNat]

theorem readPort_writeRd (pc : Word) (s : Core32.State) (rd r : BitVec 5) (v : Word) :
    Core32.readPort ⟨pc, Core32.writeRd s.regs rd v⟩ r =
      if r = 0#5 then 0#32 else if r = rd then v else Core32.readPort s r := by
  by_cases hr : r = 0#5
  · simp [Core32.readPort, hr]
  · by_cases hrd : rd = 0#5
    · simp [Core32.readPort, Core32.writeRd, hr, hrd]
    · simp [Core32.readPort, Core32.writeRd, Core32.writeReg, hr, hrd]

variable {p : MemPlane8.State} {s : St}

/-- Both sides write `v` to the same register and fall through. -/
theorem Related.write (h : Related p s) (rd : BitVec 5) (v : Word) :
    Related ⟨⟨p.core.pcR + 4#32, Core32.writeRd p.core.regs rd v⟩, p.mem⟩
      (s.set (toReg rd) v).next := by
  refine ⟨by simp [h.pc], fun r => ?_, fun k => by simp [h.mem]⟩
  rw [readPort_writeRd, h.regs, St.get_next, St.get_set]
  simp

/-- Neither side changes a register or a memory word. -/
theorem Related.fallThrough (h : Related p s) (s' : St) (hpc : s'.pc = s.pc)
    (hregs : s'.regs = s.regs) (hmem : s'.mem = s.mem) :
    Related ⟨⟨p.core.pcR + 4#32, p.core.regs⟩, p.mem⟩ s'.next := by
  refine ⟨by simp [h.pc, hpc], fun r => ?_, fun k => by simp [h.mem, hmem]⟩
  rw [St.get_next, St.get, hregs]
  exact h.regs r

/-- Only the plane writes a register: the states stay related if the write changes nothing. -/
theorem related_write_iff (h : Related p s) (s' : St) (hpc : s'.pc = s.pc)
    (hregs : s'.regs = s.regs) (hmem : s'.mem = s.mem) {rd : BitVec 5} {v : Word} :
    Related ⟨⟨p.core.pcR + 4#32, Core32.writeRd p.core.regs rd v⟩, p.mem⟩ s'.next ↔
      rd = 0#5 ∨ v = s.get (toReg rd) := by
  have hget (r : Fin 32) : s'.next.get r = s.get r := by rw [St.get_next, St.get, hregs, ← St.get]
  constructor
  · intro hrel
    by_cases hrd : rd = 0#5
    · exact .inl hrd
    · have hr := hrel.regs rd
      rw [readPort_writeRd, hget, if_neg hrd, if_pos rfl] at hr
      exact .inr hr
  · intro hv
    refine ⟨by simp [h.pc, hpc], fun r => ?_, fun k => by simp [h.mem, hmem]⟩
    rw [readPort_writeRd, hget, h.regs]
    by_cases hr : r = 0#5
    · simp [hr, toReg]
    · by_cases hrd : r = rd
      · subst hrd
        rw [if_neg hr, if_pos rfl]
        exact hv.resolve_left hr
      · rw [if_neg hr, if_neg hrd]

/-! ### Immediates -/

theorem core_immI (w : Word) : Core32.immI w = (immI w).signExtend 32 :=
  BitVec.replicate_append_eq_signExtend _ _ (by simp)

theorem core_immS (w : Word) : Core32.immS w = (immS w).signExtend 32 :=
  BitVec.replicate_append_append_eq_signExtend _ _ _ (by decide) (by simp)

theorem core_immB (w : Word) : Core32.immB w = bOffset (immB w) := by
  rw [bOffset, ← BitVec.signExtend_append_zero (by decide), immB, BitVec.append_assoc,
    BitVec.append_assoc, BitVec.append_assoc]
  exact BitVec.replicate_append_append_eq_signExtend _ _ _ (by decide) (by simp)

/-! ### One step -/

/-- The word that the plane reads for a byte address, in range or not. -/
def readWord (s : St) (a : Word) : Word :=
  s.mem.get ⟨(DmemAddr8.wordIndex a).toNat, (DmemAddr8.wordIndex a).isLt⟩

/-- A load traps, and the word at its truncated index is not what its register holds. -/
def ClobbersOnTrap (s : St) : Instr → Prop
  | .LW rd a imm => rd ≠ x0 ∧ addrClass (s.get a + imm.signExtend 32) ≠ .ok ∧
      readWord s (s.get a + imm.signExtend 32) ≠ s.get rd
  | _ => False

instance (s : St) (i : Instr) : Decidable (ClobbersOnTrap s i) := by
  cases i <;> simp only [ClobbersOnTrap] <;> infer_instance

variable {w : Word} {i : Instr}

theorem posedge_eq_of_not_we (hwe : Core32.dmemWe w = false) :
    MemPlane8.posedge true p w =
      ⟨Core32.posedge true true w (MemPlane8.rdata p w) p.core, p.mem⟩ := by
  simp [MemPlane8.posedge, MemPlane8.weOut, DmemAddr8.weOut, Dmem8.posedge, hwe]

/-- A register operation of the ISA. -/
theorem related_regop (h : Related p s) (ho : w.extractLsb' 0 7 = 0b0110011#7)
    (h7 : w.extractLsb' 25 7 = 0#7) {v : Word}
    (hv : Core32.alu (0#1 ++ w.extractLsb' 12 3) (s.get (toReg (w.extractLsb' 15 5)))
      (s.get (toReg (w.extractLsb' 20 5))) = v) :
    Related (MemPlane8.posedge true p w) (s.set (toReg (w.extractLsb' 7 5)) v).next := by
  have hf7 : Core32.f7 w = false := by rw [Core32.f7_eq_getLsbD, h7]; rfl
  have hs : Core32.opcode w ≠ 0b0100011#7 := by rw [Core32.opcode, ho]; decide
  rw [posedge_eq_of_not_we (Core32.dmemWe_eq_false hs), Core32.posedge_regop p.core _ ho, h.regs,
    h.regs, hf7, ← hv]
  exact h.write _ _

/-- A load on related states: the register gets the word at the truncated index. -/
theorem posedge_lw (h : Related p s) (ho : w.extractLsb' 0 7 = 0b0000011#7)
    (h3 : w.extractLsb' 12 3 = 2#3) :
    MemPlane8.posedge true p w =
      ⟨⟨p.core.pcR + 4#32, Core32.writeRd p.core.regs (w.extractLsb' 7 5)
        (readWord s (s.get (toReg (w.extractLsb' 15 5)) + (immI w).signExtend 32))⟩, p.mem⟩ := by
  have hs : Core32.opcode w ≠ 0b0100011#7 := by rw [Core32.opcode, ho]; decide
  have haddr : MemPlane8.dmemAddr p w =
      s.get (toReg (w.extractLsb' 15 5)) + (immI w).signExtend 32 := by
    rw [MemPlane8.dmemAddr, Core32.dmemAddr_load ho, h.regs, core_immI]
    rfl
  rw [posedge_eq_of_not_we (Core32.dmemWe_eq_false hs), Core32.posedge_load p.core _ ho h3,
    MemPlane8.rdata, Dmem8.rdata, MemPlane8.wordIndex, haddr, h.mem]
  rfl

theorem readWord_of_ok {a : Word} (h : addrClass a = .ok) :
    readWord s a = s.mem.get ⟨a.toNat / 4, addrClass_ok_lt h⟩ := by
  simp only [readWord, toNat_wordIndex h]

/-- A branch of the ISA is taken on equal operands. -/
theorem brTaken_beq (h : Related p s) (ho : w.extractLsb' 0 7 = 0b1100011#7)
    (h3 : w.extractLsb' 12 3 = 0#3) :
    Core32.brTaken p.core w =
      decide (s.get (toReg (w.extractLsb' 15 5)) = s.get (toReg (w.extractLsb' 20 5))) := by
  simp only [Core32.brTaken, Core32.isBr, Core32.opcode, Core32.funct3, Core32.rf1, Core32.rf2, ho,
    h3, h.regs]
  rfl

/-- A store on related states: the word at the index is written if the address is in the class
`ok`. -/
theorem posedge_sw (h : Related p s) (ho : w.extractLsb' 0 7 = 0b0100011#7)
    (h3 : w.extractLsb' 12 3 = 2#3) :
    MemPlane8.posedge true p w =
      ⟨⟨p.core.pcR + 4#32, p.core.regs⟩,
        if addrClass (s.get (toReg (w.extractLsb' 15 5)) + (immS w).signExtend 32) = .ok then
          fun k => if k = DmemAddr8.wordIndex (s.get (toReg (w.extractLsb' 15 5)) +
            (immS w).signExtend 32) then s.get (toReg (w.extractLsb' 20 5)) else p.mem k
        else p.mem⟩ := by
  obtain ⟨hreq, hwe⟩ := Core32.dmemReq_of_store ho h3
  have haddr : MemPlane8.dmemAddr p w =
      s.get (toReg (w.extractLsb' 15 5)) + (immS w).signExtend 32 := by
    rw [MemPlane8.dmemAddr, Core32.dmemAddr_store ho, h.regs, core_immS]
    rfl
  rw [MemPlane8.posedge, Core32.posedge_store p.core _ ho, MemPlane8.weOut, MemPlane8.wordIndex,
    haddr, weOut_eq, hreq, hwe]
  cases addrClass (s.get (toReg (w.extractLsb' 15 5)) + (immS w).signExtend 32) <;>
    simp [Dmem8.posedge, Core32.dmemWdata, Core32.rf2, Core32.rs2, h.regs]

/-- **One step.** Related states stay related unless a trapping load changes its register. -/
theorem related_step_iff (h : Related p s) (hd : decode w = some i) :
    Related (MemPlane8.posedge true p w) (step s i) ↔ ¬ClobbersOnTrap s i := by
  cases decode_eq_some_iff.1 hd with
  | add ho h7 h3 => exact iff_of_true (related_regop h ho h7 (by rw [h3]; rfl)) not_false
  | xor ho h7 h3 => exact iff_of_true (related_regop h ho h7 (by rw [h3]; rfl)) not_false
  | slt ho h7 h3 =>
    exact iff_of_true
      (related_regop h ho h7 (by rw [h3]; exact BitVec.zero_append_ofBool _)) not_false
  | addi ho h3 =>
    have hs : Core32.opcode w ≠ 0b0100011#7 := by rw [Core32.opcode, ho]; decide
    refine iff_of_true ?_ not_false
    rw [posedge_eq_of_not_we (Core32.dmemWe_eq_false hs), Core32.posedge_immop p.core _ ho, h.regs,
      core_immI, Core32.funct3, h3]
    exact h.write _ _
  | beq ho h3 =>
    have hs : Core32.opcode w ≠ 0b0100011#7 := by rw [Core32.opcode, ho]; decide
    refine iff_of_true ?_ not_false
    rw [posedge_eq_of_not_we (Core32.dmemWe_eq_false hs), Core32.posedge_branch p.core _ ho,
      core_immB, brTaken_beq h ho h3]
    by_cases heq : s.get (toReg (w.extractLsb' 15 5)) = s.get (toReg (w.extractLsb' 20 5))
    · simp only [step, heq, decide_true, if_true]
      exact ⟨by simp only [h.pc], h.regs, h.mem⟩
    · simp only [step, heq, decide_false, if_false]
      exact h.fallThrough s rfl rfl rfl
  | lw ho h3 =>
    rw [posedge_lw h ho h3]
    simp only [step, ClobbersOnTrap, ne_eq, toReg_eq_zero]
    split_ifs with hok
    · refine iff_of_true ?_ fun hc => hc.2.1 hok
      rw [readWord_of_ok hok]
      exact h.write _ _
    · rw [related_write_iff h { s with trapped := true } rfl rfl rfl]
      tauto
  | sw ho h3 =>
    refine iff_of_true ?_ not_false
    rw [posedge_sw h ho h3]
    simp only [step]
    split_ifs with hok
    · refine ⟨by simp [h.pc], fun r => ?_, fun k => ?_⟩
      · exact h.regs r
      · have hk : k = DmemAddr8.wordIndex (s.get (toReg (w.extractLsb' 15 5)) +
            (immS w).signExtend 32) ↔ (s.get (toReg (w.extractLsb' 15 5)) +
            (immS w).signExtend 32).toNat / 4 = k.toNat := by
          rw [← toNat_wordIndex hok, eq_comm, BitVec.toNat_inj]
        simp only [hk, h.mem, St.next, Vector.getElem_set]
    · exact h.fallThrough { s with trapped := true } rfl rfl rfl

/-- The mask raises its trap exactly when the ISA takes a trapping arm. -/
theorem dmemTrap_eq (h : Related p s) (hd : decode w = some i) :
    MemPlane8.dmemTrap p w = traps s i := by
  rw [MemPlane8.dmemTrap, trap_eq]
  cases decode_eq_some_iff.1 hd with
  | add ho | xor ho | slt ho | addi ho | beq ho =>
    have hreq : Core32.dmemReq w = false :=
      Core32.dmemReq_eq_false (by rw [Core32.opcode, ho]; decide)
        (by rw [Core32.opcode, ho]; decide)
    rw [hreq]
    rfl
  | lw ho h3 =>
    rw [(Core32.dmemReq_of_load ho h3).1, MemPlane8.dmemAddr, Core32.dmemAddr_load ho, h.regs,
      core_immI]
    rfl
  | sw ho h3 =>
    rw [(Core32.dmemReq_of_store ho h3).1, MemPlane8.dmemAddr, Core32.dmemAddr_store ho, h.regs,
      core_immS]
    rfl

/-! ### Runs -/

section Runs

variable (ws : ℕ → Word) (is : ℕ → Instr)

/-- The run stays related as long as no trapping load changes its register. -/
theorem related_run (h : Related p s) (hd : ∀ t, decode (ws t) = some (is t)) {n : ℕ}
    (hn : ∀ t < n, ¬ClobbersOnTrap (machine.run s is t) (is t)) :
    ∀ t ≤ n, Related (MemPlane8.machine.run p ws t) (machine.run s is t) :=
  MemPlane8.machine.run_simulation machine h n fun t ht hrel =>
    (related_step_iff hrel (hd t)).2 (hn t ht)

/-- **The memory plane and the kernel ISA.** From related states, on the encodings of any
instructions and for any length: the states stay related, the trap is high in exactly the cycles
of the trapping arms and the sticky flag is the disjunction of the traps, if and only if no
instruction of the run is a trapping load that changes its register. -/
theorem related_iff (h : Related p s) (hd : ∀ t, decode (ws t) = some (is t)) (n : ℕ) :
    ((∀ t ≤ n, Related (MemPlane8.machine.run p ws t) (machine.run s is t)) ∧
        (∀ t < n, MemPlane8.dmemTrap (MemPlane8.machine.run p ws t) (ws t) =
          traps (machine.run s is t) (is t)) ∧
        (machine.run s is n).trapped = (s.trapped || (List.range n).any fun t =>
          MemPlane8.dmemTrap (MemPlane8.machine.run p ws t) (ws t))) ↔
      ∀ t < n, ¬ClobbersOnTrap (machine.run s is t) (is t) := by
  constructor
  · rintro ⟨hrel, -, -⟩ t ht
    exact (related_step_iff (hrel t (by omega)) (hd t)).1 (hrel (t + 1) ht)
  · intro hn
    have hrel := related_run ws is h hd hn
    have htrap : ∀ t < n, MemPlane8.dmemTrap (MemPlane8.machine.run p ws t) (ws t) =
        traps (machine.run s is t) (is t) := fun t ht =>
      dmemTrap_eq (hrel t (by omega)) (hd t)
    refine ⟨hrel, htrap, ?_⟩
    rw [run_trapped]
    congr 1
    rw [Bool.eq_iff_iff, List.any_eq_true, List.any_eq_true]
    exact exists_congr fun t => and_congr_right fun ht => by rw [htrap t (List.mem_range.1 ht)]

end Runs

/-- A plane with zero registers whose memory holds `7` in word `1`. -/
def planeState : MemPlane8.State :=
  ⟨⟨0#32, fun _ => 0#32⟩, fun k => if k = 1#3 then 7#32 else 0#32⟩

/-- The state of the ISA that it stands for. -/
def isaState : St :=
  ⟨.replicate 32 0#32, 0#32, #v[0#32, 7#32, 0#32, 0#32, 0#32, 0#32, 0#32, 0#32], false⟩

theorem related_planeState : Related planeState isaState := by
  refine ⟨rfl, fun r => ?_, fun k => ?_⟩
  · simp [planeState, isaState, Core32.readPort, St.get]
  · revert k
    decide

/-- `lw x2, 5(x0)`: a misaligned address whose truncated index is `1`. -/
def misalignedLoad : Word := 0x00502103#32

/-- The misaligned load writes `7` to `x2` in the plane, and nothing in the ISA. -/
theorem not_related_run :
    ¬ ∀ (p : MemPlane8.State) (s : St) (ws : ℕ → Word) (is : ℕ → Instr) (n : ℕ), Related p s →
      (∀ t, decode (ws t) = some (is t)) →
      Related (MemPlane8.machine.run p ws n) (machine.run s is n) := by
  intro hall
  have hbad := (hall planeState isaState (fun _ => misalignedLoad) (fun _ => .LW 2 0 5#12) 1
    related_planeState fun _ => by decide).regs 2#5
  revert hbad
  decide

/-- The equivalence over one misaligned load. -/
theorem related_iff_misalignedLoad :
    ((∀ t ≤ 1, Related (MemPlane8.machine.run planeState (fun _ => misalignedLoad) t)
          (machine.run isaState (fun _ => .LW 2 0 5#12) t)) ∧
        (∀ t < 1, MemPlane8.dmemTrap
            (MemPlane8.machine.run planeState (fun _ => misalignedLoad) t) misalignedLoad =
          traps (machine.run isaState (fun _ => .LW 2 0 5#12) t) (.LW 2 0 5#12)) ∧
        (machine.run isaState (fun _ => .LW 2 0 5#12) 1).trapped =
          (isaState.trapped || (List.range 1).any fun t => MemPlane8.dmemTrap
            (MemPlane8.machine.run planeState (fun _ => misalignedLoad) t) misalignedLoad)) ↔
      ∀ t < 1, ¬ClobbersOnTrap (machine.run isaState (fun _ => .LW 2 0 5#12) t) (.LW 2 0 5#12) :=
  related_iff (fun _ => misalignedLoad) (fun _ => .LW 2 0 5#12) related_planeState
    (fun _ => by decide) 1

end Saltworks.Kernel
