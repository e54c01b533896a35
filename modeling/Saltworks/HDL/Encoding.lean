import Saltworks.HDL.ISA
import Saltworks.Machine.Segments

/-!
# Programs of the kernel ISA, as instructions and as words

The encoder of `HDL/ISA.lean`, and the two ways to run a program: `runFor` on a list of
instructions and `runForW`, of `HDL/Executive.lean`, on the list of their words. Both stop when
`pc` leaves the program or is not a multiple of four; a word that is fetched and does not decode is
skipped. `runFor` is the iteration of one step, `tick`, which stands still where the program stops.

## Main definitions

* `encode`: the words.
* `fetch`, `runFor`; `stepT`, `fetchW`, `runForW`.
* `CodeAt`: a block lies at a position of a program.

## Main results

* `decode_encode`: the encoder and the decoder.
* `runForW_map`: a program runs on its words as it does on its instructions.
-/

namespace Saltworks.ISA

open Synchronous

/-! ### The encoder -/

/-- A register as a field. -/
def ofReg (r : Fin 32) : BitVec 5 := BitVec.ofNat 5 r.val

@[simp] theorem toReg_ofReg (r : Fin 32) : toReg (ofReg r) = r := by
  have hval : (BitVec.ofNat 5 r.val).toNat = r.val := Nat.mod_eq_of_lt r.isLt
  exact Fin.ext hval

/-- An R-type word. -/
def wR (f3 : BitVec 3) (rd a b : Fin 32) : BitVec 32 :=
  0#7 ++ (ofReg b ++ (ofReg a ++ (f3 ++ (ofReg rd ++ 0b0110011#7))))

/-- An I-type word. -/
def wI (op : BitVec 7) (f3 : BitVec 3) (imm : BitVec 12) (rd a : Fin 32) : BitVec 32 :=
  imm ++ (ofReg a ++ (f3 ++ (ofReg rd ++ op)))

/-- An S-type word, from the two pieces of its immediate. -/
def wS (i115 : BitVec 7) (i40 : BitVec 5) (a b : Fin 32) : BitVec 32 :=
  i115 ++ (ofReg b ++ (ofReg a ++ (0b010#3 ++ (i40 ++ 0b0100011#7))))

/-- A B-type word, from the four pieces of its immediate. -/
def wB (i11 : BitVec 1) (i94 : BitVec 6) (i30 : BitVec 4) (i10 : BitVec 1) (a b : Fin 32) :
    BitVec 32 :=
  i11 ++ (i94 ++ (ofReg b ++ (ofReg a ++ (0#3 ++ (i30 ++ (i10 ++ 0b1100011#7))))))

/-- Encode. -/
def encode : Instr → BitVec 32
  | .ADD rd a b => wR 0#3 rd a b
  | .XOR rd a b => wR 4#3 rd a b
  | .SLT rd a b => wR 2#3 rd a b
  | .ADDI rd a imm => wI 0b0010011#7 0#3 imm rd a
  | .BEQ a b imm =>
    wB (imm.extractLsb' 11 1) (imm.extractLsb' 4 6) (imm.extractLsb' 0 4) (imm.extractLsb' 10 1) a b
  | .LW rd a imm => wI 0b0000011#7 0b010#3 imm rd a
  | .SW a b imm => wS (imm.extractLsb' 5 7) (imm.extractLsb' 0 5) a b

section Fields

variable (f3 : BitVec 3) (op i115 : BitVec 7) (imm : BitVec 12) (rd a b : Fin 32) (i40 : BitVec 5)
  (i11 i10 : BitVec 1) (i94 : BitVec 6) (i30 : BitVec 4)

theorem wR_fields : (wR f3 rd a b).extractLsb' 0 7 = 0b0110011#7 ∧
    (wR f3 rd a b).extractLsb' 7 5 = ofReg rd ∧ (wR f3 rd a b).extractLsb' 12 3 = f3 ∧
    (wR f3 rd a b).extractLsb' 15 5 = ofReg a ∧ (wR f3 rd a b).extractLsb' 20 5 = ofReg b ∧
    (wR f3 rd a b).extractLsb' 25 7 = 0#7 := by
  unfold wR
  refine ⟨?_, ?_, ?_, ?_, ?_, ?_⟩
  all_goals
    repeat rw [BitVec.extractLsb'_append_eq_of_add_le (by omega)]
    first | rw [BitVec.extractLsb'_append_eq_left] | rw [BitVec.extractLsb'_eq_self]

theorem wI_fields : (wI op f3 imm rd a).extractLsb' 0 7 = op ∧
    (wI op f3 imm rd a).extractLsb' 7 5 = ofReg rd ∧ (wI op f3 imm rd a).extractLsb' 12 3 = f3 ∧
    (wI op f3 imm rd a).extractLsb' 15 5 = ofReg a ∧
    (wI op f3 imm rd a).extractLsb' 20 12 = imm := by
  unfold wI
  refine ⟨?_, ?_, ?_, ?_, ?_⟩
  all_goals
    repeat rw [BitVec.extractLsb'_append_eq_of_add_le (by omega)]
    first | rw [BitVec.extractLsb'_append_eq_left] | rw [BitVec.extractLsb'_eq_self]

theorem wS_fields : (wS i115 i40 a b).extractLsb' 0 7 = 0b0100011#7 ∧
    (wS i115 i40 a b).extractLsb' 7 5 = i40 ∧ (wS i115 i40 a b).extractLsb' 12 3 = 0b010#3 ∧
    (wS i115 i40 a b).extractLsb' 15 5 = ofReg a ∧ (wS i115 i40 a b).extractLsb' 20 5 = ofReg b ∧
    (wS i115 i40 a b).extractLsb' 25 7 = i115 := by
  unfold wS
  refine ⟨?_, ?_, ?_, ?_, ?_, ?_⟩
  all_goals
    repeat rw [BitVec.extractLsb'_append_eq_of_add_le (by omega)]
    first | rw [BitVec.extractLsb'_append_eq_left] | rw [BitVec.extractLsb'_eq_self]

theorem wB_fields : (wB i11 i94 i30 i10 a b).extractLsb' 0 7 = 0b1100011#7 ∧
    (wB i11 i94 i30 i10 a b).extractLsb' 7 1 = i10 ∧
    (wB i11 i94 i30 i10 a b).extractLsb' 8 4 = i30 ∧
    (wB i11 i94 i30 i10 a b).extractLsb' 12 3 = 0#3 ∧
    (wB i11 i94 i30 i10 a b).extractLsb' 15 5 = ofReg a ∧
    (wB i11 i94 i30 i10 a b).extractLsb' 20 5 = ofReg b ∧
    (wB i11 i94 i30 i10 a b).extractLsb' 25 6 = i94 ∧
    (wB i11 i94 i30 i10 a b).extractLsb' 31 1 = i11 := by
  unfold wB
  refine ⟨?_, ?_, ?_, ?_, ?_, ?_, ?_, ?_⟩
  all_goals
    repeat rw [BitVec.extractLsb'_append_eq_of_add_le (by omega)]
    first | rw [BitVec.extractLsb'_append_eq_left] | rw [BitVec.extractLsb'_eq_self]

/-- The immediate of a store, put together again. -/
theorem immS_wS : immS (wS (imm.extractLsb' 5 7) (imm.extractLsb' 0 5) a b) = imm := by
  obtain ⟨-, hlo, -, -, -, hhi⟩ := wS_fields (imm.extractLsb' 5 7) a b (imm.extractLsb' 0 5)
  rw [immS, hlo, hhi, BitVec.extractLsb'_append_extractLsb'_eq_extractLsb' (by omega)]
  simp

/-- The immediate of a branch, put together again. -/
theorem immB_wB : immB (wB (imm.extractLsb' 11 1) (imm.extractLsb' 4 6) (imm.extractLsb' 0 4)
    (imm.extractLsb' 10 1) a b) = imm := by
  obtain ⟨-, h10, h30, -, -, -, h94, h11⟩ := wB_fields a b (imm.extractLsb' 11 1)
    (imm.extractLsb' 10 1) (imm.extractLsb' 4 6) (imm.extractLsb' 0 4)
  rw [immB, h10, h30, h94, h11, BitVec.extractLsb'_append_extractLsb'_eq_extractLsb' (by omega),
    BitVec.extractLsb'_append_extractLsb'_eq_extractLsb' (by omega),
    BitVec.extractLsb'_append_extractLsb'_eq_extractLsb' (by omega)]
  simp

end Fields

/-- Decoding inverts encoding. -/
@[simp] theorem decode_encode (i : Instr) : decode (encode i) = some i := by
  cases i with
  | ADD rd a b =>
    obtain ⟨ho, hrd, h3, ha, hb, h7⟩ := wR_fields 0#3 rd a b
    simp [decode, encode, ho, hrd, h3, ha, hb, h7]
  | XOR rd a b =>
    obtain ⟨ho, hrd, h3, ha, hb, h7⟩ := wR_fields 4#3 rd a b
    simp [decode, encode, ho, hrd, h3, ha, hb, h7]
  | SLT rd a b =>
    obtain ⟨ho, hrd, h3, ha, hb, h7⟩ := wR_fields 2#3 rd a b
    simp [decode, encode, ho, hrd, h3, ha, hb, h7]
  | ADDI rd a imm =>
    obtain ⟨ho, hrd, h3, ha, himm⟩ := wI_fields 0#3 0b0010011#7 imm rd a
    simp [decode, encode, immI, ho, hrd, h3, ha, himm]
  | BEQ a b imm =>
    obtain ⟨ho, -, -, h3, ha, hb, -, -⟩ := wB_fields a b (imm.extractLsb' 11 1)
      (imm.extractLsb' 10 1) (imm.extractLsb' 4 6) (imm.extractLsb' 0 4)
    simp [decode, encode, ho, h3, ha, hb, immB_wB]
  | LW rd a imm =>
    obtain ⟨ho, hrd, h3, ha, himm⟩ := wI_fields 0b010#3 0b0000011#7 imm rd a
    simp [decode, encode, immI, ho, hrd, h3, ha, himm]
  | SW a b imm =>
    obtain ⟨ho, -, h3, ha, hb, -⟩ := wS_fields (imm.extractLsb' 5 7) a b (imm.extractLsb' 0 5)
    simp [decode, encode, ho, h3, ha, hb, immS_wS]

/-! ### Programs of instructions -/

/-- The instruction at a byte address that is a multiple of four. -/
def fetch (code : List Instr) (pc : BitVec 32) : Option Instr :=
  if pc.toNat % 4 = 0 then code[pc.toNat / 4]? else none

/-- At most `n` instructions. -/
def runFor : ℕ → List Instr → St → St
  | 0, _, s => s
  | n + 1, code, s =>
    match fetch code s.pc with
    | none => s
    | some i => runFor n code (step s i)

/-- One instruction of a program; a stopped program stands still. -/
def tick (code : List Instr) (s : St) : St := (fetch code s.pc).elim s (step s)

theorem tick_of_fetch {code : List Instr} {s : St} {i : Instr} (h : fetch code s.pc = some i) :
    tick code s = step s i := by
  rw [tick, h]
  rfl

theorem runFor_eq_iterate (n : ℕ) (code : List Instr) (s : St) :
    runFor n code s = (tick code)^[n] s := by
  induction n generalizing s with
  | zero => rfl
  | succ n ih =>
    rw [runFor, Function.iterate_succ_apply]
    cases h : fetch code s.pc with
    | none =>
      have hstop : tick code s = s := by rw [tick, h]; rfl
      rw [hstop, Function.iterate_fixed hstop]
    | some i => rw [tick_of_fetch h, ← ih]

/-! ### Programs of words -/

/-- One word, a word that does not decode being skipped. -/
def stepT (s : St) (w : BitVec 32) : St := ((decode w).map (step s)).getD s.next

@[simp] theorem stepT_encode (s : St) (i : Instr) : stepT s (encode i) = step s i := by
  rw [stepT, decode_encode]
  rfl

/-- The word at a byte address that is a multiple of four. -/
def fetchW (img : List (BitVec 32)) (pc : BitVec 32) : Option (BitVec 32) :=
  if pc.toNat % 4 = 0 then img[pc.toNat / 4]? else none

/-- At most `n` words. -/
def runForW : ℕ → List (BitVec 32) → St → St
  | 0, _, s => s
  | n + 1, img, s =>
    match fetchW img s.pc with
    | none => s
    | some w => runForW n img (stepT s w)

theorem fetchW_map (code : List Instr) (pc : BitVec 32) :
    fetchW (code.map encode) pc = (fetch code pc).map encode := by
  rw [fetchW, fetch]
  split_ifs <;> simp

/-- A program runs on its words as it does on its instructions. -/
theorem runForW_map (n : ℕ) (code : List Instr) (s : St) :
    runForW n (code.map encode) s = runFor n code s := by
  induction n generalizing s with
  | zero => rfl
  | succ n ih =>
    rw [runForW, runFor, fetchW_map]
    cases fetch code s.pc with
    | none => rfl
    | some i => simpa using ih (step s i)

/-! ### Blocks -/

/-- The block `blk` lies at the position `p` of the program. -/
def CodeAt (image : List Instr) (p : ℕ) (blk : List Instr) : Prop :=
  ∀ i < blk.length, image[p + i]? = blk[i]?

section Blocks

variable {image blk a b : List Instr} {p : ℕ}

theorem CodeAt.self (image : List Instr) : CodeAt image 0 image := fun i _ => by rw [Nat.zero_add]

theorem CodeAt.left (h : CodeAt image p (a ++ b)) : CodeAt image p a := by
  intro i hi
  rw [h i (by simp; omega), List.getElem?_append_left hi]

theorem CodeAt.right (h : CodeAt image p (a ++ b)) : CodeAt image (p + a.length) b := by
  intro i hi
  rw [Nat.add_assoc, h _ (by simp; omega), List.getElem?_append_right (by omega),
    Nat.add_sub_cancel_left]

/-- `pc` is the address of one of the `n` instructions from the position `p` on. -/
def Inside (p n : ℕ) (s : St) : Prop := ∃ i < n, s.pc.toNat = 4 * (p + i)

theorem Inside.mono {q m n : ℕ} {s : St} (h : Inside p m s) (hp : q ≤ p)
    (hn : p + m ≤ q + n) : Inside q n s := by
  obtain ⟨i, hi, hpc⟩ := h
  exact ⟨p - q + i, by omega, by omega⟩

theorem fetch_of_codeAt (h : CodeAt image p blk) {s : St} {i : ℕ}
    (hpc : s.pc.toNat = 4 * (p + i)) (hi : i < blk.length) :
    fetch image s.pc = blk[i]? := by
  rw [fetch, if_pos (by omega), ← h i hi]
  congr 1
  omega

end Blocks

end Saltworks.ISA
