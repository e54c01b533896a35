import Mathlib.Data.BitVec

/-!
# Serial arithmetic on bit vectors

A register that takes one bit in each cycle at its low end, a ripple adder that negates one of
its operands, and the product of a word with a stream of bits, least significant bit first and the
last bit negative.

## Main definitions

* `BitVec.ofBits`, `BitVec.shiftIn`, `BitVec.byteOf`, `BitVec.serialMul`.

## Main results

* `BitVec.getLsbD_shiftIn`: the bits taken in stand in the register in reverse order.
* `BitVec.shiftIn_eq_signExtend_iff`: when a byte and copies of its last bit are taken in as the
  signed byte.
* `BitVec.eq_add_of_ripple`: what a ripple adder computes.
* `BitVec.serialMul_sub`: a serial product.
-/

namespace BitVec

variable {n : ℕ}

/-- The word with given bits, least significant bit first. -/
def ofBits (f : Fin n → Bool) : BitVec n := BitVec.ofNat n (Nat.ofBits f)

theorem getLsbD_ofBits (f : Fin n → Bool) {i : ℕ} (hi : i < n) :
    (ofBits f).getLsbD i = f ⟨i, hi⟩ := by
  rw [ofBits, getLsbD_ofNat, Nat.testBit_ofBits_lt f i hi]
  simp [hi]

/-! ### Shifting in -/

/-- A register after it has taken in the first `m` bits of a stream at its low end. -/
def shiftIn (w : BitVec n) (x : ℕ → Bool) : ℕ → BitVec n
  | 0 => w
  | m + 1 => (shiftIn w x m).shiftConcat (x m)

/-- The last bit taken in is the lowest one. -/
theorem getLsbD_shiftIn (w : BitVec n) (x : ℕ → Bool) (m : ℕ) {i : ℕ} (hi : i < n) :
    (shiftIn w x m).getLsbD i = if i < m then x (m - 1 - i) else w.getLsbD (i - m) := by
  induction m generalizing i with
  | zero => simp [shiftIn]
  | succ m ih =>
    rw [shiftIn, getLsbD_shiftConcat]
    rcases i with _ | i
    · simp [hi]
    · rw [if_neg (Nat.succ_ne_zero i), Nat.add_sub_cancel, ih (by omega)]
      simp only [hi, decide_true, Bool.true_and, Nat.add_lt_add_iff_right, Nat.add_sub_add_right]
      congr 2
      omega

/-- Taking in low bits is a left shift. -/
theorem shiftIn_false (w : BitVec n) (m : ℕ) : shiftIn w (fun _ => false) m = w <<< m := by
  refine eq_of_getLsbD_eq fun i hi => ?_
  rw [getLsbD_shiftIn _ _ _ hi, getLsbD_shiftLeft]
  by_cases h : i < m
  · simp [h]
  · simp [h, hi]

theorem shiftConcat_shiftLeft (w : BitVec n) (m : ℕ) :
    (w <<< m).shiftConcat false = w <<< (m + 1) := by
  rw [← shiftIn_false, ← shiftIn_false, shiftIn]

/-! ### Ripple adders -/

section Ripple

variable {x y : BitVec n} {c : Bool} {carries : ℕ → Bool}

/-- The carries of a ripple adder are those of the sum. -/
theorem carry_eq_of_ripple (h0 : carries 0 = c)
    (hs : ∀ k < n, carries (k + 1) = (x.getLsbD k && y.getLsbD k ||
      (x.getLsbD k ^^ y.getLsbD k) && carries k)) {k : ℕ} (hk : k ≤ n) :
    carries k = carry k x y c := by
  induction k with
  | zero => rw [h0, carry_zero]
  | succ k ih =>
    rw [hs k hk, ih (Nat.le_of_succ_le hk), carry_succ]
    cases x.getLsbD k <;> cases y.getLsbD k <;> simp [Bool.atLeastTwo]

theorem eq_add_of_ripple (h0 : carries 0 = c)
    (hs : ∀ k < n, carries (k + 1) = (x.getLsbD k && y.getLsbD k ||
      (x.getLsbD k ^^ y.getLsbD k) && carries k)) {z : BitVec n}
    (hz : ∀ k < n, z.getLsbD k = ((x.getLsbD k ^^ y.getLsbD k) ^^ carries k)) :
    z = x + y + (ofBool c).setWidth n := by
  refine eq_of_getLsbD_eq fun k hk => ?_
  rw [hz k hk, getLsbD_add_add_bool hk, carry_eq_of_ripple h0 hs hk.le, Bool.xor_assoc]

end Ripple

/-- Adding the complement of a word and a carry subtracts the word. -/
theorem add_not_add_one (x y : BitVec n) :
    x + ~~~y + (ofBool true).setWidth n = x - y := by
  have hone : (ofBool true).setWidth n = 1#n := by
    refine eq_of_toNat_eq ?_
    simp
  rw [hone, add_assoc, ← neg_eq_not_add, ← sub_eq_add_neg]

/-! ### Serial products -/

/-- The first eight bits of a stream, least significant bit first. -/
def byteOf (x : ℕ → Bool) : BitVec 8 := ofBits fun j => x j

theorem getLsbD_byteOf (x : ℕ → Bool) {j : ℕ} (hj : j < 8) : (byteOf x).getLsbD j = x j := by
  rw [byteOf, getLsbD_ofBits _ hj]

theorem byteOf_congr {x y : ℕ → Bool} (h : ∀ j < 8, x j = y j) : byteOf x = byteOf y :=
  congrArg ofBits (funext fun j => h j j.isLt)

/-- A register that has taken in a byte and 24 copies of its last bit, spelled from the byte. -/
theorem shiftIn_byteOf (w : BitVec 32) {x : ℕ → Bool} (hx : ∀ j, 8 ≤ j → j < 32 → x j = x 7) :
    shiftIn w x 32 = ofBits fun i : Fin 32 => (byteOf x).getLsbD (min (31 - i) 7) := by
  refine eq_of_getLsbD_eq fun i hi => ?_
  rw [getLsbD_shiftIn _ _ _ hi, if_pos hi, getLsbD_ofBits _ hi,
    getLsbD_byteOf _ (show min (31 - i) 7 < 8 by omega)]
  by_cases h : 31 - i < 8
  · rw [Nat.min_eq_left (by omega)]
  · rw [Nat.min_eq_right (by omega), hx _ (by omega) (by omega)]

/-- It holds the signed byte only if all bits of the byte are equal: its first bit has gone to the
top. -/
theorem shiftIn_eq_signExtend_iff (w : BitVec 32) {x : ℕ → Bool}
    (hx : ∀ j, 8 ≤ j → j < 32 → x j = x 7) :
    shiftIn w x 32 = (byteOf x).signExtend 32 ↔ byteOf x = 0#8 ∨ byteOf x = 255#8 := by
  rw [shiftIn_byteOf w hx]
  generalize byteOf x = b
  revert b
  decide +kernel

/-- The product of a word with the first `m` bits of a stream, as a sum of shifted words. -/
def serialMul (w : BitVec n) (x : ℕ → Bool) : ℕ → BitVec n
  | 0 => 0#n
  | m + 1 => serialMul w x m + if x m then w <<< m else 0#n

theorem serialMul_congr (w : BitVec n) {x y : ℕ → Bool} {m : ℕ} (h : ∀ j < m, x j = y j) :
    serialMul w x m = serialMul w y m := by
  induction m with
  | zero => rfl
  | succ m ih => rw [serialMul, serialMul, ih fun j hj => h j (by omega), h m (Nat.lt_succ_self m)]

theorem shiftLeft_eq_mul (w : BitVec n) (m : ℕ) : w <<< m = w * (1#n <<< m) := by
  rw [shiftLeft_eq_mul_twoPow w, shiftLeft_eq_mul_twoPow 1#n, BitVec.one_mul]

theorem serialMul_eq_mul (w : BitVec n) (x : ℕ → Bool) (m : ℕ) :
    serialMul w x m = w * serialMul 1#n x m := by
  induction m with
  | zero => simp [serialMul]
  | succ m ih =>
    rw [serialMul, serialMul, ih, shiftLeft_eq_mul w m, BitVec.mul_add]
    split_ifs
    · rfl
    · rw [BitVec.mul_zero]

theorem serialMul_one_sub (b : BitVec 8) :
    serialMul 1#32 (fun j => b.getLsbD j) 7 - (if b.getLsbD 7 then 1#32 <<< 7 else 0#32) =
      b.signExtend 32 := by
  revert b
  decide +kernel

/-- **A serial product**: seven bits added and the last one subtracted multiply a word by the
signed byte that the bits spell. -/
theorem serialMul_sub (w : BitVec 32) (x : ℕ → Bool) :
    serialMul w x 7 - (if x 7 then w <<< 7 else 0#32) = w * (byteOf x).signExtend 32 := by
  have hx (j : ℕ) (hj : j < 8) : x j = (byteOf x).getLsbD j := (getLsbD_byteOf x hj).symm
  have hlast : (if x 7 then w <<< 7 else 0#32) = w * if x 7 then 1#32 <<< 7 else 0#32 := by
    split_ifs
    · exact shiftLeft_eq_mul w 7
    · rw [BitVec.mul_zero]
  rw [hlast, serialMul_eq_mul, ← mul_sub, ← serialMul_one_sub, hx 7 (by decide),
    serialMul_congr 1#32 fun j (hj : j < 7) => hx j (by omega)]

end BitVec
