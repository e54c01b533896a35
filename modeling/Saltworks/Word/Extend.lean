import Mathlib.Tactic.Common

/-!
# Sign extension and right shifts of bit vectors

A hardware description extends a field by replicating its top bit, and turns an arithmetic right
shift into a logical one when it forgets a sign. The lemmas relate both to the operations on
`BitVec`.

## Main results

* `BitVec.replicate_append_eq_signExtend`, `BitVec.replicate_append_append_eq_signExtend`:
  replicating the top bit is sign extension.
* `BitVec.sshiftRight_eq_ushiftRight_iff`: when the two right shifts agree.
* `BitVec.xor_ushiftRight_xor_eq_sshiftRight`: an arithmetic shift from a logical one.
-/

namespace BitVec

variable {w n : ℕ}

/-- Replicating the top bit of a vector in front of it extends its sign. -/
theorem replicate_append_eq_signExtend (x : BitVec w) (s : BitVec 1)
    (hs : s.getLsbD 0 = x.getLsbD (w - 1)) :
    BitVec.replicate n s ++ x = x.signExtend (1 * n + w) := by
  apply BitVec.eq_of_getLsbD_eq
  intro i hi
  rw [getLsbD_append, getLsbD_signExtend, getLsbD_replicate]
  by_cases h : i < w
  · simp only [h, hi, decide_true, if_true, Bool.true_and]
  · have hmsb : x.msb = s.getLsbD 0 := by rw [hs, BitVec.msb_eq_getLsbD_last]
    have hlt : i - w < 1 * n := by omega
    simp only [h, hi, hmsb, hlt, if_false, decide_true, Bool.true_and, Nat.mod_one]

/-- Replicating the top bit of the first of two fields in front of both extends their sign. -/
theorem replicate_append_append_eq_signExtend {m : ℕ} (x : BitVec m) (y : BitVec w)
    (s : BitVec 1) (hm : 0 < m) (hs : s.getLsbD 0 = x.getLsbD (m - 1)) :
    BitVec.replicate n s ++ (x ++ y) = (x ++ y).signExtend (1 * n + (m + w)) := by
  apply replicate_append_eq_signExtend
  rw [getLsbD_append, if_neg (by omega), hs]
  congr 1
  omega

/-- Replicating a sign bit in front of a field extends the field with that bit as its sign. -/
theorem replicate_append_eq_signExtend_append (x : BitVec w) (s : BitVec 1) :
    BitVec.replicate n s ++ x = (s ++ x).signExtend (1 * n + w) := by
  apply BitVec.eq_of_getLsbD_eq
  intro i hi
  have hmsb : (s ++ x).msb = s.getLsbD 0 := by
    rw [BitVec.msb_append, if_neg (by omega), BitVec.msb_eq_getLsbD_last]
  rw [getLsbD_append, getLsbD_signExtend, getLsbD_replicate, getLsbD_append, hmsb]
  by_cases h : i < w
  · have h1 : i < 1 + w := by omega
    simp only [h, h1, hi, decide_true, if_true, Bool.true_and]
  · have hlt : i - w < 1 * n := by omega
    by_cases h1 : i < 1 + w
    · have hiw : i - w = 0 := by omega
      simp only [h, h1, hi, hiw, if_true, if_false, decide_true, Bool.true_and, Nat.zero_mod,
        Nat.zero_lt_of_lt hlt]
    · simp only [h, h1, hi, hlt, if_false, decide_true, Bool.true_and, Nat.mod_one]

/-- Extending the sign of a displacement whose low bit is structural. -/
theorem signExtend_append_zero (hw : 0 < w) (x : BitVec w) :
    (x ++ 0#1).signExtend n = x.signExtend n <<< 1 := by
  apply BitVec.eq_of_getLsbD_eq
  intro i hi
  have hmsb : (x ++ 0#1).msb = x.msb := by rw [BitVec.msb_append, if_neg (by omega)]
  rw [getLsbD_shiftLeft, getLsbD_signExtend, getLsbD_signExtend, getLsbD_append]
  by_cases h0 : i = 0
  · subst h0
    simp [hi]
  · have h1 : ¬i < 1 := by omega
    have hi' : i - 1 < n := by omega
    by_cases hlt : i < w + 1
    · have hlt' : i - 1 < w := by omega
      simp [hi, h1, hlt, hlt', hi']
    · have hlt' : ¬i - 1 < w := by omega
      simp [hi, h1, hlt, hlt', hi', hmsb]

/-- An arithmetic right shift by less than the width is a logical one exactly when the sign bit
is clear or nothing is shifted. -/
theorem sshiftRight_eq_ushiftRight_iff {x : BitVec w} (hn : n < w) :
    x.sshiftRight n = x >>> n ↔ x.msb = false ∨ n = 0 := by
  constructor
  · intro h
    by_contra hno
    push Not at hno
    obtain ⟨hmsb, hn0⟩ := hno
    have htop := congrArg (fun y => y.getLsbD (w - 1)) h
    have hlt : ¬n + (w - 1) < w := by omega
    simp only [getLsbD_sshiftRight, getLsbD_ushiftRight, hlt, show ¬w ≤ w - 1 by omega,
      getLsbD_of_ge x (n + (w - 1)) (by omega)] at htop
    simp [hmsb] at htop
  · rintro (h | rfl)
    · exact sshiftRight_eq_of_msb_false h
    · simp

/-- A one-bit flag widened by zeros is the number `1` or `0`. -/
theorem zero_append_ofBool (b : Bool) :
    (0#n ++ BitVec.ofBool b : BitVec (n + 1)) = if b then 1#(n + 1) else 0#(n + 1) := by
  apply BitVec.eq_of_toNat_eq
  cases b <;> simp [Nat.mod_eq_of_lt (Nat.one_lt_two_pow (Nat.succ_ne_zero n))]

theorem ushiftRight_last_of_msb_false {x : BitVec w} (h : x.msb = false) :
    x >>> (w - 1) = 0#w := by
  apply BitVec.eq_of_toNat_eq
  rw [toNat_ushiftRight, Nat.shiftRight_eq_div_pow, toNat_ofNat, Nat.zero_mod]
  exact Nat.div_eq_of_lt (toNat_lt_of_msb_false h)

theorem ushiftRight_last_of_msb_true {x : BitVec w} (h : x.msb = true) :
    x >>> (w - 1) = 1#w := by
  have hw : w ≠ 0 := by
    rintro rfl
    rw [msb_zero_length] at h
    cases h
  have hle : 2 ^ (w - 1) ≤ x.toNat := by simpa [msb_eq_decide] using h
  have hlt : x.toNat < 2 ^ (w - 1) * 2 := by
    rw [← Nat.pow_succ, Nat.succ_eq_add_one, Nat.sub_add_cancel (Nat.pos_of_ne_zero hw)]
    exact x.isLt
  apply BitVec.eq_of_toNat_eq
  rw [toNat_ushiftRight, Nat.shiftRight_eq_div_pow, toNat_ofNat,
    Nat.mod_eq_of_lt (Nat.one_lt_two_pow hw)]
  exact Nat.div_eq_of_lt_le (by omega) (by omega)

/-- Complementing a negative vector before and after a logical right shift makes the shift
arithmetic. -/
theorem xor_ushiftRight_xor_eq_sshiftRight (x : BitVec w) (n : ℕ) :
    ((x ^^^ (0#w - x >>> (w - 1))) >>> n) ^^^ (0#w - x >>> (w - 1)) = x.sshiftRight n := by
  cases h : x.msb with
  | false =>
    rw [ushiftRight_last_of_msb_false h, sshiftRight_eq_of_msb_false h]
    simp
  | true =>
    have hones : 0#w - 1#w = allOnes w := by rw [BitVec.zero_sub, neg_one_eq_allOnes]
    rw [ushiftRight_last_of_msb_true h, sshiftRight_eq_of_msb_true h, hones, xor_allOnes,
      xor_allOnes]

end BitVec
