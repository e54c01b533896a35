import Mathlib.Data.Nat.Notation

/-!
# Decimal digits and numbers

Python counts the decimal digits of every script as digits, in the class `\d` of a regular
expression and in the argument of `int`.

## Main definitions

* `isDecimal`, `decimalValue`: the decimal digits.
* `intOf`: the number that a text denotes.
-/

namespace Saltworks

/-- The digit zero of each run of ten decimal digits. -/
def decimalZeros : List ℕ :=
  [0x30, 0x660, 0x6f0, 0x7c0, 0x966, 0x9e6, 0xa66, 0xae6, 0xb66, 0xbe6, 0xc66, 0xce6, 0xd66,
   0xde6, 0xe50, 0xed0, 0xf20, 0x1040, 0x1090, 0x17e0, 0x1810, 0x1946, 0x19d0, 0x1a80, 0x1a90,
   0x1b50, 0x1bb0, 0x1c40, 0x1c50, 0xa620, 0xa8d0, 0xa900, 0xa9d0, 0xa9f0, 0xaa50, 0xabf0, 0xff10,
   0x104a0, 0x10d30, 0x11066, 0x110f0, 0x11136, 0x111d0, 0x112f0, 0x11450, 0x114d0, 0x11650,
   0x116c0, 0x11730, 0x118e0, 0x11950, 0x11c50, 0x11d50, 0x11da0, 0x16a60, 0x16ac0, 0x16b50,
   0x1d7ce, 0x1d7d8, 0x1d7e2, 0x1d7ec, 0x1d7f6, 0x1e140, 0x1e2f0, 0x1e950, 0x1fbf0]

/-- `\d`: a decimal digit of any script. -/
def isDecimal (c : Char) : Bool :=
  decimalZeros.any fun z => z ≤ c.toNat && c.toNat < z + 10

/-- The value of a decimal digit. -/
def decimalValue (c : Char) : Option ℕ :=
  (decimalZeros.find? fun z => z ≤ c.toNat && c.toNat < z + 10).map (c.toNat - ·)

/-- The number of the remaining digits behind the value `v`, where `ready` tells that a digit came
last, so that the text may end or go on with an underscore. -/
def intFrom : ℕ → Bool → List Char → Option ℕ
  | v, ready, [] => if ready then some v else none
  | v, ready, c :: cs =>
    if c = '_' then if ready then intFrom v false cs else none
    else do intFrom (10 * v + (← decimalValue c)) true cs

/-- `int(text)`, on a text without a sign and without blanks. -/
def intOf (text : String) : Option ℕ := intFrom 0 false text.toList

theorem decimalValue_isDigit {c : Char} (hc : c.isDigit) :
    decimalValue c = some (c.toNat - '0'.toNat) := by
  have hrange : 0x30 ≤ c.toNat ∧ c.toNat < 0x3a := by
    rw [Char.isDigit, Bool.and_eq_true, decide_eq_true_eq, decide_eq_true_eq] at hc
    exact ⟨UInt32.le_iff_toNat_le.mp hc.1, Nat.lt_succ_of_le (UInt32.le_iff_toNat_le.mp hc.2)⟩
  rw [decimalValue, decimalZeros, List.find?_cons_of_pos (by simpa using hrange)]
  rfl

theorem intFrom_digits {cs : List Char} (hcs : ∀ c ∈ cs, c.isDigit) (v : ℕ) :
    intFrom v true cs = some (Nat.ofDigitChars 10 cs v) := by
  induction cs generalizing v with
  | nil => rfl
  | cons c cs ih =>
    obtain ⟨hc, hcs⟩ := List.forall_mem_cons.mp hcs
    have hne : c ≠ '_' := by
      rintro rfl
      exact absurd hc (by decide)
    rw [intFrom, if_neg hne, decimalValue_isDigit hc, Nat.ofDigitChars_cons]
    exact ih hcs _

/-- The decimal digits of a number denote the number. -/
theorem intOf_toString (n : ℕ) : intOf (toString n) = some n := by
  have hdigits : ∀ c ∈ Nat.toDigits 10 n, c.isDigit := fun c hc =>
    Nat.isDigit_of_mem_toDigits (by decide) (by decide) hc
  rw [intOf, Nat.toString_eq_repr, Nat.toList_repr]
  obtain ⟨c, cs, hcs⟩ := List.exists_cons_of_ne_nil (Nat.toDigits_ne_nil (n := n) (b := 10))
  rw [hcs] at hdigits ⊢
  have hready : intFrom 0 false (c :: cs) = intFrom 0 true (c :: cs) := by
    have hne : c ≠ '_' := by
      rintro rfl
      exact absurd (hdigits _ List.mem_cons_self) (by decide)
    rw [intFrom, intFrom, if_neg hne, if_neg hne]
  rw [hready, intFrom_digits hdigits, ← hcs, Nat.ofDigitChars_ten_toDigits]

example : intOf "1_0" = some 10 ∧ intOf "1__0" = none ∧ intOf "4'b1" = none := by decide

end Saltworks
