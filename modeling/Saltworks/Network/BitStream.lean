import Mathlib.Data.Fintype.Card
import Mathlib.Data.Fintype.Fin
import Mathlib.Order.Interval.Finset.Fin
import Mathlib.Order.WithBot

/-!
# Bit streams compared most significant bit first

The prefixes of a bit stream, read as numbers with the first bit most significant, and the key by
which active streams come before idle ones. Adding a bit to two prefixes of the same length keeps
their order, unless they were equal so far (`streamKey_lt_concat`); this is what lets a comparator
decide at the first difference.

## Main definitions

* `prefixOf`, `msbValue`, `streamKey`.

## Main results

* `msbValue_injective`: prefixes of the same length are determined by their numbers.
* `msbValue_lt_iff`: the first difference decides.
* `eq_true_iff_lt_card`: a set of lines without gaps from line `0` is given by its size.
-/

namespace BitStream

/-- The first `t + 1` bits of a stream. -/
def prefixOf (x : ℕ → Bool) (t : ℕ) : List Bool := (List.range (t + 1)).map x

/-- The number that a list of bits spells, first bit most significant. -/
def msbValue (l : List Bool) : ℕ := l.foldl (fun v b => 2 * v + b.toNat) 0

theorem prefixOf_zero (x : ℕ → Bool) : prefixOf x 0 = [x 0] := rfl

theorem prefixOf_succ (x : ℕ → Bool) (t : ℕ) :
    prefixOf x (t + 1) = prefixOf x t ++ [x (t + 1)] := by
  rw [prefixOf, List.range_succ, List.map_append]
  rfl

@[simp] theorem length_prefixOf (x : ℕ → Bool) (t : ℕ) : (prefixOf x t).length = t + 1 := by
  simp [prefixOf]

theorem prefixOf_congr {x y : ℕ → Bool} {t : ℕ} (h : ∀ u ≤ t, x u = y u) :
    prefixOf x t = prefixOf y t :=
  List.map_congr_left fun u hu => h u (Nat.le_of_lt_succ (List.mem_range.1 hu))

@[simp] theorem msbValue_concat (l : List Bool) (b : Bool) :
    msbValue (l ++ [b]) = 2 * msbValue l + b.toNat := by
  simp [msbValue]

theorem msbValue_append (l l' : List Bool) :
    msbValue (l ++ l') = 2 ^ l'.length * msbValue l + msbValue l' := by
  induction l' using List.reverseRecOn with
  | nil => simp [msbValue]
  | append_singleton l' b ih =>
    rw [← List.append_assoc, msbValue_concat, msbValue_concat, ih, List.length_append,
      List.length_singleton, Nat.pow_succ, Nat.mul_add, Nat.mul_comm _ 2, Nat.mul_assoc,
      Nat.add_assoc]

theorem msbValue_lt (l : List Bool) : msbValue l < 2 ^ l.length := by
  induction l using List.reverseRecOn with
  | nil => simp [msbValue]
  | append_singleton l b ih =>
    have hb : b.toNat < 2 := Bool.toNat_lt b
    rw [msbValue_concat, List.length_append, List.length_singleton, Nat.pow_succ]
    omega

/-- The first difference decides the order of two numbers of the same length. -/
theorem msbValue_lt_iff (c : List Bool) {b b' : Bool} (hb : b ≠ b') {l l' : List Bool}
    (hlen : l.length = l'.length) :
    msbValue (c ++ b :: l) < msbValue (c ++ b' :: l') ↔ b' = true := by
  have hvalue (b : Bool) (l : List Bool) : msbValue (c ++ b :: l) =
      2 ^ l.length * (2 * msbValue c + b.toNat) + msbValue l := by
    rw [← msbValue_concat, ← msbValue_append, List.append_assoc, List.singleton_append]
  have hl := msbValue_lt l
  have hl' := msbValue_lt l'
  rw [hvalue, hvalue, hlen]
  rw [hlen] at hl
  cases b <;> cases b'
  · exact absurd rfl hb
  · refine iff_of_true ?_ rfl
    rw [Bool.toNat_false, Bool.toNat_true, Nat.mul_add, Nat.mul_add]
    omega
  · refine iff_of_false ?_ Bool.false_ne_true
    rw [Bool.toNat_false, Bool.toNat_true, Nat.mul_add, Nat.mul_add]
    omega
  · exact absurd rfl hb

/-- Lists of the same length that spell the same number are equal. -/
theorem msbValue_injective {l l' : List Bool} (hlen : l.length = l'.length)
    (h : msbValue l = msbValue l') : l = l' := by
  induction l using List.reverseRecOn generalizing l' with
  | nil => exact (List.length_eq_zero_iff.1 hlen.symm).symm
  | append_singleton l b ih =>
    obtain rfl | ⟨l', b', rfl⟩ := List.eq_nil_or_concat l'
    · simp at hlen
    · rw [List.concat_eq_append] at hlen h ⊢
      rw [msbValue_concat, msbValue_concat] at h
      have hb : b = b' := by
        cases b <;> cases b' <;> simp at h ⊢ <;> omega
      have hl := ih (by simpa using hlen) (by rw [hb] at h; omega)
      rw [hl, hb]

/-- The key of a stream of which a prefix is known: active streams by their number, idle ones
last. -/
def streamKey (p : Bool × List Bool) : WithTop ℕ :=
  if p.1 then WithTop.some (msbValue p.2) else ⊤

theorem streamKey_idle (l : List Bool) : streamKey (false, l) = ⊤ := rfl

theorem streamKey_active (l : List Bool) : streamKey (true, l) = WithTop.some (msbValue l) := rfl

theorem streamKey_eq_top {p : Bool × List Bool} : streamKey p = ⊤ ↔ p.1 = false := by
  obtain ⟨a, l⟩ := p
  cases a
  · simp [streamKey]
  · simp [streamKey]

/-- One more bit: the order of two keys stays, unless they were equal; then the streams must be
active, and the bits decide. -/
theorem streamKey_lt_concat (a a' b b' : Bool) (l l' : List Bool) :
    streamKey (a', l' ++ [b']) < streamKey (a, l ++ [b]) ↔
      streamKey (a', l') < streamKey (a, l) ∨
        streamKey (a', l') = streamKey (a, l) ∧ (a && a' && b && !b') = true := by
  cases a <;> cases a'
  · simp [streamKey_idle]
  · simp only [streamKey_idle, streamKey_active, WithTop.coe_lt_top, true_or]
  · simp only [streamKey_idle, streamKey_active, not_top_lt, WithTop.top_ne_coe, false_and,
      or_self]
  · simp only [streamKey_active, msbValue_concat, WithTop.coe_lt_coe, WithTop.coe_inj]
    cases b <;> cases b' <;> simp <;> omega

theorem streamKey_eq_concat (a a' b b' : Bool) (l l' : List Bool) :
    streamKey (a', l' ++ [b']) = streamKey (a, l ++ [b]) ↔
      streamKey (a', l') = streamKey (a, l) ∧ (a && a' && (b ^^ b')) = false := by
  cases a <;> cases a'
  · simp [streamKey_idle]
  · simp only [streamKey_idle, streamKey_active, WithTop.coe_ne_top, false_and]
  · simp only [streamKey_idle, streamKey_active, WithTop.top_ne_coe, false_and]
  · simp only [streamKey_active, msbValue_concat, WithTop.coe_inj]
    cases b <;> cases b' <;> simp <;> omega

/-- Active streams with equal keys have equal prefixes. -/
theorem eq_of_streamKey_eq {a a' : Bool} {l l' : List Bool} (hlen : l.length = l'.length)
    (ha : a = true) (h : streamKey (a', l') = streamKey (a, l)) : a' = true ∧ l' = l := by
  subst ha
  cases a'
  · simp [streamKey_idle, streamKey_active] at h
  · exact ⟨rfl, msbValue_injective hlen.symm (WithTop.coe_injective h)⟩

/-! ### Lines without gaps -/

/-- A set of lines that is downward closed is given by its size. -/
theorem eq_true_iff_lt_card {n : ℕ} {p : Fin n → Bool}
    (hp : ∀ l m, l ≤ m → p m = true → p l = true) (l : Fin n) :
    p l = true ↔ l.val < (Finset.univ.filter fun l => p l = true).card := by
  constructor
  · intro hl
    have hsub : Finset.Iic l ⊆ Finset.univ.filter fun l => p l = true := fun m hm =>
      Finset.mem_filter.2 ⟨Finset.mem_univ m, hp m l (Finset.mem_Iic.1 hm) hl⟩
    have hle := Finset.card_le_card hsub
    rw [Fin.card_Iic] at hle
    omega
  · intro hl
    by_contra hno
    have hsub : (Finset.univ.filter fun l => p l = true) ⊆ Finset.Iio l := fun m hm => by
      rw [Finset.mem_Iio]
      by_contra hml
      exact hno (hp l m (not_lt.1 hml) (Finset.mem_filter.1 hm).2)
    have hle := Finset.card_le_card hsub
    rw [Fin.card_Iio] at hle
    omega

/-- Rearranging the lines does not change what the chosen ones carry. -/
theorem map_filter_perm {n : ℕ} {γ : Type*} (σ : Equiv.Perm (Fin n)) (p : Fin n → Bool)
    (g : Fin n → γ) : (Finset.univ.filter fun l => p (σ l) = true).val.map (fun l => g (σ l)) =
      (Finset.univ.filter fun l => p l = true).val.map g := by
  have hfilter : (Finset.univ.filter fun l => p l = true) =
      (Finset.univ.filter fun l => p (σ l) = true).map σ.toEmbedding := by
    conv_lhs => rw [← Finset.map_univ_equiv σ, Finset.filter_map]
    rfl
  rw [hfilter, Finset.map_val, Multiset.map_map]
  rfl

end BitStream
