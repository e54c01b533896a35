import Saltworks.Ndf.Cells

/-!
# The accumulation law

An accumulator is cleared once, takes its cell's first weight in the bias cycle and the signed
products of two later weights with two streamed bytes, and then holds until the sequencer is
restarted.

## Main definitions

* `loadedWeight`, `streamValue`: what a load leaves in the weight register, and a streamed value.

## Main results

* `accReg_eq`: the accumulator behind its last stream frame, for ever.
-/

namespace Saltworks.RTL.TtUmSaltworksNdfC32.Datapath

open BanyanFabric (Lines)

/-- The signed value of the byte streamed to a cell in one of its stream frames. -/
def streamValue (fabOut : ℕ → Lines) (k : Fin 3) (i : Fin 2) : BitVec 32 :=
  (BitVec.byteOf fun j => fabOut (stTime k i + j) (port k)).signExtend 32

section Run

variable (s₀ : Datapath) (d₀ : Lines) (fabOut : ℕ → Lines) (k : Fin 3)

/-- What is in the weight register when the extension window of a load has ended. -/
def loadedWeight (i : Fin 3) : BitVec 32 := (s₀.afterSof d₀ fabOut (ldTime k i + 32)).weight k

theorem weight_biasTime :
    (s₀.afterSof d₀ fabOut (biasTime k)).weight k = loadedWeight s₀ d₀ fabOut k 0 := by
  have htable : ldTime k 0 + 32 ≤ biasTime k ∧ ∀ i, ldTime k i + 32 ≤ ldTime k 0 + 32 ∨
      biasTime k ≤ ldTime k i := by
    revert k
    decide
  refine weight_of_freeze s₀ d₀ fabOut k htable.1 fun t ht hlt => ⟨?_, ?_, Nat.ne_of_lt hlt⟩
  · rintro ⟨i, hi⟩
    have := htable.2 i
    omega
  · rintro ⟨j, hj⟩
    have := biasTime_lt_stTime k j
    omega

theorem weight_stTime (j : Fin 2) :
    (s₀.afterSof d₀ fabOut (stTime k j)).weight k = loadedWeight s₀ d₀ fabOut k j.succ := by
  have htable : ldTime k j.succ + 32 ≤ stTime k j ∧ biasTime k < ldTime k j.succ ∧
      (∀ i, ldTime k i + 32 ≤ ldTime k j.succ + 32 ∨ stTime k j ≤ ldTime k i) ∧
      ∀ i, stTime k i + 8 ≤ ldTime k j.succ ∨ stTime k j ≤ stTime k i := by
    revert k j
    decide
  obtain ⟨hle, hbias, hld, hst⟩ := htable
  refine weight_of_freeze s₀ d₀ fabOut k hle fun t ht hlt => ⟨?_, ?_, ?_⟩
  · rintro ⟨i, hi⟩
    have := hld i
    omega
  · rintro ⟨i, hi⟩
    have := hst i
    omega
  · rintro rfl
    omega

/-- The clear leaves an empty accumulator for the bias. -/
theorem accReg_biasTime : (s₀.afterSof d₀ fabOut (biasTime k)).accReg k = 0#32 := by
  have hpos : 1 ≤ biasTime k := Nat.le_add_left 1 (14 * biasFrame k + 10)
  rw [accReg_of_hold s₀ d₀ fabOut k Nat.zero_lt_one hpos fun t _ hlt => ⟨?_, Nat.ne_of_lt hlt⟩]
  · rw [accReg_succ, if_pos ((clr_time_iff ..).2 rfl)]
  · rintro ⟨j, hj⟩
    have := biasTime_lt_stTime k j
    omega

theorem accReg_stTime_zero :
    (s₀.afterSof d₀ fabOut (stTime k 0)).accReg k = loadedWeight s₀ d₀ fabOut k 0 := by
  have hlt := biasTime_lt_stTime k 0
  rw [accReg_of_hold s₀ d₀ fabOut k (Nat.succ_pos (biasTime k)) hlt fun t ht ht' => ⟨?_, ?_⟩,
    accReg_bias, accReg_biasTime, weight_biasTime, BitVec.zero_add]
  · rintro ⟨j, hj⟩
    have hst := stTime_lt k
    fin_cases j <;> simp at hj <;> omega
  · rintro rfl
    omega

theorem accReg_stTime_one : (s₀.afterSof d₀ fabOut (stTime k 1)).accReg k =
    loadedWeight s₀ d₀ fabOut k 0 +
      loadedWeight s₀ d₀ fabOut k 1 * streamValue fabOut k 0 := by
  have hlt := biasTime_lt_stTime k 0
  rw [accReg_of_hold s₀ d₀ fabOut k (Nat.succ_pos (stTime k 0 + 7)) (stTime_lt k)
    fun t ht ht' => ⟨?_, ?_⟩, accReg_stream, accReg_stTime_zero, weight_stTime]
  · rfl
  · rintro ⟨j, hj⟩
    fin_cases j <;> simp at hj <;> omega
  · rintro rfl
    omega

/-- The accumulator when the last stream frame has completed. -/
theorem accReg_settled : (s₀.afterSof d₀ fabOut (stTime k 1 + 8)).accReg k =
    loadedWeight s₀ d₀ fabOut k 0 + loadedWeight s₀ d₀ fabOut k 1 * streamValue fabOut k 0 +
      loadedWeight s₀ d₀ fabOut k 2 * streamValue fabOut k 1 := by
  rw [accReg_stream, accReg_stTime_one, weight_stTime]
  rfl

/-- **The accumulation law.** After a `sof` pulse, from any registers and with any traffic: when a
cell has completed its last stream frame, and in every later cycle of the run, its accumulator is
the first loaded weight, spent as a bias, plus the products of the two later ones with the signed
values streamed to the cell. -/
theorem accReg_eq (n : ℕ) : (s₀.afterSof d₀ fabOut (stTime k 1 + 8 + n)).accReg k =
    loadedWeight s₀ d₀ fabOut k 0 + loadedWeight s₀ d₀ fabOut k 1 * streamValue fabOut k 0 +
      loadedWeight s₀ d₀ fabOut k 2 * streamValue fabOut k 1 := by
  have hst := stTime_lt k
  have hlt := biasTime_lt_stTime k 1
  rw [accReg_of_hold s₀ d₀ fabOut k (Nat.succ_pos (stTime k 1 + 7)) (Nat.le_add_right _ n)
    fun t ht ht' => ⟨?_, ?_⟩]
  · exact accReg_settled s₀ d₀ fabOut k
  · rintro ⟨j, hj⟩
    fin_cases j <;> simp at hj <;> omega
  · rintro rfl
    omega

end Run

end Saltworks.RTL.TtUmSaltworksNdfC32.Datapath
