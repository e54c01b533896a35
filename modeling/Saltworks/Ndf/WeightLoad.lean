import Saltworks.Ndf.Cells

/-!
# What a load leaves in the weight register

A byte is delivered least significant bit first, and the register takes each bit in at its low
end, so the byte ends in the top eight places in reverse order, in front of 24 copies of its sign.
The register holds the signed byte only if that is symmetric, that is for the bytes `0` and `-1`.

## Main results

* `weight_nextAccumulate`: a loaded register is frozen until its cell accumulates.
* `weight_load_iff`: when a load leaves the signed byte.
-/

namespace Saltworks.RTL.TtUmSaltworksNdfC32

open BanyanFabric (Lines)

namespace Datapath

/-- The first cycle from `a` on in which a cell accumulates. -/
def NextAccumulates (σ : ℕ → Datapath) (k : Fin 3) (a t : ℕ) : Prop :=
  a ≤ t ∧ (σ t).enA k = true ∧ ∀ u, a ≤ u → u < t → (σ u).enA k = false

/-- The byte delivered in a load frame. -/
def loadByte (fabOut : ℕ → Lines) (k i : Fin 3) : BitVec 8 :=
  BitVec.byteOf fun j => fabOut (ldTime k i + j) (port k)

/-- Behind a load a cell accumulates before it loads again. -/
theorem exists_accumulate (k i : Fin 3) : ∃ t, ldTime k i + 32 ≤ t ∧ (Streams k t ∨ Biases k t) ∧
    ∀ i', ldTime k i + 32 ≤ ldTime k i' → t ≤ ldTime k i' := by
  have hbias : ldTime k 0 + 32 ≤ biasTime k ∧ ∀ i', ldTime k 0 + 32 ≤ ldTime k i' →
      biasTime k ≤ ldTime k i' := by
    revert k
    decide
  have hstream (j : Fin 2) : ldTime k j.succ + 32 ≤ stTime k j ∧
      ∀ i', ldTime k j.succ + 32 ≤ ldTime k i' → stTime k j ≤ ldTime k i' := by
    revert k j
    decide
  have hst (j : Fin 2) : Streams k (stTime k j) :=
    ⟨j, Nat.le_refl _, Nat.lt_add_of_pos_right (by decide)⟩
  fin_cases i
  · exact ⟨biasTime k, hbias.1, .inr rfl, hbias.2⟩
  · exact ⟨stTime k 0, (hstream 0).1, .inl (hst 0), (hstream 0).2⟩
  · exact ⟨stTime k 1, (hstream 1).1, .inl (hst 1), (hstream 1).2⟩

section Run

variable (s₀ : Datapath) (d₀ : Lines) (fabOut : ℕ → Lines) (k i : Fin 3)

/-- A loaded register is frozen until its cell accumulates. -/
theorem weight_nextAccumulate {t : ℕ}
    (ht : NextAccumulates (s₀.afterSof d₀ fabOut) k (ldTime k i + 32) t) :
    (s₀.afterSof d₀ fabOut t).weight k =
      (s₀.afterSof d₀ fabOut (ldTime k i + 32)).weight k := by
  obtain ⟨hle, -, hnone⟩ := ht
  obtain ⟨v, hv, hacc, hloads⟩ := exists_accumulate k i
  have htv : t ≤ v := by
    by_contra h
    have hlow := hnone v hv (Nat.lt_of_not_le h)
    rw [(enA_iff ..).2 hacc] at hlow
    exact Bool.false_ne_true hlow.symm
  refine weight_of_freeze s₀ d₀ fabOut k hle fun u hu hut => ?_
  have hlow := hnone u hu hut
  rw [Bool.eq_false_iff, ne_eq, enA_iff] at hlow
  refine ⟨?_, fun h => hlow (.inl h), fun h => hlow (.inr h)⟩
  rintro ⟨i', hi'⟩
  by_cases hii : i = i'
  · subst hii
    omega
  · have := ldTime_gap k hii
    have := hloads i'
    omega

theorem loadByte_eq : loadByte fabOut k i = BitVec.byteOf (loadBits fabOut k i) :=
  BitVec.byteOf_congr fun j hj => by rw [loadBits, Nat.min_eq_left (by omega)]

theorem loadBits_eq_last {j : ℕ} (hj : 8 ≤ j) : loadBits fabOut k i j = loadBits fabOut k i 7 := by
  rw [loadBits, loadBits, Nat.min_eq_right (by omega)]
  rfl

/-- What a load leaves: the byte in reverse order in front of its sign. -/
theorem weight_loaded : (s₀.afterSof d₀ fabOut (ldTime k i + 32)).weight k =
    BitVec.ofBits fun j : Fin 32 => (loadByte fabOut k i).getLsbD (min (31 - j) 7) := by
  rw [weight_load _ _ _ _ _ (Nat.le_refl 32), loadByte_eq]
  exact BitVec.shiftIn_byteOf _ fun j hj _ => loadBits_eq_last fabOut k i hj

/-- A load leaves the signed byte for two bytes only. -/
theorem weight_eq_signExtend_iff :
    (s₀.afterSof d₀ fabOut (ldTime k i + 32)).weight k = (loadByte fabOut k i).signExtend 32 ↔
      loadByte fabOut k i = 0#8 ∨ loadByte fabOut k i = 255#8 := by
  rw [weight_load _ _ _ _ _ (Nat.le_refl 32), loadByte_eq]
  exact BitVec.shiftIn_eq_signExtend_iff _ fun j hj _ => loadBits_eq_last fabOut k i hj

/-- **When a load leaves the signed byte.** After a `sof` pulse, from any registers and with any
traffic: when the sign extension of a load has ended, and still in the next cycle in which the
cell accumulates, the weight register holds the sign extension of the delivered byte if and only
if the byte is `0` or `-1`. -/
theorem weight_load_iff :
    ((s₀.afterSof d₀ fabOut (ldTime k i + 32)).weight k = (loadByte fabOut k i).signExtend 32 ∧
      ∀ t, NextAccumulates (s₀.afterSof d₀ fabOut) k (ldTime k i + 32) t →
        (s₀.afterSof d₀ fabOut t).weight k = (loadByte fabOut k i).signExtend 32) ↔
    loadByte fabOut k i = 0#8 ∨ loadByte fabOut k i = 255#8 := by
  rw [← weight_eq_signExtend_iff s₀ d₀ fabOut k i]
  constructor
  · exact And.left
  · intro h
    exact ⟨h, fun t ht => (weight_nextAccumulate s₀ d₀ fabOut k i ht).trans h⟩

end Run

end Datapath

/-! ### A byte from the edge port -/

/-- All registers zero, the adapter as after reset. -/
def zeroState : State where
  core := Plane32Bus.zeroReset
  fab := ⟨0#_, fun _ _ => ⟨false, false, false, false⟩⟩
  dp := ⟨0#4, 0#5, fun _ => 0#5, fun _ => false, fun _ => ⟨0#32, 0#32⟩, fun _ => 0#32⟩

/-- Pins with given levels of `sof` and of the edge port. -/
def edgePins (sof edge : Bool) : Pins where
  uiIn := 0#8
  uioIn := BitVec.ofBits ![false, false, edge, false, false, false, sof, false]

/-- The byte `1` sent to the first cell in frame 0: a high bit in the cycles 0, 2, 4 and 6. -/
def byteOne (t : ℕ) : Pins := edgePins false (t == 0 || t == 2 || t == 4 || t == 6)

/-- The byte `1` does not arrive as the weight `1`. -/
theorem not_weight_load :
    let σ := afterSof zeroState (edgePins true false) byteOne
    let byte := Datapath.loadByte (fun t => fabOut (σ t) (byteOne t)) 0 0
    byte = 1#8 ∧ (σ (Datapath.ldTime 0 0 + 32)).dp.weight 0 ≠ byte.signExtend 32 := by
  decide +kernel

end Saltworks.RTL.TtUmSaltworksNdfC32
