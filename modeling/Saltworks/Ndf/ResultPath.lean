import Saltworks.Ndf.Accumulate
import Saltworks.Ndf.WeightLoad

/-!
# The result path

A serialiser loads its cell's settled accumulator, rectified, at the end of the frame in front of
the emit frame. It shifts in every cycle, so when the six header cycles are over the lowest six
bits of the word are gone, and the payload shows the bits 6 to 13.

## Main results

* `ser_emit`: the serialiser in the cycles of the emit frame.
* `emit_header`, `emit_payload`: what a cell sends in its emit frame.
* `result_path_iff`: when the payload is the low byte of the rectified accumulator.
-/

namespace Saltworks.RTL.TtUmSaltworksNdfC32

open BanyanFabric (Lines)

namespace Datapath

/-- A header: the activity bit in front of each destination bit, upper bit first. -/
def headerBits (dest : BitVec 3) : Fin 6 → Bool :=
  ![true, dest.getLsbD 2, true, dest.getLsbD 1, true, dest.getLsbD 0]

/-- The ports that the cells' results are for: the third cell, twice, and the edge. -/
def resultPort : Fin 3 → BitVec 3 := ![0b010#3, 0b010#3, 0b101#3]

section Run

variable (s₀ : Datapath) (d₀ : Lines) (fabOut : ℕ → Lines) (k : Fin 3)

/-- A cell's accumulator when its last stream frame has completed. -/
def settled : BitVec 32 := (s₀.afterSof d₀ fabOut (stTime k 1 + 8)).accReg k

theorem ser_succ (t : ℕ) : (s₀.afterSof d₀ fabOut (t + 1)).ser k =
    SerOrgan.posedge ((s₀.afterSof d₀ fabOut t).act k)
      ((s₀.afterSof d₀ fabOut t).acc (fabOut t) k) ((s₀.afterSof d₀ fabOut t).ser k) := rfl

/-- Without strobes a cell's outputs are its accumulator. -/
theorem acc_of_idle {t : ℕ} (hl : ¬Loads k t) (hs : ¬Streams k t) (hb : ¬Biases k t) :
    (s₀.afterSof d₀ fabOut t).acc (fabOut t) k = (s₀.afterSof d₀ fabOut t).accReg k := by
  have hload := load_eq_false s₀ d₀ fabOut k hl
  rw [load, Bool.or_eq_false_iff] at hload
  have hst : ((s₀.afterSof d₀ fabOut t).stF k && (s₀.afterSof d₀ fabOut t).payload) = false := by
    rw [Bool.eq_false_iff, ne_eq, st_payload_iff]
    exact hs
  have hx : (s₀.afterSof d₀ fabOut t).x (fabOut t) k = false := by
    rw [x, bias_eq_false _ _ _ _ hb, hload.1, hload.2, hst]
    rfl
  rw [acc_eq, hx]
  simp

/-- The strobe that loads the serialiser falls behind the last stream frame or on its last
cycle. -/
theorem stTime_le_act : stTime k 1 + 7 ≤ 14 * actFrame k + 13 := by
  revert k
  decide

theorem ldTime_le_act (i : Fin 3) : ldTime k i + 32 ≤ 14 * actFrame k + 13 := by
  revert k i
  decide

/-- **The serialiser is loaded with the settled accumulator**: in the sign cycle itself, or later
from the held register. -/
theorem acc_act : (s₀.afterSof d₀ fabOut (14 * actFrame k + 13)).acc
    (fabOut (14 * actFrame k + 13)) k = settled s₀ d₀ fabOut k := by
  have hbias := biasTime_lt_stTime k 1
  have hst := stTime_lt k
  rcases Nat.eq_or_lt_of_le (stTime_le_act k) with heq | hlt
  · -- the accumulator takes the same sum at this edge
    rw [← heq, settled]
    have hclr : (s₀.afterSof d₀ fabOut (stTime k 1 + 7)).clr ≠ true := by
      rw [ne_eq, clr_time_iff]
      omega
    have henA : (s₀.afterSof d₀ fabOut (stTime k 1 + 7)).enA k = true :=
      (enA_iff ..).2 (.inl (streams_stTime k 1 (by decide)))
    rw [show stTime k 1 + 8 = stTime k 1 + 7 + 1 from rfl, accReg_succ, if_neg hclr, if_pos henA]
  · have hstream (t : ℕ) (ht : stTime k 1 + 8 ≤ t) : ¬Streams k t := by
      rintro ⟨j, hj⟩
      fin_cases j <;> simp at hj <;> omega
    have hbiases (t : ℕ) (ht : stTime k 1 + 8 ≤ t) : ¬Biases k t := by
      rintro rfl
      omega
    have hloads : ¬Loads k (14 * actFrame k + 13) := by
      rintro ⟨i, hi⟩
      have := ldTime_le_act k i
      omega
    rw [acc_of_idle _ _ _ _ hloads (hstream _ hlt) (hbiases _ hlt), settled,
      accReg_of_hold s₀ d₀ fabOut k (Nat.succ_pos (stTime k 1 + 7)) hlt
        fun t ht _ => ⟨hstream t ht, hbiases t ht⟩]

theorem emFrame_eq : 14 * emFrame k = 14 * actFrame k + 13 + 1 := by
  revert k
  decide

/-- The serialiser in cycle `c` of the emit frame has shifted by `c` places. -/
theorem ser_emit (c : ℕ) : (s₀.afterSof d₀ fabOut (14 * emFrame k + c)).ser k =
    SerOrgan.relu (settled s₀ d₀ fabOut k) >>> c := by
  induction c with
  | zero =>
    rw [Nat.add_zero, emFrame_eq, ser_succ, (act_time_iff ..).2 rfl, acc_act,
      SerOrgan.posedge_load, BitVec.ushiftRight_zero]
  | succ c ih =>
    have hact : (s₀.afterSof d₀ fabOut (14 * emFrame k + c)).act k = false := by
      rw [Bool.eq_false_iff, ne_eq, act_time_iff, emFrame_eq]
      omega
    rw [← Nat.add_assoc, ser_succ, hact, SerOrgan.posedge_shift, ih, BitVec.shiftRight_add]

/-! ### The emit frame -/

variable (edgeInDat : Bool)

/-- The fabric's input of a cell is what the cell emits. -/
theorem fabIn_port (s : Datapath) : s.fabIn edgeInDat (port k) = s.emit k := by
  fin_cases k <;> rfl

theorem emF_emit {c : ℕ} (hc : c < 14) :
    (s₀.afterSof d₀ fabOut (14 * emFrame k + c)).emF k = true := by
  have hlt : emFrame k < 22 := by
    revert k
    decide
  rw [emF_iff, toNat_frm]
  omega

/-- The header of the emit frame. -/
theorem emit_header (c : Fin 6) :
    (s₀.afterSof d₀ fabOut (14 * emFrame k + c)).fabIn edgeInDat (port k) =
      headerBits (resultPort k) c := by
  have hc := c.isLt
  have hcyc : (s₀.afterSof d₀ fabOut (14 * emFrame k + c)).cyc = BitVec.ofNat 4 c := by
    refine BitVec.eq_of_toNat_eq ?_
    rw [toNat_cyc, BitVec.toNat_ofNat]
    omega
  have hpay : (s₀.afterSof d₀ fabOut (14 * emFrame k + c)).payload = false := by
    rw [Bool.eq_false_iff, ne_eq, payload_iff, toNat_cyc]
    omega
  rw [fabIn_port, emit, emF_emit _ _ _ _ (by omega), if_pos rfl, hpay, if_neg Bool.false_ne_true,
    hcyc]
  clear hcyc hpay hc
  revert k c
  decide

/-- The payload of the emit frame: the bits 6 to 13 of the rectified accumulator. -/
theorem emit_payload {j : ℕ} (hj : j < 8) :
    (s₀.afterSof d₀ fabOut (14 * emFrame k + (6 + j))).fabIn edgeInDat (port k) =
      (SerOrgan.relu (settled s₀ d₀ fabOut k)).getLsbD (6 + j) := by
  have hpay : (s₀.afterSof d₀ fabOut (14 * emFrame k + (6 + j))).payload = true := by
    rw [payload_iff, toNat_cyc]
    omega
  rw [fabIn_port, emit, emF_emit _ _ _ _ (by omega), if_pos rfl, hpay, if_pos rfl, SerOrgan.o0,
    ser_emit, BitVec.getLsbD_ushiftRight, Nat.add_zero]

/-- **When the emitted byte is the result.** After a `sof` pulse, from any registers and with any
traffic: the emit frame of a cell is the header of the right port and the low byte of its settled
accumulator, rectified, if and only if each bit of that byte is equal to the one six places
above it. -/
theorem result_path_iff :
    ((∀ c : Fin 6, (s₀.afterSof d₀ fabOut (14 * emFrame k + c)).fabIn edgeInDat (port k) =
        headerBits (resultPort k) c) ∧
      ∀ j < 8, (s₀.afterSof d₀ fabOut (14 * emFrame k + (6 + j))).fabIn edgeInDat (port k) =
        (SerOrgan.relu (settled s₀ d₀ fabOut k)).getLsbD j) ↔
    ∀ j < 8, (SerOrgan.relu (settled s₀ d₀ fabOut k)).getLsbD j =
      (SerOrgan.relu (settled s₀ d₀ fabOut k)).getLsbD (j + 6) := by
  have hpayload (j : ℕ) (hj : j < 8) := emit_payload s₀ d₀ fabOut k edgeInDat hj
  constructor
  · rintro ⟨-, h⟩ j hj
    rw [← h j hj, hpayload j hj, Nat.add_comm]
  · intro h
    refine ⟨fun c => emit_header s₀ d₀ fabOut k edgeInDat c, fun j hj => ?_⟩
    rw [hpayload j hj, h j hj, Nat.add_comm]

end Run

end Datapath

/-! ### A result that is not emitted -/

/-- The weight byte `-128` in frame 3 and the value `3` in frame 6, both for the first cell. -/
def threeTimes (t : ℕ) : Bool := t ∈ [42, 44, 46, 55, 84, 86, 88, 90, 91]

def threeTimesPins (t : ℕ) : Pins := edgePins false (threeTimes t)

/-- The settled accumulator is not negative and has the low byte `253`, and the first cell emits
another byte. -/
theorem not_result_path :
    let σ := afterSof zeroState (edgePins true false) threeTimesPins
    let A := (σ (Datapath.stTime 0 1 + 8)).dp.accReg 0
    A = 0x05FFFFFD#32 ∧
      fabIn (σ (14 * Datapath.emFrame 0 + (6 + 1)))
        (threeTimesPins (14 * Datapath.emFrame 0 + (6 + 1))) 0 ≠
          (SerOrgan.relu A).getLsbD 1 := by
  decide +kernel

end Saltworks.RTL.TtUmSaltworksNdfC32
