import Mathlib.Data.Fin.VecNotation
import Mathlib.Data.Fintype.Basic
import Mathlib.Tactic.FinCases
import Saltworks.RTL.TtUmSaltworksNdfC32

/-!
# The timetable of the engine

After a `sof` pulse the sequencer does not depend on any data: the frame and the cycle are those
of the time, the extension counters count down behind the load frames, and every strobe of a cell
is high in a fixed set of cycles.

## Main definitions

* `ldFrame`, `stFrame`, `biasFrame`, `actFrame`, `emFrame`: the frames of each cell.
* `Loads`, `Streams`, `Biases`: the cycles in which a cell loads, streams, and spends its bias.

## Main results

* `toNat_cyc`, `toNat_frm`, `ext_ne_zero_iff`: the counters.
* `load_iff`, `enA_iff`, `enW_iff`, `sgn_iff`, `clr_time_iff`, `act_time_iff`: the strobes.
-/

namespace Saltworks.RTL.TtUmSaltworksNdfC32.Datapath

open BanyanFabric (Lines)

/-! ### The frames of a cell -/

def ldFrame : Fin 3 → Fin 3 → ℕ := ![![0, 3, 8], ![1, 4, 9], ![2, 5, 14]]

def stFrame : Fin 3 → Fin 2 → ℕ := ![![6, 11], ![7, 12], ![13, 17]]

def biasFrame : Fin 3 → ℕ := ![2, 3, 4]

def actFrame : Fin 3 → ℕ := ![12, 16, 17]

def emFrame : Fin 3 → ℕ := ![13, 17, 18]

/-- The first payload cycle of a load frame, and of a stream frame. -/
def ldTime (k : Fin 3) (i : Fin 3) : ℕ := 14 * ldFrame k i + 6

def stTime (k : Fin 3) (i : Fin 2) : ℕ := 14 * stFrame k i + 6

def biasTime (k : Fin 3) : ℕ := 14 * biasFrame k + 11

/-- The cycles of a load: eight payload cycles and 24 of sign extension. -/
def Loads (k : Fin 3) (t : ℕ) : Prop := ∃ i, ldTime k i ≤ t ∧ t < ldTime k i + 32

def Streams (k : Fin 3) (t : ℕ) : Prop := ∃ i, stTime k i ≤ t ∧ t < stTime k i + 8

def Biases (k : Fin 3) (t : ℕ) : Prop := t = biasTime k

instance (k : Fin 3) (t : ℕ) : Decidable (Loads k t) := by
  unfold Loads
  infer_instance

instance (k : Fin 3) (t : ℕ) : Decidable (Streams k t) := by
  unfold Streams
  infer_instance

instance (k : Fin 3) (t : ℕ) : Decidable (Biases k t) := by
  unfold Biases
  infer_instance

/-! ### Strobes by the counters -/

section Counters

variable (s : Datapath) (k : Fin 3)

theorem beq_ofNat_iff {w n : ℕ} (b : BitVec w) (hn : n < 2 ^ w) :
    (b == BitVec.ofNat w n) = true ↔ b.toNat = n := by
  rw [beq_iff_eq]
  constructor
  · rintro rfl
    rw [BitVec.toNat_ofNat, Nat.mod_eq_of_lt hn]
  · rintro rfl
    rw [BitVec.ofNat_toNat, BitVec.setWidth_eq]

theorem payload_iff : s.payload = true ↔ 6 ≤ s.cyc.toNat := decide_eq_true_iff

theorem frameEnd_iff : s.frameEnd = true ↔ s.cyc.toNat = 13 := beq_ofNat_iff _ (by decide)

theorem signCyc_iff : s.signCyc = true ↔ s.cyc.toNat = 13 := beq_ofNat_iff _ (by decide)

theorem frm_iff {n : ℕ} (hn : n < 32) : (s.frm == BitVec.ofNat 5 n) = true ↔ s.frm.toNat = n :=
  beq_ofNat_iff _ hn

theorem exists_fin_three {p : Fin 3 → Prop} : (∃ i, p i) ↔ p 0 ∨ p 1 ∨ p 2 := by
  rw [Fin.exists_fin_succ, Fin.exists_fin_two]
  rfl

theorem ldF_iff : s.ldF k = true ↔ ∃ i, s.frm.toNat = ldFrame k i := by
  have hframes {a b c : ℕ} (ha : a < 32) (hb : b < 32) (hc : c < 32) :
      (s.frm == BitVec.ofNat 5 a || s.frm == BitVec.ofNat 5 b || s.frm == BitVec.ofNat 5 c)
        = true ↔ s.frm.toNat = a ∨ s.frm.toNat = b ∨ s.frm.toNat = c := by
    rw [Bool.or_eq_true, Bool.or_eq_true, s.frm_iff ha, s.frm_iff hb, s.frm_iff hc, or_assoc]
  rw [exists_fin_three]
  fin_cases k
  · exact hframes (by decide) (by decide) (by decide)
  · exact hframes (by decide) (by decide) (by decide)
  · exact hframes (by decide) (by decide) (by decide)

theorem stF_iff : s.stF k = true ↔ ∃ i, s.frm.toNat = stFrame k i := by
  have hframes {a b : ℕ} (ha : a < 32) (hb : b < 32) :
      (s.frm == BitVec.ofNat 5 a || s.frm == BitVec.ofNat 5 b) = true ↔
        s.frm.toNat = a ∨ s.frm.toNat = b := by
    rw [Bool.or_eq_true, s.frm_iff ha, s.frm_iff hb]
  rw [Fin.exists_fin_two]
  fin_cases k
  · exact hframes (by decide) (by decide)
  · exact hframes (by decide) (by decide)
  · exact hframes (by decide) (by decide)

/-- A strobe in one cycle of one frame. -/
theorem strobe_iff {a c : ℕ} (ha : a < 32) (hc : c < 16) :
    (s.frm == BitVec.ofNat 5 a && s.cyc == BitVec.ofNat 4 c) = true ↔
      s.frm.toNat = a ∧ s.cyc.toNat = c := by
  rw [Bool.and_eq_true, s.frm_iff ha, beq_ofNat_iff _ hc]

theorem bias_iff : s.bias k = true ↔ s.frm.toNat = biasFrame k ∧ s.cyc.toNat = 11 := by
  fin_cases k
  · exact s.strobe_iff (by decide) (by decide)
  · exact s.strobe_iff (by decide) (by decide)
  · exact s.strobe_iff (by decide) (by decide)

theorem act_iff : s.act k = true ↔ s.frm.toNat = actFrame k ∧ s.cyc.toNat = 13 := by
  fin_cases k
  · exact s.strobe_iff (by decide) (by decide)
  · exact s.strobe_iff (by decide) (by decide)
  · exact s.strobe_iff (by decide) (by decide)

theorem clr_iff : s.clr = true ↔ s.frm.toNat = 0 ∧ s.cyc.toNat = 0 :=
  s.strobe_iff (by decide) (by decide)

theorem emF_iff : s.emF k = true ↔ s.frm.toNat = emFrame k := by
  fin_cases k
  · exact s.frm_iff (by decide)
  · exact s.frm_iff (by decide)
  · exact s.frm_iff (by decide)

end Counters

/-! ### The counters by time -/

section Run

variable (s₀ : Datapath) (d₀ : Lines) (fabOut : ℕ → Lines) (t : ℕ)

theorem afterSof_succ : s₀.afterSof d₀ fabOut (t + 1) =
    (s₀.afterSof d₀ fabOut t).posedge true false (fabOut t) := rfl

theorem toNat_cyc : (s₀.afterSof d₀ fabOut t).cyc.toNat = t % 14 := by
  induction t with
  | zero => rfl
  | succ t ih =>
    have hstep : (s₀.afterSof d₀ fabOut (t + 1)).cyc =
        if (s₀.afterSof d₀ fabOut t).frameEnd then 0#4 else (s₀.afterSof d₀ fabOut t).cyc + 1#4 :=
      rfl
    rw [hstep]
    split_ifs with h
    · rw [frameEnd_iff, ih] at h
      change 0 = _
      omega
    · rw [frameEnd_iff, ih] at h
      rw [BitVec.toNat_add, ih]
      change (_ + 1) % 16 = _
      omega

theorem toNat_frm : (s₀.afterSof d₀ fabOut t).frm.toNat = min (t / 14) 22 := by
  induction t with
  | zero => rfl
  | succ t ih =>
    have hstep : (s₀.afterSof d₀ fabOut (t + 1)).frm =
        if (s₀.afterSof d₀ fabOut t).frameEnd && (s₀.afterSof d₀ fabOut t).frm != 22#5 then
          (s₀.afterSof d₀ fabOut t).frm + 1#5 else (s₀.afterSof d₀ fabOut t).frm := rfl
    have hcond : ((s₀.afterSof d₀ fabOut t).frameEnd &&
        (s₀.afterSof d₀ fabOut t).frm != 22#5) = true ↔ t % 14 = 13 ∧ min (t / 14) 22 ≠ 22 := by
      rw [Bool.and_eq_true, frameEnd_iff, toNat_cyc, bne, Bool.not_eq_true', Bool.eq_false_iff,
        ne_eq, frm_iff _ (by decide), ih]
    rw [hstep]
    split_ifs with h
    · rw [hcond] at h
      rw [BitVec.toNat_add, ih]
      change (_ + 1) % 32 = _
      omega
    · rw [hcond] at h
      rw [ih]
      omega

/-- The extension counter of a cell, restarted by a load frame and counted down. -/
theorem toNat_ext_succ (k : Fin 3) : ((s₀.afterSof d₀ fabOut (t + 1)).ext k).toNat =
    if (∃ i, min (t / 14) 22 = ldFrame k i) ∧ t % 14 = 13 then 24
    else ((s₀.afterSof d₀ fabOut t).ext k).toNat - 1 := by
  have hstep : (s₀.afterSof d₀ fabOut (t + 1)).ext k =
      if (s₀.afterSof d₀ fabOut t).ldF k && (s₀.afterSof d₀ fabOut t).frameEnd then 24#5
      else if (s₀.afterSof d₀ fabOut t).ext k != 0#5 then (s₀.afterSof d₀ fabOut t).ext k - 1#5
      else (s₀.afterSof d₀ fabOut t).ext k := rfl
  have hcond : ((s₀.afterSof d₀ fabOut t).ldF k && (s₀.afterSof d₀ fabOut t).frameEnd) = true ↔
      (∃ i, min (t / 14) 22 = ldFrame k i) ∧ t % 14 = 13 := by
    rw [Bool.and_eq_true, ldF_iff, frameEnd_iff, toNat_cyc, toNat_frm]
  rw [hstep]
  generalize (s₀.afterSof d₀ fabOut t).ext k = e
  by_cases h : (∃ i, min (t / 14) 22 = ldFrame k i) ∧ t % 14 = 13
  · rw [if_pos (hcond.2 h), if_pos h]
    rfl
  · rw [if_neg (fun hc => h (hcond.1 hc)), if_neg h]
    revert e
    decide

/-- What is left of the extension window behind a load frame. -/
def window (frame t : ℕ) : ℕ :=
  if 14 * (frame + 1) ≤ t then 14 * (frame + 1) + 24 - t else 0

theorem window_succ {a : ℕ} (ha : a < 22) :
    window a (t + 1) = if min (t / 14) 22 = a ∧ t % 14 = 13 then 24 else window a t - 1 := by
  rw [window, window]
  split_ifs <;> omega

/-- Windows do not overlap: a load frame ends behind the window of the one before. -/
theorem window_eq_zero {a b : ℕ} (hab : a + 3 ≤ b ∨ b + 3 ≤ a) (ha : a < 22)
    (h : min (t / 14) 22 = a ∧ t % 14 = 13) : window b t = 0 := by
  rw [window]
  split_ifs <;> omega

theorem ldFrame_lt (k i : Fin 3) : ldFrame k i < 22 := by
  revert k i
  decide

theorem ldFrame_gap (k : Fin 3) {i j : Fin 3} (h : i ≠ j) :
    ldFrame k i + 3 ≤ ldFrame k j ∨ ldFrame k j + 3 ≤ ldFrame k i := by
  revert k i j
  decide

/-- The extension counter of a cell is what is left of the window that is open. -/
theorem toNat_ext (k : Fin 3) :
    (∀ i, window (ldFrame k i) t ≠ 0 →
      ((s₀.afterSof d₀ fabOut t).ext k).toNat = window (ldFrame k i) t) ∧
    ((∀ i, window (ldFrame k i) t = 0) → ((s₀.afterSof d₀ fabOut t).ext k).toNat = 0) := by
  induction t with
  | zero => exact ⟨fun i hi => absurd (if_neg (by omega)) hi, fun _ => rfl⟩
  | succ t ih =>
    simp only [window_succ t (ldFrame_lt k _), toNat_ext_succ]
    by_cases h : (∃ i, min (t / 14) 22 = ldFrame k i) ∧ t % 14 = 13
    · -- a window opens, and every other one is closed
      obtain ⟨⟨i, hi⟩, h13⟩ := h
      simp only [if_pos (⟨⟨i, hi⟩, h13⟩ : (∃ i, min (t / 14) 22 = ldFrame k i) ∧ t % 14 = 13)]
      constructor
      · intro j hj
        by_cases hij : i = j
        · rw [← hij, if_pos ⟨hi, h13⟩]
        · have hgap := ldFrame_gap k hij
          have hzero := window_eq_zero t hgap (ldFrame_lt k i) ⟨hi, h13⟩
          rw [if_neg (by omega), hzero] at hj
          exact absurd rfl hj
      · intro hall
        have := hall i
        rw [if_pos ⟨hi, h13⟩] at this
        exact absurd this (by decide)
    · have hnone (i : Fin 3) : ¬(min (t / 14) 22 = ldFrame k i ∧ t % 14 = 13) :=
        fun hi => h ⟨⟨i, hi.1⟩, hi.2⟩
      simp only [if_neg h, if_neg (hnone _)]
      constructor
      · intro i hi
        rw [ih.1 i (by omega)]
      · intro hall
        by_cases hopen : ∃ i, window (ldFrame k i) t ≠ 0
        · obtain ⟨i, hi⟩ := hopen
          rw [ih.1 i hi, hall i]
        · rw [ih.2 fun i => by_contra fun hi => hopen ⟨i, hi⟩]

/-- The extension windows: 24 cycles behind each load frame. -/
theorem ext_ne_zero_iff (k : Fin 3) : ((s₀.afterSof d₀ fabOut t).ext k != 0#5) = true ↔
    ∃ i, ldTime k i + 8 ≤ t ∧ t < ldTime k i + 32 := by
  have hopen (i : Fin 3) :
      window (ldFrame k i) t ≠ 0 ↔ ldTime k i + 8 ≤ t ∧ t < ldTime k i + 32 := by
    rw [window, ldTime]
    split_ifs <;> omega
  obtain ⟨h1, h0⟩ := toNat_ext s₀ d₀ fabOut t k
  rw [bne_iff_ne, ne_eq, ← BitVec.toNat_inj]
  constructor
  · intro hne
    by_contra hno
    exact hne (h0 fun i => by_contra fun hi => hno ⟨i, (hopen i).1 hi⟩)
  · rintro ⟨i, hi⟩ hzero
    rw [h1 i ((hopen i).2 hi)] at hzero
    exact (hopen i).2 hi hzero

/-! ### The strobes by time -/

variable (k : Fin 3)

/-- A payload cycle of one of the first frames. -/
theorem payload_frame_iff {a : ℕ} (ha : a < 22) :
    (min (t / 14) 22 = a ∧ 6 ≤ t % 14) ↔ 14 * a + 6 ≤ t ∧ t < 14 * a + 14 := by
  omega

/-- One cycle of one of the first frames. -/
theorem cycle_frame_iff {a c : ℕ} (ha : a < 22) (hc : c < 14) :
    (min (t / 14) 22 = a ∧ t % 14 = c) ↔ t = 14 * a + c := by
  omega

theorem ld_payload_iff :
    ((s₀.afterSof d₀ fabOut t).ldF k && (s₀.afterSof d₀ fabOut t).payload) = true ↔
      ∃ i, ldTime k i ≤ t ∧ t < ldTime k i + 8 := by
  rw [Bool.and_eq_true, ldF_iff, payload_iff, toNat_cyc, toNat_frm, ← exists_and_right]
  exact exists_congr fun i => payload_frame_iff t (ldFrame_lt k i)

theorem load_iff : (s₀.afterSof d₀ fabOut t).load k = true ↔ Loads k t := by
  rw [load, Bool.or_eq_true, ld_payload_iff, ext_ne_zero_iff, ← exists_or]
  exact exists_congr fun i => by omega

theorem stFrame_lt (k : Fin 3) (i : Fin 2) : stFrame k i < 22 := by
  revert k i
  decide

theorem st_payload_iff :
    ((s₀.afterSof d₀ fabOut t).stF k && (s₀.afterSof d₀ fabOut t).payload) = true ↔
      Streams k t := by
  rw [Bool.and_eq_true, stF_iff, payload_iff, toNat_cyc, toNat_frm, ← exists_and_right]
  exact exists_congr fun i => payload_frame_iff t (stFrame_lt k i)

theorem bias_time_iff : (s₀.afterSof d₀ fabOut t).bias k = true ↔ Biases k t := by
  have hlt : biasFrame k < 22 := by
    revert k
    decide
  rw [bias_iff, toNat_cyc, toNat_frm]
  exact cycle_frame_iff t hlt (by decide)

theorem enA_iff : (s₀.afterSof d₀ fabOut t).enA k = true ↔ Streams k t ∨ Biases k t := by
  rw [enA, Bool.or_eq_true, st_payload_iff, bias_time_iff]

theorem enW_iff :
    (s₀.afterSof d₀ fabOut t).enW k = true ↔ Loads k t ∨ Streams k t ∨ Biases k t := by
  rw [enW, Bool.or_eq_true, Bool.or_eq_true, load_iff, st_payload_iff, bias_time_iff, or_assoc]

theorem sgn_iff : (s₀.afterSof d₀ fabOut t).sgn k = true ↔ ∃ i, t = stTime k i + 7 := by
  rw [sgn, Bool.and_eq_true, stF_iff, signCyc_iff, toNat_cyc, toNat_frm, ← exists_and_right]
  exact exists_congr fun i => cycle_frame_iff t (stFrame_lt k i) (by decide)

theorem clr_time_iff : (s₀.afterSof d₀ fabOut t).clr = true ↔ t = 0 := by
  rw [clr_iff, toNat_cyc, toNat_frm]
  exact cycle_frame_iff t (by decide) (by decide)

theorem act_time_iff : (s₀.afterSof d₀ fabOut t).act k = true ↔ t = 14 * actFrame k + 13 := by
  have hlt : actFrame k < 22 := by
    revert k
    decide
  rw [act_iff, toNat_cyc, toNat_frm]
  exact cycle_frame_iff t hlt (by decide)

/-- The sign flop takes the last payload bit of a load. -/
theorem sh_succ : (s₀.afterSof d₀ fabOut (t + 1)).sh k =
    if ∃ i, t = ldTime k i + 7 then fabOut t (port k) else (s₀.afterSof d₀ fabOut t).sh k := by
  have hcond : ((s₀.afterSof d₀ fabOut t).ldF k && (s₀.afterSof d₀ fabOut t).signCyc) = true ↔
      ∃ i, t = ldTime k i + 7 := by
    rw [Bool.and_eq_true, ldF_iff, signCyc_iff, toNat_cyc, toNat_frm, ← exists_and_right]
    exact exists_congr fun i => cycle_frame_iff t (ldFrame_lt k i) (by decide)
  have hstep : (s₀.afterSof d₀ fabOut (t + 1)).sh k =
      if (s₀.afterSof d₀ fabOut t).ldF k && (s₀.afterSof d₀ fabOut t).signCyc then
        fabOut t (port k) else (s₀.afterSof d₀ fabOut t).sh k := rfl
  rw [hstep]
  simp only [hcond]

end Run

end Saltworks.RTL.TtUmSaltworksNdfC32.Datapath
