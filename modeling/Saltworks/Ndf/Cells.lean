import Saltworks.Ndf.Timetable

/-!
# The cells on the timetable

What a cell's registers do in each part of the timetable: the weight register takes in a load bit
by bit, shifts in stream and bias cycles, and is frozen in between; the accumulator takes the bias
once, a signed product in each stream frame, and holds.

## Main definitions

* `weight`, `accReg`: the registers of a cell.
* `loadBits`, `streamBits`: what a cell takes in.

## Main results

* `weight_load`: a loaded weight register.
* `weight_of_freeze`, `accReg_of_hold`: the frozen registers.
* `accReg_stream`: a stream frame adds a signed product.
-/

namespace Saltworks.RTL.TtUmSaltworksNdfC32.Datapath

open BanyanFabric (Lines)

/-- The weight register of a cell. -/
def weight (s : Datapath) (k : Fin 3) : BitVec 32 := (s.cell k.castSucc).w

/-- The accumulator of a cell. -/
def accReg (s : Datapath) (k : Fin 3) : BitVec 32 := (s.cell k.castSucc).acc

/-! ### The timetable of a cell does not overlap -/

section Table

variable {k : Fin 3} {t : ℕ}

theorem ldTime_stTime (k i : Fin 3) (j : Fin 2) :
    ldTime k i + 32 ≤ stTime k j ∨ stTime k j + 8 ≤ ldTime k i := by
  revert k i j
  decide

theorem ldTime_biasTime (k i : Fin 3) : ldTime k i + 32 ≤ biasTime k ∨ biasTime k < ldTime k i := by
  revert k i
  decide

theorem biasTime_lt_stTime (k : Fin 3) (j : Fin 2) : biasTime k < stTime k j := by
  revert k j
  decide

theorem ldTime_gap (k : Fin 3) {i j : Fin 3} (h : i ≠ j) :
    ldTime k i + 42 ≤ ldTime k j ∨ ldTime k j + 42 ≤ ldTime k i := by
  have := ldFrame_gap k h
  simp only [ldTime]
  omega

theorem stTime_lt (k : Fin 3) : stTime k 0 + 8 ≤ stTime k 1 := by
  revert k
  decide

theorem Loads.not_streams (h : Loads k t) : ¬Streams k t := by
  rintro ⟨j, hj⟩
  obtain ⟨i, hi⟩ := h
  have := ldTime_stTime k i j
  omega

theorem Loads.not_biases (h : Loads k t) : ¬Biases k t := by
  rintro rfl
  obtain ⟨i, hi⟩ := h
  have := ldTime_biasTime k i
  omega

theorem Streams.not_biases (h : Streams k t) : ¬Biases k t := by
  rintro rfl
  obtain ⟨j, hj⟩ := h
  have := biasTime_lt_stTime k j
  omega

end Table

section Run

variable (s₀ : Datapath) (d₀ : Lines) (fabOut : ℕ → Lines) (k : Fin 3) {t : ℕ}

theorem weight_succ (t : ℕ) : (s₀.afterSof d₀ fabOut (t + 1)).weight k =
    if (s₀.afterSof d₀ fabOut t).enW k then
      ((s₀.afterSof d₀ fabOut t).weight k).shiftConcat
        ((s₀.afterSof d₀ fabOut t).load k && (s₀.afterSof d₀ fabOut t).x (fabOut t) k)
    else (s₀.afterSof d₀ fabOut t).weight k := by
  have hk : (k.castSucc : Fin 4).val < 3 := k.isLt
  rw [weight, afterSof_succ, posedge]
  simp only [dif_pos hk, MacCell.posedge_w]
  rfl

theorem accReg_succ (t : ℕ) : (s₀.afterSof d₀ fabOut (t + 1)).accReg k =
    if (s₀.afterSof d₀ fabOut t).clr then 0#32
    else if (s₀.afterSof d₀ fabOut t).enA k then (s₀.afterSof d₀ fabOut t).acc (fabOut t) k
    else (s₀.afterSof d₀ fabOut t).accReg k := by
  have hk : (k.castSucc : Fin 4).val < 3 := k.isLt
  rw [accReg, afterSof_succ, posedge]
  simp only [dif_pos hk, MacCell.posedge_acc]
  rfl

/-- The outputs of a cell add or subtract its weight. -/
theorem acc_eq (t : ℕ) : (s₀.afterSof d₀ fabOut t).acc (fabOut t) k =
    if (s₀.afterSof d₀ fabOut t).sgn k then (s₀.afterSof d₀ fabOut t).accReg k -
        (if (s₀.afterSof d₀ fabOut t).x (fabOut t) k then (s₀.afterSof d₀ fabOut t).weight k
          else 0#32)
    else (s₀.afterSof d₀ fabOut t).accReg k +
      (if (s₀.afterSof d₀ fabOut t).x (fabOut t) k then (s₀.afterSof d₀ fabOut t).weight k
        else 0#32) :=
  MacCell.sum_eq _ _

/-! ### Frozen registers -/

/-- A weight register is frozen where its cell neither loads nor accumulates. -/
theorem weight_of_freeze {a b : ℕ} (hab : a ≤ b)
    (h : ∀ t, a ≤ t → t < b → ¬Loads k t ∧ ¬Streams k t ∧ ¬Biases k t) :
    (s₀.afterSof d₀ fabOut b).weight k = (s₀.afterSof d₀ fabOut a).weight k := by
  induction b, hab using Nat.le_induction with
  | base => rfl
  | succ b hab ih =>
    obtain ⟨hl, hs, hb⟩ := h b hab (Nat.lt_succ_self b)
    rw [weight_succ, if_neg, ih fun t ha ht => h t ha (Nat.lt_succ_of_lt ht)]
    rw [enW_iff]
    rintro (h | h | h)
    · exact hl h
    · exact hs h
    · exact hb h

/-- An accumulator holds where its cell neither streams nor spends its bias. -/
theorem accReg_of_hold {a b : ℕ} (ha : 0 < a) (hab : a ≤ b)
    (h : ∀ t, a ≤ t → t < b → ¬Streams k t ∧ ¬Biases k t) :
    (s₀.afterSof d₀ fabOut b).accReg k = (s₀.afterSof d₀ fabOut a).accReg k := by
  induction b, hab using Nat.le_induction with
  | base => rfl
  | succ b hab ih =>
    obtain ⟨hs, hb⟩ := h b hab (Nat.lt_succ_self b)
    have hclr : (s₀.afterSof d₀ fabOut b).clr ≠ true := by
      rw [ne_eq, clr_time_iff]
      omega
    have henA : (s₀.afterSof d₀ fabOut b).enA k ≠ true := by
      rw [ne_eq, enA_iff]
      exact fun h => h.elim hs hb
    rw [accReg_succ, if_neg hclr, if_neg henA, ih fun t ha ht => h t ha (Nat.lt_succ_of_lt ht)]

/-! ### Loads -/

/-- What the weight register takes in: the payload bits, and the last one again and again. -/
def loadBits (i : Fin 3) (j : ℕ) : Bool := fabOut (ldTime k i + min j 7) (port k)

theorem bias_eq_false (h : ¬Biases k t) : (s₀.afterSof d₀ fabOut t).bias k = false := by
  rw [Bool.eq_false_iff, ne_eq, bias_time_iff]
  exact h

/-- The sign flop holds the last payload bit through the extension. -/
theorem sh_extension (i : Fin 3) {j : ℕ} (hj : j ≤ 24) :
    (s₀.afterSof d₀ fabOut (ldTime k i + 8 + j)).sh k = fabOut (ldTime k i + 7) (port k) := by
  induction j with
  | zero =>
    change (s₀.afterSof d₀ fabOut (ldTime k i + 7 + 1)).sh k = _
    rw [sh_succ, if_pos ⟨i, rfl⟩]
  | succ j ih =>
    rw [← Nat.add_assoc, sh_succ, if_neg, ih (Nat.le_of_succ_le hj)]
    rintro ⟨i', hi'⟩
    by_cases h : i = i'
    · subst h
      omega
    · have := ldTime_gap k h
      omega

theorem load_bit (i : Fin 3) {j : ℕ} (hj : j < 32) :
    ((s₀.afterSof d₀ fabOut (ldTime k i + j)).load k &&
      (s₀.afterSof d₀ fabOut (ldTime k i + j)).x (fabOut (ldTime k i + j)) k) =
        loadBits fabOut k i j := by
  have hloads : Loads k (ldTime k i + j) := ⟨i, by omega, by omega⟩
  rw [(load_iff ..).2 hloads, Bool.true_and, x, bias_eq_false _ _ _ _ hloads.not_biases,
    if_neg Bool.false_ne_true, loadBits]
  by_cases hpay : j < 8
  · rw [if_pos ((ld_payload_iff ..).2 ⟨i, by omega, by omega⟩), Nat.min_eq_left (by omega)]
  · have hnot : ¬((s₀.afterSof d₀ fabOut (ldTime k i + j)).ldF k &&
        (s₀.afterSof d₀ fabOut (ldTime k i + j)).payload) = true := by
      rw [ld_payload_iff]
      rintro ⟨i', hi'⟩
      by_cases h : i = i'
      · subst h
        omega
      · have := ldTime_gap k h
        omega
    obtain ⟨m, rfl⟩ := Nat.exists_eq_add_of_le (Nat.not_lt.1 hpay)
    rw [if_neg hnot, if_pos ((ext_ne_zero_iff ..).2 ⟨i, by omega, by omega⟩),
      Nat.min_eq_right (by omega), ← Nat.add_assoc, sh_extension _ _ _ _ _ (by omega)]

/-- **A load** takes in the payload bits and 24 copies of the last one, each at the low end. -/
theorem weight_load (i : Fin 3) {j : ℕ} (hj : j ≤ 32) :
    (s₀.afterSof d₀ fabOut (ldTime k i + j)).weight k =
      ((s₀.afterSof d₀ fabOut (ldTime k i)).weight k).shiftIn (loadBits fabOut k i) j := by
  induction j with
  | zero => rfl
  | succ j ih =>
    have hloads : Loads k (ldTime k i + j) := ⟨i, by omega, by omega⟩
    rw [← Nat.add_assoc, weight_succ, if_pos ((enW_iff ..).2 (.inl hloads)),
      load_bit _ _ _ _ _ hj, ih (Nat.le_of_succ_le hj), BitVec.shiftIn]

/-! ### The bias and the streams -/

/-- What a cell is streamed. -/
def streamBits (i : Fin 2) (j : ℕ) : Bool := fabOut (stTime k i + j) (port k)

theorem load_eq_false (h : ¬Loads k t) : (s₀.afterSof d₀ fabOut t).load k = false := by
  rw [Bool.eq_false_iff, ne_eq, load_iff]
  exact h

/-- The bias cycle adds the weight. -/
theorem accReg_bias : (s₀.afterSof d₀ fabOut (biasTime k + 1)).accReg k =
    (s₀.afterSof d₀ fabOut (biasTime k)).accReg k +
      (s₀.afterSof d₀ fabOut (biasTime k)).weight k := by
  have hclr : (s₀.afterSof d₀ fabOut (biasTime k)).clr ≠ true := by
    rw [ne_eq, clr_time_iff, biasTime]
    omega
  have hsgn : (s₀.afterSof d₀ fabOut (biasTime k)).sgn k ≠ true := by
    rw [ne_eq, sgn_iff]
    rintro ⟨i, hi⟩
    have := biasTime_lt_stTime k i
    omega
  rw [accReg_succ, if_neg hclr, if_pos ((enA_iff ..).2 (.inr rfl)), acc_eq, if_neg hsgn, x,
    if_pos ((bias_time_iff ..).2 rfl), if_pos rfl]

section Stream

variable (i : Fin 2) {j : ℕ} (hj : j < 8)

include hj

theorem streams_stTime : Streams k (stTime k i + j) := ⟨i, by omega, by omega⟩

theorem not_loads_stTime : ¬Loads k (stTime k i + j) :=
  fun h => h.not_streams (streams_stTime k i hj)

theorem x_stream : (s₀.afterSof d₀ fabOut (stTime k i + j)).x (fabOut (stTime k i + j)) k =
    streamBits fabOut k i j := by
  have hload := load_eq_false s₀ d₀ fabOut k (not_loads_stTime k i hj)
  rw [load, Bool.or_eq_false_iff] at hload
  rw [x, bias_eq_false _ _ _ _ (streams_stTime k i hj).not_biases, hload.1, hload.2,
    (st_payload_iff ..).2 (streams_stTime k i hj), streamBits]
  simp

theorem sgn_stream : (s₀.afterSof d₀ fabOut (stTime k i + j)).sgn k = true ↔ j = 7 := by
  rw [sgn_iff]
  constructor
  · rintro ⟨i', hi'⟩
    have := stTime_lt k
    fin_cases i <;> fin_cases i' <;> simp at hi' <;> omega
  · rintro rfl
    exact ⟨i, rfl⟩

end Stream

/-- In a stream frame the weight register shifts up. -/
theorem weight_stream (i : Fin 2) {j : ℕ} (hj : j ≤ 8) :
    (s₀.afterSof d₀ fabOut (stTime k i + j)).weight k =
      (s₀.afterSof d₀ fabOut (stTime k i)).weight k <<< j := by
  induction j with
  | zero => exact (BitVec.shiftLeft_zero _).symm
  | succ j ih =>
    rw [← Nat.add_assoc, weight_succ,
      if_pos ((enW_iff ..).2 (.inr (.inl (streams_stTime k i hj)))),
      load_eq_false _ _ _ _ (not_loads_stTime k i hj), Bool.false_and,
      ih (Nat.le_of_succ_le hj), BitVec.shiftConcat_shiftLeft]

theorem accReg_stream_succ (i : Fin 2) {j : ℕ} (hj : j < 8) :
    (s₀.afterSof d₀ fabOut (stTime k i + j + 1)).accReg k =
      if j = 7 then (s₀.afterSof d₀ fabOut (stTime k i + j)).accReg k -
        (if streamBits fabOut k i j then
          (s₀.afterSof d₀ fabOut (stTime k i)).weight k <<< j else 0#32)
      else (s₀.afterSof d₀ fabOut (stTime k i + j)).accReg k +
        (if streamBits fabOut k i j then
          (s₀.afterSof d₀ fabOut (stTime k i)).weight k <<< j else 0#32) := by
  have hclr : (s₀.afterSof d₀ fabOut (stTime k i + j)).clr ≠ true := by
    rw [ne_eq, clr_time_iff, stTime]
    omega
  rw [accReg_succ, if_neg hclr, if_pos ((enA_iff ..).2 (.inl (streams_stTime k i hj))), acc_eq,
    x_stream _ _ _ _ _ hj, weight_stream _ _ _ _ _ hj.le]
  simp only [sgn_stream s₀ d₀ fabOut k i hj]

/-- **A stream frame** adds the signed product of the weight and the streamed byte. -/
theorem accReg_stream (i : Fin 2) :
    (s₀.afterSof d₀ fabOut (stTime k i + 8)).accReg k =
      (s₀.afterSof d₀ fabOut (stTime k i)).accReg k +
        (s₀.afterSof d₀ fabOut (stTime k i)).weight k *
          (BitVec.byteOf (streamBits fabOut k i)).signExtend 32 := by
  have hsum (j : ℕ) (hj : j ≤ 7) : (s₀.afterSof d₀ fabOut (stTime k i + j)).accReg k =
      (s₀.afterSof d₀ fabOut (stTime k i)).accReg k +
        BitVec.serialMul ((s₀.afterSof d₀ fabOut (stTime k i)).weight k)
          (streamBits fabOut k i) j := by
    induction j with
    | zero => exact (BitVec.add_zero _).symm
    | succ j ih =>
      rw [← Nat.add_assoc, accReg_stream_succ _ _ _ _ _ (by omega), if_neg (by omega),
        ih (by omega), BitVec.serialMul, BitVec.add_assoc]
  change (s₀.afterSof d₀ fabOut (stTime k i + 7 + 1)).accReg k = _
  rw [accReg_stream_succ _ _ _ _ _ (by decide), if_pos rfl, hsum 7 (by decide),
    ← BitVec.serialMul_sub, add_sub_assoc]

end Run

end Saltworks.RTL.TtUmSaltworksNdfC32.Datapath
