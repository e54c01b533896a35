import Saltworks.Network.Banyan

/-!
# Conflicting traffic in a banyan network

The elements of a banyan network route whatever they latched. A packet that meets no other latches
its own destination bits and leaves at its destination; packets that meet on a line share the
latches of that line and every later one, and leave together, combined by `or`, at one output.
So a packet always leaves at exactly one output (`trace`), and the outputs are the destinations
for all packets of a frame if and only if no two of them meet.

## Main definitions

* `trace`: the line of a packet at a stage boundary, as the latches route it.
* `Offers`: the traffic of one frame, which may conflict.
* `NoConflict`: no two packets meet on a line.

## Main results

* `Offers.wires_trace`: the network shows each packet at the end of its trace, and nothing else.
* `Offers.connects_iff`: every destination shows its source if and only if there is no conflict.
-/

namespace Banyan

variable {k : ℕ} {L : Latches} {din : ℕ → ℕ → Bool}

/-! ### Traces -/

/-- The line before stage `s` of the packet that entered on line `i`. -/
def trace (k : ℕ) (L : Latches) (i : ℕ) : ℕ → ℕ
  | 0 => i
  | s + 1 => withBit (k - 1 - s) (L.sel s (trace k L i s)) (trace k L i s)

/-- The bits that no stage has routed yet are those of the source. -/
theorem testBit_trace_of_lt {i s b : ℕ} (hs : s ≤ k) (hb : b < k - s) :
    (trace k L i s).testBit b = i.testBit b := by
  induction s with
  | zero => rfl
  | succ s ih => rw [trace, testBit_withBit, if_neg (by omega), ih (by omega) (by omega)]

/-- A bit that a stage has routed stays. -/
theorem testBit_trace_of_le {i s t b : ℕ} (hst : s ≤ t) (ht : t ≤ k) (hb : k - s ≤ b) :
    (trace k L i t).testBit b = (trace k L i s).testBit b := by
  induction t, hst using Nat.le_induction with
  | base => rfl
  | succ t hst ih => rw [trace, testBit_withBit, if_neg (by omega), ih (by omega)]

/-- A trace follows the lines to the output at which it ends. -/
theorem trace_eq_line {i s : ℕ} (hs : s ≤ k) :
    trace k L i s = line k s i (trace k L i k) := by
  apply Nat.eq_of_testBit_eq
  intro b
  rw [testBit_line]
  split_ifs with hb
  · exact testBit_trace_of_lt hs hb
  · exact (testBit_trace_of_le hs (Nat.le_refl k) (Nat.le_of_not_lt hb)).symm

theorem trace_lt {i s : ℕ} (hi : i < 2 ^ k) (hs : s ≤ k) : trace k L i s < 2 ^ k := by
  refine Nat.lt_pow_two_of_testBit _ fun b hb => ?_
  rw [testBit_trace_of_le (Nat.zero_le s) hs (by omega), trace]
  exact Nat.testBit_eq_false_of_lt (hi.trans_le (Nat.pow_le_pow_right (by decide) hb))

/-- Packets that meet stay together. -/
theorem trace_eq_of_meet {i j s : ℕ} (h : trace k L i s = trace k L j s) {t : ℕ} (hst : s ≤ t) :
    trace k L i t = trace k L j t := by
  induction t, hst using Nat.le_induction with
  | base => exact h
  | succ t hst ih => rw [trace, trace, ih]

/-- The trace before stage `s` reads the destination bits of the stages in front of it. -/
theorem trace_congr {L L' : Latches} {i s : ℕ} (h : ∀ t < s, L.sel t = L'.sel t) :
    trace k L i s = trace k L' i s := by
  induction s with
  | zero => rfl
  | succ s ih => rw [trace, trace, ih fun t ht => h t (by omega), h s (Nat.lt_succ_self s)]

/-- From cycle `2 s` on the traces before stage `s` stay. -/
theorem trace_run {i s c : ℕ} (hs : s ≤ k) (hc : 2 * s ≤ c) :
    trace k (L.run k din c) i s = trace k (L.run k din (2 * s)) i s := by
  refine trace_congr fun t ht => ?_
  rw [Latches.run_sel (by omega) (by omega), Latches.run_sel (by omega) (by omega)]

/-! ### Offered traffic -/

/-- One frame's traffic: the active sources, their destinations and what the lines present in the
header. -/
structure Offers (k : ℕ) (active : ℕ → Prop) (dest : ℕ → ℕ) (din : ℕ → ℕ → Bool) : Prop where
  source_lt : ∀ i, active i → i < 2 ^ k
  dest_lt : ∀ i, active i → dest i < 2 ^ k
  act : ∀ s < k, ∀ i, active i → din (2 * s) i = true
  sel : ∀ s < k, ∀ i, active i → din (2 * s + 1) i = (dest i).testBit (k - 1 - s)
  idle : ∀ i, ¬active i → din 0 i = false

/-- No two packets meet on a line. -/
def NoConflict (k : ℕ) (active : ℕ → Prop) (dest : ℕ → ℕ) : Prop :=
  ∀ s ≤ k, ∀ i j, active i → active j → line k s i (dest i) = line k s j (dest j) → i = j

/-- The latches in cycle `c` read the cycles before it. -/
theorem Latches.run_congr {L : Latches} {din din' : ℕ → ℕ → Bool} {c : ℕ}
    (h : ∀ t < c, din t = din' t) : L.run k din c = L.run k din' c := by
  induction c with
  | zero => rfl
  | succ c ih =>
    change (L.run k din c).step k c (din c) = (L.run k din' c).step k c (din' c)
    rw [ih fun t ht => h t (by omega), h c (Nat.lt_succ_self c)]

namespace Offers

variable {active : ℕ → Prop} {dest : ℕ → ℕ}

/-- From cycle `2 s` on a line before stage `s` is high iff a packet whose trace is there is high.
Before stage `0` this is so on the active lines, and on every line in cycle `0`. -/
theorem wires_eq_true (F : Offers k active dest din) (L : Latches) {s : ℕ} (hs : s ≤ k) {c : ℕ}
    (hc : 2 * s ≤ c) (w : ℕ → Bool) (l : ℕ) (h0 : s = 0 → active l ∨ w = din 0) :
    wires k (L.run k din c) w s l = true ↔
      ∃ i, active i ∧ trace k (L.run k din c) i s = l ∧ w i = true := by
  induction s generalizing c w l with
  | zero =>
    constructor
    · intro hw
      refine ⟨l, ?_, rfl, hw⟩
      rcases h0 rfl with hact | rfl
      · exact hact
      · by_contra hact
        exact Bool.false_ne_true ((F.idle l hact).symm.trans hw)
    · rintro ⟨i, -, rfl, hw⟩
      exact hw
  | succ s ih =>
    -- stage `s` holds the lines of the packets, latched in cycle `2 s`
    have hact (m : ℕ) : (L.run k din c).act s m = true ↔
        ∃ i, active i ∧ trace k (L.run k din c) i s = m := by
      rw [Latches.run_act (by omega) (by omega), ih (by omega) (Nat.le_refl _) (din (2 * s)) m
        fun h => Or.inr (by rw [h])]
      refine exists_congr fun i => and_congr_right fun hi => ?_
      rw [F.act s (by omega) i hi, trace_run (L := L) (c := c) (by omega) (by omega)]
      exact and_iff_left rfl
    rw [wires, stageOut_eq_true]
    constructor
    · rintro ⟨m, hm, hl, hw⟩
      have hline : s = 0 → active m ∨ w = din 0 := by
        rintro rfl
        obtain ⟨i, hi, rfl⟩ := (hact m).1 hm
        exact Or.inl hi
      obtain ⟨i, hi, rfl, hwi⟩ := (ih (by omega) (by omega) w m hline).1 hw
      exact ⟨i, hi, hl, hwi⟩
    · rintro ⟨i, hi, hl, hwi⟩
      refine ⟨trace k (L.run k din c) i s, (hact _).2 ⟨i, hi, rfl⟩, hl, ?_⟩
      refine (ih (by omega) (by omega) w _ ?_).2 ⟨i, hi, rfl, hwi⟩
      rintro rfl
      exact Or.inl hi

/-- After the header an output is high iff a packet that ends there is high: a packet leaves at
one output, and packets that have met leave together. -/
theorem wires_trace (F : Offers k active dest din) (L : Latches) (hk : 0 < k) {c : ℕ}
    (hc : 2 * k ≤ c) (w : ℕ → Bool) (l : ℕ) :
    wires k (L.run k din c) w k l = true ↔
      ∃ i, active i ∧ trace k (L.run k din c) i k = l ∧ w i = true :=
  F.wires_eq_true L (Nat.le_refl k) hc w l fun h => absurd h (by omega)

/-- Traffic without conflicts is a frame, whatever the lines carry after the header. -/
theorem frame (F : Offers k active dest din) (hno : NoConflict k active dest) {c : ℕ}
    (hc : 2 * k ≤ c) (hk : 0 < k) (w : ℕ → Bool) :
    Frame k active dest (Function.update din c w) where
  source_lt := F.source_lt
  dest_lt := F.dest_lt
  disjoint := hno
  act s hs i hi := by
    rw [Function.update_of_ne (by omega)]
    exact F.act s hs i hi
  sel s hs i hi := by
    rw [Function.update_of_ne (by omega)]
    exact F.sel s hs i hi
  idle i hi := by
    rw [Function.update_of_ne (by omega)]
    exact F.idle i hi

/-- If every destination shows its source, each trace ends at the destination and two traces end
at different outputs. -/
theorem trace_of_connects (F : Offers k active dest din) (L : Latches) (hk : 0 < k) {c : ℕ}
    (hc : 2 * k ≤ c)
    (h : ∀ w, ∀ i, active i → wires k (L.run k din c) w k (dest i) = w i) {i j : ℕ}
    (hi : active i) (hj : active j) :
    trace k (L.run k din c) i k = dest i ∧
      (trace k (L.run k din c) i k = trace k (L.run k din c) j k → i = j) := by
  -- raise the line of one source only
  have hend (m : ℕ) (hm : active m) : trace k (L.run k din c) m k = dest m := by
    have hw := h (fun l => l == m) m hm
    rw [beq_self_eq_true, F.wires_trace L hk hc] at hw
    obtain ⟨i, -, htr, him⟩ := hw
    obtain rfl := beq_iff_eq.1 him
    exact htr
  refine ⟨hend i hi, fun hij => ?_⟩
  have hw : wires k (L.run k din c) (fun l => l == j) k (dest i) = true :=
    (F.wires_trace L hk hc _ _).2 ⟨j, hj, hij.symm.trans (hend i hi), beq_self_eq_true j⟩
  rw [h _ i hi] at hw
  exact beq_iff_eq.1 hw

/-- **Delivery of arbitrary traffic.** After the header every destination shows its source,
whatever the lines carry, if and only if no two packets meet. -/
theorem connects_iff (F : Offers k active dest din) (L : Latches) (hk : 0 < k) {c : ℕ}
    (hc : 2 * k ≤ c) :
    (∀ w, ∀ i, active i → wires k (L.run k din c) w k (dest i) = w i) ↔
      NoConflict k active dest := by
  constructor
  · intro h s hs i j hi hj hline
    obtain ⟨hdi, hinj⟩ := F.trace_of_connects L hk hc h hi hj
    obtain ⟨hdj, -⟩ := F.trace_of_connects L hk hc h hj hi
    rw [← hdi, ← hdj, ← trace_eq_line hs, ← trace_eq_line hs] at hline
    exact hinj (trace_eq_of_meet hline hs)
  · intro hno w i hi
    have hrun : L.run k din c = L.run k (Function.update din c w) c :=
      Latches.run_congr fun t ht => (Function.update_of_ne (by omega) w din).symm
    have hdel := (F.frame hno hc hk w).wires_dest L hc hi
    rwa [Function.update_self, ← hrun] at hdel

/-- Without a conflict an output that is no destination is low. -/
theorem idle_outputs (F : Offers k active dest din) (L : Latches) (hk : 0 < k) {c : ℕ}
    (hc : 2 * k ≤ c) (hno : NoConflict k active dest) (w : ℕ → Bool) {l : ℕ}
    (hl : ∀ i, active i → dest i ≠ l) : wires k (L.run k din c) w k l = false := by
  rw [Bool.eq_false_iff]
  intro h
  obtain ⟨i, hi, htr, -⟩ := (F.wires_trace L hk hc w l).1 h
  have hend := (F.trace_of_connects L hk hc ((F.connects_iff L hk hc).2 hno) hi hi).1
  exact hl i hi (hend.symm.trans htr)

end Offers

end Banyan
