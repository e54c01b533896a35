import Mathlib.Data.Nat.Bitwise
import Mathlib.Tactic.Common

/-!
# Self-routing in a banyan network

A banyan network of `k` stages has `2 ^ k` lines. Stage `s` exchanges lines that differ in bit
`k - 1 - s`: a packet on a line leaves on the line of the pair whose bit is the packet's
destination bit, so after `s` stages the packet from source `i` to destination `d` is on the line
whose upper `s` bits are those of `d` and whose lower bits are those of `i` (`line`).

Packets are bit-serial. The elements of stage `s` latch an activity bit in cycle `2 s` of a frame
and a destination bit in cycle `2 s + 1`, and are transparent: from then on the two lines of a
pair are combined within the cycle.

## Main definitions

* `line`: the line of a packet at a stage boundary.
* `Latches`, `stageOut`, `wires`, `Latches.step`: the network and its clock edge.
* `Frame`: the traffic of one frame, free of conflicts.

## Main results

* `line_ne_line`: sources and destinations in the same order do not meet on a line.
* `Frame.wires_dest`, `Frame.wires_idle`: after the header each destination shows its source, and
  every other line is low.
-/

namespace Banyan

/-! ### Lines -/

/-- The line of the packet from `i` to `d` before stage `s`. -/
def line (k s i d : ℕ) : ℕ := 2 ^ (k - s) * (d / 2 ^ (k - s)) + i % 2 ^ (k - s)

theorem testBit_line (k s i d b : ℕ) :
    (line k s i d).testBit b = if b < k - s then i.testBit b else d.testBit b := by
  have hlt : i % 2 ^ (k - s) < 2 ^ (k - s) := Nat.mod_lt _ (Nat.two_pow_pos _)
  rw [line, Nat.testBit_two_pow_mul_add _ hlt]
  split_ifs with hb
  · rw [Nat.testBit_mod_two_pow, decide_eq_true hb, Bool.true_and]
  · rw [Nat.testBit_div_two_pow, Nat.sub_add_cancel (Nat.le_of_not_lt hb)]

/-- A packet enters on the line of its source. -/
theorem line_zero {k i d : ℕ} (hi : i < 2 ^ k) (hd : d < 2 ^ k) : line k 0 i d = i := by
  rw [line, Nat.sub_zero, Nat.div_eq_of_lt hd, Nat.mul_zero, Nat.zero_add, Nat.mod_eq_of_lt hi]

/-- A packet leaves on the line of its destination. -/
theorem line_self (k i d : ℕ) : line k k i d = d := by
  rw [line, Nat.sub_self, Nat.pow_zero, Nat.mod_one, Nat.div_one, Nat.one_mul, Nat.add_zero]

/-- Sources whose destinations are in the same order, and at least as far apart, are on different
lines at every stage. -/
theorem line_ne_line {k s i j d e : ℕ} (hij : i < j) (hde : d + (j - i) ≤ e) :
    line k s i d ≠ line k s j e := by
  intro h
  have hpos : 0 < 2 ^ (k - s) := Nat.two_pow_pos _
  have hmod : i % 2 ^ (k - s) = j % 2 ^ (k - s) := by
    have hm := congrArg (· % 2 ^ (k - s)) h
    simpa only [line, Nat.mul_add_mod, Nat.mod_mod] using hm
  have hdiv : d / 2 ^ (k - s) = e / 2 ^ (k - s) := by
    rw [line, line, hmod] at h
    exact Nat.eq_of_mul_eq_mul_left hpos (by omega)
  -- the lower bits agree, so the sources are a whole block apart; the upper bits put the
  -- destinations into one block
  have hblock : 2 ^ (k - s) ≤ j - i :=
    Nat.le_of_dvd (by omega) (Nat.dvd_of_mod_eq_zero (Nat.sub_mod_eq_zero_of_mod_eq hmod.symm))
  have hd := Nat.div_add_mod d (2 ^ (k - s))
  have he := Nat.div_add_mod e (2 ^ (k - s))
  have hlt := Nat.mod_lt e hpos
  rw [hdiv] at hd
  omega

/-- The line of a pair whose bit `b` is `v`. -/
def withBit (b : ℕ) (v : Bool) (l : ℕ) : ℕ := if l.testBit b = v then l else l ^^^ 2 ^ b

theorem testBit_withBit (b : ℕ) (v : Bool) (l c : ℕ) :
    (withBit b v l).testBit c = if c = b then v else l.testBit c := by
  rw [withBit]
  split_ifs with hv hc hc
  · rw [hc, hv]
  · rfl
  · rw [hc, Nat.testBit_xor, Nat.testBit_two_pow_self]
    revert hv
    cases l.testBit b <;> cases v <;> simp
  · rw [Nat.testBit_xor, Nat.testBit_two_pow_of_ne (Ne.symm hc), Bool.xor_false]

@[simp] theorem withBit_testBit_self (b l : ℕ) : withBit b (l.testBit b) l = l := if_pos rfl

@[simp] theorem withBit_withBit (b : ℕ) (v w : Bool) (l : ℕ) :
    withBit b v (withBit b w l) = withBit b v l := by
  apply Nat.eq_of_testBit_eq
  intro c
  simp only [testBit_withBit]
  split_ifs <;> rfl

/-- A stage moves a packet to the line whose bit is its destination's. -/
theorem withBit_line {k s : ℕ} (hs : s < k) (i d : ℕ) :
    withBit (k - 1 - s) (d.testBit (k - 1 - s)) (line k s i d) = line k (s + 1) i d := by
  apply Nat.eq_of_testBit_eq
  intro c
  rw [testBit_withBit, testBit_line, testBit_line]
  split_ifs <;> first | rfl | omega | (subst c; rfl)

/-! ### Elements -/

/-- What the elements of each stage hold for the lines that enter them. -/
@[ext]
structure Latches where
  act : ℕ → ℕ → Bool
  sel : ℕ → ℕ → Bool

/-- The lines behind a stage that exchanges bit `b`: an entering line that is active claims the
line of its pair that its destination bit names. -/
def stageOut (b : ℕ) (act sel w : ℕ → Bool) (l : ℕ) : Bool :=
  let enter v := act (withBit b v l) && (sel (withBit b v l) == l.testBit b) && w (withBit b v l)
  enter false || enter true

/-- The lines before stage `s`; those before stage `0` are the inputs. -/
def wires (k : ℕ) (L : Latches) (din : ℕ → Bool) : ℕ → ℕ → Bool
  | 0 => din
  | s + 1 => stageOut (k - 1 - s) (L.act s) (L.sel s) (wires k L din s)

/-- The clock edge of frame cycle `c`. -/
def Latches.step (k c : ℕ) (din : ℕ → Bool) (L : Latches) : Latches where
  act s := if s < k ∧ c = 2 * s then wires k L din s else L.act s
  sel s := if s < k ∧ c = 2 * s + 1 then wires k L din s else L.sel s

/-- A line behind a stage is high iff an active line that selects it is high. -/
theorem stageOut_eq_true {b : ℕ} {act sel w : ℕ → Bool} {l : ℕ} :
    stageOut b act sel w l = true ↔
      ∃ m, act m = true ∧ withBit b (sel m) m = l ∧ w m = true := by
  constructor
  · intro h
    simp only [stageOut, Bool.or_eq_true, Bool.and_eq_true, beq_iff_eq] at h
    obtain ⟨⟨ha, hs⟩, hw⟩ | ⟨⟨ha, hs⟩, hw⟩ := h
    · exact ⟨_, ha, by rw [hs, withBit_withBit, withBit_testBit_self], hw⟩
    · exact ⟨_, ha, by rw [hs, withBit_withBit, withBit_testBit_self], hw⟩
  · rintro ⟨m, ha, rfl, hw⟩
    have hm : withBit b (m.testBit b) (withBit b (sel m) m) = m := by simp
    have hbit : (withBit b (sel m) m).testBit b = sel m := by simp [testBit_withBit]
    rw [stageOut, hbit]
    cases hv : m.testBit b <;> rw [hv] at hm <;> simp [hm, ha, hw]

/-! ### Frames -/

/-- The latches in cycle `c` of a frame, from whatever they held at its start. -/
def Latches.run (k : ℕ) (L : Latches) (din : ℕ → ℕ → Bool) : ℕ → Latches
  | 0 => L
  | c + 1 => (Latches.run k L din c).step k c (din c)

variable {k : ℕ} {L : Latches} {din : ℕ → ℕ → Bool}

/-- After cycle `2 s` the activity bits of stage `s` stay. -/
theorem Latches.run_act {s c : ℕ} (hs : s < k) (hc : 2 * s < c) :
    (L.run k din c).act s = wires k (L.run k din (2 * s)) (din (2 * s)) s := by
  induction c with
  | zero => omega
  | succ c ih =>
    change ((L.run k din c).step k c (din c)).act s = _
    simp only [Latches.step]
    split_ifs with h
    · rw [h.2]
    · exact ih (by omega)

/-- After cycle `2 s + 1` the destination bits of stage `s` stay. -/
theorem Latches.run_sel {s c : ℕ} (hs : s < k) (hc : 2 * s + 1 < c) :
    (L.run k din c).sel s = wires k (L.run k din (2 * s + 1)) (din (2 * s + 1)) s := by
  induction c with
  | zero => omega
  | succ c ih =>
    change ((L.run k din c).step k c (din c)).sel s = _
    simp only [Latches.step]
    split_ifs with h
    · rw [h.2]
    · exact ih (by omega)

/-- One frame's traffic: the active sources, their destinations and what the lines present, cycle
by cycle. -/
structure Frame (k : ℕ) (active : ℕ → Prop) (dest : ℕ → ℕ) (din : ℕ → ℕ → Bool) : Prop where
  source_lt : ∀ i, active i → i < 2 ^ k
  dest_lt : ∀ i, active i → dest i < 2 ^ k
  /-- No two packets meet on a line. -/
  disjoint : ∀ s ≤ k, ∀ i j, active i → active j →
    line k s i (dest i) = line k s j (dest j) → i = j
  act : ∀ s < k, ∀ i, active i → din (2 * s) i = true
  sel : ∀ s < k, ∀ i, active i → din (2 * s + 1) i = (dest i).testBit (k - 1 - s)
  idle : ∀ i, ¬active i → din 0 i = false

namespace Frame

variable {active : ℕ → Prop} {dest : ℕ → ℕ}

/-- From cycle `2 s` on the lines before stage `s` carry the active inputs, and the other lines
are low (before stage `0`, in cycle `0` only). -/
theorem carries (F : Frame k active dest din) (L : Latches) (s : ℕ) (hs : s ≤ k) :
    ∀ c, 2 * s ≤ c →
      (∀ i, active i → wires k (L.run k din c) (din c) s (line k s i (dest i)) = din c i) ∧
      ((s = 0 → c = 0) → ∀ l, (∀ i, active i → line k s i (dest i) ≠ l) →
        wires k (L.run k din c) (din c) s l = false) := by
  induction s with
  | zero =>
    intro c hc
    have hline (i : ℕ) (hi : active i) : line k 0 i (dest i) = i :=
      line_zero (F.source_lt i hi) (F.dest_lt i hi)
    refine ⟨fun i hi => by rw [hline i hi]; rfl, fun h0 l hl => ?_⟩
    obtain rfl := h0 rfl
    exact F.idle l fun hact => hl l hact (hline l hact)
  | succ s ih =>
    intro c hc
    specialize ih (by omega)
    -- what stage `s` latched in the cycles `2 s` and `2 s + 1`
    have hact (m : ℕ) : (L.run k din c).act s m = true ↔
        ∃ i, active i ∧ line k s i (dest i) = m := by
      rw [Latches.run_act (by omega) (by omega)]
      obtain ⟨hon, hoff⟩ := ih (2 * s) (Nat.le_refl _)
      constructor
      · intro hm
        by_contra hno
        rw [hoff (by omega) m fun i hi he => hno ⟨i, hi, he⟩] at hm
        exact Bool.false_ne_true hm
      · rintro ⟨i, hi, rfl⟩
        rw [hon i hi, F.act s (by omega) i hi]
    have hsel (i : ℕ) (hi : active i) :
        (L.run k din c).sel s (line k s i (dest i)) = (dest i).testBit (k - 1 - s) := by
      rw [Latches.run_sel (by omega) (by omega), (ih (2 * s + 1) (by omega)).1 i hi,
        F.sel s (by omega) i hi]
    have hcarry := (ih c (by omega)).1
    -- a line behind the stage is high iff a packet that is high moves to it
    have hiff (l : ℕ) : wires k (L.run k din c) (din c) (s + 1) l = true ↔
        ∃ i, active i ∧ line k (s + 1) i (dest i) = l ∧ din c i = true := by
      rw [wires, stageOut_eq_true]
      constructor
      · rintro ⟨m, ha, hm, hw⟩
        obtain ⟨i, hi, rfl⟩ := (hact m).1 ha
        rw [hsel i hi, withBit_line (by omega)] at hm
        exact ⟨i, hi, hm, by rw [← hcarry i hi, hw]⟩
      · rintro ⟨i, hi, rfl, hd⟩
        exact ⟨line k s i (dest i), (hact _).2 ⟨i, hi, rfl⟩,
          by rw [hsel i hi, withBit_line (by omega)], by rw [hcarry i hi, hd]⟩
    refine ⟨fun i hi => ?_, fun _ l hl => ?_⟩
    · rw [Bool.eq_iff_iff, hiff]
      constructor
      · rintro ⟨j, hj, hline, hd⟩
        rwa [F.disjoint (s + 1) hs i j hi hj hline.symm]
      · exact fun hd => ⟨i, hi, rfl, hd⟩
    · rw [Bool.eq_false_iff]
      intro h
      obtain ⟨i, hi, hline, -⟩ := (hiff l).1 h
      exact hl i hi hline

/-- After the header the output of a destination is its source's input, in the same cycle. -/
theorem wires_dest (F : Frame k active dest din) (L : Latches) {c : ℕ} (hc : 2 * k ≤ c) {i : ℕ}
    (hi : active i) : wires k (L.run k din c) (din c) k (dest i) = din c i := by
  rw [← (F.carries L k (Nat.le_refl k) c hc).1 i hi, line_self]

/-- After the header an output that is no destination is low. -/
theorem wires_idle (F : Frame k active dest din) (L : Latches) {c : ℕ} (hk : 0 < k)
    (hc : 2 * k ≤ c) {l : ℕ} (hl : ∀ i, active i → dest i ≠ l) :
    wires k (L.run k din c) (din c) k l = false :=
  (F.carries L k (Nat.le_refl k) c hc).2 (by omega) l
    fun i hi h => hl i hi (by rwa [line_self] at h)

/-- Sources `0, …, n - 1` with increasing destinations do not conflict. -/
theorem disjoint_of_increasing {n : ℕ} {dest : ℕ → ℕ}
    (hdest : ∀ i j, i < j → j < n → dest i < dest j) (s i j : ℕ) (hi : i < n) (hj : j < n)
    (h : line k s i (dest i) = line k s j (dest j)) : i = j := by
  have hgap (a m : ℕ) (hm : a + m < n) : dest a + m ≤ dest (a + m) := by
    induction m with
    | zero => exact Nat.le_refl _
    | succ m ih =>
      have hlt := hdest (a + m) (a + (m + 1)) (by omega) hm
      have hle := ih (by omega)
      omega
  have hne {a b : ℕ} (hab : a < b) (hb : b < n) : line k s a (dest a) ≠ line k s b (dest b) := by
    obtain ⟨m, rfl⟩ := Nat.exists_eq_add_of_lt hab
    have hle : dest a + (m + 1) ≤ dest (a + m + 1) := hgap a (m + 1) (by omega)
    exact line_ne_line hab (by omega)
  rcases Nat.lt_trichotomy i j with hij | hij | hij
  · exact absurd h (hne hij hj)
  · exact hij
  · exact absurd h.symm (hne hij hi)

end Frame

end Banyan
