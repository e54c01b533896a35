import Mathlib.Data.Fintype.Card
import Mathlib.Order.Fin.Basic
import Saltworks.RTL.BanyanFabric

/-!
# Delivery by the banyan fabric

From any contents of its registers the fabric delivers frame after frame once `sof` has restarted
its counter: the elements latch their header bits anew in every frame, so nothing that power-up or
an earlier frame left behind is read.

## Main definitions

* `Traffic`, `Traffic.Presents`: sources `0, …, n - 1` with increasing destinations, and a frame
  that presents them.
* `BanyanFabric.machine`, `BanyanFabric.afterSof`.

## Main results

* `BanyanFabric.latches_run`: a frame of the run is a frame of the network.
* `BanyanFabric.fabric_delivers`.
-/

namespace Saltworks.RTL.BanyanFabric

/-! ### Traffic -/

/-- A frame's packets: the sources `0, …, n - 1`, with increasing destinations. -/
structure Traffic where
  n : ℕ
  dest : Fin n → Fin 8
  increasing : StrictMono dest

namespace Traffic

variable (T : Traffic)

theorem n_le : T.n ≤ 8 := by
  simpa using Fintype.card_le_of_injective T.dest T.increasing.injective

/-- The line of an active source. -/
def source (i : Fin T.n) : Fin 8 := i.castLE T.n_le

/-- A frame presents its traffic: an active source sends a high bit before each of its destination
bits, upper bit first, and any other source is low where these would be. -/
structure Presents (din : ℕ → Lines) : Prop where
  act : ∀ (s : Fin 3) (i : Fin T.n), din (2 * s) (T.source i) = true
  sel : ∀ (s : Fin 3) (i : Fin T.n),
    din (2 * s + 1) (T.source i) = (T.dest i).val.testBit (2 - s)
  idle : ∀ (s : Fin 3) (l : Fin 8), T.n ≤ l.val → din (2 * s) l = false

/-- The destination of a source, `0` if it is not active. -/
def destOf (i : ℕ) : ℕ := if h : i < T.n then (T.dest ⟨i, h⟩).val else 0

theorem destOf_val (i : Fin T.n) : T.destOf i = (T.dest i).val := dif_pos i.isLt

variable {T} {din : ℕ → Lines}

/-- Such a frame is a frame of the network, without conflicts. -/
theorem Presents.frame (h : T.Presents din) :
    Banyan.Frame 3 (· < T.n) T.destOf (fun c => wide (din c)) where
  source_lt i hi := Nat.lt_of_lt_of_le hi T.n_le
  dest_lt i hi := by
    rw [T.destOf_val ⟨i, hi⟩]
    exact (T.dest ⟨i, hi⟩).isLt
  disjoint s _ i j hi hj := by
    refine Banyan.Frame.disjoint_of_increasing (fun a b hab hb => ?_) s i j hi hj
    rw [T.destOf_val ⟨a, hab.trans hb⟩, T.destOf_val ⟨b, hb⟩]
    exact T.increasing hab
  act s hs i hi := (wide_val _ (T.source ⟨i, hi⟩)).trans (h.act ⟨s, hs⟩ ⟨i, hi⟩)
  sel s hs i hi := by
    rw [T.destOf_val ⟨i, hi⟩]
    exact (wide_val _ (T.source ⟨i, hi⟩)).trans (h.sel ⟨s, hs⟩ ⟨i, hi⟩)
  idle i hi := by
    rw [wide]
    split_ifs with h8
    · exact h.idle 0 ⟨i, h8⟩ (Nat.le_of_not_lt hi)
    · rfl

end Traffic

variable {payload : ℕ}

/-! ### Runs of the fabric -/

/-- One cycle's inputs, `rst_n` high. -/
structure Input where
  sof : Bool
  din : Lines

/-- The fabric with `rst_n` high. -/
def machine (payload : ℕ) : Synchronous.Machine (State payload) Input where
  step x i := posedge true i.sof i.din x

/-- The state in cycle `t` with `sof` low. -/
def run (x : State payload) (din : ℕ → Lines) (t : ℕ) : State payload :=
  (machine payload).run x (fun t => ⟨false, din t⟩) t

theorem run_succ (x : State payload) (din : ℕ → Lines) (t : ℕ) :
    run x din (t + 1) = posedge true false (din t) (run x din t) := rfl

theorem FRAME_pos (payload : ℕ) : 0 < FRAME payload := Nat.add_pos_left (by decide) payload

/-- The frame counter counts the cycles of the frame. -/
theorem run_cnt (x : State payload) (din : ℕ → Lines) (hx : x.cnt = 0#_) (t : ℕ) :
    (run x din t).cnt.toNat = t % FRAME payload := by
  induction t with
  | zero => simp [run, hx]
  | succ t ih =>
    have hwidth : FRAME payload ≤ 2 ^ Nat.clog 2 (FRAME payload) := Nat.le_pow_clog (by decide) _
    have hlt := Nat.mod_lt t (FRAME_pos payload)
    have hmod := Nat.add_mod t 1 (FRAME payload)
    have h6 : 6 ≤ FRAME payload := Nat.le_add_right 6 payload
    rw [Nat.mod_eq_of_lt (show 1 < FRAME payload by omega)] at hmod
    rw [run_succ, posedge, ih, hmod]
    generalize t % FRAME payload = m at *
    simp only [Bool.not_true, Bool.false_eq_true, if_false]
    split_ifs with hend
    · rw [hend, Nat.sub_add_cancel (by omega), Nat.mod_self, BitVec.toNat_ofNat, Nat.zero_mod]
    · have hadd : (run x din t).cnt.toNat + (1#(Nat.clog 2 (FRAME payload))).toNat =
          m + 1 := by
        rw [ih, BitVec.toNat_ofNat, Nat.mod_eq_of_lt (by omega)]
      rw [BitVec.toNat_add, hadd, Nat.mod_eq_of_lt (by omega), Nat.mod_eq_of_lt (by omega)]

/-- Cycle `c` of a frame of the run is cycle `c` of a frame of the network. -/
theorem latches_run (x : State payload) (din : ℕ → Lines) (hx : x.cnt = 0#_) (f : ℕ) {c : ℕ}
    (hc : c < FRAME payload) :
    latches (run x din (FRAME payload * f + c)) =
      (latches (run x din (FRAME payload * f))).run 3
        (fun c => wide (din (FRAME payload * f + c))) c := by
  induction c with
  | zero => rfl
  | succ c ih =>
    rw [← Nat.add_assoc, run_succ, latches_posedge, ih (by omega), run_cnt x din hx,
      Nat.mul_add_mod, Nat.mod_eq_of_lt (by omega)]
    rfl

/-- The valid output marks the payload cycles. -/
theorem valid_run (x : State payload) (din : ℕ → Lines) (hx : x.cnt = 0#_) (f : ℕ) {c : ℕ}
    (hc : c < FRAME payload) :
    valid (run x din (FRAME payload * f + c)) = decide (HDR ≤ c) := by
  rw [valid, run_cnt x din hx, Nat.mul_add_mod, Nat.mod_eq_of_lt hc]

/-! ### Delivery -/

/-- In every payload cycle of a frame each destination shows its source's input and every other
output is low, whatever the elements held before the frame. -/
theorem dout_run (x : State payload) (din : ℕ → Lines) (hx : x.cnt = 0#_) (T : Traffic) (f : ℕ)
    (hT : T.Presents fun c => din (FRAME payload * f + c)) {c : ℕ} (hc : c < FRAME payload)
    (h6 : HDR ≤ c) :
    (∀ i, dout (run x din (FRAME payload * f + c)) (din (FRAME payload * f + c)) (T.dest i) =
      din (FRAME payload * f + c) (T.source i)) ∧
    ∀ l, (∀ i, T.dest i ≠ l) →
      dout (run x din (FRAME payload * f + c)) (din (FRAME payload * f + c)) l = false := by
  have hF := hT.frame
  constructor
  · intro i
    rw [← wires_dout, latches_run x din hx f hc, ← T.destOf_val i]
    exact (hF.wires_dest _ h6 i.isLt).trans (wide_val _ (T.source i))
  · intro l hl
    rw [← wires_dout, latches_run x din hx f hc]
    refine hF.wires_idle _ (by decide) h6 fun i hi h => hl ⟨i, hi⟩ (Fin.ext ?_)
    rw [← T.destOf_val ⟨i, hi⟩, h]

/-- The state in cycle `t` after a cycle with `sof` high, from any contents of the registers. -/
def afterSof (x₀ : State payload) (d₀ : Lines) (din : ℕ → Lines) (t : ℕ) : State payload :=
  run (posedge true true d₀ x₀) din t

/-- **Delivery from power-up.** For every payload length, contents of the registers and traffic,
once `sof` has restarted the counter every frame whose lines present traffic marks its payload
cycles with `valid`, and in these cycles shows each source's input at its destination and leaves
the other outputs low. -/
theorem fabric_delivers (x₀ : State payload) (d₀ : Lines) (din : ℕ → Lines) (T : Traffic) (f : ℕ)
    (hT : T.Presents fun c => din (FRAME payload * f + c)) {c : ℕ} (hc : c < FRAME payload) :
    valid (afterSof x₀ d₀ din (FRAME payload * f + c)) = decide (HDR ≤ c) ∧
    (HDR ≤ c →
      (∀ i, dout (afterSof x₀ d₀ din (FRAME payload * f + c)) (din (FRAME payload * f + c))
        (T.dest i) = din (FRAME payload * f + c) (T.source i)) ∧
      ∀ l, (∀ i, T.dest i ≠ l) →
        dout (afterSof x₀ d₀ din (FRAME payload * f + c)) (din (FRAME payload * f + c)) l =
          false) :=
  ⟨valid_run _ din rfl f hc, dout_run _ din rfl T f hT hc⟩

/-- Two packets, from line `0` to output `1` and from line `1` to output `5`. -/
def twoPackets : Traffic where
  n := 2
  dest := ![1, 5]
  increasing := by decide

/-- Lines that present them in every frame of 14 cycles, with high payload bits and a high idle
line `7` outside the activity cycles. -/
def twoPacketLines (t : ℕ) : Lines := fun l =>
  if l.val = 7 then t % 14 % 2 == 1
  else if 2 ≤ l.val then false
  else if t % 14 % 2 = 0 ∨ 6 ≤ t % 14 then true
  else (if l.val = 0 then 1 else 5 : ℕ).testBit (2 - t % 14 / 2)

/-- Delivery of the two packets in the fourth frame, from a fabric full of ones. -/
theorem fabric_delivers_twoPackets :
    dout (afterSof (⟨9#_, fun _ _ => ⟨true, true, true, true⟩⟩ : State 8) (fun _ => true)
      twoPacketLines (FRAME 8 * 3 + 7)) (twoPacketLines (FRAME 8 * 3 + 7)) 5 = true := by
  have hT : twoPackets.Presents fun c => twoPacketLines (FRAME 8 * 3 + c) := by
    have hlines (c : ℕ) : twoPacketLines (FRAME 8 * 3 + c) = twoPacketLines c := by
      funext l
      simp only [twoPacketLines, show FRAME 8 = 14 from rfl, Nat.mul_add_mod]
    simp only [hlines]
    exact ⟨by decide, by decide, by decide⟩
  exact ((fabric_delivers _ _ twoPacketLines twoPackets 3 hT (by decide)).2
    (by decide)).1 (1 : Fin 2)

end Saltworks.RTL.BanyanFabric
