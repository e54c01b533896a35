import Saltworks.Ndf.Accumulate
import Saltworks.Ndf.WeightLoad
import Saltworks.Switch.Delivery

/-!
# Packets from the edge port

In a frame in which no cell emits, the edge port is the fabric's only sender. A packet that it
sends is delivered in the same cycles to the cell at its destination, and every other cell is
streamed zeros, whatever the fabric's elements held before.

## Main definitions

* `EdgeSends`: a frame of the edge port, with a packet or idle.

## Main results

* `fabOut_edge`: the fabric's outputs in the payload cycles of such a frame.
* `loadByte_edge`, `streamValue_edge`: what a cell receives is what the edge port sends.
-/

namespace Saltworks.RTL.TtUmSaltworksNdfC32

open BanyanFabric (Lines FRAME HDR wide)

/-- A frame of the edge port: the header of a packet for `sent`, or low in the activity cycles. -/
structure EdgeSends (edge : ℕ → Bool) (sent : Option (Fin 8)) : Prop where
  act : ∀ s : Fin 3, edge (2 * s) = sent.isSome
  sel : ∀ (s : Fin 3) (d : Fin 8), sent = some d → edge (2 * s + 1) = d.val.testBit (2 - s)

section Run

variable {s₀ : State} {i₀ : Pins} {pins : ℕ → Pins}

/-- In the module the fabric runs on the data path's outputs. -/
theorem fab_afterSof (h0 : sof i₀ = true) (hsof : ∀ t, sof (pins t) = false) (t : ℕ) :
    (afterSof s₀ i₀ pins t).fab = BanyanFabric.afterSof s₀.fab (fabIn s₀ i₀)
      (fun t => fabIn (afterSof s₀ i₀ pins t) (pins t)) t := by
  induction t with
  | zero =>
    change BanyanFabric.posedge true (sof i₀) _ _ = _
    rw [h0]
    rfl
  | succ t ih =>
    change BanyanFabric.posedge true (sof (pins t)) _ (afterSof s₀ i₀ pins t).fab = _
    rw [hsof, ih]
    rfl

/-- A cell is silent outside its emit frame. -/
theorem emit_eq_false (s : Datapath) {k : Fin 3} (h : s.frm.toNat ≠ Datapath.emFrame k) :
    s.emit k = false := by
  rw [Datapath.emit, if_neg]
  rwa [Datapath.emF_iff]

/-- With silent cells only the edge port sends. -/
theorem fabIn_of_silent (s : Datapath) (edge : Bool)
    (h : ∀ k, s.frm.toNat ≠ Datapath.emFrame k) (l : Fin 8) :
    s.fabIn edge l = if l = 4 then edge else false := by
  rw [Datapath.fabIn, emit_eq_false s (h 0), emit_eq_false s (h 1), emit_eq_false s (h 2)]
  fin_cases l <;> rfl

/-- A frame of the edge port is a frame of the fabric with one sender at most. -/
theorem EdgeSends.frame {edge : ℕ → Bool} {sent : Option (Fin 8)} (hsent : EdgeSends edge sent)
    {wires : ℕ → ℕ → Bool} (hwires : ∀ c < 14, ∀ i, wires c i = if i = 4 then edge c else false) :
    Banyan.Frame 3 (fun i => i = 4 ∧ sent.isSome = true) (fun _ => sent.elim 0 Fin.val) wires := by
  have hedge (c : ℕ) (hc : c < 14) : wires c 4 = edge c := (hwires c hc 4).trans (if_pos rfl)
  constructor
  · rintro i ⟨rfl, -⟩
    decide
  · rintro i -
    rcases sent with _ | d
    · exact Nat.two_pow_pos 3
    · exact d.isLt
  · rintro s - i j ⟨rfl, -⟩ ⟨rfl, -⟩ -
    rfl
  · rintro s hs i ⟨rfl, hsome⟩
    rw [hedge _ (by omega)]
    exact (hsent.act ⟨s, hs⟩).trans hsome
  · rintro s hs i ⟨rfl, hsome⟩
    obtain ⟨d, rfl⟩ := Option.isSome_iff_exists.1 hsome
    rw [hedge _ (by omega)]
    exact hsent.sel ⟨s, hs⟩ d rfl
  · intro i hi
    by_cases h4 : i = 4
    · subst h4
      have hnone : sent.isSome = false := Bool.eq_false_iff.2 fun h => hi ⟨rfl, h⟩
      exact (hedge 0 (by decide)).trans ((hsent.act 0).trans hnone)
    · exact (hwires 0 (by decide) i).trans (if_neg h4)

/-- In a frame in which no cell emits, the edge port's line is the only one that is not low. -/
theorem wide_fabIn (h0 : sof i₀ = true) (hsof : ∀ t, sof (pins t) = false) {f : ℕ}
    (hf : ∀ k, min f 22 ≠ Datapath.emFrame k) (c : ℕ) (hc : c < 14) (i : ℕ) :
    wide (fabIn (afterSof s₀ i₀ pins (14 * f + c)) (pins (14 * f + c))) i =
      if i = 4 then edgeInDat (pins (14 * f + c)) else false := by
  have hin (l : Fin 8) : fabIn (afterSof s₀ i₀ pins (14 * f + c)) (pins (14 * f + c)) l =
      if l = 4 then edgeInDat (pins (14 * f + c)) else false := by
    refine fabIn_of_silent _ _ (fun k => ?_) l
    rw [datapath_afterSof h0 hsof, Datapath.toNat_frm, Nat.mul_add_div (by decide),
      Nat.div_eq_of_lt hc, Nat.add_zero]
    exact hf k
  by_cases h8 : i < 8
  · rw [wide, dif_pos h8, hin]
    exact if_congr Fin.ext_iff rfl rfl
  · rw [wide, dif_neg h8, if_neg (by omega)]

/-- **A packet from the edge** reaches the cell at its destination in the payload cycles of the
same frame, and the other outputs are low. -/
theorem fabOut_edge (h0 : sof i₀ = true) (hsof : ∀ t, sof (pins t) = false) {f : ℕ}
    (hf : ∀ k, min f 22 ≠ Datapath.emFrame k) {sent : Option (Fin 8)}
    (hsent : EdgeSends (fun c => edgeInDat (pins (14 * f + c))) sent) {c : ℕ} (h6 : 6 ≤ c)
    (hc : c < 14) (l : Fin 8) :
    fabOut (afterSof s₀ i₀ pins (14 * f + c)) (pins (14 * f + c)) l =
      if sent = some l then edgeInDat (pins (14 * f + c)) else false := by
  have hwires : ∀ c < 14, ∀ i,
      wide (fabIn (afterSof s₀ i₀ pins (14 * f + c)) (pins (14 * f + c))) i =
        if i = 4 then edgeInDat (pins (14 * f + c)) else false :=
    wide_fabIn h0 hsof hf
  have hF := hsent.frame hwires
  have hlatches := BanyanFabric.latches_run (BanyanFabric.posedge true true (fabIn s₀ i₀) s₀.fab)
    (fun t => fabIn (afterSof s₀ i₀ pins t) (pins t)) rfl f hc
  rw [fabOut, ← BanyanFabric.wires_dout, fab_afterSof h0 hsof, BanyanFabric.afterSof]
  rw [show FRAME 8 = 14 from rfl] at hlatches
  rw [hlatches]
  split_ifs with hl
  · subst hl
    exact (hF.wires_dest _ h6 ⟨rfl, rfl⟩).trans ((hwires c hc 4).trans (if_pos rfl))
  · refine hF.wires_idle _ (by decide) h6 fun i hi hd => hl ?_
    obtain ⟨d, rfl⟩ := Option.isSome_iff_exists.1 hi.2
    exact congrArg some (Fin.ext hd)

/-- A byte sent to a cell in one of its load frames is the byte that the cell loads. -/
theorem loadByte_edge (h0 : sof i₀ = true) (hsof : ∀ t, sof (pins t) = false) (k i : Fin 3)
    (hsent : EdgeSends (fun c => edgeInDat (pins (14 * Datapath.ldFrame k i + c)))
      (some (Datapath.port k))) :
    Datapath.loadByte (fun t => fabOut (afterSof s₀ i₀ pins t) (pins t)) k i =
      BitVec.byteOf fun j => edgeInDat (pins (Datapath.ldTime k i + j)) := by
  have hsilent : ∀ k i k', min (Datapath.ldFrame k i) 22 ≠ Datapath.emFrame k' := by decide
  refine BitVec.byteOf_congr fun j hj => ?_
  rw [Datapath.ldTime, Nat.add_assoc]
  exact (fabOut_edge h0 hsof (hsilent k i) hsent (Nat.le_add_right 6 j) (by omega) _).trans
    (if_pos rfl)

/-- A value sent to a cell in a stream frame in which no cell emits is the value streamed. -/
theorem streamValue_edge (h0 : sof i₀ = true) (hsof : ∀ t, sof (pins t) = false) (k : Fin 3)
    (i : Fin 2) (hsilent : ∀ k', Datapath.stFrame k i ≠ Datapath.emFrame k')
    (hsent : EdgeSends (fun c => edgeInDat (pins (14 * Datapath.stFrame k i + c)))
      (some (Datapath.port k))) :
    Datapath.streamValue (fun t => fabOut (afterSof s₀ i₀ pins t) (pins t)) k i =
      (BitVec.byteOf fun j => edgeInDat (pins (Datapath.stTime k i + j))).signExtend 32 := by
  have hmin : min (Datapath.stFrame k i) 22 = Datapath.stFrame k i :=
    Nat.min_eq_left (Datapath.stFrame_lt k i).le
  refine congrArg (BitVec.signExtend 32) (BitVec.byteOf_congr fun j hj => ?_)
  rw [Datapath.stTime, Nat.add_assoc]
  exact (fabOut_edge h0 hsof (fun k' => hmin.symm ▸ hsilent k') hsent (Nat.le_add_right 6 j)
    (by omega) _).trans (if_pos rfl)

end Run

end Saltworks.RTL.TtUmSaltworksNdfC32
