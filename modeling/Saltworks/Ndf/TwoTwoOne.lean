import Saltworks.Ndf.EdgePackets
import Saltworks.Ndf.ResultPath
import Saltworks.Switch.Conflicts

/-!
# The 2-2-1 network at the pins

The timetable makes the three cells a network with two hidden units and one output: the first two
cells take a bias and two weighted values from the edge port and emit one byte each to the third
cell, in its stream frames; the third cell emits one byte to the edge. From any contents of the
registers, a `sof` pulse and 19 frames later the edge pin shows a fixed function of the thirteen
bytes that were sent (`Packets.result`).

The function is that of the layers as they are: a weight is loaded in reverse order
(`loadedWord`), and a unit emits bits 6 to 13 of its rectified sum (`emitted`).

## Main definitions

* `loadedWord`, `unit`, `emitted`: the arithmetic of a unit.
* `Packets`, `Packets.SentBy`, `Packets.result`: the bytes of a run and what they make.

## Main results

* `fabOut_emit`: what a cell emits reaches its port.
* `edge_result`: the edge pin in frame 18.
-/

namespace Saltworks.RTL.TtUmSaltworksNdfC32

open BanyanFabric (Lines Routes FRAME HDR)

/-! ### The arithmetic of a unit -/

/-- What a load makes of a byte: the byte in reverse order in front of 24 copies of its sign. -/
def loadedWord (b : BitVec 8) : BitVec 32 :=
  BitVec.ofBits fun j : Fin 32 => b.getLsbD (min (31 - j) 7)

/-- The sum of a unit: a bias and two weighted signed values. -/
def unit (w : Fin 3 → BitVec 8) (v : Fin 2 → BitVec 8) : BitVec 32 :=
  loadedWord (w 0) + loadedWord (w 1) * (v 0).signExtend 32 +
    loadedWord (w 2) * (v 1).signExtend 32

/-- What a unit emits: bits 6 to 13 of its rectified sum. -/
def emitted (a : BitVec 32) : BitVec 8 := BitVec.byteOf fun j => (SerOrgan.relu a).getLsbD (6 + j)

/-- The bytes of a run: each cell's bias and weights, and the values of the two hidden units. -/
structure Packets where
  weight : Fin 3 → Fin 3 → BitVec 8
  value : Fin 2 → Fin 2 → BitVec 8

namespace Packets

variable (P : Packets)

/-- What a hidden unit emits. -/
def hidden (k : Fin 2) : BitVec 8 := emitted (unit (P.weight k.castSucc) (P.value k))

/-- What the output unit emits. -/
def result : BitVec 8 := emitted (unit (P.weight 2) P.hidden)

end Packets

/-- A frame of the edge port that sends a byte to a port, lowest bit first. -/
structure EdgeSendsByte (edge : ℕ → Bool) (port : Fin 8) (byte : BitVec 8) : Prop where
  header : EdgeSends edge (some port)
  payload : ∀ j < 8, edge (6 + j) = byte.getLsbD j

/-- The edge port sends the bytes in the load and stream frames of their cells, and is low when a
cell's emit frame begins. -/
structure Packets.SentBy (P : Packets) (edge : ℕ → Bool) : Prop where
  weights : ∀ k i, EdgeSendsByte (fun c => edge (14 * Datapath.ldFrame k i + c))
    (Datapath.port k) (P.weight k i)
  values : ∀ (k i : Fin 2), EdgeSendsByte (fun c => edge (14 * Datapath.stFrame k.castSucc i + c))
    (Datapath.port k.castSucc) (P.value k i)
  quiet : ∀ k, edge (14 * Datapath.emFrame k) = false

/-! ### A sender -/

namespace Packets

variable (P : Packets)

/-- The packet of a frame of the edge port. -/
def schedule (f : ℕ) : Option (Fin 8 × BitVec 8) :=
  match f with
  | 0 => some (0, P.weight 0 0)
  | 1 => some (1, P.weight 1 0)
  | 2 => some (2, P.weight 2 0)
  | 3 => some (0, P.weight 0 1)
  | 4 => some (1, P.weight 1 1)
  | 5 => some (2, P.weight 2 1)
  | 6 => some (0, P.value 0 0)
  | 7 => some (1, P.value 1 0)
  | 8 => some (0, P.weight 0 2)
  | 9 => some (1, P.weight 1 2)
  | 11 => some (0, P.value 0 1)
  | 12 => some (1, P.value 1 1)
  | 14 => some (2, P.weight 2 2)
  | _ => none

/-- The edge port's line in cycle `t` of a run. -/
def send (t : ℕ) : Bool :=
  match P.schedule (t / 14) with
  | none => false
  | some (d, b) =>
    if t % 14 < 6 then if t % 14 % 2 = 0 then true else d.val.testBit (2 - t % 14 / 2)
    else b.getLsbD (t % 14 - 6)

theorem send_of_schedule {f : ℕ} {d : Fin 8} {b : BitVec 8} (h : P.schedule f = some (d, b)) :
    EdgeSendsByte (fun c => P.send (14 * f + c)) d b := by
  have hsend (c : ℕ) (hc : c < 14) : P.send (14 * f + c) =
      if c < 6 then if c % 2 = 0 then true else d.val.testBit (2 - c / 2)
      else b.getLsbD (c - 6) := by
    rw [send, Nat.mul_add_div (by decide), Nat.div_eq_of_lt hc, Nat.add_zero, h,
      Nat.mul_add_mod, Nat.mod_eq_of_lt hc]
  have hsix (s : Fin 3) : 2 * s.val + 1 < 6 := by omega
  refine ⟨⟨fun s => ?_, fun s d' hd => ?_⟩, fun j hj => ?_⟩
  · have hs : 2 * s.val < 6 := Nat.lt_of_succ_lt (hsix s)
    rw [hsend _ (by omega), if_pos hs, if_pos (Nat.mul_mod_right 2 s.val)]
    rfl
  · cases hd
    rw [hsend _ (by omega), if_pos (hsix s), if_neg (by omega),
      show (2 * s.val + 1) / 2 = s.val by omega]
  · rw [hsend _ (by omega), if_neg (by omega), Nat.add_sub_cancel_left]

/-- Every thirteen bytes can be sent. -/
theorem sentBy_send : P.SentBy P.send where
  weights k i := P.send_of_schedule (by fin_cases k <;> fin_cases i <;> rfl)
  values k i := P.send_of_schedule (by fin_cases k <;> fin_cases i <;> rfl)
  quiet k := by fin_cases k <;> rfl

end Packets

/-! ### From cell to port -/

/-- The line of a cell's result. -/
def resultLine : Fin 3 → Fin 8 := ![2, 2, 5]

/-- The packets of a cell's emit frame. -/
def emitRoutes (k : Fin 3) : Routes := fun l =>
  if l = Datapath.port k then some (resultLine k) else none

theorem emitRoutes_eq_some {k : Fin 3} {l d : Fin 8} :
    emitRoutes k l = some d ↔ l = Datapath.port k ∧ resultLine k = d := by
  rw [emitRoutes]
  split_ifs with hl
  · simp [hl]
  · simp [hl]

theorem emitRoutes_noConflict (k : Fin 3) : (emitRoutes k).NoConflict := by
  intro i d hi j e hj s _ _
  rw [(emitRoutes_eq_some.1 hi).1, (emitRoutes_eq_some.1 hj).1]

theorem two_mul_add_one_lt (s : Fin 3) : 2 * s.val + 1 < 6 := by omega

/-- The header that a cell sends, as the fabric reads it. -/
theorem headerBits_resultPort (k s : Fin 3) :
    Datapath.headerBits (Datapath.resultPort k)
        ⟨2 * s.val, Nat.lt_of_succ_lt (two_mul_add_one_lt s)⟩ = true ∧
      Datapath.headerBits (Datapath.resultPort k) ⟨2 * s.val + 1, two_mul_add_one_lt s⟩ =
        (resultLine k).val.testBit (2 - s) := by
  revert k s
  decide

section Run

variable {s₀ : State} {i₀ : Pins} {pins : ℕ → Pins}

/-- In a cell's emit frame the other cells are silent. -/
theorem fabIn_of_emits (s : Datapath) (edge : Bool) {k : Fin 3}
    (hk : s.frm.toNat = Datapath.emFrame k) {l : Fin 8} (hl : l ≠ Datapath.port k) :
    s.fabIn edge l = if l = 4 then edge else false := by
  have hother (j : Fin 3) (hj : j ≠ k) : s.emit j = false := by
    refine emit_eq_false s fun h => hj ?_
    have hinj : ∀ j k, Datapath.emFrame j = Datapath.emFrame k → j = k := by decide
    exact hinj j k (h.symm.trans hk)
  have hcell (j : Fin 3) (hjl : Datapath.port j = l) : s.emit j = false :=
    hother j fun h => hl (by rw [← hjl, h])
  fin_cases l
  · exact hcell 0 rfl
  · exact hcell 1 rfl
  · exact hcell 2 rfl
  all_goals rfl

/-- An emit frame presents its cell's packet. -/
theorem emit_presents (h0 : sof i₀ = true) (hsof : ∀ t, sof (pins t) = false) (k : Fin 3)
    (hquiet : edgeInDat (pins (14 * Datapath.emFrame k)) = false) :
    (emitRoutes k).Presents fun c =>
      fabIn (afterSof s₀ i₀ pins (14 * Datapath.emFrame k + c))
        (pins (14 * Datapath.emFrame k + c)) := by
  have hheader (c : Fin 6) : fabIn (afterSof s₀ i₀ pins (14 * Datapath.emFrame k + c))
      (pins (14 * Datapath.emFrame k + c)) (Datapath.port k) =
        Datapath.headerBits (Datapath.resultPort k) c := by
    rw [fabIn, datapath_afterSof h0 hsof]
    exact Datapath.emit_header _ _ _ _ _ c
  constructor
  · intro s i d hi
    obtain ⟨rfl, rfl⟩ := emitRoutes_eq_some.1 hi
    exact (hheader _).trans (headerBits_resultPort k s).1
  · intro s i d hi
    obtain ⟨rfl, rfl⟩ := emitRoutes_eq_some.1 hi
    exact (hheader _).trans (headerBits_resultPort k s).2
  · intro i hi
    have hne : i ≠ Datapath.port k := by
      rintro rfl
      rw [emitRoutes, if_pos rfl] at hi
      cases hi
    have hfrm : (afterSof s₀ i₀ pins (14 * Datapath.emFrame k)).dp.frm.toNat =
        Datapath.emFrame k := by
      have hlt : ∀ k, Datapath.emFrame k < 22 := by decide
      have := hlt k
      rw [datapath_afterSof h0 hsof, Datapath.toNat_frm]
      omega
    change fabIn (afterSof s₀ i₀ pins (14 * Datapath.emFrame k))
      (pins (14 * Datapath.emFrame k)) i = false
    rw [fabIn, fabIn_of_emits _ _ hfrm hne, hquiet]
    exact ite_self false

/-- **What a cell emits reaches its port** in the payload cycles of its emit frame. -/
theorem fabOut_emit (h0 : sof i₀ = true) (hsof : ∀ t, sof (pins t) = false) (k : Fin 3)
    (hquiet : edgeInDat (pins (14 * Datapath.emFrame k)) = false) {j : ℕ} (hj : j < 8) :
    fabOut (afterSof s₀ i₀ pins (14 * Datapath.emFrame k + (6 + j)))
        (pins (14 * Datapath.emFrame k + (6 + j))) (resultLine k) =
      (SerOrgan.relu (s₀.dp.settled (fabOut s₀ i₀)
        (fun t => fabOut (afterSof s₀ i₀ pins t) (pins t)) k)).getLsbD (6 + j) := by
  have hpresents : (emitRoutes k).Presents fun c =>
      fabIn (afterSof s₀ i₀ pins (14 * Datapath.emFrame k + c))
        (pins (14 * Datapath.emFrame k + c)) := emit_presents h0 hsof k hquiet
  have hconnects := BanyanFabric.connects_run
    (BanyanFabric.posedge true true (fabIn s₀ i₀) s₀.fab)
    (fun t => fabIn (afterSof s₀ i₀ pins t) (pins t)) rfl (Datapath.emFrame k) hpresents
    (show HDR ≤ 6 + j from Nat.le_add_right 6 j) (show 6 + j < FRAME 8 by
      change 6 + j < 14
      omega)
  have hdout := hconnects.2 (emitRoutes_noConflict k)
    (fabIn (afterSof s₀ i₀ pins (14 * Datapath.emFrame k + (6 + j)))
      (pins (14 * Datapath.emFrame k + (6 + j)))) _ _ (emitRoutes_eq_some.2 ⟨rfl, rfl⟩)
  rw [fabOut, fab_afterSof h0 hsof]
  refine hdout.trans ?_
  rw [fabIn, datapath_afterSof h0 hsof]
  exact Datapath.emit_payload _ _ _ _ _ hj

/-! ### The two layers -/

/-- A loaded weight is the loaded word of the byte that the edge port sent. -/
theorem loadedWeight_sent (h0 : sof i₀ = true) (hsof : ∀ t, sof (pins t) = false) {P : Packets}
    (hP : P.SentBy fun t => edgeInDat (pins t)) (k i : Fin 3) :
    s₀.dp.loadedWeight (fabOut s₀ i₀) (fun t => fabOut (afterSof s₀ i₀ pins t) (pins t)) k i =
      loadedWord (P.weight k i) := by
  have hbyte : Datapath.loadByte (fun t => fabOut (afterSof s₀ i₀ pins t) (pins t)) k i =
      P.weight k i := by
    rw [loadByte_edge h0 hsof k i (hP.weights k i).header]
    refine BitVec.eq_of_getLsbD_eq fun j hj => ?_
    rw [BitVec.getLsbD_byteOf _ hj, ← (hP.weights k i).payload j hj, Datapath.ldTime,
      Nat.add_assoc]
  rw [Datapath.loadedWeight, Datapath.weight_loaded, hbyte, loadedWord]

/-- The sum of a unit whose values are streamed as bytes. -/
theorem settled_eq_unit (h0 : sof i₀ = true) (hsof : ∀ t, sof (pins t) = false) {P : Packets}
    (hP : P.SentBy fun t => edgeInDat (pins t)) {k : Fin 3} {v : Fin 2 → BitVec 8}
    (hv : ∀ i, Datapath.streamValue (fun t => fabOut (afterSof s₀ i₀ pins t) (pins t)) k i =
      (v i).signExtend 32) :
    s₀.dp.settled (fabOut s₀ i₀) (fun t => fabOut (afterSof s₀ i₀ pins t) (pins t)) k =
      unit (P.weight k) v := by
  rw [Datapath.settled, Datapath.accReg_settled, loadedWeight_sent h0 hsof hP,
    loadedWeight_sent h0 hsof hP, loadedWeight_sent h0 hsof hP, hv, hv, unit]

/-- A hidden unit. -/
theorem settled_hidden (h0 : sof i₀ = true) (hsof : ∀ t, sof (pins t) = false) {P : Packets}
    (hP : P.SentBy fun t => edgeInDat (pins t)) (k : Fin 2) :
    s₀.dp.settled (fabOut s₀ i₀) (fun t => fabOut (afterSof s₀ i₀ pins t) (pins t)) k.castSucc =
      unit (P.weight k.castSucc) (P.value k) := by
  refine settled_eq_unit h0 hsof hP fun i => ?_
  have hsilent : ∀ (k i : Fin 2) k', Datapath.stFrame k.castSucc i ≠ Datapath.emFrame k' := by
    decide
  rw [streamValue_edge h0 hsof _ i (hsilent k i) (hP.values k i).header]
  refine congrArg (BitVec.signExtend 32) (BitVec.eq_of_getLsbD_eq fun j hj => ?_)
  rw [BitVec.getLsbD_byteOf _ hj, ← (hP.values k i).payload j hj, Datapath.stTime, Nat.add_assoc]

/-- The output unit: the hidden units emit in its stream frames. -/
theorem settled_output (h0 : sof i₀ = true) (hsof : ∀ t, sof (pins t) = false) {P : Packets}
    (hP : P.SentBy fun t => edgeInDat (pins t)) :
    s₀.dp.settled (fabOut s₀ i₀) (fun t => fabOut (afterSof s₀ i₀ pins t) (pins t)) 2 =
      unit (P.weight 2) P.hidden := by
  refine settled_eq_unit h0 hsof hP fun i => ?_
  have hframe : Datapath.stTime 2 i = 14 * Datapath.emFrame i.castSucc + 6 ∧
      resultLine i.castSucc = Datapath.port 2 := by
    revert i
    decide
  have hbyte : BitVec.byteOf (fun j => fabOut (afterSof s₀ i₀ pins (Datapath.stTime 2 i + j))
      (pins (Datapath.stTime 2 i + j)) (Datapath.port 2)) = P.hidden i := by
    rw [Packets.hidden, emitted]
    refine BitVec.byteOf_congr fun j hj => ?_
    rw [hframe.1, ← hframe.2, Nat.add_assoc, fabOut_emit h0 hsof _ (hP.quiet _) hj,
      settled_hidden h0 hsof hP]
  rw [Datapath.streamValue, hbyte]

theorem uioOut_valid (s : State) (i : Pins) :
    (uioOut s i).getLsbD 5 = BanyanFabric.valid s.fab ∧ (uioOut s i).getLsbD 4 = fabOut s i 5 := by
  rw [uioOut, BitVec.getLsbD_ofBits _ (by decide), BitVec.getLsbD_ofBits _ (by decide)]
  exact ⟨rfl, rfl⟩

/-- **The network at the pins.** From any contents of the registers, after a `sof` pulse and with
`sof` low and `rst_n` high from then on: if the edge port sends the bytes of a run in their
frames, then in the eight payload cycles of frame 18 the edge output is valid and shows the byte
that the two layers make of them, whatever the edge port does in the other frames. -/
theorem edge_result (h0 : sof i₀ = true) (hsof : ∀ t, sof (pins t) = false) (P : Packets)
    (hP : P.SentBy fun t => edgeInDat (pins t)) (j : ℕ) (hj : j < 8) :
    (uioOut (afterSof s₀ i₀ pins (14 * 18 + (6 + j))) (pins (14 * 18 + (6 + j)))).getLsbD 5 =
        true ∧
      (uioOut (afterSof s₀ i₀ pins (14 * 18 + (6 + j))) (pins (14 * 18 + (6 + j)))).getLsbD 4 =
        P.result.getLsbD j := by
  have hframe : 14 * 18 = 14 * Datapath.emFrame 2 := rfl
  rw [(uioOut_valid _ _).1, (uioOut_valid _ _).2]
  constructor
  · rw [fab_afterSof h0 hsof, BanyanFabric.afterSof]
    exact (BanyanFabric.valid_run _ _ rfl 18 (show 6 + j < FRAME 8 by
      change 6 + j < 14
      omega)).trans (decide_eq_true (Nat.le_add_right 6 j))
  · rw [hframe]
    refine (fabOut_emit h0 hsof 2 (hP.quiet 2) hj).trans ?_
    rw [settled_output h0 hsof hP, Packets.result, emitted, BitVec.getLsbD_byteOf _ hj]

end Run

/-! ### A run -/

/-- Biases and weights of `-128` and, twice, the values `-100` and `-27`. -/
def samplePackets : Packets where
  weight _ _ := 0x80#8
  value _ := ![156#8, 229#8]

theorem edgeInDat_edgePins (sof edge : Bool) : edgeInDat (edgePins sof edge) = edge := by
  rw [edgeInDat, edgePins, BitVec.getLsbD_ofBits _ (by decide)]
  rfl

theorem sof_edgePins (pulse edge : Bool) : sof (edgePins pulse edge) = pulse := by
  rw [sof, edgePins, BitVec.getLsbD_ofBits _ (by decide)]
  rfl

/-- The second bit of a run's result at the edge output. -/
theorem edge_result_samplePackets :
    (uioOut (afterSof zeroState (edgePins true false)
        (fun t => edgePins false (samplePackets.send t)) (14 * 18 + (6 + 1)))
      (edgePins false (samplePackets.send (14 * 18 + (6 + 1))))).getLsbD 4 = true := by
  have hsent : samplePackets.SentBy fun t =>
      edgeInDat (edgePins false (samplePackets.send t)) := by
    simp only [edgeInDat_edgePins]
    exact samplePackets.sentBy_send
  exact (edge_result (sof_edgePins true false) (fun t => sof_edgePins false _) samplePackets hsent
    1 (by decide)).2.trans (by decide +kernel)

end Saltworks.RTL.TtUmSaltworksNdfC32
