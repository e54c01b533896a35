import Mathlib.Data.Fin.VecNotation
import Mathlib.Data.Fintype.Basic
import Mathlib.Data.Nat.Log
import Mathlib.Tactic.FinCases
import Saltworks.Machine.Synchronous
import Saltworks.Network.Banyan

/-!
# The bit-serial banyan fabric `banyan_fabric`

`RTL/banyan_fabric.v` is twelve `bitserial_switch` elements in three stages of four, and a frame
counter that generates the strobes of each stage. The data path is combinational from end to end.
A frame is six header cycles and `PAYLOAD` payload cycles; `sof` restarts the counter.

## Main definitions

* `BitserialSwitch.State`, `BitserialSwitch.posedge`, `BitserialSwitch.out0`, `out1`.
* `BanyanFabric.State`, `BanyanFabric.posedge`, `BanyanFabric.dout`, `BanyanFabric.valid`.
* `BanyanFabric.latches`: the registers of the elements, by stage and entering line.

## Main results

* `BanyanFabric.latches_posedge`, `BanyanFabric.wires_dout`: the fabric is the three-stage network
  of `Network/Banyan.lean`.
-/

namespace Saltworks.RTL

namespace BitserialSwitch

/-- The registers of an element. -/
structure State where
  act0 : Bool
  act1 : Bool
  sel0 : Bool
  sel1 : Bool
  deriving DecidableEq

/-- The clock edge of an element. -/
def posedge (rstN actStb selStb in0 in1 : Bool) (s : State) : State :=
  if !rstN then ⟨false, false, false, false⟩
  else
    { act0 := if actStb then in0 else s.act0
      act1 := if actStb then in1 else s.act1
      sel0 := if selStb then in0 else s.sel0
      sel1 := if selStb then in1 else s.sel1 }

section Wires

variable (s : State) (in0 in1 : Bool)

def c00 : Bool := s.act0 && !s.sel0
def c01 : Bool := s.act0 && s.sel0
def c10 : Bool := s.act1 && !s.sel1
def c11 : Bool := s.act1 && s.sel1

def out0 : Bool := (c00 s && in0) || (c10 s && in1)
def out1 : Bool := (c01 s && in0) || (c11 s && in1)

end Wires

end BitserialSwitch

namespace BanyanFabric

open BitserialSwitch (out0 out1)

/-- Eight serial lines. -/
abbrev Lines := Fin 8 → Bool

/-- `HDR`, the length of the header. -/
def HDR : ℕ := 6

/-- `FRAME`, the length of a frame. -/
def FRAME (payload : ℕ) : ℕ := HDR + payload

/-- The frame counter, `$clog2(FRAME)` bits wide, and the elements: `e s j` is the element that
the source calls `esj`. -/
structure State (payload : ℕ) where
  cnt : BitVec (Nat.clog 2 (FRAME payload))
  e : Fin 3 → Fin 4 → BitserialSwitch.State

/-- The lines behind a stage. The pairs differ in bit 2, 1 and 0. -/
def stage (s : Fin 3) (e : Fin 4 → BitserialSwitch.State) (w : Lines) : Lines :=
  ![![out0 (e 0) (w 0) (w 4), out0 (e 1) (w 1) (w 5), out0 (e 2) (w 2) (w 6),
      out0 (e 3) (w 3) (w 7), out1 (e 0) (w 0) (w 4), out1 (e 1) (w 1) (w 5),
      out1 (e 2) (w 2) (w 6), out1 (e 3) (w 3) (w 7)],
    ![out0 (e 0) (w 0) (w 2), out0 (e 1) (w 1) (w 3), out1 (e 0) (w 0) (w 2),
      out1 (e 1) (w 1) (w 3), out0 (e 2) (w 4) (w 6), out0 (e 3) (w 5) (w 7),
      out1 (e 2) (w 4) (w 6), out1 (e 3) (w 5) (w 7)],
    ![out0 (e 0) (w 0) (w 1), out1 (e 0) (w 0) (w 1), out0 (e 1) (w 2) (w 3),
      out1 (e 1) (w 2) (w 3), out0 (e 2) (w 4) (w 5), out1 (e 2) (w 4) (w 5),
      out0 (e 3) (w 6) (w 7), out1 (e 3) (w 6) (w 7)]] s

variable {payload : ℕ}

section Wires

variable (x : State payload) (din : Lines)

def valid : Bool := decide (HDR ≤ x.cnt.toNat)

def cntO : BitVec 4 := x.cnt.setWidth 4

def actStb (s : Fin 3) : Bool := x.cnt.toNat == 2 * s.val

def selStb (s : Fin 3) : Bool := x.cnt.toNat == 2 * s.val + 1

def w0 : Lines := stage 0 (x.e 0) din

def w1 : Lines := stage 1 (x.e 1) (w0 x din)

def w2 : Lines := stage 2 (x.e 2) (w1 x din)

def dout : Lines := w2 x din

/-- The lines that enter a stage. -/
def stageIn : Fin 3 → Lines := ![din, w0 x din, w1 x din]

end Wires

/-- The two lines that enter element `j` of a stage, at its ports `in0` and `in1`. -/
def pair : Fin 3 → Fin 4 → Fin 8 × Fin 8 :=
  ![![(0, 4), (1, 5), (2, 6), (3, 7)],
    ![(0, 2), (1, 3), (4, 6), (5, 7)],
    ![(0, 1), (2, 3), (4, 5), (6, 7)]]

/-- The clock edge. -/
def posedge (rstN sof : Bool) (din : Lines) (x : State payload) : State payload where
  cnt :=
    if !rstN then 0#_
    else if sof then 0#_
    else if x.cnt.toNat = FRAME payload - 1 then 0#_
    else x.cnt + 1#_
  e s j :=
    BitserialSwitch.posedge rstN (actStb x s) (selStb x s) (stageIn x din s (pair s j).1)
      (stageIn x din s (pair s j).2) (x.e s j)

/-! ### The fabric as a banyan network -/

/-- The element and the port at which a line enters a stage. -/
def enters : Fin 3 → Fin 8 → Fin 4 × Bool :=
  ![![(0, false), (1, false), (2, false), (3, false), (0, true), (1, true), (2, true), (3, true)],
    ![(0, false), (1, false), (0, true), (1, true), (2, false), (3, false), (2, true), (3, true)],
    ![(0, false), (0, true), (1, false), (1, true), (2, false), (2, true), (3, false), (3, true)]]

/-- The registers of the elements, by stage and entering line. -/
def latches (x : State payload) : Banyan.Latches where
  act s l :=
    if h : s < 3 ∧ l < 8 then
      let p := enters ⟨s, h.1⟩ ⟨l, h.2⟩
      if p.2 then (x.e ⟨s, h.1⟩ p.1).act1 else (x.e ⟨s, h.1⟩ p.1).act0
    else false
  sel s l :=
    if h : s < 3 ∧ l < 8 then
      let p := enters ⟨s, h.1⟩ ⟨l, h.2⟩
      if p.2 then (x.e ⟨s, h.1⟩ p.1).sel1 else (x.e ⟨s, h.1⟩ p.1).sel0
    else false

/-- Eight lines among all, the others low. -/
def wide (w : Lines) (l : ℕ) : Bool := if h : l < 8 then w ⟨l, h⟩ else false

variable (x : State payload) (din : Lines)

theorem wide_val (w : Lines) (l : Fin 8) : wide w l.val = w l := dif_pos l.isLt

theorem out0_eq (e : BitserialSwitch.State) (a b : Bool) :
    out0 e a b = (e.act0 && (e.sel0 == false) && a || e.act1 && (e.sel1 == false) && b) := by
  simp [out0, BitserialSwitch.c00, BitserialSwitch.c10]

theorem out1_eq (e : BitserialSwitch.State) (a b : Bool) :
    out1 e a b = (e.act0 && (e.sel0 == true) && a || e.act1 && (e.sel1 == true) && b) := by
  simp [out1, BitserialSwitch.c01, BitserialSwitch.c11]

/-- A stage of the fabric exchanges the bit that the network's stage does. -/
theorem stageOut_latches (s : Fin 3) (w : Lines) (l : Fin 8) :
    Banyan.stageOut (3 - 1 - s.val) ((latches x).act s.val) ((latches x).sel s.val) (wide w)
      l.val = stage s (x.e s) w l := by
  simp only [stage, out0_eq, out1_eq]
  fin_cases s <;> fin_cases l <;> rfl

/-- Lines beyond the eighth stay low. -/
theorem stageOut_latches_of_le (s : Fin 3) (w : ℕ → Bool) {l : ℕ} (hl : 8 ≤ l) :
    Banyan.stageOut (3 - 1 - s.val) ((latches x).act s.val) ((latches x).sel s.val) w l
      = false := by
  rw [Bool.eq_false_iff, ne_eq, Banyan.stageOut_eq_true]
  rintro ⟨m, ha, hm, -⟩
  have hm8 : m < 8 := by
    by_contra h
    simp [latches, h] at ha
  have hlt : ∀ (b : Fin 3) (v : Bool) (m : Fin 8), Banyan.withBit (3 - 1 - b.val) v m.val < 8 := by
    decide
  exact absurd (hm ▸ hlt s ((latches x).sel s.val m) ⟨m, hm8⟩) (Nat.not_lt.2 hl)

/-- Behind a stage the lines are those behind the network's stage. -/
theorem stageOut_wide (s : Fin 3) (w : Lines) :
    Banyan.stageOut (3 - 1 - s.val) ((latches x).act s.val) ((latches x).sel s.val) (wide w) =
      wide (stage s (x.e s) w) := by
  funext l
  by_cases hl : l < 8
  · rw [stageOut_latches x s w ⟨l, hl⟩, wide, dif_pos hl]
  · rw [stageOut_latches_of_le x s _ (by omega), wide, dif_neg hl]

/-- The lines that enter a stage are those of the network. -/
theorem wires_stageIn (s : Fin 3) :
    Banyan.wires 3 (latches x) (wide din) s.val = wide (stageIn x din s) := by
  have h1 : Banyan.wires 3 (latches x) (wide din) 1 = wide (w0 x din) := stageOut_wide x 0 din
  have h2 : Banyan.wires 3 (latches x) (wide din) 2 = wide (w1 x din) := by
    rw [Banyan.wires, h1]
    exact stageOut_wide x 1 _
  fin_cases s
  · rfl
  · exact h1
  · exact h2

/-- The outputs of the fabric are those of the network. -/
theorem wires_dout (l : Fin 8) : Banyan.wires 3 (latches x) (wide din) 3 l.val = dout x din l := by
  have h2 : Banyan.wires 3 (latches x) (wide din) 2 = wide (w1 x din) := wires_stageIn x din 2
  rw [Banyan.wires, h2]
  exact (congrFun (stageOut_wide x 2 _) l.val).trans (wide_val _ l)

/-- A line enters the element of its stage at the port of its pair. -/
theorem pair_enters (s : Fin 3) (l : Fin 8) :
    (if (enters s l).2 then (pair s (enters s l).1).2 else (pair s (enters s l).1).1) = l := by
  revert s l
  decide

/-- What the elements latch, line by line. -/
theorem latches_posedge_val (sof : Bool) (s : Fin 3) (l : Fin 8) :
    (latches (posedge true sof din x)).act s.val l.val =
        (if x.cnt.toNat = 2 * s.val then stageIn x din s l else (latches x).act s.val l.val) ∧
      (latches (posedge true sof din x)).sel s.val l.val =
        (if x.cnt.toNat = 2 * s.val + 1 then stageIn x din s l
          else (latches x).sel s.val l.val) := by
  have hl : stageIn x din s l =
      if (enters s l).2 then stageIn x din s (pair s (enters s l).1).2
        else stageIn x din s (pair s (enters s l).1).1 := by
    rw [← apply_ite (stageIn x din s), pair_enters]
  rw [hl]
  simp only [latches, posedge, BitserialSwitch.posedge, actStb, selStb, s.isLt, l.isLt, and_self,
    dif_pos, beq_iff_eq, Bool.not_true, Bool.false_eq_true, if_false]
  cases (enters s l).2 <;> exact ⟨by split_ifs <;> rfl, by split_ifs <;> rfl⟩

theorem latches_of_not_lt {s l : ℕ} (h : ¬(s < 3 ∧ l < 8)) :
    (latches x).act s l = false ∧ (latches x).sel s l = false := by
  simp only [latches, h, dif_neg, not_false_eq_true, and_self]

/-- The clock edge is that of the network, at the count of the frame counter. -/
theorem latches_posedge (sof : Bool) :
    latches (posedge true sof din x) = (latches x).step 3 x.cnt.toNat (wide din) := by
  have hwire (s l : ℕ) (hs : s < 3) :
      Banyan.wires 3 (latches x) (wide din) s l = wide (stageIn x din ⟨s, hs⟩) l :=
    congrFun (wires_stageIn x din ⟨s, hs⟩) l
  ext s l
  · simp only [Banyan.Latches.step, apply_ite (fun f : ℕ → Bool => f l)]
    by_cases h : s < 3 ∧ l < 8
    · rw [(latches_posedge_val x din sof ⟨s, h.1⟩ ⟨l, h.2⟩).1, hwire s l h.1, wide, dif_pos h.2]
      simp only [h.1, true_and]
    · rw [(latches_of_not_lt _ h).1, (latches_of_not_lt _ h).1]
      split_ifs with hs
      · rw [hwire s l hs.1, wide, dif_neg fun hl => h ⟨hs.1, hl⟩]
      · rfl
  · simp only [Banyan.Latches.step, apply_ite (fun f : ℕ → Bool => f l)]
    by_cases h : s < 3 ∧ l < 8
    · rw [(latches_posedge_val x din sof ⟨s, h.1⟩ ⟨l, h.2⟩).2, hwire s l h.1, wide, dif_pos h.2]
      simp only [h.1, true_and]
    · rw [(latches_of_not_lt _ h).2, (latches_of_not_lt _ h).2]
      split_ifs with hs
      · rw [hwire s l hs.1, wide, dif_neg fun hl => h ⟨hs.1, hl⟩]
      · rfl

end BanyanFabric

end Saltworks.RTL
