import Mathlib.Data.Fin.VecNotation
import Mathlib.Order.Fin.Basic
import Mathlib.Tactic.FinCases
import Saltworks.Machine.Synchronous
import Saltworks.Network.Sorting

/-!
# The bit-serial sorting network `batcher_net`

`RTL/batcher_net.v` wires 24 compare-exchange elements `ce_elem` into an eight-line bitonic
network. An element decides whether to exchange its lines at the first bit in which they differ,
and holds the decision to the end of the frame; `rst` marks the first cycle of a frame. The data
path is combinational through all six layers.

## Main definitions

* `CeElem.State`, `CeElem.outs`, `CeElem.posedge`: one element.
* `BatcherNet.elemOuts`, `BatcherNet.outs`, `BatcherNet.posedge`: the network as it is wired.
* `BatcherNet.comps`, `BatcherNet.element`: the wiring as comparators, and the element of each.

## Main results

* `BatcherNet.netOuts_eq_lanes`, `BatcherNet.elemIns_eq_lanes`: the wires are the lanes of the
  network of elements.
* `BatcherNet.sortsBits_comps`: the comparators sort.
-/

namespace Saltworks.RTL

/-- What a line of the sorter carries in a cycle: its activity wire and its data wire. -/
structure Lane where
  act : Bool
  dat : Bool
  deriving DecidableEq

namespace CeElem

/-- The registers of an element. -/
structure State where
  decided : Bool
  swap : Bool
  deriving DecidableEq

section Wires

variable (s : State) (rst : Bool) (i0 i1 : Lane)

def d : Bool := s.decided && !rst

def actDiff : Bool := i0.act ^^ i1.act

def idleSw : Bool := i1.act && !i0.act

def bothAct : Bool := i0.act && i1.act

def addrSw : Bool := i0.dat && !i1.dat

def newSw : Bool := idleSw i0 i1 || (bothAct i0 i1 && addrSw i0 i1)

def sw : Bool := (d s rst && s.swap) || (!d s rst && newSw i0 i1)

def addrDiff : Bool := i0.dat ^^ i1.dat

def decN : Bool := d s rst || (actDiff i0 i1 || (bothAct i0 i1 && addrDiff i0 i1))

/-- `out0`, `oact0` and `out1`, `oact1`. -/
def outs : Lane × Lane :=
  (⟨if sw s rst i0 i1 then i1.act else i0.act, if sw s rst i0 i1 then i1.dat else i0.dat⟩,
    ⟨if sw s rst i0 i1 then i0.act else i1.act, if sw s rst i0 i1 then i0.dat else i1.dat⟩)

end Wires

/-- The clock edge. -/
def posedge (rst : Bool) (i0 i1 : Lane) (s : State) : State where
  decided := decN s rst i0 i1
  swap := sw s rst i0 i1

/-- The outputs are the inputs, exchanged or not. -/
theorem outs_eq (s : State) (rst : Bool) (i0 i1 : Lane) :
    outs s rst i0 i1 = if sw s rst i0 i1 then (i1, i0) else (i0, i1) := by
  rw [outs]
  split_ifs <;> rfl

end CeElem

namespace BatcherNet

open CeElem (outs)
open SortingNetwork (lanes)

/-- The registers: those of `u0`, …, `u23`. -/
abbrev State := Fin 24 → CeElem.State

/-- The outputs of every element, `u j` at place `j`: ports `a` and `b`. -/
def elemOuts (s : State) (rst : Bool) (i : Fin 8 → Lane) : Fin 24 → Lane × Lane :=
  let u0 := outs (s 0) rst (i 0) (i 1)
  let u1 := outs (s 1) rst (i 3) (i 2)
  let u2 := outs (s 2) rst (i 4) (i 5)
  let u3 := outs (s 3) rst (i 7) (i 6)
  let u4 := outs (s 4) rst u0.1 u1.2
  let u5 := outs (s 5) rst u0.2 u1.1
  let u6 := outs (s 6) rst u3.2 u2.1
  let u7 := outs (s 7) rst u3.1 u2.2
  let u8 := outs (s 8) rst u4.1 u5.1
  let u9 := outs (s 9) rst u4.2 u5.2
  let u10 := outs (s 10) rst u7.2 u6.2
  let u11 := outs (s 11) rst u7.1 u6.1
  let u12 := outs (s 12) rst u8.1 u10.2
  let u13 := outs (s 13) rst u8.2 u10.1
  let u14 := outs (s 14) rst u9.1 u11.2
  let u15 := outs (s 15) rst u9.2 u11.1
  let u16 := outs (s 16) rst u12.1 u14.1
  let u17 := outs (s 17) rst u13.1 u15.1
  let u18 := outs (s 18) rst u12.2 u14.2
  let u19 := outs (s 19) rst u13.2 u15.2
  let u20 := outs (s 20) rst u16.1 u17.1
  let u21 := outs (s 21) rst u16.2 u17.2
  let u22 := outs (s 22) rst u18.1 u19.1
  let u23 := outs (s 23) rst u18.2 u19.2
  ![u0, u1, u2, u3, u4, u5, u6, u7, u8, u9, u10, u11, u12, u13, u14, u15, u16, u17, u18, u19, u20,
    u21, u22, u23]

/-- The inputs of every element. -/
def elemIns (s : State) (rst : Bool) (i : Fin 8 → Lane) : Fin 24 → Lane × Lane :=
  let u := elemOuts s rst i
  ![(i 0, i 1), (i 3, i 2), (i 4, i 5), (i 7, i 6), ((u 0).1, (u 1).2), ((u 0).2, (u 1).1),
    ((u 3).2, (u 2).1), ((u 3).1, (u 2).2), ((u 4).1, (u 5).1), ((u 4).2, (u 5).2),
    ((u 7).2, (u 6).2), ((u 7).1, (u 6).1), ((u 8).1, (u 10).2), ((u 8).2, (u 10).1),
    ((u 9).1, (u 11).2), ((u 9).2, (u 11).1), ((u 12).1, (u 14).1), ((u 13).1, (u 15).1),
    ((u 12).2, (u 14).2), ((u 13).2, (u 15).2), ((u 16).1, (u 17).1), ((u 16).2, (u 17).2),
    ((u 18).1, (u 19).1), ((u 18).2, (u 19).2)]

/-- `dout` and `aout`. -/
def netOuts (s : State) (rst : Bool) (i : Fin 8 → Lane) : Fin 8 → Lane :=
  let u := elemOuts s rst i
  ![(u 20).1, (u 20).2, (u 21).1, (u 21).2, (u 22).1, (u 22).2, (u 23).1, (u 23).2]

/-- The clock edge. -/
def posedge (rst : Bool) (i : Fin 8 → Lane) (s : State) : State := fun j =>
  CeElem.posedge rst (elemIns s rst i j).1 (elemIns s rst i j).2 (s j)

/-! ### The wiring as comparators -/

/-- The comparators of the wiring: `(a, b)` puts the smaller item on line `a`. -/
def comps : List (Fin 8 × Fin 8) :=
  [(0, 1), (3, 2), (4, 5), (7, 6), (0, 2), (1, 3), (6, 4), (7, 5), (0, 1), (2, 3), (5, 4), (7, 6),
    (0, 4), (1, 5), (2, 6), (3, 7), (0, 2), (1, 3), (4, 6), (5, 7), (0, 1), (2, 3), (4, 5), (6, 7)]

/-- The outputs of element `e` by its inputs. -/
def element (s : State) (rst : Bool) (e : ℕ) : Lane → Lane → Lane × Lane :=
  outs (s (Fin.ofNat 24 e)) rst

theorem netOuts_eq_lanes (s : State) (rst : Bool) (i : Fin 8 → Lane) :
    netOuts s rst i = lanes (element s rst) 0 comps i := by
  simp only [comps, lanes, Nat.reduceAdd, element]
  funext l
  fin_cases l <;> rfl

/-- An element reads the lanes in front of its comparator. -/
theorem elemIns_eq_lanes (s : State) (rst : Bool) (i : Fin 8 → Lane)
    {pre post : List (Fin 8 × Fin 8)} {c : Fin 8 × Fin 8} (hcs : comps = pre ++ c :: post) :
    elemIns s rst i (Fin.ofNat 24 pre.length) =
      (lanes (element s rst) 0 pre i c.1, lanes (element s rst) 0 pre i c.2) := by
  have hplace (j : Fin 24) : elemIns s rst i j =
      (lanes (element s rst) 0 (comps.take j) i (comps.getD j (0, 0)).1,
        lanes (element s rst) 0 (comps.take j) i (comps.getD j (0, 0)).2) := by
    fin_cases j <;> rfl
  have hlength : pre.length < 24 := by
    have h := congrArg List.length hcs
    rw [List.length_append, List.length_cons] at h
    change 24 = _ at h
    omega
  have htake : comps.take pre.length = pre := by rw [hcs, List.take_left]
  have hget : comps.getD pre.length (0, 0) = c := by simp [hcs]
  rw [hplace, Fin.val_ofNat, Nat.mod_eq_of_lt hlength, htake, hget]

theorem comps_ne : ∀ c ∈ comps, c.1 ≠ c.2 := by decide

/-- The comparators sort. -/
theorem sortsBits_comps : SortingNetwork.SortsBits comps := by decide +kernel

end BatcherNet

end Saltworks.RTL
