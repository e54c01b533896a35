import Saltworks.Word.Serial

/-!
# The cells of the dot-product engine

`RTL/mac_cell_signed_shell.v` is a serial multiply-accumulate cell: a weight register that shifts
by one place in each enabled cycle, and an accumulator behind a ripple adder. `RTL/ser_organ.v`
loads a rectified accumulator in parallel and shifts it out. Both are emitted bit by bit; the
definitions give one bit, for every position.

## Main definitions

* `MacCell.State`, `MacCell.sum`, `MacCell.posedge`.
* `SerOrgan.posedge`, `SerOrgan.o0`.

## Main results

* `MacCell.sum_eq`: the adder adds or subtracts the weight if the serial bit is high.
* `SerOrgan.posedge_load`, `SerOrgan.posedge_shift`.
-/

namespace Saltworks.RTL

/-! ### The multiply-accumulate cell -/

namespace MacCell

/-- The registers: the weight `i3, …, i34` and the accumulator `i35, …, i66`. -/
structure State where
  w : BitVec 32
  acc : BitVec 32
  deriving DecidableEq

/-- The inputs of the data path: the serial bit `i0`, the load strobe `i1` and the sign strobe
`i2`. -/
structure Data where
  x : Bool
  load : Bool
  sgn : Bool
  deriving DecidableEq

/-- The strobes of the shell around it. -/
structure Strobes where
  clr : Bool
  enWsh : Bool
  enAcc : Bool
  deriving DecidableEq

section Wires

variable (s : State) (d : Data)

/-- The addend of position `k`, complemented on the sign strobe. -/
def addend (k : ℕ) : Bool := (d.x && s.w.getLsbD k) ^^ d.sgn

/-- The carry into position `k`. -/
def carry : ℕ → Bool
  | 0 => d.sgn
  | k + 1 =>
    (s.acc.getLsbD k && addend s d k) || ((s.acc.getLsbD k ^^ addend s d k) && carry k)

/-- The outputs `o0, …, o31`. -/
def sum : BitVec 32 :=
  BitVec.ofBits fun k : Fin 32 => (s.acc.getLsbD k ^^ addend s d k) ^^ carry s d k

/-- The next weight: the new bit enters at position `0`. -/
def nextW : BitVec 32 :=
  BitVec.ofBits fun k : Fin 32 => if k.val = 0 then d.load && d.x else s.w.getLsbD (k - 1)

end Wires

/-- The clock edge. -/
def posedge (e : Strobes) (d : Data) (s : State) : State where
  w := BitVec.ofBits fun k : Fin 32 => if e.enWsh then (nextW s d).getLsbD k else s.w.getLsbD k
  acc := BitVec.ofBits fun k : Fin 32 =>
    (if e.enAcc then (sum s d).getLsbD k else s.acc.getLsbD k) && !e.clr

variable (s : State) (d : Data) (e : Strobes)

theorem nextW_eq : nextW s d = s.w.shiftConcat (d.load && d.x) := by
  refine BitVec.eq_of_getLsbD_eq fun k hk => ?_
  rw [nextW, BitVec.getLsbD_ofBits _ hk, BitVec.getLsbD_shiftConcat]
  simp [hk]

theorem carry_zero : carry s d 0 = d.sgn := rfl

/-- The weight times the serial bit. -/
def row : BitVec 32 := if d.x then s.w else 0#32

theorem getLsbD_row (k : ℕ) : (row s d).getLsbD k = (d.x && s.w.getLsbD k) := by
  rw [row]
  cases d.x <;> simp

/-- **The adder** adds the weight if the serial bit is high, and subtracts it on the sign
strobe. -/
theorem sum_eq : sum s d = if d.sgn then s.acc - row s d else s.acc + row s d := by
  have haddend (k : ℕ) (hk : k < 32) :
      addend s d k = (if d.sgn then ~~~row s d else row s d).getLsbD k := by
    rw [addend, ← getLsbD_row]
    cases d.sgn
    · simp
    · simp only [Bool.xor_true, if_true, BitVec.getLsbD_not, hk, decide_true, Bool.true_and]
  have hsum := BitVec.eq_add_of_ripple (x := s.acc) (y := if d.sgn then ~~~row s d else row s d)
    (z := sum s d) (c := d.sgn) (carry_zero s d)
    (fun k hk => by rw [← haddend k hk, carry]) fun k hk => by
      rw [← haddend k hk, sum, BitVec.getLsbD_ofBits _ hk]
  rw [hsum]
  cases d.sgn
  · simp
  · exact BitVec.add_not_add_one s.acc (row s d)

@[simp] theorem posedge_w :
    (posedge e d s).w = if e.enWsh then s.w.shiftConcat (d.load && d.x) else s.w := by
  rw [← nextW_eq]
  refine BitVec.eq_of_getLsbD_eq fun k hk => ?_
  rw [posedge, BitVec.getLsbD_ofBits _ hk]
  split_ifs <;> rfl

@[simp] theorem posedge_acc :
    (posedge e d s).acc = if e.clr then 0#32 else if e.enAcc then sum s d else s.acc := by
  refine BitVec.eq_of_getLsbD_eq fun k hk => ?_
  rw [posedge, BitVec.getLsbD_ofBits _ hk]
  cases e.clr <;> cases e.enAcc <;> simp

end MacCell

/-! ### The serialiser -/

namespace SerOrgan

/-- The clock edge, on the register `i33, …, i64`: a parallel load of the accumulator, cleared if
its sign bit is set, or one place to the right. -/
def posedge (act : Bool) (acc : BitVec 32) (r : BitVec 32) : BitVec 32 :=
  BitVec.ofBits fun k : Fin 32 =>
    if act then acc.getLsbD k && !acc.getLsbD 31
    else if k.val = 31 then act && acc.getLsbD 31
    else r.getLsbD (k + 1)

/-- The serial output. -/
def o0 (r : BitVec 32) : Bool := r.getLsbD 0

/-- A word, or zero if it is negative. -/
def relu (a : BitVec 32) : BitVec 32 := if a.msb then 0#32 else a

theorem posedge_load (acc r : BitVec 32) : posedge true acc r = relu acc := by
  refine BitVec.eq_of_getLsbD_eq fun k hk => ?_
  rw [posedge, BitVec.getLsbD_ofBits _ hk, relu, BitVec.msb_eq_getLsbD_last]
  cases acc.getLsbD 31 <;> simp

theorem posedge_shift (acc r : BitVec 32) : posedge false acc r = r >>> 1 := by
  refine BitVec.eq_of_getLsbD_eq fun k hk => ?_
  rw [posedge, BitVec.getLsbD_ofBits _ hk, BitVec.getLsbD_ushiftRight, Nat.add_comm 1 k]
  by_cases h : k = 31
  · simp [h]
  · simp [h]

end SerOrgan

end Saltworks.RTL
