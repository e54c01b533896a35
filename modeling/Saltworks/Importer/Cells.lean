import Saltworks.Data.Decimal
import Mathlib.Data.List.Basic
import Mathlib.Tactic.Common

/-!
# The cells that the importer knows

The importer expands each combinational sky130 cell into a straight-line program over its input
pins and models each sequential cell by its clock, its state output and its next state. A cell
is looked up by its name and then by its name without the drive strength.

## Main definitions

* `Op`, `Expansion`, `expand`, `expansionFor`: the expansions and their lookup.
* `evalOps`, `Expansion.eval`: the values that a program gives its names.
* `SeqModel`, `seqModels`, `seqModelFor`: the models of the flops.
* `isPhysical`, `isSequential`: the cells that no expansion is looked up for.
-/

namespace Saltworks.Importer

/-- The name of a cell pin. -/
abbrev Pin := String

/-- The two-operand primitives. -/
inductive BinOp where
  | and
  | or
  | xor
  deriving Repr, DecidableEq

/-- The value of a two-operand primitive. -/
def BinOp.apply : BinOp → Bool → Bool → Bool
  | .and, a, b => a && b
  | .or, a, b => a || b
  | .xor, a, b => a ^^ b

/-- One step of a straight-line program. It names its result `t`; an operand is the name of an
earlier result or, where no result has that name, of a pin. -/
inductive Op where
  | const (t : String) (b : Bool)
  | buf (t a : String)
  | not (t a : String)
  | bin (op : BinOp) (t a b : String)
  deriving Repr, DecidableEq

namespace Op

abbrev and (t a b : String) : Op := .bin .and t a b

abbrev or (t a b : String) : Op := .bin .or t a b

abbrev xor (t a b : String) : Op := .bin .xor t a b

/-- The name of the result. -/
def tmp : Op → String
  | .const t _ | .buf t _ | .not t _ | .bin _ t _ _ => t

/-- The names of the operands. -/
def args : Op → List String
  | .const _ _ => []
  | .buf _ a | .not _ a => [a]
  | .bin _ _ a b => [a, b]

end Op

/-- The program of a cell, with the result that each of its output pins shows. -/
structure Expansion where
  ops : List Op
  outs : List (Pin × String)
  deriving Repr, DecidableEq

/-! ### The meaning of a program -/

/-- The value of an operand: of an earlier result, or else of a pin. -/
def argValue (env : Pin → Option Bool) (locals : List (String × Bool)) (a : String) :
    Option Bool :=
  (locals.lookup a).or (env a)

/-- The value of the result of one step. -/
def Op.eval (env : Pin → Option Bool) (locals : List (String × Bool)) : Op → Option Bool
  | .const _ b => some b
  | .buf _ a => argValue env locals a
  | .not _ a => (argValue env locals a).map (!·)
  | .bin op _ a b => do return op.apply (← argValue env locals a) (← argValue env locals b)

/-- The values of all results of a program, the last result first. -/
def evalOps (env : Pin → Option Bool) :
    List Op → List (String × Bool) → Option (List (String × Bool))
  | [], locals => some locals
  | op :: ops, locals => do evalOps env ops ((op.tmp, ← op.eval env locals) :: locals)

/-- The value of the result `t` of an expansion. -/
def Expansion.eval (e : Expansion) (env : Pin → Option Bool) (t : String) : Option Bool := do
  (← evalOps env e.ops []).lookup t

/-! ### Cell names -/

/-- Cell name with the trailing drive-strength suffix removed. -/
def baseOf (cell : String) : String :=
  let rest := cell.toList.reverse.dropWhile isDecimal
  match rest with
  | '_' :: base => if rest.length < cell.length then String.ofList base.reverse else cell
  | _ => cell

/-- The cells that have no logic, by the start of their names. -/
def physicalPrefix : List String := ["tapvpwrvgnd", "fill", "decap", "diode"]

/-- The sequential cells, by the start of their names. -/
def seqPrefix : List String :=
  ["dfxtp", "dfrtp", "dfstp", "sdfxtp", "sdfrtp", "dlxtp", "edfxtp"]

/-- `cell.startswith(prefixes)`. -/
def startsWithAny (prefixes : List String) (cell : String) : Bool :=
  prefixes.any fun p => p.toList.isPrefixOf cell.toList

def isPhysical (cell : String) : Bool := startsWithAny physicalPrefix cell

def isSequential (cell : String) : Bool := startsWithAny seqPrefix cell

/-! ### Combinational cells -/

/-- The cell expansions, in the order in which the lookup reads them. -/
def expand : List (String × Expansion) :=
  [("clkinv_1", ⟨[.not "t" "A"], [("Y", "t")]⟩),
   ("inv_1", ⟨[.not "t" "A"], [("Y", "t")]⟩),
   ("buf_1", ⟨[.buf "t" "A"], [("X", "t")]⟩),
   ("and2_0", ⟨[.and "t" "A" "B"], [("X", "t")]⟩),
   ("and2_1", ⟨[.and "t" "A" "B"], [("X", "t")]⟩),
   ("or2_1", ⟨[.or "t" "A" "B"], [("X", "t")]⟩),
   ("xor2_1", ⟨[.xor "t" "A" "B"], [("X", "t")]⟩),
   ("nand2_1", ⟨[.and "a" "A" "B", .not "t" "a"], [("Y", "t")]⟩),
   ("nor2_1", ⟨[.or "a" "A" "B", .not "t" "a"], [("Y", "t")]⟩),
   ("nand3_1", ⟨[.and "a" "A" "B", .and "b" "a" "C", .not "t" "b"], [("Y", "t")]⟩),
   ("nand4_1", ⟨[.and "a" "A" "B", .and "b" "a" "C", .and "c" "b" "D",
     .not "t" "c"], [("Y", "t")]⟩),
   ("and4", ⟨[.and "a" "A" "B", .and "b" "a" "C", .and "t" "b" "D"], [("X", "t")]⟩),
   ("or4", ⟨[.or "a" "A" "B", .or "b" "a" "C", .or "t" "b" "D"], [("X", "t")]⟩),
   ("nor4", ⟨[.or "a" "A" "B", .or "b" "a" "C", .or "c" "b" "D", .not "t" "c"], [("Y", "t")]⟩),
   ("and4b", ⟨[.not "a" "A_N", .and "b" "a" "B", .and "c" "b" "C",
     .and "t" "c" "D"], [("X", "t")]⟩),
   ("nand4b", ⟨[.not "a" "A_N", .and "b" "a" "B", .and "c" "b" "C", .and "d" "c" "D",
     .not "t" "d"], [("Y", "t")]⟩),
   ("nand4bb", ⟨[.not "a" "A_N", .not "b" "B_N", .and "c" "a" "b", .and "d" "c" "C",
     .and "e" "d" "D", .not "t" "e"], [("Y", "t")]⟩),
   ("nor4b", ⟨[.not "a" "D_N", .or "b" "A" "B", .or "c" "b" "C", .or "d" "c" "a",
     .not "t" "d"], [("Y", "t")]⟩),
   ("nor4bb", ⟨[.not "a" "C_N", .not "b" "D_N", .or "c" "A" "B", .or "d" "c" "a", .or "e" "d" "b",
     .not "t" "e"], [("Y", "t")]⟩),
   ("a2111oi", ⟨[.and "a" "A1" "A2", .or "b" "a" "B1", .or "c" "b" "C1", .or "d" "c" "D1",
     .not "t" "d"], [("Y", "t")]⟩),
   ("xnor2", ⟨[.xor "a" "A" "B", .not "t" "a"], [("Y", "t")]⟩),
   ("o211ai", ⟨[.or "a" "A1" "A2", .and "b" "a" "B1", .and "c" "b" "C1",
     .not "t" "c"], [("Y", "t")]⟩),
   ("o221ai", ⟨[.or "a" "A1" "A2", .or "b" "B1" "B2", .and "c" "a" "b", .and "d" "c" "C1",
     .not "t" "d"], [("Y", "t")]⟩),
   ("a311oi", ⟨[.and "a" "A1" "A2", .and "b" "a" "A3", .or "c" "b" "B1", .or "d" "c" "C1",
     .not "t" "d"], [("Y", "t")]⟩),
   ("maj3", ⟨[.and "a" "A" "B", .and "b" "A" "C", .and "c" "B" "C", .or "d" "a" "b",
     .or "t" "d" "c"], [("X", "t")]⟩),
   ("o2111ai", ⟨[.or "a" "A1" "A2", .and "b" "a" "B1", .and "c" "b" "C1", .and "d" "c" "D1",
     .not "t" "d"], [("Y", "t")]⟩),
   ("o311ai", ⟨[.or "a" "A1" "A2", .or "b" "a" "A3", .and "c" "b" "B1", .and "d" "c" "C1",
     .not "t" "d"], [("Y", "t")]⟩),
   ("a21bo", ⟨[.and "a" "A1" "A2", .not "b" "B1_N", .or "t" "a" "b"], [("X", "t")]⟩),
   ("a41o", ⟨[.and "a" "A1" "A2", .and "b" "a" "A3", .and "c" "b" "A4",
     .or "t" "c" "B1"], [("X", "t")]⟩),
   ("a41oi", ⟨[.and "a" "A1" "A2", .and "b" "a" "A3", .and "c" "b" "A4", .or "d" "c" "B1",
     .not "t" "d"], [("Y", "t")]⟩),
   ("o2111a", ⟨[.or "a" "A1" "A2", .and "b" "a" "B1", .and "c" "b" "C1",
     .and "t" "c" "D1"], [("X", "t")]⟩),
   ("o21ba", ⟨[.or "a" "A1" "A2", .not "b" "B1_N", .and "t" "a" "b"], [("X", "t")]⟩),
   ("o221a", ⟨[.or "a" "A1" "A2", .or "b" "B1" "B2", .and "c" "a" "b",
     .and "t" "c" "C1"], [("X", "t")]⟩),
   ("o22a", ⟨[.or "a" "A1" "A2", .or "b" "B1" "B2", .and "t" "a" "b"], [("X", "t")]⟩),
   ("o32a", ⟨[.or "a" "A1" "A2", .or "b" "a" "A3", .or "c" "B1" "B2",
     .and "t" "b" "c"], [("X", "t")]⟩),
   ("mux4", ⟨[.not "n0" "S0", .not "n1" "S1", .and "p0" "A0" "n0", .and "q0" "p0" "n1",
     .and "p1" "A1" "S0", .and "q1" "p1" "n1", .and "p2" "A2" "n0", .and "q2" "p2" "S1",
     .and "p3" "A3" "S0", .and "q3" "p3" "S1", .or "r0" "q0" "q1", .or "r1" "q2" "q3",
     .or "t" "r0" "r1"], [("X", "t")]⟩),
   ("nor3_1", ⟨[.or "a" "A" "B", .or "b" "a" "C", .not "t" "b"], [("Y", "t")]⟩),
   ("mux2_1", ⟨[.not "n" "S", .and "a" "A0" "n", .and "b" "A1" "S",
     .or "t" "a" "b"], [("X", "t")]⟩),
   ("mux2i_1", ⟨[.not "n" "S", .and "a" "A0" "n", .and "b" "A1" "S", .or "o" "a" "b",
     .not "t" "o"], [("Y", "t")]⟩),
   ("a22oi_1", ⟨[.and "a" "A1" "A2", .and "b" "B1" "B2", .or "o" "a" "b",
     .not "t" "o"], [("Y", "t")]⟩),
   ("a31oi_1", ⟨[.and "a" "A1" "A2", .and "b" "a" "A3", .or "o" "b" "B1",
     .not "t" "o"], [("Y", "t")]⟩),
   ("a221oi_1", ⟨[.and "a" "A1" "A2", .and "b" "B1" "B2", .or "o" "a" "b", .or "p" "o" "C1",
     .not "t" "p"], [("Y", "t")]⟩),
   ("a222oi_1", ⟨[.and "a" "A1" "A2", .and "b" "B1" "B2", .and "c" "C1" "C2", .or "o" "a" "b",
     .or "p" "o" "c", .not "t" "p"], [("Y", "t")]⟩),
   ("o22ai_1", ⟨[.or "a" "A1" "A2", .or "b" "B1" "B2", .and "o" "a" "b",
     .not "t" "o"], [("Y", "t")]⟩),
   ("o21ai_0", ⟨[.or "a" "A1" "A2", .and "o" "a" "B1", .not "t" "o"], [("Y", "t")]⟩),
   ("o2bb2ai_1", ⟨[.not "na" "A1_N", .not "nb" "A2_N", .or "a" "na" "nb", .or "b" "B1" "B2",
     .and "o" "a" "b", .not "t" "o"], [("Y", "t")]⟩),
   ("lpflow_inputiso1p_1", ⟨[.or "t" "A" "SLEEP"], [("X", "t")]⟩),
   ("lpflow_isobufsrc_1", ⟨[.not "n" "SLEEP", .and "t" "A" "n"], [("X", "t")]⟩),
   ("conb", ⟨[.const "hi" true, .const "lo" false], [("HI", "hi"), ("LO", "lo")]⟩),
   ("and3", ⟨[.and "a" "A" "B", .and "t" "a" "C"], [("X", "t")]⟩),
   ("nor3b", ⟨[.not "a" "C_N", .or "b" "A" "B", .or "c" "b" "a", .not "t" "c"], [("Y", "t")]⟩),
   ("or3b", ⟨[.not "a" "C_N", .or "b" "A" "B", .or "t" "b" "a"], [("X", "t")]⟩),
   ("and2b", ⟨[.not "a" "A_N", .and "t" "a" "B"], [("X", "t")]⟩),
   ("and3b", ⟨[.not "a" "A_N", .and "b" "a" "B", .and "t" "b" "C"], [("X", "t")]⟩),
   ("and4bb", ⟨[.not "a" "A_N", .not "b" "B_N", .and "c" "a" "b", .and "d" "c" "C",
     .and "t" "d" "D"], [("X", "t")]⟩),
   ("nand2b", ⟨[.not "a" "A_N", .and "b" "a" "B", .not "t" "b"], [("Y", "t")]⟩),
   ("nand3b", ⟨[.not "a" "A_N", .and "b" "a" "B", .and "c" "b" "C", .not "t" "c"], [("Y", "t")]⟩),
   ("a21o", ⟨[.and "a" "A1" "A2", .or "t" "a" "B1"], [("X", "t")]⟩),
   ("a21oi", ⟨[.and "a" "A1" "A2", .or "b" "a" "B1", .not "t" "b"], [("Y", "t")]⟩),
   ("a21boi", ⟨[.and "a" "A1" "A2", .not "b" "B1_N", .or "c" "a" "b", .not "t" "c"], [("Y", "t")]⟩),
   ("a31o", ⟨[.and "a" "A1" "A2", .and "b" "a" "A3", .or "t" "b" "B1"], [("X", "t")]⟩),
   ("a32o", ⟨[.and "a" "A1" "A2", .and "b" "a" "A3", .and "c" "B1" "B2",
     .or "t" "b" "c"], [("X", "t")]⟩),
   ("a211o", ⟨[.and "a" "A1" "A2", .or "b" "a" "B1", .or "t" "b" "C1"], [("X", "t")]⟩),
   ("a211oi", ⟨[.and "a" "A1" "A2", .or "b" "a" "B1", .or "c" "b" "C1",
     .not "t" "c"], [("Y", "t")]⟩),
   ("a221oi", ⟨[.and "a" "A1" "A2", .and "b" "B1" "B2", .or "c" "a" "b", .or "d" "c" "C1",
     .not "t" "d"], [("Y", "t")]⟩),
   ("o21a", ⟨[.or "a" "A1" "A2", .and "t" "a" "B1"], [("X", "t")]⟩),
   ("o211a", ⟨[.or "a" "A1" "A2", .and "b" "a" "B1", .and "t" "b" "C1"], [("X", "t")]⟩),
   ("clkbuf", ⟨[.buf "t" "A"], [("X", "t")]⟩),
   ("a2bb2oi", ⟨[.or "a" "A1_N" "A2_N", .not "b" "B1", .not "c" "B2", .or "d" "b" "c",
     .and "t" "a" "d"], [("Y", "t")]⟩),
   ("dlygate4sd3", ⟨[.buf "t" "A"], [("X", "t")]⟩),
   ("clkdlybuf4s25", ⟨[.buf "t" "A"], [("X", "t")]⟩),
   ("a221o", ⟨[.and "a" "A1" "A2", .and "b" "B1" "B2", .or "c" "a" "b",
     .or "t" "c" "C1"], [("X", "t")]⟩),
   ("a22o", ⟨[.and "a" "A1" "A2", .and "b" "B1" "B2", .or "t" "a" "b"], [("X", "t")]⟩),
   ("nor2b", ⟨[.not "n" "A", .and "t" "n" "B_N"], [("Y", "t")]⟩),
   ("o21bai", ⟨[.or "a" "A1" "A2", .not "n" "a", .or "t" "n" "B1_N"], [("Y", "t")]⟩),
   ("o31a", ⟨[.or "a" "A1" "A2", .or "b" "a" "A3", .and "t" "b" "B1"], [("X", "t")]⟩),
   ("o31ai", ⟨[.or "a" "A1" "A2", .or "b" "a" "A3", .and "c" "b" "B1",
     .not "t" "c"], [("Y", "t")]⟩),
   ("o41ai", ⟨[.or "a" "A1" "A2", .or "b" "a" "A3", .or "c" "b" "A4", .and "d" "c" "B1",
     .not "t" "d"], [("Y", "t")]⟩),
   ("or3", ⟨[.or "a" "A" "B", .or "t" "a" "C"], [("X", "t")]⟩),
   ("a311o_1", ⟨[.and "a" "A1" "A2", .and "b" "a" "A3", .or "c" "b" "B1",
     .or "t" "c" "C1"], [("X", "t")]⟩),
   ("a32oi_1", ⟨[.and "a" "A1" "A2", .and "b" "a" "A3", .and "c" "B1" "B2", .or "d" "b" "c",
     .not "t" "d"], [("Y", "t")]⟩),
   ("o311a_1", ⟨[.or "a" "A1" "A2", .or "b" "a" "A3", .and "c" "b" "B1",
     .and "t" "c" "C1"], [("X", "t")]⟩),
   ("o32ai_1", ⟨[.or "a" "A1" "A2", .or "b" "a" "A3", .or "c" "B1" "B2", .and "d" "b" "c",
     .not "t" "d"], [("Y", "t")]⟩),
   ("o41a_1", ⟨[.or "a" "A1" "A2", .or "b" "a" "A3", .or "c" "b" "A4",
     .and "t" "c" "B1"], [("X", "t")]⟩),
   ("a2111o_1", ⟨[.and "a" "A1" "A2", .or "b" "a" "B1", .or "c" "b" "C1",
     .or "t" "c" "D1"], [("X", "t")]⟩),
   ("o2bb2a_1", ⟨[.not "n1" "A1_N", .not "n2" "A2_N", .or "a" "n1" "n2", .or "b" "B1" "B2",
     .and "t" "a" "b"], [("X", "t")]⟩),
   ("or4b", ⟨[.or "a" "A" "B", .or "b" "a" "C", .not "n" "D_N", .or "t" "b" "n"], [("X", "t")]⟩)]

/-- Exact match first, then drive-stripped. -/
def expansionFor (cell : String) : Option Expansion :=
  match expand.lookup cell with
  | some e => some e
  | none => (expand.find? fun k => baseOf k.1 = baseOf cell).map Prod.snd

/-! ### Sequential cells -/

/-- The model of a flop. The next state is the net of the pin `d`, or else the last result of
the program `next` over the pins, where `Q` is the state. An asynchronous `reset` is a pin with
the value at which it is inactive; a cell that has one imports only with that pin held there. -/
structure SeqModel where
  clk : Pin
  q : Pin
  pins : List Pin
  d : Option Pin
  next : List Op
  reset : Option (Pin × Bool)
  deriving Repr, DecidableEq

/-- The plain flop. -/
def dfxtp : SeqModel where
  clk := "CLK"
  q := "Q"
  pins := ["CLK", "D", "Q"]
  d := some "D"
  next := []
  reset := none

/-- The enable flop: the next state is `D` where `DE` is high and the state where it is low. -/
def edfxtp : SeqModel where
  clk := "CLK"
  q := "Q"
  pins := ["CLK", "D", "DE", "Q"]
  d := none
  next := [.not "n" "DE", .and "a" "DE" "D", .and "b" "n" "Q", .or "t" "a" "b"]
  reset := none

/-- The flop with an asynchronous reset that is active low. -/
def dfrtp : SeqModel where
  clk := "CLK"
  q := "Q"
  pins := ["CLK", "D", "Q", "RESET_B"]
  d := some "D"
  next := []
  reset := some ("RESET_B", true)

/-- The sequential cells that import. -/
def seqModels : List (String × SeqModel) :=
  [("dfxtp", dfxtp), ("edfxtp", edfxtp), ("dfrtp", dfrtp)]

/-- The model of a cell, by its name without the drive strength. -/
def seqModelFor (cell : String) : Option SeqModel := seqModels.lookup (baseOf cell)

theorem seqModelFor_cases {cell : String} {m : SeqModel} (h : seqModelFor cell = some m) :
    m = dfxtp ∨ m = edfxtp ∨ m = dfrtp := by
  rw [seqModelFor, seqModels] at h
  grind

/-- The reset of a model is one of its input pins. -/
theorem seqModelFor_reset {cell : String} {m : SeqModel} (hm : seqModelFor cell = some m) {p : Pin}
    {v : Bool} (hp : m.reset = some (p, v)) : p ∈ m.pins ∧ p ≠ m.q := by
  rcases seqModelFor_cases hm with rfl | rfl | rfl <;> cases hp
  decide

end Saltworks.Importer
