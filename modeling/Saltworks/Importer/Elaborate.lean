import Saltworks.Data.Dict
import Saltworks.Importer.Cells
import Saltworks.Netlist.Datum

/-!
# Elaboration of a parsed netlist

The importer turns a list of cell instances and assigns into a straight-line netlist. It reads a
net by its memo, by its constant, through the first assign that names it or by expanding the cell
that drives it, in this order, and it stops with an exception where none of these applies.

The recursion of the source is bounded by a depth, which stands for the interpreter's recursion
limit: a chain of aliases that never ends runs out of it.

## Main definitions

* `Inst`, `Source`: the parsed netlist with its primary inputs and pinned constants.
* `Raised`, `Elab`: the exceptions and the state of the elaboration.
* `driver`, `build`: the driver map and the state before the first net is read.
* `net`, `expandDriver`, `stateRoot`, `rootValue`: the elaboration of nets, flops and cuts.
* `outIdx`, `elaborate`: the output indices and the whole datum.
-/

namespace Saltworks.Importer

open Silicon

/-- The name of a net. -/
abbrev Net := String

/-- A cell instance with the nets on its connected pins. -/
structure Inst where
  cell : String
  iname : String
  conns : Dict Pin Net
  deriving DecidableEq

/-- What the elaboration reads: the instances, the assigns with their left sides first, the
primary inputs in order and the nets held at a constant. -/
structure Source where
  insts : List Inst
  assigns : List (Net × Net)
  inputs : List Net
  pinned : List (Net × Bool)
  deriving DecidableEq

/-- The exceptions with which the programs stop; a refusal is a `SystemExit`. -/
inductive Raised where
  | systemExit (message : String)
  | keyError (key : String)
  | typeError
  | valueError
  | syntaxError
  | indexError
  | assertionError
  | recursionError
  deriving Repr, DecidableEq

/-- A flop with the nets on its pins. -/
structure Flop where
  cell : String
  iname : String
  model : SeqModel
  conns : Dict Pin Net
  q : Net
  clk : Net
  d : Option Net
  reset : Option (Net × Bool)
  deriving DecidableEq

/-- The gates emitted so far and the indices of the nets bound so far. -/
structure Build where
  gates : Netlist
  idx : List (Net × ℕ)
  deriving DecidableEq

/-- An elaboration step. An exception ends the run, so it carries no state. -/
abbrev Elab := StateT Build (Except Raised)

/-! ### Constants -/

/-- The net name is a literal `1'b…`. -/
def isLiteral (nm : Net) : Bool := "1'b".toList.isPrefixOf nm.toList

/-- The value of a literal, by its last character. -/
def literalValue (nm : Net) : Bool := nm.toList.getLast? == some '1'

/-! ### Emission -/

/-- Append a gate and return its index. -/
def emit (g : Gate) : Elab ℕ := fun s => .ok (s.gates.length, { s with gates := s.gates ++ [g] })

/-- Remember the index of a net. -/
def bindNet (nm : Net) (i : ℕ) : Elab ℕ := fun s => .ok (i, { s with idx := (nm, i) :: s.idx })

/-- The gate of a two-operand primitive. -/
def BinOp.gate : BinOp → ℕ → ℕ → Gate
  | .and => .and
  | .or => .or
  | .xor => .xor

/-! ### The driver map -/

/-- Add the net on one output pin; a later driver of a net replaces an earlier one. -/
def addDriver (inst : Inst) (drv : List (Net × Inst)) (o : Pin × String) : List (Net × Inst) :=
  match inst.conns.get? o.1 with
  | some nm => (nm, inst) :: drv
  | none => drv

/-- Add the nets that an instance drives. -/
def addDrivers (drv : List (Net × Inst)) (inst : Inst) : Except Raised (List (Net × Inst)) :=
  if isPhysical inst.cell || isSequential inst.cell then .ok drv
  else match expansionFor inst.cell with
    | none => .error (.systemExit ("importer: no expansion for cell '" ++ inst.cell ++
        "' (instance " ++ inst.iname ++ ") — add it to EXPAND and to Sky130.lean"))
    | some e => .ok (e.outs.foldl (addDriver inst) drv)

/-- The driving instance of each net. -/
def driver (insts : List Inst) : Except Raised (List (Net × Inst)) :=
  insts.foldlM addDrivers []

/-! ### Programs -/

section Programs

variable (read : Net → Elab ℕ) (conns : Dict Pin Net)

/-- The index of an operand: of an earlier result, or else of the net on a pin. -/
def operand (locals : List (String × ℕ)) (a : String) : Elab ℕ :=
  match locals.lookup a with
  | some i => pure i
  | none => match conns.get? a with
    | some nm => read nm
    | none => throw (.keyError a)

/-- Emit the gate of one step; a buffer emits none. -/
def runOp (locals : List (String × ℕ)) : Op → Elab ℕ
  | .const _ b => emit (.const b)
  | .buf _ a => operand read conns locals a
  | .not _ a => do emit (.not (← operand read conns locals a))
  | .bin op _ a b => do
    let ai ← operand read conns locals a
    let bi ← operand read conns locals b
    emit (op.gate ai bi)

/-- Emit the gates of a program and return the indices of its results, the last first. -/
def runOps : List Op → List (String × ℕ) → Elab (List (String × ℕ))
  | [], locals => pure locals
  | op :: ops, locals => do
    let i ← runOp read conns locals op
    runOps ops ((op.tmp, i) :: locals)

/-- The index of a named result. -/
def result (locals : List (String × ℕ)) (t : String) : Elab ℕ :=
  match locals.lookup t with
  | some i => pure i
  | none => throw (.keyError t)

end Programs

/-! ### Nets and roots -/

/-- Emit the gates of the driving cell of `nm` and return the index of `nm`. -/
def expandDriver (read : Net → Elab ℕ) (inst : Inst) (nm : Net) : Elab ℕ :=
  match expansionFor inst.cell with
  | none => throw .typeError
  | some e => match e.outs.find? fun o => inst.conns.get? o.1 = some nm with
    | none => throw (.systemExit ("importer: cell '" ++ inst.cell ++ "' (" ++ inst.iname ++
        ") drives no output pin onto net '" ++ nm ++ "'"))
    | some o => do result (← runOps read inst.conns e.ops []) o.2

section Nets

variable (src : Source) (drv : List (Net × Inst))

/-- The index of a net, at a depth of recursion and below the nets being resolved. -/
def net : ℕ → List Net → Net → Elab ℕ
  | 0, _, _ => throw .recursionError
  | depth + 1, resolving, nm => do
    match (← get).idx.lookup nm with
    | some i => return i
    | none => match src.pinned.lookup nm with
      | some b => bindNet nm (← emit (.const b))
      | none =>
        if isLiteral nm then bindNet nm (← emit (.const (literalValue nm)))
        else match src.assigns.lookup nm with
          | some r => net depth resolving r
          | none => match drv.lookup nm with
            | none => throw (.systemExit ("importer: net '" ++ nm ++
                "' has no driver and is not an input"))
            | some inst =>
              if nm ∈ resolving then
                throw (.systemExit ("importer: combinational cycle at '" ++ nm ++ "'"))
              else bindNet nm (← expandDriver (net depth (nm :: resolving)) inst nm)

/-- The index of the logic that drives a cut net, ignoring any leaf binding. -/
def rootValue (depth : ℕ) (nm : Net) : Elab ℕ :=
  let nm := (src.assigns.lookup nm).getD nm
  match drv.lookup nm with
  | none => throw (.systemExit ("importer: cut net '" ++ nm ++
      "' has no driver, so there is no logic to certify at that boundary"))
  | some inst => expandDriver (net src drv depth []) inst nm

/-- The next-state value of a cut flop, as a gate index. -/
def stateRoot (depth : ℕ) (f : Flop) : Elab ℕ :=
  match f.d with
  | some d => net src drv depth [] d
  | none => match f.model.next.getLast? with
    | none => throw .typeError
    | some last => do result (← runOps (net src drv depth []) f.conns f.model.next []) last.tmp

/-- Design outputs, then next states, then cut roots. -/
def outIdx (depth : ℕ) (outs : List Net) (auto : List Flop) (cuts : List Net) :
    Elab (List ℕ) := do
  let designs ← outs.mapM (net src drv depth [])
  let states ← auto.mapM (stateRoot src drv depth)
  let roots ← cuts.mapM (rootValue src drv depth)
  return designs ++ states ++ roots

end Nets

/-! ### The whole elaboration -/

/-- The names that stand in a list more than once. -/
def duplicates (names : List Net) : List Net :=
  names.dedup.filter fun nm => 1 < names.count nm

/-- Emit the input gate of each primary input and bind its net to it. -/
def seedInputs (s : Build) (nm : Net) : Build :=
  { gates := s.gates ++ [.inp s.gates.length], idx := (nm, s.gates.length) :: s.idx }

/-- The driver map and the state in which the first net is read. -/
def build (src : Source) : Except Raised (List (Net × Inst) × Build) :=
  if duplicates src.inputs ≠ [] then
    .error (.systemExit ("importer: duplicate primary input net(s): " ++
      ", ".intercalate ((duplicates src.inputs).mergeSort (· ≤ ·))))
  else do return (← driver src.insts, src.inputs.foldl seedInputs ⟨[], []⟩)

/-- The emitted gates and the output indices. -/
structure Datum where
  gates : Netlist
  outs : List ℕ
  deriving DecidableEq

/-- Elaborate a netlist down to the given outputs, flops and cuts. -/
def elaborate (depth : ℕ) (src : Source) (outs : List Net) (auto : List Flop)
    (cuts : List Net) : Except Raised Datum := do
  let (drv, s₀) ← build src
  let (idx, s) ← (outIdx src drv depth outs auto cuts).run s₀
  return ⟨s.gates, idx⟩

end Saltworks.Importer
