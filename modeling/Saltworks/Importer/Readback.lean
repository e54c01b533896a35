import Saltworks.Importer.LibertyFunction

/-!
# The readback check

After an import the emitted datum is simulated against the vendor library: the source netlist is
evaluated a second time, from the library's own output pins, functions and next-state
expressions, and both must agree on random input vectors.

The evaluation of the source knows the primary inputs, the literals, the assigns and the drivers,
and it reads a net that has no driver as low. It does not know which net is pinned.

## Main definitions

* `LibCell`, `libFor`: the library.
* `Readback`, `ev`, `nextState`, `cutRoot`: the evaluation of the source.
* `trial`, `check`: the comparison on one vector and on all.
-/

namespace Saltworks.Importer

open Silicon

/-- What the check reads of a library cell: its input pins, the functions of its output pins and,
in a flop, the state variable with the next-state expression. -/
structure LibCell where
  ins : List Pin
  outs : List (Pin × String)
  ff : Option (String × String)
  deriving Repr, DecidableEq

/-- A library cell by its name, or else by its name without the drive strength. -/
def libFor (lib : String → Option LibCell) (cell : String) : Option LibCell :=
  (lib cell).or (lib (baseOf cell))

/-- What the check is run on: the library, the source netlist as the check reads it, the port
lists of the import, its flops and cuts, and the datum. -/
structure Readback where
  lib : String → Option LibCell
  insts : List Inst
  assigns : List (Net × Net)
  insAll : List Net
  outsNamed : List Net
  flops : List Flop
  cuts : List Net
  datum : Datum

namespace Readback

variable (rb : Readback)

/-! ### The driver map -/

/-- Add the net on a pin, if the library knows a function of the pin. -/
def addOutput (inst : Inst) (c : LibCell) (drv : List (Net × Inst × String)) (p : Pin × Net) :
    List (Net × Inst × String) :=
  match c.outs.lookup p.1 with
  | some fn => (p.2, inst, fn) :: drv
  | none => drv

/-- Add the nets on the output pins of an instance; a later driver replaces an earlier one. -/
def addDrivers (drv : List (Net × Inst × String)) (inst : Inst) : List (Net × Inst × String) :=
  match libFor rb.lib inst.cell with
  | none => drv
  | some c => inst.conns.items.foldl (addOutput inst c) drv

/-- The driving instance of each net with the function of its output pin. -/
def drivers : List (Net × Inst × String) := rb.insts.foldl rb.addDrivers []

/-- The right side of the last assign of each net. -/
def aliasMap : Dict Net Net := .ofList rb.assigns

/-- The primary inputs with their values in a vector. -/
def leaf (vec : List Bool) : Dict Net Bool := .ofList (rb.insAll.zip vec)

/-! ### The evaluation of the source -/

/-- An evaluation of the source, which remembers the nets that it has evaluated. -/
abbrev Eval := StateT (List (Net × Bool)) (Except Raised)

/-- The values of the nets on the connected input pins. -/
def readPins (read : Net → Eval Bool) (conns : Dict Pin Net) : List Pin → Eval (List (Pin × Bool))
  | [] => pure []
  | p :: ps => match conns.get? p with
    | none => readPins read conns ps
    | some nm => do
      let b ← read nm
      return (p, b) :: (← readPins read conns ps)

/-- The value of a function of the pins. -/
def evalPins (fn : String) (env : List (Pin × Bool)) : Eval Bool :=
  fun memo => match Liberty.evalFn (fun p => env.lookup p) fn with
    | .ok b => .ok (b, memo)
    | .error e => .error e

/-- Remember the value of a net. -/
def remember (nm : Net) (b : Bool) : Eval Bool := fun memo => .ok (b, (nm, b) :: memo)

/-- The input pins of an instance, by the library. -/
def inputPins (inst : Inst) : Eval (List Pin) :=
  match libFor rb.lib inst.cell with
  | some c => pure c.ins
  | none => throw .typeError

/-- The value of an output of an instance, by its function. -/
def evalOutput (read : Net → Eval Bool) (inst : Inst) (fn : String) : Eval Bool := do
  let pins ← rb.inputPins inst
  let env ← readPins read inst.conns pins
  evalPins fn env

/-- The value of a net that is no primary input and has not been evaluated before. -/
def evalNet (read : Net → Eval Bool) (nm : Net) : Eval Bool :=
  if isLiteral nm then return literalValue nm
  else match rb.aliasMap.get? nm with
    | some r => read r
    | none => match rb.drivers.lookup nm with
      | none => return false
      | some (inst, fn) => do remember nm (← rb.evalOutput read inst fn)

/-- The value of a net in the source. -/
def ev (vec : List Bool) : ℕ → Net → Eval Bool
  | 0, _ => throw .recursionError
  | depth + 1, nm =>
    match (rb.leaf vec).get? nm with
    | some b => pure b
    | none => do
      match (← get).lookup nm with
      | some b => return b
      | none => rb.evalNet (ev vec depth) nm

/-- The next state of a flop, from the library's own expression. -/
def nextState (vec : List Bool) (depth : ℕ) (f : Flop) : Eval Bool :=
  match libFor rb.lib f.cell with
  | none => throw .typeError
  | some c => match c.ff with
    | none => throw .typeError
    | some (state, next) => match f.conns.get? "Q" with
      | none => throw (.keyError "Q")
      | some q => match (rb.leaf vec).get? q with
        | none => throw (.keyError q)
        | some b => do
          let env ← readPins (rb.ev vec depth) f.conns c.ins
          evalPins next (env ++ [(state, b)])

/-- The value of the logic that drives a cut net. -/
def cutRoot (vec : List Bool) (depth : ℕ) (nm : Net) : Eval Bool :=
  match rb.drivers.lookup nm with
  | none => throw (.keyError nm)
  | some (inst, fn) => rb.evalOutput (rb.ev vec depth) inst fn

/-! ### The comparison -/

/-- The design outputs, next states and cut roots of the source. -/
def want (vec : List Bool) (depth : ℕ) : Eval (List Bool) := do
  let designs ← rb.outsNamed.mapM (rb.ev vec depth)
  let states ← rb.flops.mapM (rb.nextState vec depth)
  let roots ← rb.cuts.mapM (rb.cutRoot vec depth)
  return designs ++ states ++ roots

/-- The outputs of the datum. -/
def got (vec : List Bool) : List Bool :=
  rb.datum.outs.map (rb.datum.gates.value fun k => vec.getD k false)

/-- The datum and the source agree on a vector. -/
def trial (depth : ℕ) (vec : List Bool) : Except Raised Bool := do
  let (want, _) ← (rb.want vec depth).run []
  return rb.got vec == want

/-- The cells that the library does not know and that are not physical. -/
def unchecked : List String :=
  (rb.insts.map Inst.cell).filter fun cell =>
    (libFor rb.lib cell).isNone && !isPhysical (baseOf cell)

/-- The check on a list of vectors: true for success, false for a mismatch or a cell whose
semantics went unchecked. -/
def check (depth : ℕ) : List (List Bool) → Except Raised Bool
  | [] => .ok rb.unchecked.isEmpty
  | vec :: vecs => do
    if ← rb.trial depth vec then check depth vecs
    else return false

end Readback

end Saltworks.Importer
