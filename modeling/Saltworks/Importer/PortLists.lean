import Saltworks.Importer.Flops
import Saltworks.Importer.Scan

/-!
# The port lists of the command line

Before the flops are looked for, the port lists are checked against the declarations of the
netlist. A vector must be passed bit by bit, an output must be a declared output, unless the
flops are cut by hand on both sides, and no bit may lie outside the declared range of its vector.

The checks read the declarations that the parser has collected, of whatever module of the file.

## Main definitions

* `CommandLine`: the options that the import of a netlist depends on, and `--top`.
* `bitRef`: a name as a bit of a vector.
* `vectorCheck`, `outputCheck`, `rangeCheck`: the three checks.
* `checkPorts`: the checks in their order.
-/

namespace Saltworks.Importer

open Sim

/-- The options of a run: the top module, the port lists, the net of `--pin-reset` and the
expression of `--cut` with the nets that it matches. -/
structure CommandLine where
  top : String
  inputs : String
  outputs : String
  pinReset : Option Net
  cut : Option (String × (Net → Bool))

/-- The names of a list that is separated by commas. -/
def splitNames (text : String) : List Net :=
  ((text.toList.splitOn ',').map String.ofList).filter (· ≠ "")

namespace CommandLine

/-- The design inputs in order. -/
def ins (cmd : CommandLine) : List Net := splitNames cmd.inputs

/-- The design outputs in order. -/
def outs (cmd : CommandLine) : List Net := splitNames cmd.outputs

/-- The names that the command line passes. -/
def portNames (cmd : CommandLine) : List Net :=
  cmd.ins ++ cmd.outs ++ (cmd.pinReset.filter (· ≠ "")).toList

/-- The import that the command line asks for. -/
def request (cmd : CommandLine) (p : Parsed) : Request where
  insts := p.insts
  assigns := p.assigns
  ins := cmd.ins
  outs := cmd.outs
  pinReset := cmd.pinReset
  cut := cmd.cut

end CommandLine

/-! ### Vectors -/

/-- The vector and the index of a name that ends in a bracket and has nothing but digits between
its first opening bracket and the closing one. -/
def bitRef (cls : CharClass) (nm : Net) : Except Raised (Option (Net × ℕ)) :=
  if nm.toList.getLast? = some ']' ∧ '[' ∈ nm.toList then
    let base := nm.toList.dropLast.takeWhile (· ≠ '[')
    let index := (nm.toList.dropLast.dropWhile (· ≠ '[')).drop 1
    if base ≠ [] ∧ index ≠ [] ∧ index.all cls.isdigit then
      match intOf (String.ofList index) with
      | some i => .ok (some (String.ofList base, i))
      | none => .error .valueError
    else .ok none
  else .ok none

/-- The refusal of a vector that is passed by its base name. -/
def vectorRefusal (nm : Net) (hi lo : ℕ) (affected : List Net) : Raised :=
  let width := hi - lo + 1
  let expanded := ",".intercalate ((List.range' lo width).map fun i => selectText nm (toString i))
  .systemExit ("importer: port list names '" ++ nm ++ "' by its BASE name, but the netlist " ++
    "declares it as the VECTOR [" ++ toString hi ++ ":" ++ toString lo ++ "] (" ++
    toString width ++ " bits). Passing a vector by base name binds ALL " ++ toString width ++
    " bits to ONE net and the datum silently loses " ++ toString (width - 1) ++
    " bit(s) of input space -- readback does NOT catch this, because it re-simulates the " ++
    "emitted datum under the same mapping. Pass the bits: --inputs/--outputs ...," ++ expanded ++
    ",... (" ++ toString affected.length ++ " name(s) affected: " ++ ", ".intercalate affected ++
    ")")

/-- No name of the command line is that of a declared vector. -/
def vectorCheck (cmd : CommandLine) (p : Parsed) : Except Raised Unit :=
  match cmd.portNames.filter fun nm => (p.vectorPorts.get? nm).isSome with
  | [] => .ok ()
  | nm :: nms =>
    let (hi, lo) := (p.vectorPorts.get? nm).getD (0, 0)
    .error (vectorRefusal nm hi lo (nm :: nms))

/-! ### Outputs -/

/-- The names that are declared with a keyword. -/
def Parsed.declared (p : Parsed) (kind : DeclKind) : List Net :=
  (p.decls.filter fun d => d.1 = kind).map Prod.snd

section Outputs

variable (cls : CharClass)

/-- The name is a bit of one of the given vectors. -/
def isBitOf (vectors : List Net) (nm : Net) : Except Raised Bool := do
  return match ← bitRef cls nm with
    | some (base, _) => base ∈ vectors
    | none => false

/-- The names that are neither declared nor a bit of a declared name. -/
def undeclared (declared : List Net) : List Net → Except Raised (List Net)
  | [] => .ok []
  | nm :: nms =>
    if nm ∈ declared then undeclared declared nms
    else do
      if ← isBitOf cls declared nm then undeclared declared nms
      else return nm :: (← undeclared declared nms)

/-- The flops are cut by hand on both sides: as many undeclared names on either side, all of them
wires. -/
def handcutActive (cmd : CommandLine) (p : Parsed) : Except Raised Bool := do
  let cutIn ← undeclared cls (p.declared .input) cmd.ins
  let cutOut ← undeclared cls (p.declared .output) cmd.outs
  return 0 < cutIn.length ∧ cutIn.length = cutOut.length ∧
    ∀ nm ∈ cutIn ++ cutOut, nm ∈ p.declared .wire

/-- The name may be passed as an output. -/
def outDeclared (p : Parsed) (handcut : Bool) (nm : Net) : Except Raised Bool :=
  if nm ∈ p.declared .output then .ok true
  else do
    if ← isBitOf cls (p.declared .output) nm then return true
    else return handcut && nm ∈ p.declared .wire

/-- The names that may not be passed as outputs. -/
def badOutputs (p : Parsed) (handcut : Bool) : List Net → Except Raised (List Net)
  | [] => .ok []
  | nm :: nms => do
    if ← outDeclared cls p handcut nm then badOutputs p handcut nms
    else return nm :: (← badOutputs p handcut nms)

/-- A name in quotes, as it is printed where it has no character to escape. -/
def quoted (nm : Net) : String := "'" ++ nm ++ "'"

/-- The refusal of names that are not declared outputs. -/
def outputRefusal (p : Parsed) (bad : List Net) : Raised :=
  let hint := match bad.filter fun nm => nm ∈ p.declared .input with
    | [] => ""
    | nm :: _ => " '" ++ nm ++
      "' IS declared, but as an INPUT — direction, not presence, is what this checks."
  let outs := match (p.declared .output).dedup with
    | [] => "(none)"
    | names => listing names
  .systemExit ("importer: --outputs names " ++ ", ".intercalate (bad.map quoted) ++
    ", which the module does not declare as output(s)." ++ hint ++
    " The datum records outputs as NET INDICES IN DECLARATION ORDER and carries no names, so " ++
    "an unrecognised output shifts every later index and each theorem citing 'outs[k]' would " ++
    "then be about a different signal -- imported clean and read back green. Declared outputs " ++
    "are: " ++ outs)

/-- Every output is a declared output, or a wire where the flops are cut by hand. -/
def outputCheck (cmd : CommandLine) (p : Parsed) : Except Raised Unit := do
  let handcut ← handcutActive cls cmd p
  match ← badOutputs cls p handcut cmd.outs with
  | [] => return ()
  | bad => throw (outputRefusal p bad)

end Outputs

/-! ### Ranges -/

/-- The nets with the place where each is named. -/
def namedNets (cmd : CommandLine) (p : Parsed) : List (Net × String) :=
  cmd.portNames.map (·, "the port list") ++
    p.insts.flatMap (fun inst => inst.conns.items.map fun c =>
      (c.2, "cell instance '" ++ inst.iname ++ "'")) ++
    p.assigns.flatMap fun a => [(a.1, "an assign"), (a.2, "an assign")]

/-- A bit outside the range of its vector. -/
structure RangeFault where
  net : Net
  base : Net
  hi : ℕ
  lo : ℕ
  index : ℕ
  place : String

/-- The bits outside the range of their vector, each where it is named first. -/
def rangeFaults (cls : CharClass) (ports : Dict Net (ℕ × ℕ)) :
    List Net → List (Net × String) → Except Raised (List RangeFault)
  | _, [] => .ok []
  | seen, (nm, place) :: rest =>
    if nm ∈ seen then rangeFaults cls ports seen rest
    else do
      let ref ← bitRef cls nm
      let faults ← rangeFaults cls ports (nm :: seen) rest
      return match ref with
        | none => faults
        | some (base, index) => match ports.get? base with
          | none => faults
          | some (hi, lo) =>
            if lo ≤ index ∧ index ≤ hi then faults else ⟨nm, base, hi, lo, index, place⟩ :: faults

/-- The refusal of bits outside the range of their vector. -/
def rangeRefusalOf (f : RangeFault) (faults : List RangeFault) : Raised :=
  .systemExit ("importer: " ++ f.place ++ " names '" ++ f.net ++
    "', but the netlist declares '" ++ f.base ++ "' as [" ++ toString f.hi ++ ":" ++
    toString f.lo ++ "] and bit " ++ toString f.index ++ " IS OUTSIDE THAT RANGE. Verilog " ++
    "would silently zero-extend or truncate here; this importer refuses, because a datum built " ++
    "on a bit the design does not have proves theorems about a different machine. Note the " ++
    "generic no-driver check does NOT cover this case -- listing the bit as an input gives it " ++
    "a driver and the import then succeeds at EXIT=0. (" ++ toString faults.length ++
    " out-of-range bit(s): " ++ ", ".intercalate (faults.map RangeFault.net) ++ ")")

/-- No net is a bit outside the range of its vector. -/
def rangeCheck (cls : CharClass) (cmd : CommandLine) (p : Parsed) : Except Raised Unit := do
  match ← rangeFaults cls p.vectorPorts [] (namedNets cmd p) with
  | [] => return ()
  | f :: fs => throw (rangeRefusalOf f (f :: fs))

/-! ### The checks -/

/-- The checks of the port lists. -/
def checkPorts (cls : CharClass) (cmd : CommandLine) (p : Parsed) : Except Raised Unit := do
  vectorCheck cmd p
  outputCheck cls cmd p
  rangeCheck cls cmd p

end Saltworks.Importer
