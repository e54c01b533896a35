import Saltworks.Importer.Elaborate

/-!
# The emitted file

The datum is written as a file of Lean. A short list of gates is one literal. A long one is cut into
chunks, each a definition of its own, which the datum joins. Behind the gates stand the outputs,
then the tables of names, of the flops and of the cuts.

The licence notice at the top is left open.

## Main definitions

* `Emission`: what is written.
* `gateLine`, `chunks`, `datumEntries`: the gates.
* `tableEntries`: the tables.
* `toLean`: the text of the file.
-/

namespace Saltworks.Importer

open Silicon

/-- What is written: the notice, the file name of the netlist, the pinned nets, the names, the gates
and outputs, and the tables. The clock is its root, its parity and the number of clock nets; it is
given wherever there are flops. -/
structure Emission where
  notice : List String
  source : String
  pinned : List (Net × Bool)
  ns : String
  name : String
  gates : Netlist
  ninputs : ℕ
  outs : List ℕ
  outNames : List Net
  omitted : List Net
  inNames : List Net
  ndesignIn : Option ℕ
  ndesignOut : Option ℕ
  state : List Flop
  clock : Net × Bool × ℕ
  cuts : List Net

/-! ### Values -/

/-- `str(n)`, where `n` may be `None`. -/
def showOption : Option ℕ → String
  | some n => toString n
  | none => "None"

/-- `int(b)`. -/
def bit (b : Bool) : String := toString b.toNat

/-- A list of numbers, as Python prints it. -/
def numberList (ns : List ℕ) : String := "[" ++ ", ".intercalate (ns.map toString) ++ "]"

/-- A list of strings in double quotes. -/
def nameList (names : List Net) : String :=
  "[" ++ ", ".intercalate (names.map fun nm => "\"" ++ nm ++ "\"") ++ "]"

/-- A number in three places. -/
def padded (n : ℕ) : String := String.ofList ((toString n).toList.leftpad 3 ' ')

/-! ### Gates -/

/-- The line of a gate. -/
def gateLine : Gate → String
  | .inp i => "  .inp " ++ toString i
  | .const b => "  .const " ++ (if b then "true" else "false")
  | .not a => "  .not " ++ toString a
  | .and a b => "  .and " ++ toString a ++ " " ++ toString b
  | .or a b => "  .or " ++ toString a ++ " " ++ toString b
  | .xor a b => "  .xor " ++ toString a ++ " " ++ toString b

/-- The number of gates of a chunk. -/
def chunkSize : ℕ := 500

/-- The number of gates up to which the datum is one literal. -/
def threshold : ℕ := 1000

/-- The parts of length `n` of a list. -/
def chunks {α : Type*} (n : ℕ) (l : List α) : List (List α) :=
  (List.range ((l.length + n - 1) / n)).map fun k => (l.drop (n * k)).take n

/-- The name of a chunk. -/
def chunkName (name : String) (k : ℕ) : String := name ++ "__c" ++ toString k

/-- The lines of gates as the members of a literal. -/
def literalText (lines : List String) : String := ",\n".intercalate lines

/-- The head of the definition of a list of gates. -/
def defHead (name : String) : String := "def " ++ name ++ " : SaltWorks.Silicon.Netlist := "

namespace Emission

variable (e : Emission)

/-- The docstring of the datum. -/
def doc : String :=
  "/-- " ++ e.name ++ ": " ++ toString e.gates.length ++ " gates, " ++ toString e.ninputs ++
    " primary inputs. -/"

/-- The lines of the gates. -/
def body : List String := e.gates.map gateLine

/-- The chunks of the lines of the gates. -/
def parts : List (List String) := chunks chunkSize e.body

/-- The remark in front of the chunks. -/
def chunkRemark : List String :=
  ["/-! ### " ++ e.name ++ " is emitted in " ++ toString e.parts.length ++ " chunks of ≤ " ++
      toString chunkSize,
    "",
    "A flat literal of " ++ toString e.body.length ++ " elements exceeds Lean's default",
    "`maxRecDepth` during elaboration (measured wall: 1,000 OK, 2,000 not).",
    "Chunking keeps every literal shallow and the `++` chain only",
    toString e.parts.length ++ " deep, so this file needs NO `set_option` to elaborate.",
    "-/",
    ""]

/-- The definition of a chunk. -/
def chunkEntries (k : ℕ) (part : List String) : List String :=
  [defHead (chunkName e.name k) ++ "[", literalText part, "]", ""]

/-- The names of the chunks, joined. -/
def joined : String :=
  " ++ ".intercalate ((List.range e.parts.length).map (chunkName e.name))

/-- The definition of the datum. -/
def datumEntries : List String :=
  if e.body.length ≤ threshold then
    [e.doc, defHead e.name ++ "[", literalText e.body, "]"]
  else
    e.chunkRemark ++ (e.parts.zipIdx.flatMap fun p => e.chunkEntries p.2 p.1) ++
      [e.doc, defHead e.name ++ e.joined]

/-! ### Tables -/

/-- The header: the notice, the source and the restrictions. -/
def header : List String :=
  e.notice ++
    ["-- GENERATED by SaltWorks/Silicon/Importer/import_netlist.py",
      "-- source: " ++ e.source,
      "-- DO NOT EDIT. The generator is UNTRUSTED; this datum is checked",
      "-- per-instance by the importer's round-trip census, and its cell",
      "-- expansions are proved against Liberty in SaltWorks.Silicon.Cells.Sky130."] ++
    ((e.pinned.mergeSort fun p q => p.1 ≤ q.1).flatMap fun p =>
      ["--",
        "-- ⚠ RESTRICTED DATUM — '" ++ p.1 ++ "' IS PINNED TO " ++ bit p.2 ++ ".",
        "-- This models the design ONLY on traces where '" ++ p.1 ++ "' is held " ++ bit p.2,
        "-- THROUGHOUT. Asynchronously-resettable flops were imported under that",
        "-- restriction: their vendor `clear` field is unasserted at " ++ bit p.2 ++ ", so",
        "-- the Liberty ff group reduces to dfxtp's field for field. It says NOTHING",
        "-- about the deassertion seam — the one cycle where the async path and the",
        "-- clock interact. A THEOREM PROVED ON THIS DATUM MUST NOT BE CITED AS",
        "-- COVERING RESET OR BRING-UP, and any certificate restating such a theorem",
        "-- must carry this restriction with it.",
        "-- docs/silicon-dfrtp-async-reset-prereg-0812.md"]) ++
    ["import SaltWorks.Silicon.Equiv.BitSliced", "", "namespace " ++ e.ns, ""]

/-- The outputs and the names of the ports. -/
def portEntries : List String :=
  ["",
    "/-- Output net indices, in the CALLER'S `--outputs` order (then state,",
    "then cuts). NOT declaration order — this importer discards that. -/",
    "def " ++ e.name ++ "_outs : List Nat := " ++ numberList e.outs] ++
  (if e.outNames = [] then [] else
    ["",
      "/-- DESIGN output NAMES, positionally aligned with `" ++ e.name ++ "_outs`:",
      "`" ++ e.name ++ "_outs[k]` is the net carrying the port named at position k.",
      "Each name is VALIDATED against the module's declared outputs (C-V3),",
      "never derived from declaration order. One entry per EMITTED BIT. -/",
      "def " ++ e.name ++ "_out_names : List String := " ++ nameList e.outNames]) ++
  ["",
    "/-- Declared outputs the caller did NOT request, sorted. PRESENT EVEN",
    "WHEN EMPTY: an absent line means an old-format datum, an empty line is a",
    "measured zero. A sub-cone import is legitimate — this DECLARES the scope",
    "rather than refusing it, so a reader can see what the datum leaves out. -/",
    "def " ++ e.name ++ "_outs_omitted : List String := " ++
      nameList (e.omitted.mergeSort (· ≤ ·)),
    "",
    "/-- DESIGN input NAMES, positionally aligned with the primary input",
    "indices: input i is the port named at position i, for every i < this",
    "list's length. Lets a proof cite a RECORDED name rather than trusting the",
    "caller's --inputs order. ⚠️ CROSS-CHECK AVAILABILITY IS CLASS-DEPENDENT:",
    "`_ndesign_in` is emitted ONLY for datums carrying state, so a stateful",
    "datum can check this list's length against it and a combinational one",
    "cannot. That asymmetry is the very defect this file's ndesign_out comment",
    "forbids — an anchor that is a property of the datum's CLASS — and it is",
    "reported to the helm rather than fixed here, because the ruling asked for",
    "NAME TABLES and changing another field's emission is scope I was not given. -/",
    "def " ++ e.name ++ "_in_names : List String := " ++ nameList e.inNames,
    "",
    "",
    "/-- Number of DESIGN outputs. `" ++ e.name ++ "_outs` entries from here on are",
    "next-state bits then cut roots, paired by position with the state inputs;",
    "on a datum with neither, this is simply the length of `" ++ e.name ++ "_outs`. -/",
    "def " ++ e.name ++ "_ndesign_out : Nat := " ++
      toString (e.ndesignOut.getD e.outs.length)]

/-- The line of a flop. -/
def stateLine (k : ℕ) (f : Flop) : String :=
  let src := match f.d with
    | some d => "`" ++ d ++ "`"
    | none => "*(next = DE ? D : Q)*"
  "* `" ++ padded k ++ "`  Q `" ++ f.q ++ "`  ←— " ++ src ++ "   (" ++ f.iname ++ ", " ++ f.cell ++
    ")"

/-- The table of the flops. -/
def stateEntries : List String :=
  if e.state = [] then [] else
    let n := toString e.state.length
    ["",
      "/-! ## The flop treatment — " ++ n ++ " flops cut, Q as leaf, D as root",
      "",
      "This netlist is the COMBINATIONAL part of a sequential design. Every flop",
      "was cut: its `Q` became a primary input (current state) and its `D` an",
      "output (next state). The two vectors are PAIRED BY POSITION —",
      "state bit `i` is input `" ++ showOption e.ndesignIn ++ " + i` and output `" ++
        showOption e.ndesignOut ++ " + i`,",
      "and both belong to the same flop, listed below in `Q`-net order.",
      "",
      "Soundness: all " ++ n ++ " flops were checked to latch on one common event —",
      "clock root `" ++ e.clock.1 ++ "`, inversion parity " ++ bit e.clock.2.1 ++ ", reached",
      "through " ++ toString e.clock.2.2 ++
        " distinct CLK net(s) of the synthesised clock tree.",
      ""] ++
    e.state.zipIdx.map (fun f => stateLine f.2 f.1) ++
    ["-/",
      "",
      "/-- Number of DESIGN primary inputs; inputs from here on are state bits. -/",
      "def " ++ e.name ++ "_ndesign_in : Nat := " ++ showOption e.ndesignIn,
      "",
      "/-- Number of flops cut by the treatment. -/",
      "def " ++ e.name ++ "_nstate : Nat := " ++ n]

/-- The table of the cuts. -/
def cutEntries : List String :=
  if e.cuts = [] then [] else
    let nc := toString e.cuts.length
    ["",
      "/-! ## Chosen cut points — " ++ nc ++ " of them",
      "",
      "Flops are cut because the netlist forces it. These are cut because we",
      "CHOSE to certify at them — possible only because the net still EXISTS",
      "after the flow flattened, which is what `(* keep *)` in the RTL buys.",
      "Each is BOTH a leaf and a root: input `" ++
        toString (e.ndesignIn.getD 0 + e.state.length) ++ " + i` stands for the",
      "boundary value downstream, and output `" ++
        toString (e.ndesignOut.getD 0 + e.state.length) ++ " + i` is the LOGIC",
      "that drives it. Certifying both halves certifies the whole path, and",
      "neither half alone carries the 36-input cone the uncut netlist has.",
      ""] ++
    e.cuts.zipIdx.map (fun c => "* `" ++ padded c.2 ++ "`  `" ++ c.1 ++ "`") ++
    ["-/",
      "",
      "/-- Number of chosen cut points; the last `" ++ nc ++ "` inputs and the last",
      "`" ++ nc ++ "` outputs are the two halves of each, paired by position. -/",
      "def " ++ e.name ++ "_ncut : Nat := " ++ nc]

/-- What is written behind the gates. -/
def tableEntries : List String :=
  e.portEntries ++ e.stateEntries ++ e.cutEntries ++ ["", "end " ++ e.ns]

end Emission

/-- The text of the file. -/
def toLean (e : Emission) : String :=
  "\n".intercalate (e.header ++ e.datumEntries ++ e.tableEntries)

end Saltworks.Importer
