import Saltworks.Sim.RefParse

/-!
# The parser of the importer

The importer scans the tokens of a netlist for declarations, assigns and instances and skips what
it does not recognise. An assign keeps the first name on either side, and a pin keeps the last
name of its connection; a range in an assign and a second name on its right side are refused.

An exception ends the scan. The loop over the statements is bounded by the number of tokens.

## Main definitions

* `scanDecl`, `scanAssign`, `scanInst`: one statement behind its keyword.
* `Parsed`, `parse`: the whole netlist.
-/

namespace Saltworks.Importer

open Sim

/-! ### Declarations -/

/-- The numbers up to a closing bracket. -/
def scanBounds : List Token → List ℕ → Except Raised (List ℕ × List Token)
  | [], bounds => .ok (bounds, [])
  | .rbrack :: ts, bounds => .ok (bounds, ts)
  | .num text :: ts, bounds => match intOf text with
    | some value => scanBounds ts (bounds ++ [value])
    | none => .error .valueError
  | _ :: ts, bounds => scanBounds ts bounds

/-- The names up to a semicolon. -/
def scanNames : List Token → List Net → List Net × List Token
  | [], names => (names, [])
  | .semi :: ts, names => (names, ts)
  | .id text :: ts, names | .escId text :: ts, names => scanNames ts (names ++ [text])
  | _ :: ts, names => scanNames ts names

/-- What the importer has read: the instances, the declared names by their kind, the assigns and
the bounds of the names that are declared with a range. -/
structure Parsed where
  insts : List Inst
  decls : List (DeclKind × Net)
  assigns : List (Net × Net)
  vectorPorts : Dict Net (ℕ × ℕ)

/-- Add the names of a declaration. -/
def Parsed.addDecl (p : Parsed) (kind : DeclKind) (bounds : Option (List ℕ)) (names : List Net) :
    Parsed where
  insts := p.insts
  decls := p.decls ++ names.map fun nm => (kind, nm)
  assigns := p.assigns
  vectorPorts := match bounds with
    | none => p.vectorPorts
    | some bounds => names.foldl (fun ports nm =>
        ports.set nm ((bounds.max?).getD 0, (bounds.min?).getD 0)) p.vectorPorts

/-- A declaration behind its keyword. -/
def scanDecl (kind : DeclKind) (p : Parsed) : List Token → Except Raised (Parsed × List Token)
  | .lbrack :: ts => do
    let (bounds, rest) ← scanBounds ts []
    let (names, rest) := scanNames rest []
    return (p.addDecl kind (some bounds) names, rest)
  | ts => do
    let (names, rest) := scanNames ts []
    return (p.addDecl kind none names, rest)

/-! ### Assigns -/

/-- The refusal of a range. -/
def rangeRefusal (base hi lo : String) : Raised :=
  .systemExit ("importer: assign uses a RANGE '" ++ base ++ "[" ++ hi ++ ":" ++ lo ++
    "]' -- the grammar models bit-selects and scalars only. Refusing rather than collapsing " ++
    "the range to one bit. Emit per-bit assigns, or extend the grammar and this check together.")

/-- The refusal of a right side with several terms. -/
def termsRefusal (terms : List Net) : Raised :=
  .systemExit ("importer: assign right-hand side has " ++ toString terms.length ++ " terms (" ++
    ", ".intercalate (terms.take 4) ++ ") -- concatenations are not modelled. Refusing rather " ++
    "than importing the first term.")

/-- The text of a bit select. -/
def selectText (base index : String) : Net := base ++ "[" ++ index ++ "]"

/-- The left side and the last terms of an assign up to its semicolon, from the left side and the
terms that have been read. -/
def scanTerms : Option Net → List Net → List Token →
    Except Raised ((Option Net × List Net) × List Token)
  | lhs, cur, [] => .ok ((lhs, cur), [])
  | lhs, cur, .semi :: ts => .ok ((lhs, cur), ts)
  | _, _, [.id _, .lbrack] => .error .indexError
  | lhs, cur, [.id text, .lbrack, t] => .ok ((lhs, cur ++ [selectText text t.text]), [])
  | _, _, .id text :: .lbrack :: t :: .colon :: ts =>
    .error (rangeRefusal text t.text ((ts.head?.map Token.text).getD "?"))
  | lhs, cur, .id text :: .lbrack :: t :: _ :: ts =>
    scanTerms lhs (cur ++ [selectText text t.text]) ts
  | lhs, cur, .id text :: ts => scanTerms lhs (cur ++ [text]) ts
  | lhs, cur, .escId text :: ts => scanTerms lhs (cur ++ [text]) ts
  | _, cur, .equals :: ts => match cur with
    | [] => .error .indexError
    | base :: _ => scanTerms (some base) [] ts
  | lhs, cur, _ :: ts => scanTerms lhs cur ts

/-- The assign of a left side and the terms of a right side; nothing is assigned where a side is
missing or its name is empty. -/
def assignOf (lhs : Option Net) (terms : List Net) : Except Raised (List (Net × Net)) :=
  if 1 < terms.length then .error (termsRefusal terms)
  else match lhs, terms.head? with
    | some l, some r => .ok (if l ≠ "" ∧ r ≠ "" then [(l, r)] else [])
    | _, _ => .ok []

/-- An assign behind its keyword. -/
def scanAssign (ts : List Token) : Except Raised (List (Net × Net) × List Token) := do
  let ((lhs, terms), rest) ← scanTerms none [] ts
  return (← assignOf lhs terms, rest)

/-! ### Instances -/

/-- Connect a pin, if a net was read. -/
def connect (conns : Dict Pin Net) (pin : Pin) : Option Net → Dict Pin Net
  | some net => conns.set pin net
  | none => conns

mutual

/-- The connections of an instance, at a depth of parentheses, up to the parenthesis that closes
the list of ports. -/
def scanConns : ℤ → Dict Pin Net → List Token → Except Raised (Dict Pin Net × List Token)
  | _, conns, [] => .ok (conns, [])
  | depth, conns, .lparen :: ts => scanConns (depth + 1) conns ts
  | depth, conns, .rparen :: ts =>
    if depth - 1 = 0 then .ok (conns, ts) else scanConns (depth - 1) conns ts
  | _, _, [.dot] => .error .indexError
  | _, conns, [.dot, _] => .ok (conns, [])
  | depth, conns, .dot :: pin :: _ :: ts => scanPin depth conns pin.text 1 none ts
  | depth, conns, _ :: ts => scanConns depth conns ts

/-- The last net in the parentheses of a pin, and then the connections that follow. -/
def scanPin : ℤ → Dict Pin Net → Pin → ℤ → Option Net → List Token →
    Except Raised (Dict Pin Net × List Token)
  | _, conns, pin, _, net, [] => .ok (connect conns pin net, [])
  | depth, conns, pin, d, net, .lparen :: ts => scanPin depth conns pin (d + 1) net ts
  | depth, conns, pin, d, net, .rparen :: ts =>
    if d - 1 = 0 then scanConns depth (connect conns pin net) ts
    else scanPin depth conns pin (d - 1) net ts
  | depth, conns, pin, d, _, .escId text :: .lbrack :: .num index :: .rbrack :: ts =>
    scanPin depth conns pin d (some (selectText text index)) ts
  | depth, conns, pin, d, _, .escId text :: ts => scanPin depth conns pin d (some text) ts
  | _, _, _, _, _, [.id _, .lbrack] => .error .indexError
  | depth, conns, pin, d, _, .id text :: .lbrack :: t :: ts =>
    scanPin depth conns pin d (some (selectText text t.text)) ts
  | depth, conns, pin, d, _, .id text :: ts => scanPin depth conns pin d (some text) ts
  | depth, conns, pin, d, net, _ :: ts => scanPin depth conns pin d net ts

end

/-- The text with all occurrences of a pattern left out, behind `skip` characters. -/
def removeAll (pattern : List Char) : ℕ → List Char → List Char
  | _, [] => []
  | skip + 1, _ :: cs => removeAll pattern skip cs
  | 0, c :: cs =>
    if pattern.isPrefixOf (c :: cs) then removeAll pattern (pattern.length - 1) cs
    else c :: removeAll pattern 0 cs

/-- The name of a cell without the name of its library. -/
def shortCell (cell : String) : String :=
  String.ofList (removeAll "sky130_fd_sc_hd__".toList 0 cell.toList)

/-- The cell comes from the process library. -/
def isSky130 (cell : String) : Bool := "sky130_".toList.isPrefixOf cell.toList

/-- The name of an instance, by the token behind its cell. -/
def instName : Token → String
  | .id text | .escId text => text
  | _ => "?"

/-- An instance behind its cell, up to the next semicolon. -/
def scanInst (cell : String) : List Token → Except Raised (Inst × List Token)
  | [] => .error .indexError
  | t :: ts => do
    let (conns, rest) ← scanConns 0 .empty ts
    return (⟨shortCell cell, instName t, conns⟩, rest.dropWhile (· ≠ .semi))

/-! ### The whole netlist -/

/-- The statements of a netlist, with a bound on their number. -/
def scanItems : ℕ → Parsed → List Token → Except Raised Parsed
  | _, p, [] => .ok p
  | 0, _, _ :: _ => .error .recursionError
  | n + 1, p, .id v :: ts => match declKindOf v with
    | some kind => do
      let (p, rest) ← scanDecl kind p ts
      scanItems n p rest
    | none =>
      if v = "assign" then do
        let (assigns, rest) ← scanAssign ts
        scanItems n { p with assigns := p.assigns ++ assigns } rest
      else if isSky130 v then do
        let (inst, rest) ← scanInst v ts
        scanItems n { p with insts := p.insts ++ [inst] } rest
      else scanItems n p ts
  | n + 1, p, _ :: ts => scanItems n p ts

/-- Read the tokens of a netlist. -/
def scan (ts : List Token) : Except Raised Parsed := scanItems ts.length ⟨[], [], [], .empty⟩ ts

/-- Read the text of a netlist. -/
def parse (cls : CharClass) (src : String) : Except Raised Parsed := do
  scan (← tokenize cls src)

end Saltworks.Importer
