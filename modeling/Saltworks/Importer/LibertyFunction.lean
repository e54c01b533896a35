import Saltworks.Importer.Elaborate

/-!
# Liberty boolean expressions

The readback check evaluates the function strings of the vendor library by a scanner and a
recursive descent over the precedences of negation, conjunction, exclusive or and disjunction.
Every conjunct and disjunct is evaluated, so an undefined name always raises.

The recursion is bounded by a depth that grows with the number of tokens.

## Main definitions

* `scan`: the tokens of an expression.
* `parseAtom`, `parseAnd`, `parseXor`, `parseOr`: the descent.
* `evalFn`: the value of an expression in an environment.
-/

namespace Saltworks.Importer.Liberty

/-- `[A-Za-z_]`. -/
def isNameStart (c : Char) : Bool := c.isAlpha || c == '_'

/-- `[A-Za-z_0-9]`. -/
def isNameChar (c : Char) : Bool := isNameStart c || c.isDigit

/-- The characters that are tokens by themselves. -/
def isSymbol (c : Char) : Bool :=
  ['(', ')', '!', '&', '|', '^', '*', '+', '\'', '0', '1'].contains c

/-- Scan a character outside a name, where `rest` scans on from the start of a name. -/
def scanChar (c : Char) (name : List Char → List String) (next : List String) : List String :=
  if isNameStart c then name [c]
  else if isSymbol c then c.toString :: next
  else next

/-- The tokens behind the name that has been read so far, in reverse. -/
def scanFrom : List Char → List Char → List String
  | [], [] => []
  | [], name => [String.ofList name.reverse]
  | c :: cs, [] => scanChar c (scanFrom cs) (scanFrom cs [])
  | c :: cs, name =>
    if isNameChar c then scanFrom cs (c :: name)
    else String.ofList name.reverse :: scanChar c (scanFrom cs) (scanFrom cs [])

/-- The tokens of an expression; other characters are skipped. -/
def scan (expr : String) : List String := scanFrom expr.toList []

/-- The token stands for a conjunct without an operator. -/
def startsAtom (t : String) : Bool :=
  match t.toList with
  | c :: _ => isNameStart c || c == '(' || c == '!'
  | [] => false

/-- Apply the postfix negations. -/
def postfixNot : Bool → List String → Bool × List String
  | v, [] => (v, [])
  | v, t :: ts => if t = "'" then postfixNot (!v) ts else (v, t :: ts)

section Parse

variable (env : String → Option Bool)

mutual

/-- An atom with its prefix and postfix negations. -/
def parseAtom : ℕ → List String → Except Raised (Bool × List String)
  | 0, _ => .error .recursionError
  | _ + 1, [] => .error .indexError
  | depth + 1, t :: ts =>
    if t = "(" then
      match parseOr depth ts with
      | .ok (v, t :: ts) => if t = ")" then .ok (postfixNot v ts) else .error .assertionError
      | .ok (_, []) => .error .indexError
      | .error e => .error e
    else if t = "!" then
      match parseAtom depth ts with
      | .ok (v, ts) => .ok (postfixNot (!v) ts)
      | .error e => .error e
    else if t = "0" ∨ t = "1" then .ok (postfixNot (t = "1") ts)
    else match env t with
      | some v => .ok (postfixNot v ts)
      | none => .error (.keyError t)

/-- The conjuncts behind a first conjunct. -/
def parseConjuncts : ℕ → Bool → List String → Except Raised (Bool × List String)
  | 0, _, _ => .error .recursionError
  | _ + 1, v, [] => .ok (v, [])
  | depth + 1, v, t :: ts =>
    if t = "&" ∨ t = "*" then
      match parseAtom depth ts with
      | .ok (w, ts) => parseConjuncts depth (w && v) ts
      | .error e => .error e
    else if startsAtom t then
      match parseAtom depth (t :: ts) with
      | .ok (w, ts) => parseConjuncts depth (w && v) ts
      | .error e => .error e
    else .ok (v, t :: ts)

/-- A conjunction. -/
def parseAnd : ℕ → List String → Except Raised (Bool × List String)
  | 0, _ => .error .recursionError
  | depth + 1, ts =>
    match parseAtom depth ts with
    | .ok (v, ts) => parseConjuncts depth v ts
    | .error e => .error e

/-- The operands of `^` behind a first operand. -/
def parseXorTail : ℕ → Bool → List String → Except Raised (Bool × List String)
  | 0, _, _ => .error .recursionError
  | _ + 1, v, [] => .ok (v, [])
  | depth + 1, v, t :: ts =>
    if t = "^" then
      match parseAnd depth ts with
      | .ok (w, ts) => parseXorTail depth (v ^^ w) ts
      | .error e => .error e
    else .ok (v, t :: ts)

/-- An exclusive or. -/
def parseXor : ℕ → List String → Except Raised (Bool × List String)
  | 0, _ => .error .recursionError
  | depth + 1, ts =>
    match parseAnd depth ts with
    | .ok (v, ts) => parseXorTail depth v ts
    | .error e => .error e

/-- The disjuncts behind a first disjunct; the right operand is a whole disjunction. -/
def parseOrTail : ℕ → Bool → List String → Except Raised (Bool × List String)
  | 0, _, _ => .error .recursionError
  | _ + 1, v, [] => .ok (v, [])
  | depth + 1, v, t :: ts =>
    if t = "|" ∨ t = "+" then
      match parseOr depth ts with
      | .ok (w, ts) => parseOrTail depth (w || v) ts
      | .error e => .error e
    else .ok (v, t :: ts)

/-- A disjunction. -/
def parseOr : ℕ → List String → Except Raised (Bool × List String)
  | 0, _ => .error .recursionError
  | depth + 1, ts =>
    match parseXor depth ts with
    | .ok (v, ts) => parseOrTail depth v ts
    | .error e => .error e

end

/-- The value of an expression; tokens behind a complete expression are not read. -/
def evalFn (expr : String) : Except Raised Bool :=
  match parseOr env (8 * (scan expr).length + 8) (scan expr) with
  | .ok (v, _) => .ok v
  | .error e => .error e

end Parse

end Saltworks.Importer.Liberty
