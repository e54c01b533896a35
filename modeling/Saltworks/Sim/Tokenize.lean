import Saltworks.Importer.Elaborate

/-!
# The tokenizer of structural netlists

Both netlist parsers read the tokens of one tokenizer. An escaped identifier ends at a blank, a
number begins with a digit and runs on over the characters of based constants, and comments and
compiler directives are skipped.

The classes of characters that Python calls digits and letters are a parameter.

## Main definitions

* `Token`, `Token.text`: the tokens with their texts.
* `CharClass`, `tokenize`: the tokenizer.
-/

namespace Saltworks.Sim

open Importer

/-- A token: an identifier, an escaped identifier without its backslash, a number or one
punctuation character. -/
inductive Token where
  | id (text : String)
  | escId (text : String)
  | num (text : String)
  | lparen
  | rparen
  | comma
  | semi
  | equals
  | lbrack
  | rbrack
  | colon
  | lbrace
  | rbrace
  | dot
  deriving Repr, DecidableEq

/-- The text of a token. -/
def Token.text : Token → String
  | .id text | .escId text | .num text => text
  | .lparen => "("
  | .rparen => ")"
  | .comma => ","
  | .semi => ";"
  | .equals => "="
  | .lbrack => "["
  | .rbrack => "]"
  | .colon => ":"
  | .lbrace => "\x7b"
  | .rbrace => "\x7d"
  | .dot => "."

/-- The token of a punctuation character. -/
def punctuation : List (Char × Token) :=
  [('(', .lparen), (')', .rparen), (',', .comma), (';', .semi), ('=', .equals), ('[', .lbrack),
    (']', .rbrack), (':', .colon), ('\x7b', .lbrace), ('\x7d', .rbrace), ('.', .dot)]

/-- The methods `isdigit`, `isalpha` and `isalnum` of a character. -/
structure CharClass where
  isdigit : Char → Bool
  isalpha : Char → Bool
  isalnum : Char → Bool

/-- The classes on the characters of ASCII. -/
def CharClass.ascii : CharClass where
  isdigit := Char.isDigit
  isalpha := Char.isAlpha
  isalnum := Char.isAlphanum

/-- A blank, which separates tokens. -/
def isBlank (c : Char) : Bool := [' ', '\t', '\r', '\n'].contains c

/-- The characters of a based constant beside the digits. -/
def basedChars : List Char := "'bhdoxBHDOXzZxX_abcdefABCDEF".toList

/-- The text behind the end of a comment. -/
def afterComment : List Char → Option (List Char)
  | '*' :: '/' :: cs => some cs
  | _ :: cs => afterComment cs
  | [] => none

/-- The tokens of a text, with a bound on their number. -/
def tokenizeFrom (cls : CharClass) : ℕ → List Char → Except Raised (List Token)
  | _, [] => .ok []
  | 0, _ :: _ => .error .recursionError
  | n + 1, c :: cs =>
    if isBlank c then tokenizeFrom cls n cs
    else if c = '\\' then do
      let name := cs.takeWhile fun d => !isBlank d
      return .escId (String.ofList name) ::
        (← tokenizeFrom cls n ((cs.dropWhile fun d => !isBlank d).drop 1))
    else match punctuation.lookup c with
    | some t => do return t :: (← tokenizeFrom cls n cs)
    | none =>
      if cls.isdigit c then do
        let inNumber := fun d => cls.isdigit d || basedChars.contains d
        return .num (String.ofList ((c :: cs).takeWhile inNumber)) ::
          (← tokenizeFrom cls n (cs.dropWhile inNumber))
      else if cls.isalpha c || c == '_' || c == '$' then do
        let inName := fun d => cls.isalnum d || d == '_' || d == '$'
        return .id (String.ofList ((c :: cs).takeWhile inName)) ::
          (← tokenizeFrom cls n ((c :: cs).dropWhile inName))
      else if c = '/' ∧ cs.head? = some '/' then
        tokenizeFrom cls n (cs.dropWhile (· ≠ '\n'))
      else if c = '/' ∧ cs.head? = some '*' then
        match afterComment cs with
        | some cs => tokenizeFrom cls n cs
        | none => .error .valueError
      else if c = '\x60' then tokenizeFrom cls n (cs.dropWhile (· ≠ '\n'))
      else .error .syntaxError

/-- The tokens of a text. -/
def tokenize (cls : CharClass) (src : String) : Except Raised (List Token) :=
  tokenizeFrom cls src.toList.length src.toList

example : tokenize .ascii "\\a[0] [1'b0]; // end" =
    .ok [.escId "a[0]", .lbrack, .num "1'b0", .rbrack, .semi] := by
  decide

end Saltworks.Sim
