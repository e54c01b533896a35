import Saltworks.Data.Lexical
import Saltworks.Data.Text
import Saltworks.Sim.Tokenize

/-!
# The lexical rules of Verilog

A text is a sequence of lexemes: white space, comments, compiler directives, names, escaped names,
numbers and punctuation. White space is blank, tab, newline, carriage return and form feed. A name
and a number are the longest in their place, an escaped name goes up to the next white space, a
block comment up to the first end behind its beginning, a line comment and a directive up to the end
of their line. A number is written without white space in it.

## Main definitions

* `names`, `numbers`: the languages of names and numbers.
* `Lexeme`, `Lexeme.At`: the lexemes and the texts in front of which they are read.
* `Lexes`: the lexemes of a text.

## Main results

* `Lexes.unique`: a text has one sequence of lexemes.
-/

namespace Saltworks.Verilog

open Sim Lexical Text Computability

/-! ### Names and numbers -/

/-- White space. -/
def isWhite (c : Char) : Bool := [' ', '\t', '\r', '\n', '\x0c'].contains c

/-- The character is one of a text. -/
def among (text : String) (c : Char) : Prop := c ∈ text.toList

/-- A character of a name. -/
def isNameChar (c : Char) : Bool := c.isAlphanum || c == '_' || c == '$'

/-- Names; those of system tasks begin with a dollar sign. -/
def names : Language Char :=
  word (fun c => c.isAlpha ∨ c = '_') (isNameChar ·) +
    one (· = '$') * word (isNameChar ·) (isNameChar ·)

/-- Digits of a class, with underscores behind the first one. -/
def digits (p : Char → Prop) : Language Char := word p fun c => p c ∨ c = '_'

/-- Numbers in decimal. -/
def unsigned : Language Char := digits fun c => c.isDigit

/-- The sizes of constants. -/
def size : Language Char := word (fun c => c.isDigit ∧ c ≠ '0') fun c => c.isDigit ∨ c = '_'

/-- The bases of constants, which may be signed. -/
def base (letters : String) : Language Char :=
  one (· = '\x27') * (1 + one (among "sS")) * one (among letters)

/-- Constants with their base and maybe their size. -/
def based : Language Char :=
  (1 + size) *
    (base "dD" * (unsigned + word (among "xXzZ?") (· = '_')) +
      base "bB" * digits (among "01xXzZ?") +
      base "oO" * digits (among "01234567xXzZ?") +
      base "hH" * digits (among "0123456789abcdefABCDEFxXzZ?"))

/-- Real numbers. -/
def real : Language Char :=
  unsigned * one (· = '.') * unsigned +
    unsigned * (1 + one (· = '.') * unsigned) * one (among "eE") * (1 + one (among "+-")) * unsigned

/-- Numbers. -/
def numbers : Language Char := unsigned + based + real

/-! ### Lexemes -/

/-- A lexeme; an escaped name comes with the white space that ends it. -/
inductive Lexeme where
  | white (c : Char)
  | lineComment (body : List Char)
  | blockComment (body : List Char)
  | directive (body : List Char)
  | name (text : List Char)
  | escName (text : List Char) (stop : Option Char)
  | number (text : List Char)
  | punct (t : Token)
  deriving DecidableEq

namespace Lexeme

/-- The characters of a lexeme. -/
def text : Lexeme → List Char
  | white c => [c]
  | lineComment body => '/' :: '/' :: body
  | blockComment body => '/' :: '*' :: (body ++ ['*', '/'])
  | directive body => '\x60' :: body
  | name text | number text => text
  | escName text stop => '\\' :: (text ++ stop.toList)
  | punct t => t.text.toList

/-- The token of a lexeme. -/
def token : Lexeme → Option Token
  | white _ | lineComment _ | blockComment _ | directive _ => none
  | name text => some (.id (String.ofList text))
  | escName text _ => some (.escId (String.ofList text))
  | number text => some (.num (String.ofList text))
  | punct t => some t

/-- The lexeme is a comment. -/
def IsComment : Lexeme → Prop
  | lineComment _ | blockComment _ => True
  | _ => False

/-- The lexeme is read in front of a text. -/
def At : Lexeme → List Char → Prop
  | white c, _ => isWhite c
  | lineComment body, rest | directive body, rest => '\n' ∉ body ∧ ∀ c ∈ rest.head?, c = '\n'
  | blockComment body, _ => Free ['*', '/'] body
  | name text, rest => Longest names text rest
  | escName text stop, rest =>
    (∀ c ∈ text, isWhite c = false) ∧ (∀ c ∈ stop, isWhite c) ∧ (stop = none → rest = [])
  | number text, rest => Longest numbers text rest
  | punct t, _ => t ∈ punctuation.map Prod.snd

end Lexeme

/-- The text of lexemes. -/
def textOf (ls : List Lexeme) : List Char := ls.flatMap Lexeme.text

/-- What holds of every lexeme and the text behind it. -/
def Along (P : Lexeme → List Char → Prop) : List Lexeme → Prop
  | [] => True
  | l :: ls => P l (textOf ls) ∧ Along P ls

/-- The lexemes are those of their text. -/
def Lexes : List Lexeme → Prop := Along Lexeme.At

/-! ### Characters of names and numbers -/

/-- The characters of numbers. -/
def isNumberChar (c : Char) : Bool := c.isAlphanum || "_'?.+-".toList.contains c

theorem isAscii_of_isAlphanum {c : Char} (h : c.isAlphanum) : c.toNat < 128 := by
  have hclass : ((c.isUpper || c.isLower) || c.isDigit) = true := h
  have hupper (hc : c.isUpper) : c.toNat ≤ 90 := (of_decide_eq_true hc).2
  have hlower (hc : c.isLower) : c.toNat ≤ 122 := of_decide_eq_true (Bool.and_eq_true_iff.mp hc).2
  have hdigit (hc : c.isDigit) : c.toNat ≤ 57 := of_decide_eq_true (Bool.and_eq_true_iff.mp hc).2
  rw [Bool.or_eq_true, Bool.or_eq_true] at hclass
  rcases hclass with (hc | hc) | hc
  · exact (hupper hc).trans_lt (by decide)
  · exact (hlower hc).trans_lt (by decide)
  · exact (hdigit hc).trans_lt (by decide)

theorem isAlphanum_of_isDigit {c : Char} (h : c.isDigit) : c.isAlphanum := by
  rw [Char.isAlphanum, h, Bool.or_true]

theorem isAlphanum_of_isAlpha {c : Char} (h : c.isAlpha) : c.isAlphanum := by
  rw [Char.isAlphanum, h, Bool.true_or]

theorem isNumberChar_of_isAlphanum {c : Char} (h : c.isAlphanum) : isNumberChar c := by
  rw [isNumberChar, h, Bool.true_or]

theorem names_le_within : names ≤ within (isNameChar ·) := by
  have hdollar : one (· = '$') ≤ within (isNameChar ·) := one_le_within (by rintro c rfl; decide)
  have hfirst (c : Char) (hc : c.isAlpha ∨ c = '_') : isNameChar c := by
    rcases hc with hc | rfl
    · rw [isNameChar, isAlphanum_of_isAlpha hc]
      rfl
    · decide
  exact add_le_within (word_le_within hfirst fun c hc => hc)
    (mul_le_within hdollar (word_le_within (fun c hc => hc) fun c hc => hc))

/-- A name goes on with every further character of names. -/
theorem append_mem_names {w : List Char} (hw : w ∈ names) {c : Char} (hc : isNameChar c) :
    w ++ [c] ∈ names := by
  have hword {first : Char → Prop} {w : List Char} (hw : w ∈ word first (isNameChar ·)) :
      w ++ [c] ∈ word first (isNameChar ·) := by
    obtain ⟨d, ds, rfl, hd, hds⟩ := mem_word.mp hw
    exact mem_word.mpr ⟨d, ds ++ [c], rfl, hd,
      List.forall_mem_append.mpr ⟨hds, List.forall_mem_singleton.mpr hc⟩⟩
  rcases (Language.mem_add _ _ w).mp hw with hw | hw
  · exact Or.inl (hword hw)
  · obtain ⟨a, ha, b, hb, rfl⟩ := Language.mem_mul.mp hw
    refine Or.inr ?_
    rw [List.append_assoc]
    exact Language.append_mem_mul ha (hword hb)

theorem numbers_le_within : numbers ≤ within (isNumberChar ·) := by
  have hamong {text : String} (h : ∀ c ∈ text.toList, isNumberChar c) :
      one (among text) ≤ within (isNumberChar ·) := one_le_within h
  have hdigits {p : Char → Prop} (h : ∀ c, p c → isNumberChar c) :
      digits p ≤ within (isNumberChar ·) :=
    word_le_within h fun c hc => hc.elim (h c) (by rintro rfl; decide)
  have hdigit (c : Char) (hc : c.isDigit) : isNumberChar c :=
    isNumberChar_of_isAlphanum (isAlphanum_of_isDigit hc)
  have hunsigned : unsigned ≤ within (isNumberChar ·) := hdigits hdigit
  have hdot : one (· = '.') ≤ within (isNumberChar ·) := one_le_within (by rintro c rfl; decide)
  have hsize : size ≤ within (isNumberChar ·) := word_le_within (fun c hc => hdigit c hc.1)
    fun c hc => hc.elim (hdigit c) (by rintro rfl; decide)
  have hbase {letters : String} (h : ∀ c ∈ letters.toList, isNumberChar c) :
      base letters ≤ within (isNumberChar ·) :=
    mul_le_within (mul_le_within (one_le_within (by rintro c rfl; decide))
      (add_le_within nil_le_within (hamong (by decide)))) (hamong h)
  have hvalue : unsigned + word (among "xXzZ?") (· = '_') ≤ within (isNumberChar ·) :=
    add_le_within hunsigned (word_le_within (by unfold among; decide) (by rintro c rfl; decide))
  refine add_le_within (add_le_within hunsigned ?_) ?_
  · refine mul_le_within (add_le_within nil_le_within hsize) ?_
    refine add_le_within (add_le_within (add_le_within ?_ ?_) ?_) ?_
    · exact mul_le_within (hbase (by decide)) hvalue
    · exact mul_le_within (hbase (by decide)) (hdigits (by unfold among; decide))
    · exact mul_le_within (hbase (by decide)) (hdigits (by unfold among; decide))
    · exact mul_le_within (hbase (by decide)) (hdigits (by unfold among; decide))
  · refine add_le_within (mul_le_within (mul_le_within hunsigned hdot) hunsigned) ?_
    have hexponent : 1 + one (· = '.') * unsigned ≤ within (isNumberChar ·) :=
      add_le_within nil_le_within (mul_le_within hdot hunsigned)
    have hsign : 1 + one (among "+-") ≤ within (isNumberChar ·) :=
      add_le_within nil_le_within (hamong (by decide))
    exact mul_le_within (mul_le_within (mul_le_within (mul_le_within hunsigned hexponent)
      (hamong (by decide))) hsign) hunsigned

theorem names_le_begins : names ≤ begins fun c => c.isAlpha ∨ c = '_' ∨ c = '$' := by
  have hletter (c : Char) (hc : c.isAlpha ∨ c = '_') : c.isAlpha ∨ c = '_' ∨ c = '$' :=
    hc.imp id Or.inl
  exact add_le_begins (mul_le_begins (one_le_begins hletter))
    (mul_le_begins (one_le_begins fun c hc => .inr (.inr hc)))

theorem numbers_le_begins : numbers ≤ begins fun c => c.isDigit ∨ c = '\x27' := by
  have hunsigned : unsigned ≤ begins fun c => c.isDigit ∨ c = '\x27' :=
    mul_le_begins (one_le_begins fun c hc => .inl hc)
  have hsize : size ≤ begins fun c => c.isDigit ∨ c = '\x27' :=
    mul_le_begins (one_le_begins fun c hc => .inl hc.1)
  have hbase (letters : String) : base letters ≤ begins fun c => c.isDigit ∨ c = '\x27' :=
    mul_le_begins (mul_le_begins (one_le_begins fun c hc => .inr hc))
  refine add_le_begins (add_le_begins hunsigned ?_) ?_
  · rw [based, add_mul, one_mul]
    refine add_le_begins ?_ (mul_le_begins hsize)
    exact add_le_begins (add_le_begins (add_le_begins (mul_le_begins (hbase _))
      (mul_le_begins (hbase _))) (mul_le_begins (hbase _))) (mul_le_begins (hbase _))
  · exact add_le_begins (mul_le_begins (mul_le_begins hunsigned))
      (mul_le_begins (mul_le_begins (mul_le_begins (mul_le_begins hunsigned))))

/-- A name is read in front of every character that is not one of names. -/
theorem Lexeme.at_name_iff {text rest : List Char} : (Lexeme.name text).At rest ↔
    text ∈ names ∧ ∀ c ∈ rest.head?, ¬ isNameChar c :=
  ⟨fun h => ⟨h.1, h.head? fun _ hc => append_mem_names h.1 hc⟩,
    fun h => longest_of_within h.1 names_le_within h.2⟩

/-! ### The first character of a lexeme -/

/-- What tells lexemes apart. -/
inductive Kind where
  | white
  | comment
  | directive
  | name
  | escName
  | number
  | punct
  deriving DecidableEq

/-- The kind of a lexeme. -/
def Lexeme.kind : Lexeme → Kind
  | white _ => .white
  | lineComment _ | blockComment _ => .comment
  | directive _ => .directive
  | name _ => .name
  | escName _ _ => .escName
  | number _ => .number
  | punct _ => .punct

/-- The kind of the lexemes that begin with a character. -/
def kindOf (c : Char) : Kind :=
  if isWhite c then .white
  else if c = '/' then .comment
  else if c = '\x60' then .directive
  else if c.isAlpha || c == '_' || c == '$' then .name
  else if c = '\\' then .escName
  else if c.isDigit || c == '\x27' then .number
  else .punct

/-- What holds of the first 128 characters holds of a character of ASCII. -/
theorem of_isAscii {P : Char → Prop} (h : ∀ n < 128, P (Char.ofNat n)) {c : Char}
    (hc : c.toNat < 128) : P c := by
  rw [← Char.ofNat_toNat c]
  exact h c.toNat hc

/-- The first character of a lexeme. -/
theorem Lexeme.At.head {l : Lexeme} {rest : List Char} (h : l.At rest) :
    ∃ c cs, l.text = c :: cs ∧ c.toNat < 128 ∧ kindOf c = l.kind := by
  cases l with
  | white c =>
    refine ⟨c, [], rfl, ?_, if_pos h⟩
    have hwhite : ∀ c ∈ [' ', '\t', '\r', '\n', '\x0c'], c.toNat < 128 := by decide
    exact hwhite c (List.contains_iff_mem.mp h)
  | lineComment body | blockComment body =>
    exact ⟨'/', _, rfl, by decide, (by decide : kindOf '/' = .comment)⟩
  | directive body =>
    exact ⟨'\x60', body, rfl, by decide, (by decide : kindOf '\x60' = .directive)⟩
  | name text =>
    obtain ⟨c, cs, hcs, hc⟩ := names_le_begins h.1
    have hascii : c.toNat < 128 := by
      rcases hc with hc | rfl | rfl
      · exact isAscii_of_isAlphanum (isAlphanum_of_isAlpha hc)
      · decide
      · decide
    refine ⟨c, cs, hcs, hascii, ?_⟩
    have hkind : (c.isAlpha ∨ c = '_' ∨ c = '$') → kindOf c = .name := by
      refine of_isAscii (P := fun c => (c.isAlpha ∨ c = '_' ∨ c = '$') → kindOf c = .name) ?_ hascii
      decide
    exact hkind hc
  | escName text stop =>
    exact ⟨'\\', _, rfl, by decide, (by decide : kindOf '\\' = .escName)⟩
  | number text =>
    obtain ⟨c, cs, hcs, hc⟩ := numbers_le_begins h.1
    have hascii : c.toNat < 128 := by
      rcases hc with hc | rfl
      · exact isAscii_of_isAlphanum (isAlphanum_of_isDigit hc)
      · decide
    refine ⟨c, cs, hcs, hascii, ?_⟩
    have hkind : (c.isDigit ∨ c = '\x27') → kindOf c = .number := by
      refine of_isAscii (P := fun c => (c.isDigit ∨ c = '\x27') → kindOf c = .number) ?_ hascii
      decide
    exact hkind hc
  | punct t =>
    have hpunct : ∀ p ∈ punctuation, p.2.text.toList = [p.1] ∧ p.1.toNat < 128 ∧
        kindOf p.1 = .punct := by decide
    obtain ⟨p, hp, rfl⟩ := List.mem_map.mp h
    exact ⟨p.1, [], hpunct p hp⟩

/-! ### One sequence of lexemes -/

section Unique

variable {body body' rest rest' : List Char} {l l' : Lexeme} {ls ls' : List Lexeme}

/-- A line goes up to its end. -/
theorem takeWhile_line (hbody : '\n' ∉ body) (hrest : ∀ c ∈ rest.head?, c = '\n') :
    (body ++ rest).takeWhile (· ≠ '\n') = body := by
  refine takeWhile_eq_iff.mpr ⟨fun c hc => ?_, fun c hc => ?_⟩
  · exact decide_eq_true fun h => hbody (h ▸ hc)
  · exact decide_eq_false (not_not.mpr (hrest c hc))

/-- A line ends in one place. -/
theorem line_unique (hbody : '\n' ∉ body) (hrest : ∀ c ∈ rest.head?, c = '\n')
    (hbody' : '\n' ∉ body') (hrest' : ∀ c ∈ rest'.head?, c = '\n')
    (heq : body ++ rest = body' ++ rest') : body = body' := by
  rw [← takeWhile_line hbody hrest, heq, takeWhile_line hbody' hrest']

/-- A block comment ends at the first end behind its beginning. -/
theorem splitFirst_commentEnd (hfree : Free ['*', '/'] body) (rest : List Char) :
    splitFirst ['*', '/'] (body ++ (['*', '/'] ++ rest)) = some (body, rest) := by
  refine splitFirst_append (List.cons_ne_nil _ _) ?_ rest
  have hlast : (body ++ ['*', '/']).dropLast = body ++ ['*'] := by simp
  rw [hlast]
  exact hfree.last (by decide) (by decide)

/-- A block comment ends in one place. -/
theorem block_unique (hfree : Free ['*', '/'] body) (hfree' : Free ['*', '/'] body')
    (heq : body ++ (['*', '/'] ++ rest) = body' ++ (['*', '/'] ++ rest')) : body = body' := by
  have hsame := splitFirst_commentEnd hfree rest
  rw [heq, splitFirst_commentEnd hfree' rest'] at hsame
  exact (Prod.ext_iff.mp (Option.some.inj hsame)).1.symm

/-- White space or the end of the text stands behind an escaped name. -/
theorem Lexeme.At.head?_escName {text : List Char} {stop : Option Char}
    (h : (escName text stop).At rest) : (stop.toList ++ rest).head? = stop := by
  cases stop with
  | none =>
    rw [h.2.2 rfl]
    rfl
  | some c => rfl

theorem Lexeme.At.takeWhile_escName {text : List Char} {stop : Option Char}
    (h : (escName text stop).At rest) :
    (text ++ (stop.toList ++ rest)).takeWhile (fun c => !isWhite c) = text := by
  refine takeWhile_eq_iff.mpr ⟨fun c hc => ?_, fun c hc => ?_⟩
  · rw [h.1 c hc]
    rfl
  · rw [h.head?_escName] at hc
    rw [h.2.1 c hc]
    rfl

/-- An escaped name ends in one place. -/
theorem Lexeme.At.escName_unique {text text' : List Char} {stop stop' : Option Char}
    (h : (escName text stop).At rest) (h' : (escName text' stop').At rest')
    (heq : text ++ (stop.toList ++ rest) = text' ++ (stop'.toList ++ rest')) :
    text = text' ∧ stop = stop' := by
  have htext : text = text' := by rw [← h.takeWhile_escName, heq, h'.takeWhile_escName]
  refine ⟨htext, ?_⟩
  rw [htext] at heq
  rw [← h.head?_escName, List.append_cancel_left heq, h'.head?_escName]

/-- The tokens of punctuation begin differently. -/
theorem punct_unique {t t' : Token} (h : t ∈ punctuation.map Prod.snd)
    (h' : t' ∈ punctuation.map Prod.snd) (heq : t.text.toList.head? = t'.text.toList.head?) :
    t = t' := by
  have hall : ∀ t ∈ punctuation.map Prod.snd, ∀ t' ∈ punctuation.map Prod.snd,
      t.text.toList.head? = t'.text.toList.head? → t = t' := by decide
  exact hall t h t' h' heq

/-- The lexeme in front of a text is determined by the whole. -/
theorem Lexeme.At.unique (h : l.At rest) (h' : l'.At rest')
    (heq : l.text ++ rest = l'.text ++ rest') : l = l' := by
  have hkind : l.kind = l'.kind := by
    obtain ⟨c, cs, hcs, -, hc⟩ := h.head
    obtain ⟨c', cs', hcs', -, hc'⟩ := h'.head
    rw [hcs, hcs'] at heq
    rw [← hc, ← hc', (List.cons.inj heq).1]
  cases l with
  | white c =>
    cases l' with
    | white c' => rw [(List.cons.inj heq).1]
    | _ => cases hkind
  | lineComment body =>
    cases l' with
    | lineComment body' =>
      have hbody := (List.cons.inj (List.cons.inj heq).2).2
      rw [line_unique h.1 h.2 h'.1 h'.2 hbody]
    | blockComment body' => cases (List.cons.inj (List.cons.inj heq).2).1
    | _ => cases hkind
  | blockComment body =>
    cases l' with
    | lineComment body' => cases (List.cons.inj (List.cons.inj heq).2).1
    | blockComment body' =>
      have hbody : body ++ ['*', '/'] ++ rest = body' ++ ['*', '/'] ++ rest' :=
        (List.cons.inj (List.cons.inj heq).2).2
      rw [List.append_assoc, List.append_assoc] at hbody
      rw [block_unique h h' hbody]
    | _ => cases hkind
  | directive body =>
    cases l' with
    | directive body' => rw [line_unique h.1 h.2 h'.1 h'.2 (List.cons.inj heq).2]
    | _ => cases hkind
  | name text =>
    cases l' with
    | name text' => rw [Longest.unique h h' heq]
    | _ => cases hkind
  | escName text stop =>
    cases l' with
    | escName text' stop' =>
      have hwhole : text ++ stop.toList ++ rest = text' ++ stop'.toList ++ rest' :=
        (List.cons.inj heq).2
      rw [List.append_assoc, List.append_assoc] at hwhole
      obtain ⟨rfl, rfl⟩ := h.escName_unique h' hwhole
      rfl
    | _ => cases hkind
  | number text =>
    cases l' with
    | number text' => rw [Longest.unique h h' heq]
    | _ => cases hkind
  | punct t =>
    cases l' with
    | punct t' =>
      obtain ⟨c, cs, hcs, -⟩ := h.head
      obtain ⟨c', cs', hcs', -⟩ := h'.head
      rw [hcs, hcs'] at heq
      have ht : t.text.toList = c :: cs := hcs
      have ht' : t'.text.toList = c' :: cs' := hcs'
      refine congrArg Lexeme.punct (punct_unique h h' ?_)
      rw [ht, ht', (List.cons.inj heq).1]
      rfl
    | _ => cases hkind

theorem textOf_cons (l : Lexeme) (ls : List Lexeme) : textOf (l :: ls) = l.text ++ textOf ls :=
  List.flatMap_cons

/-- A text has one sequence of lexemes. -/
theorem Lexes.unique (h : Lexes ls) (h' : Lexes ls') (heq : textOf ls = textOf ls') : ls = ls' := by
  induction ls generalizing ls' with
  | nil =>
    cases ls' with
    | nil => rfl
    | cons l' ls' =>
      obtain ⟨c, cs, hcs, -⟩ := h'.1.head
      rw [textOf_cons, hcs] at heq
      cases heq
  | cons l ls ih =>
    cases ls' with
    | nil =>
      obtain ⟨c, cs, hcs, -⟩ := h.1.head
      rw [textOf_cons, hcs] at heq
      cases heq
    | cons l' ls' =>
      rw [textOf_cons, textOf_cons] at heq
      obtain rfl := h.1.unique h'.1 heq
      rw [ih h.2 h'.2 (List.append_cancel_left heq)]

end Unique

end Saltworks.Verilog
