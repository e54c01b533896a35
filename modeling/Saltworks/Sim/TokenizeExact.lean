import Saltworks.Data.Dict
import Saltworks.Data.Fallible
import Saltworks.Sim.LexicalRules

/-!
# The tokenizer against the lexical rules

The loop of the tokenizer is taken apart into its iterations. On a text of lexemes it returns their
tokens and removes every comment by one iteration, exactly if all lexemes are plain. The search for
the end of a block comment starts at the slash that begins it, and so the slash behind a star there
ends the comment; a form feed is not a blank; a number that begins with its base, is signed or real
or stands close to a letter of based constants is cut elsewhere.

Tokens that are printed with a blank behind each are read back.

## Main definitions

* `iteration`: one iteration of the loop.
* `PlainLexeme`: the lexemes that are read as such.
* `Faithful`: the tokenizer returns the tokens of the lexemes and removes the comments whole.
* `printed`: the text of tokens.

## Main results

* `iteration_of_plain`, `plain_of_tokens`: the step at one lexeme.
* `tokenizeChars_textOf`, `plain_of_faithful`: the run over all lexemes.
* `tokenize_printed`: printed tokens are read back.
* `faithful_iff`: the texts on which the tokenizer is faithful.
-/

namespace Saltworks.Sim

open Importer Fallible Lexical Text Verilog

/-! ### One iteration -/

section Iteration

variable (cls : CharClass)

/-- A character that a number goes on with. -/
def inNumber (d : Char) : Bool := cls.isdigit d || basedChars.contains d

/-- A character that an identifier goes on with. -/
def inName (d : Char) : Bool := cls.isalnum d || d == '_' || d == '$'

/-- The token that an iteration of the loop of the tokenizer appends, if any, and the text that it
leaves. -/
def iteration : List Char → Except Raised (Option Token × List Char)
  | [] => .ok (none, [])
  | c :: cs =>
    if isBlank c then .ok (none, cs)
    else if c = '\\' then
      .ok (some (.escId (String.ofList (cs.takeWhile fun d => !isBlank d))),
        (cs.dropWhile fun d => !isBlank d).drop 1)
    else match punctuation.lookup c with
    | some t => .ok (some t, cs)
    | none =>
      if cls.isdigit c then
        .ok (some (.num (String.ofList ((c :: cs).takeWhile (inNumber cls)))),
          cs.dropWhile (inNumber cls))
      else if cls.isalpha c || c == '_' || c == '$' then
        .ok (some (.id (String.ofList ((c :: cs).takeWhile (inName cls)))),
          (c :: cs).dropWhile (inName cls))
      else if c = '/' ∧ cs.head? = some '/' then .ok (none, cs.dropWhile (· ≠ '\n'))
      else if c = '/' ∧ cs.head? = some '*' then
        match afterComment cs with
        | some cs => .ok (none, cs)
        | none => .error .valueError
      else if c = '\x60' then .ok (none, cs.dropWhile (· ≠ '\n'))
      else .error .syntaxError

/-- The tokens of characters. -/
def tokenizeChars (cs : List Char) : Except Raised (List Token) :=
  tokenizeFrom cls cs.length cs

end Iteration

/-- What the loop relies on in the methods of characters: on ASCII they are what they are called,
and a letter is alphanumeric. -/
structure CharClass.Python (cls : CharClass) : Prop where
  ascii : ∀ c : Char, c.toNat < 128 → cls.isdigit c = c.isDigit ∧ cls.isalpha c = c.isAlpha ∧
    cls.isalnum c = c.isAlphanum
  alnum : ∀ c, cls.isalpha c → cls.isalnum c

/-! ### What is told -/

/-- A lexeme that is read as such in front of a text: white space other than a form feed, a block
comment without a slash behind its beginning, an escaped name that no form feed ends, and a number
that begins with a digit and goes exactly as far as the characters of based constants. -/
def PlainLexeme : Lexeme → List Char → Prop
  | .white c, _ => c ≠ '\x0c'
  | .blockComment body, _ => body.head? ≠ some '/'
  | .escName _ stop, _ => stop ≠ some '\x0c'
  | .number text, rest => (∀ c ∈ text.head?, c.isDigit) ∧ (∀ c ∈ text, inNumber .ascii c) ∧
      ∀ c ∈ rest.head?, inNumber .ascii c = false
  | _, _ => True

/-- The tokens are those of the lexemes, and an iteration that begins at a comment removes it
whole. -/
structure Faithful (cls : CharClass) (src : String) (ls : List Lexeme) : Prop where
  tokens : tokenize cls src = .ok (ls.filterMap Lexeme.token)
  comments : Along (fun l rest => l.IsComment →
    iteration cls (l.text ++ rest) = .ok (none, rest)) ls

/-- The token is one that the tokenizer returns. -/
def Returned (cls : CharClass) (t : Token) : Prop :=
  ∃ src ts, tokenize cls src = .ok ts ∧ t ∈ ts

/-- A token as it is written in a text. -/
def Token.source : Token → List Char
  | .escId text => '\\' :: text.toList
  | t => t.text.toList

/-- The text of tokens with a blank behind each. -/
def printed (ts : List Token) : String := String.ofList (ts.flatMap fun t => t.source ++ [' '])

section Loop

variable {cls : CharClass} {c : Char} {cs rest : List Char} {t : Option Token} {n : ℕ}

/-- The loop goes on with what an iteration leaves. -/
theorem tokenizeFrom_succ : tokenizeFrom cls (n + 1) (c :: cs) = (do
    let (t, rest) ← iteration cls (c :: cs)
    return t.toList ++ (← tokenizeFrom cls n rest)) := by
  have hskip (rest : List Char) : tokenizeFrom cls n rest = (do
      let (t, rest) ← (.ok (none, rest) : Except Raised (Option Token × List Char))
      return t.toList ++ (← tokenizeFrom cls n rest)) := by
    simp only [bind, Except.bind, pure, Except.pure]
    cases tokenizeFrom cls n rest <;> rfl
  rw [tokenizeFrom, iteration]
  cases punctuation.lookup c with
  | some t =>
    simp only
    split_ifs
    · exact hskip cs
    · rfl
    · rfl
  | none =>
    cases afterComment cs with
    | none =>
      simp only
      split_ifs
      · exact hskip cs
      · rfl
      · rfl
      · rfl
      · exact hskip _
      · rfl
      · exact hskip _
      · rfl
    | some rest =>
      simp only
      split_ifs
      · exact hskip cs
      · rfl
      · rfl
      · rfl
      · exact hskip _
      · exact hskip rest
      · exact hskip _
      · rfl

theorem length_afterComment (h : afterComment cs = some rest) : rest.length ≤ cs.length := by
  induction cs with
  | nil => cases h
  | cons c cs ih =>
    rw [afterComment.eq_def] at h
    split at h
    · rename_i heq
      cases h
      rw [heq, List.length_cons, List.length_cons]
      omega
    · rename_i heq
      cases heq
      exact (ih h).trans (Nat.le_succ _)
    · cases h

/-- The first character of an identifier is one that it goes on with. -/
theorem inName_of_begins (hcls : cls.Python)
    (hc : (cls.isalpha c || c == '_' || c == '$') = true) : inName cls c = true := by
  rw [inName]
  cases halpha : cls.isalpha c with
  | true => rw [hcls.alnum c halpha, Bool.true_or, Bool.true_or]
  | false =>
    rw [halpha, Bool.false_or] at hc
    rw [Bool.or_assoc, hc, Bool.or_true]

/-- An iteration takes a character at least. -/
theorem length_iteration (hcls : cls.Python) (h : iteration cls (c :: cs) = .ok (t, rest)) :
    rest.length ≤ cs.length := by
  have hdrop {cs : List Char} : (cs.drop 1).length ≤ cs.length := by
    rw [List.length_drop]
    exact Nat.sub_le _ _
  rw [iteration] at h
  cases hlookup : punctuation.lookup c with
  | some t =>
    simp only [hlookup] at h
    split_ifs at h
    · cases h
      exact le_rfl
    · cases h
      exact hdrop.trans (List.length_dropWhile_le _ _)
    · cases h
      exact le_rfl
  | none =>
    simp only [hlookup] at h
    split_ifs at h with hblank hescape hdigit hletter hline hblock hdirective
    · cases h
      exact le_rfl
    · cases h
      exact hdrop.trans (List.length_dropWhile_le _ _)
    · cases h
      exact List.length_dropWhile_le _ _
    · cases h
      rw [List.dropWhile_cons_of_pos (inName_of_begins hcls hletter)]
      exact List.length_dropWhile_le _ _
    · cases h
      exact List.length_dropWhile_le _ _
    · split at h
      · rename_i hcomment
        cases h
        exact length_afterComment hcomment
      · cases h
    · cases h
      exact List.length_dropWhile_le _ _

/-- A bound on the number of tokens does not matter where the text is no longer. -/
theorem tokenizeFrom_eq (hcls : cls.Python) {m : ℕ} (hn : cs.length ≤ n) (hm : cs.length ≤ m) :
    tokenizeFrom cls n cs = tokenizeFrom cls m cs := by
  induction n generalizing m cs with
  | zero =>
    obtain rfl := List.length_eq_zero_iff.mp (Nat.le_zero.mp hn)
    rw [tokenizeFrom, tokenizeFrom]
  | succ n ih =>
    cases cs with
    | nil => rw [tokenizeFrom, tokenizeFrom]
    | cons c cs =>
      rw [List.length_cons] at hn hm
      obtain ⟨m, rfl⟩ := Nat.exists_eq_succ_of_ne_zero (by omega : m ≠ 0)
      rw [tokenizeFrom_succ, tokenizeFrom_succ]
      cases hit : iteration cls (c :: cs) with
      | error e => rfl
      | ok r =>
        have hrest := length_iteration hcls hit
        have hsame : tokenizeFrom cls n r.2 = tokenizeFrom cls m r.2 := ih (by omega) (by omega)
        simp only [bind, Except.bind, hsame]

theorem tokenizeChars_cons (hcls : cls.Python) : tokenizeChars cls (c :: cs) = (do
    let (t, rest) ← iteration cls (c :: cs)
    return t.toList ++ (← tokenizeChars cls rest)) := by
  rw [tokenizeChars, List.length_cons, tokenizeFrom_succ]
  cases hit : iteration cls (c :: cs) with
  | error e => rfl
  | ok r =>
    have hsame := tokenizeFrom_eq hcls (length_iteration hcls hit) le_rfl
    simp only [bind, Except.bind, tokenizeChars, hsame]

/-- The tokens are those that an iteration appends and those of the text that it leaves. -/
theorem tokenizeChars_eq (hcls : cls.Python) (h : iteration cls cs = .ok (t, rest)) :
    tokenizeChars cls cs = (do return t.toList ++ (← tokenizeChars cls rest)) := by
  cases cs with
  | nil =>
    cases h
    rfl
  | cons c cs =>
    rw [tokenizeChars_cons hcls, h]
    rfl

/-- Where tokens are returned, an iteration has appended the first of them. -/
theorem tokenizeChars_eq_ok (hcls : cls.Python) {ts : List Token}
    (h : tokenizeChars cls cs = .ok ts) : ∃ t rest ts', iteration cls cs = .ok (t, rest) ∧
      tokenizeChars cls rest = .ok ts' ∧ ts = t.toList ++ ts' := by
  cases cs with
  | nil =>
    cases h
    exact ⟨none, [], [], rfl, rfl, rfl⟩
  | cons c cs =>
    rw [tokenizeChars_cons hcls] at h
    obtain ⟨⟨t, rest⟩, hit, h⟩ := bind_eq_ok h
    obtain ⟨ts', hts, h⟩ := bind_eq_ok h
    cases h
    exact ⟨t, rest, ts', hit, hts, rfl⟩

end Loop

/-! ### Branches -/

section Branches

variable {cls : CharClass} {c : Char} {cs body text rest : List Char}

/-- The branch of numbers. -/
theorem iteration_num (hblank : isBlank c = false) (hescape : c ≠ '\\')
    (hlookup : punctuation.lookup c = none) (hdigit : cls.isdigit c = true) (cs : List Char) :
    iteration cls (c :: cs) = .ok (some (.num (String.ofList ((c :: cs).takeWhile (inNumber cls)))),
      cs.dropWhile (inNumber cls)) := by
  rw [iteration, hlookup]
  simp only [hblank, hescape, hdigit, Bool.false_eq_true, if_false, if_true]

/-- The branch of identifiers. -/
theorem iteration_id (hblank : isBlank c = false) (hescape : c ≠ '\\')
    (hlookup : punctuation.lookup c = none) (hdigit : cls.isdigit c = false)
    (hletter : (cls.isalpha c || c == '_' || c == '$') = true) (cs : List Char) :
    iteration cls (c :: cs) = .ok (some (.id (String.ofList ((c :: cs).takeWhile (inName cls)))),
      (c :: cs).dropWhile (inName cls)) := by
  rw [iteration, hlookup]
  simp only [hblank, hescape, hdigit, hletter, Bool.false_eq_true, if_false, if_true]

/-- The first character of a name takes the branch of identifiers. -/
theorem iteration_name (hcls : cls.Python) (hc : c.isAlpha ∨ c = '_' ∨ c = '$') (cs : List Char) :
    iteration cls (c :: cs) = .ok (some (.id (String.ofList ((c :: cs).takeWhile (inName cls)))),
      (c :: cs).dropWhile (inName cls)) := by
  have hascii : c.toNat < 128 := by
    rcases hc with hc | rfl | rfl
    · exact isAscii_of_isAlphanum (isAlphanum_of_isAlpha hc)
    · decide
    · decide
  have hfirst : isBlank c = false ∧ c ≠ '\\' ∧ punctuation.lookup c = none ∧ c.isDigit = false := by
    refine of_isAscii (P := fun c => (c.isAlpha ∨ c = '_' ∨ c = '$') →
      isBlank c = false ∧ c ≠ '\\' ∧ punctuation.lookup c = none ∧ c.isDigit = false) ?_ hascii hc
    decide
  obtain ⟨hblank, hescape, hlookup, hdigit⟩ := hfirst
  obtain ⟨hisdigit, hisalpha, -⟩ := hcls.ascii c hascii
  refine iteration_id hblank hescape hlookup (hisdigit.trans hdigit) ?_ cs
  rw [hisalpha]
  simpa [or_assoc] using hc

/-- A digit takes the branch of numbers. -/
theorem iteration_digit (hcls : cls.Python) (hc : c.isDigit) (cs : List Char) :
    iteration cls (c :: cs) = .ok (some (.num (String.ofList ((c :: cs).takeWhile (inNumber cls)))),
      cs.dropWhile (inNumber cls)) := by
  have hascii : c.toNat < 128 := isAscii_of_isAlphanum (isAlphanum_of_isDigit hc)
  have hfirst : isBlank c = false ∧ c ≠ '\\' ∧ punctuation.lookup c = none := by
    refine of_isAscii (P := fun c => c.isDigit →
      isBlank c = false ∧ c ≠ '\\' ∧ punctuation.lookup c = none) ?_ hascii hc
    decide
  obtain ⟨hblank, hescape, hlookup⟩ := hfirst
  exact iteration_num hblank hescape hlookup ((hcls.ascii c hascii).1.trans hc) cs

/-- Comments, directives, form feeds and quotes take the last branches. -/
theorem iteration_last (hcls : cls.Python) (hc : c ∈ ['/', '\x60', '\x27', '\x0c']) :
    iteration cls (c :: cs) =
      if c = '/' ∧ cs.head? = some '/' then .ok (none, cs.dropWhile (· ≠ '\n'))
      else if c = '/' ∧ cs.head? = some '*' then
        match afterComment cs with
        | some cs => .ok (none, cs)
        | none => .error .valueError
      else if c = '\x60' then .ok (none, cs.dropWhile (· ≠ '\n'))
      else .error .syntaxError := by
  have hfirst : ∀ c ∈ ['/', '\x60', '\x27', '\x0c'], isBlank c = false ∧ c ≠ '\\' ∧
      punctuation.lookup c = none ∧ c.isDigit = false ∧
      (c.isAlpha || c == '_' || c == '$') = false ∧ c.toNat < 128 := by decide
  obtain ⟨hblank, hescape, hlookup, hdigit, hletter, hascii⟩ := hfirst c hc
  obtain ⟨hisdigit, hisalpha, -⟩ := hcls.ascii c hascii
  rw [← hisalpha] at hletter
  rw [iteration, hlookup]
  simp only [hblank, hescape, hisdigit, hdigit, hletter, Bool.false_eq_true, if_false]

/-- The branch of line comments. -/
theorem iteration_line (hcls : cls.Python) (cs : List Char) :
    iteration cls ('/' :: '/' :: cs) = .ok (none, ('/' :: cs).dropWhile (· ≠ '\n')) := by
  rw [iteration_last hcls List.mem_cons_self, if_pos ⟨rfl, rfl⟩]

/-- The branch of block comments. -/
theorem iteration_block (hcls : cls.Python) (h : afterComment ('*' :: cs) = some rest) :
    iteration cls ('/' :: '*' :: cs) = .ok (none, rest) := by
  rw [iteration_last hcls List.mem_cons_self, if_neg (by simp), if_pos ⟨rfl, rfl⟩, h]

/-- The branch of directives. -/
theorem iteration_directive (hcls : cls.Python) (cs : List Char) :
    iteration cls ('\x60' :: cs) = .ok (none, cs.dropWhile (· ≠ '\n')) := by
  rw [iteration_last hcls (by decide), if_neg (by simp), if_neg (by simp), if_pos rfl]

/-- A quote and a form feed are stray characters. -/
theorem iteration_stray (hcls : cls.Python) (hc : c ∈ ['\x27', '\x0c']) (cs : List Char) :
    iteration cls (c :: cs) = .error .syntaxError := by
  have hother : ∀ c ∈ ['\x27', '\x0c'],
      c ∈ ['/', '\x60', '\x27', '\x0c'] ∧ c ≠ '/' ∧ c ≠ '\x60' := by decide
  obtain ⟨hlast, hslash, hdirective⟩ := hother c hc
  rw [iteration_last hcls hlast, if_neg fun h => hslash h.1, if_neg fun h => hslash h.1,
    if_neg hdirective]

theorem iteration_blank (hc : isBlank c) : iteration cls (c :: cs) = .ok (none, cs) := by
  rw [iteration, if_pos hc]

theorem iteration_escape : iteration cls ('\\' :: cs) =
    .ok (some (.escId (String.ofList (cs.takeWhile fun d => !isBlank d))),
      (cs.dropWhile fun d => !isBlank d).drop 1) := rfl

theorem iteration_punct {t : Token} (ht : t ∈ punctuation.map Prod.snd) (cs : List Char) :
    iteration cls (t.text.toList ++ cs) = .ok (some t, cs) := by
  have hall : ∀ p ∈ punctuation, p.2.text.toList = [p.1] ∧ isBlank p.1 = false ∧ p.1 ≠ '\\' ∧
      punctuation.lookup p.1 = some p.2 := by decide
  obtain ⟨p, hp, rfl⟩ := List.mem_map.mp ht
  obtain ⟨htext, hblank, hescape, hlookup⟩ := hall p hp
  rw [htext, List.singleton_append, iteration, hlookup]
  simp only [hblank, hescape, Bool.false_eq_true, if_false]

/-- A line that is skipped. -/
theorem dropWhile_line (hbody : '\n' ∉ body) (hrest : ∀ c ∈ rest.head?, c = '\n') :
    (body ++ rest).dropWhile (· ≠ '\n') = rest :=
  dropWhile_eq (takeWhile_line hbody hrest)

/-- The search for the end of a comment. -/
theorem afterComment_eq (cs : List Char) : afterComment cs = behind ['*', '/'] cs := by
  induction cs with
  | nil => rfl
  | cons c cs ih =>
    rw [behind, splitFirst]
    by_cases hpre : ['*', '/'] <+: c :: cs
    · rw [if_pos hpre]
      obtain ⟨rest, hrest⟩ := hpre
      rw [← hrest]
      rfl
    · rw [if_neg hpre, Option.map_map]
      have hstep : afterComment (c :: cs) = afterComment cs := by
        rw [afterComment.eq_def]
        split
        · rename_i heq
          exact absurd ⟨_, heq.symm⟩ hpre
        · rename_i heq
          cases heq
          rfl
        · rename_i heq
          cases heq
      rw [hstep, ih]
      rfl

/-- A comment that does not begin with a slash is passed over. -/
theorem afterComment_body (hfree : Free ['*', '/'] body) (hslash : body.head? ≠ some '/')
    (rest : List Char) : afterComment ('*' :: (body ++ (['*', '/'] ++ rest))) = some rest := by
  have hstart : ¬ ['*', '/'] <+: '*' :: (body ++ (['*', '/'] ++ rest)) := by
    rintro ⟨z, hz⟩
    have htail : '/' :: z = body ++ (['*', '/'] ++ rest) := (List.cons.inj hz).2
    cases body with
    | nil => cases htail
    | cons c body =>
      rw [List.cons_append] at htail
      exact hslash (congrArg some (List.cons.inj htail).1.symm)
  rw [afterComment_eq, behind, splitFirst, if_neg hstart, Option.map_map,
    splitFirst_commentEnd hfree]
  rfl

end Branches

/-! ### Lexemes -/

section Lexemes

variable {cls : CharClass} {l : Lexeme} {ls : List Lexeme} {rest : List Char} {ts : List Token}

theorem inNumber_eq (hcls : cls.Python) {c : Char} (hc : c.toNat < 128) :
    inNumber cls c = inNumber .ascii c := by
  rw [inNumber, inNumber, (hcls.ascii c hc).1]
  rfl

theorem inName_eq (hcls : cls.Python) {c : Char} (hc : c.toNat < 128) :
    inName cls c = isNameChar c := by
  rw [inName, isNameChar, (hcls.ascii c hc).2.2]

theorem isAscii_of_isNameChar {c : Char} (hc : isNameChar c) : c.toNat < 128 := by
  rw [isNameChar, Bool.or_eq_true, Bool.or_eq_true, beq_iff_eq, beq_iff_eq] at hc
  rcases hc with (hc | rfl) | rfl
  · exact isAscii_of_isAlphanum hc
  · decide
  · decide

theorem isAscii_of_isNumberChar {c : Char} (hc : isNumberChar c) : c.toNat < 128 := by
  rw [isNumberChar, Bool.or_eq_true, List.contains_iff_mem] at hc
  rcases hc with hc | hc
  · exact isAscii_of_isAlphanum hc
  · have hall : ∀ c ∈ "_'?.+-".toList, c.toNat < 128 := by decide
    exact hall c hc

/-- A name is taken whole. -/
theorem takeWhile_name (hcls : cls.Python) {text : List Char}
    (h : (Lexeme.name text).At rest) (hrest : ∀ c ∈ rest.head?, c.toNat < 128) :
    (text ++ rest).takeWhile (inName cls) = text := by
  refine takeWhile_eq_iff.mpr ⟨fun c hc => ?_, fun c hc => ?_⟩
  · have hname : isNameChar c := names_le_within h.1 c hc
    rw [inName_eq hcls (isAscii_of_isNameChar hname), hname]
  · rw [inName_eq hcls (hrest c hc), ← Bool.not_eq_true]
    exact (Lexeme.at_name_iff.mp h).2 c hc

/-- A number is taken whole iff it goes exactly as far as the characters of based constants. -/
theorem takeWhile_number_iff (hcls : cls.Python) {text : List Char}
    (h : (Lexeme.number text).At rest) (hrest : ∀ c ∈ rest.head?, c.toNat < 128) :
    (text ++ rest).takeWhile (inNumber cls) = text ↔
      (∀ c ∈ text, inNumber .ascii c) ∧ ∀ c ∈ rest.head?, inNumber .ascii c = false := by
  rw [takeWhile_eq_iff]
  refine and_congr (forall₂_congr fun c hc => ?_) (forall₂_congr fun c hc => ?_)
  · rw [inNumber_eq hcls (isAscii_of_isNumberChar (numbers_le_within h.1 c hc))]
  · rw [inNumber_eq hcls (hrest c hc)]

theorem isWhite_iff {c : Char} : isWhite c ↔ isBlank c ∨ c = '\x0c' := by
  simp [isWhite, isBlank, or_assoc]

/-- An escaped name that no form feed ends is taken whole. -/
theorem takeWhile_escName {text : List Char} {stop : Option Char}
    (h : (Lexeme.escName text stop).At rest) (hstop : stop ≠ some '\x0c') :
    (text ++ (stop.toList ++ rest)).takeWhile (fun d => !isBlank d) = text := by
  refine takeWhile_eq_iff.mpr ⟨fun c hc => ?_, fun c hc => ?_⟩
  · have hwhite := h.1 c hc
    rw [← Bool.not_eq_true, isWhite_iff, not_or] at hwhite
    simpa using hwhite.1
  · rw [h.head?_escName] at hc
    have hblank : isBlank c := (isWhite_iff.mp (h.2.1 c hc)).resolve_right fun hc' =>
      hstop (hc' ▸ hc)
    rw [hblank]
    rfl

/-- A plain lexeme is read as such. -/
theorem iteration_of_plain (hcls : cls.Python) (h : l.At rest) (hplain : PlainLexeme l rest)
    (hrest : ∀ c ∈ rest.head?, c.toNat < 128) :
    iteration cls (l.text ++ rest) = .ok (l.token, rest) := by
  cases l with
  | white c =>
    have hblank : ∀ c ∈ [' ', '\t', '\r', '\n', '\x0c'], c ≠ '\x0c' → isBlank c := by decide
    exact iteration_blank (hblank c (List.contains_iff_mem.mp h) hplain)
  | lineComment body =>
    refine (iteration_line hcls (body ++ rest)).trans ?_
    rw [List.dropWhile_cons_of_pos (by decide), dropWhile_line h.1 h.2]
    rfl
  | blockComment body =>
    have htext : (Lexeme.blockComment body).text ++ rest =
        '/' :: '*' :: (body ++ (['*', '/'] ++ rest)) := by
      rw [Lexeme.text, List.cons_append, List.cons_append, List.append_assoc]
    rw [htext, iteration_block hcls (afterComment_body h hplain rest)]
    rfl
  | directive body =>
    refine (iteration_directive hcls (body ++ rest)).trans ?_
    rw [dropWhile_line h.1 h.2]
    rfl
  | name text =>
    have htake := takeWhile_name hcls h hrest
    obtain ⟨c, cs, rfl, hc⟩ := names_le_begins h.1
    rw [List.cons_append] at htake
    have hdrop : (c :: (cs ++ rest)).dropWhile (inName cls) = rest :=
      dropWhile_eq (w := c :: cs) htake
    have hread : iteration cls (c :: (cs ++ rest)) =
        .ok (some (.id (String.ofList (c :: cs))), rest) := by
      rw [iteration_name hcls hc, htake, hdrop]
    exact hread
  | escName text stop =>
    have htake := takeWhile_escName h hplain
    have hread : iteration cls ('\\' :: (text ++ (stop.toList ++ rest))) =
        .ok (some (.escId (String.ofList text)), rest) := by
      rw [iteration_escape, htake, dropWhile_eq htake]
      cases stop with
      | none =>
        rw [h.2.2 rfl]
        rfl
      | some c => rfl
    have htext : (Lexeme.escName text stop).text ++ rest =
        '\\' :: (text ++ (stop.toList ++ rest)) := by
      rw [Lexeme.text, List.cons_append, List.append_assoc]
    rw [htext, hread]
    rfl
  | number text =>
    obtain ⟨hdigit, hnumber⟩ := hplain
    have htake := (takeWhile_number_iff hcls h hrest).mpr hnumber
    obtain ⟨c, cs, rfl, -⟩ := numbers_le_begins h.1
    have hdrop := dropWhile_eq htake
    have hc : inNumber cls c := (takeWhile_eq_iff.mp htake).1 c List.mem_cons_self
    rw [List.cons_append, List.dropWhile_cons_of_pos hc] at hdrop
    rw [List.cons_append] at htake
    have hread : iteration cls (c :: (cs ++ rest)) =
        .ok (some (.num (String.ofList (c :: cs))), rest) := by
      rw [iteration_digit hcls (hdigit c rfl), htake, hdrop]
    exact hread
  | punct t => exact iteration_punct h rest

/-- A lexeme is plain where the tokens begin with its token, and where a comment is removed by the
iteration that begins at it. -/
theorem plain_of_tokens (hcls : cls.Python) (h : l.At rest)
    (hrest : ∀ c ∈ rest.head?, c.toNat < 128)
    (hread : tokenizeChars cls (l.text ++ rest) = .ok (l.token.toList ++ ts))
    (hcomment : l.IsComment → iteration cls (l.text ++ rest) = .ok (none, rest)) :
    PlainLexeme l rest := by
  obtain ⟨t, rest', ts', hit, -, hts⟩ := tokenizeChars_eq_ok hcls hread
  cases l with
  | lineComment body => trivial
  | directive body => trivial
  | name text => trivial
  | punct t => trivial
  | white c =>
    rintro rfl
    cases (iteration_stray hcls (by decide) rest).symm.trans hit
  | blockComment body =>
    intro hslash
    obtain ⟨body, rfl⟩ := List.head?_eq_some_iff.mp hslash
    have hblock : iteration cls ('/' :: '*' :: '/' :: (body ++ ['*', '/'] ++ rest)) =
        .ok (none, body ++ ['*', '/'] ++ rest) := iteration_block hcls rfl
    -- the end that is found is the beginning of the comment
    have hleft : body ++ ['*', '/'] ++ rest = rest :=
      (Prod.ext_iff.mp (Except.ok.inj (hblock.symm.trans (hcomment trivial)))).2
    have hlength := congrArg List.length hleft
    simp only [List.length_append, List.length_cons] at hlength
    omega
  | escName text stop =>
    intro hstop
    have hread : iteration cls ('\\' :: (text ++ stop.toList ++ rest)) = .ok (t, rest') := hit
    rw [iteration_escape] at hread
    obtain ⟨rfl, -⟩ := Prod.ext_iff.mp (Except.ok.inj hread)
    have htoken := (List.cons.inj hts).1
    have htake : text = (text ++ (stop.toList ++ rest)).takeWhile fun d => !isBlank d := by
      rw [← List.append_assoc]
      exact String.ofList_injective (Token.escId.inj htoken)
    have hblank := (takeWhile_eq_iff.mp htake.symm).2 '\x0c'
    rw [h.head?_escName] at hblank
    exact absurd (hblank hstop) (by decide)
  | number text =>
    obtain ⟨c, cs, rfl, hc⟩ := numbers_le_begins h.1
    have hdigit : c.isDigit := by
      refine hc.resolve_right ?_
      rintro rfl
      cases (iteration_stray hcls (by decide) (cs ++ rest)).symm.trans hit
    have hread : iteration cls (c :: (cs ++ rest)) = .ok (t, rest') := hit
    rw [iteration_digit hcls hdigit] at hread
    obtain ⟨rfl, -⟩ := Prod.ext_iff.mp (Except.ok.inj hread)
    have htoken := (List.cons.inj hts).1
    have htake : (c :: cs ++ rest).takeWhile (inNumber cls) = c :: cs :=
      (String.ofList_injective (Token.num.inj htoken)).symm
    refine ⟨?_, (takeWhile_number_iff hcls h hrest).mp htake⟩
    rintro d hd
    cases hd
    exact hdigit

theorem filterMap_token_cons (l : Lexeme) (ls : List Lexeme) :
    (l :: ls).filterMap Lexeme.token = l.token.toList ++ ls.filterMap Lexeme.token := by
  rw [List.filterMap_cons]
  cases l.token <;> rfl

/-- The text of lexemes begins with a character of ASCII. -/
theorem isAscii_head_textOf (h : Lexes ls) : ∀ c ∈ (textOf ls).head?, c.toNat < 128 := by
  cases ls with
  | nil =>
    intro c hc
    cases hc
  | cons l ls =>
    obtain ⟨d, cs, hcs, hd, -⟩ := h.1.head
    rw [textOf_cons, hcs]
    rintro c hc
    cases hc
    exact hd

/-- The tokens of plain lexemes are returned. -/
theorem tokenizeChars_textOf (hcls : cls.Python) (h : Lexes ls) (hplain : Along PlainLexeme ls) :
    tokenizeChars cls (textOf ls) = .ok (ls.filterMap Lexeme.token) := by
  induction ls with
  | nil => rfl
  | cons l ls ih =>
    have hit := iteration_of_plain hcls h.1 hplain.1 (isAscii_head_textOf h.2)
    rw [textOf_cons, tokenizeChars_eq hcls hit, ih h.2 hplain.2, filterMap_token_cons]
    rfl

/-- Plain lexemes are removed by the iterations that begin at them, if they are comments. -/
theorem comments_of_plain (hcls : cls.Python) (h : Lexes ls) (hplain : Along PlainLexeme ls) :
    Along (fun l rest => l.IsComment → iteration cls (l.text ++ rest) = .ok (none, rest)) ls := by
  induction ls with
  | nil => trivial
  | cons l ls ih =>
    refine ⟨fun hcomment => ?_, ih h.2 hplain.2⟩
    have hnone : l.token = none := by
      cases l <;> first | rfl | exact hcomment.elim
    rw [iteration_of_plain hcls h.1 hplain.1 (isAscii_head_textOf h.2), hnone]

/-- Lexemes are plain where their tokens are returned and their comments removed. -/
theorem plain_of_faithful (hcls : cls.Python) (h : Lexes ls)
    (hread : tokenizeChars cls (textOf ls) = .ok (ls.filterMap Lexeme.token))
    (hcomments : Along (fun l rest => l.IsComment →
      iteration cls (l.text ++ rest) = .ok (none, rest)) ls) : Along PlainLexeme ls := by
  induction ls with
  | nil => trivial
  | cons l ls ih =>
    have hrest := isAscii_head_textOf h.2
    rw [textOf_cons, filterMap_token_cons] at hread
    have hplain := plain_of_tokens hcls h.1 hrest hread hcomments.1
    refine ⟨hplain, ih h.2 ?_ hcomments.2⟩
    -- the iteration at the lexeme leaves the text of the others, with their tokens
    rw [tokenizeChars_eq hcls (iteration_of_plain hcls h.1 hplain hrest)] at hread
    obtain ⟨ts, hts, heq⟩ := bind_eq_ok hread
    rw [hts, List.append_cancel_left (Except.ok.inj heq)]

end Lexemes

/-! ### Printing -/

section Printing

variable {cls : CharClass} {t : Token} {ts : List Token} {cs rest : List Char}

theorem inNumber_blank (hcls : cls.Python) : inNumber cls ' ' = false :=
  (inNumber_eq hcls (by decide)).trans (by decide)

theorem inName_blank (hcls : cls.Python) : inName cls ' ' = false :=
  (inName_eq hcls (by decide)).trans (by decide)

theorem source_escId (text : List Char) :
    (Token.escId (String.ofList text)).source = '\\' :: text :=
  congrArg ('\\' :: ·) String.toList_ofList

theorem source_num (text : List Char) : (Token.num (String.ofList text)).source = text :=
  String.toList_ofList

theorem source_id (text : List Char) : (Token.id (String.ofList text)).source = text :=
  String.toList_ofList

/-- A token that an iteration appends is read again in front of a blank. -/
theorem iteration_source (hcls : cls.Python) (h : iteration cls cs = .ok (some t, rest))
    (rest' : List Char) : ∃ left, iteration cls (t.source ++ ' ' :: rest') = .ok (some t, left) ∧
      (left = rest' ∨ left = ' ' :: rest') := by
  cases cs with
  | nil => cases h
  | cons c cs =>
    rcases eq_or_ne c '\\' with rfl | hescape
    · rw [iteration_escape] at h
      cases h
      have htake := takeWhile_takeWhile_append (p := fun d => !isBlank d) (c := ' ') rfl cs rest'
      refine ⟨rest', ?_, .inl rfl⟩
      rw [source_escId, List.cons_append, iteration_escape, htake, dropWhile_eq htake]
      rfl
    cases hlookup : punctuation.lookup c with
    | some p =>
      simp only [iteration, hlookup, hescape, if_false] at h
      split_ifs at h
      · cases h
      · cases h
        have hpunct : t ∈ punctuation.map Prod.snd :=
          List.mem_map.mpr ⟨(c, t), Dict.mem_of_lookup hlookup, rfl⟩
        have hsource : ∀ t ∈ punctuation.map Prod.snd, t.source = t.text.toList := by decide
        refine ⟨_, ?_, .inr rfl⟩
        rw [hsource t hpunct]
        exact iteration_punct hpunct _
    | none =>
      simp only [iteration, hlookup, hescape, if_false] at h
      split_ifs at h with hblank hdigit hletter
      · cases h
      · cases h
        have hc : inNumber cls c = true := by rw [inNumber, hdigit, Bool.true_or]
        have htake := takeWhile_takeWhile_append (inNumber_blank hcls) (c :: cs) rest'
        have hdrop := dropWhile_eq htake
        rw [List.takeWhile_cons_of_pos hc, List.cons_append] at htake hdrop
        rw [List.dropWhile_cons_of_pos hc] at hdrop
        refine ⟨' ' :: rest', ?_, .inr rfl⟩
        rw [source_num, List.takeWhile_cons_of_pos hc, List.cons_append,
          iteration_num (Bool.eq_false_iff.mpr hblank) hescape hlookup hdigit, htake, hdrop]
      · cases h
        have hc := inName_of_begins hcls hletter
        have htake := takeWhile_takeWhile_append (inName_blank hcls) (c :: cs) rest'
        have hdrop := dropWhile_eq htake
        rw [List.takeWhile_cons_of_pos hc, List.cons_append] at htake hdrop
        refine ⟨' ' :: rest', ?_, .inr rfl⟩
        rw [source_id, List.takeWhile_cons_of_pos hc, List.cons_append,
          iteration_id (Bool.eq_false_iff.mpr hblank) hescape hlookup
            (Bool.eq_false_iff.mpr hdigit) hletter, htake, hdrop]
      · cases h
      · split at h <;> cases h
      · cases h

/-- The tokens that are returned have been appended by iterations. -/
theorem exists_iteration_of_mem (hcls : cls.Python) (h : tokenizeChars cls cs = .ok ts)
    (ht : t ∈ ts) : ∃ cs rest, iteration cls cs = .ok (some t, rest) := by
  induction hn : cs.length using Nat.strong_induction_on generalizing cs ts with
  | _ n ih =>
  cases cs with
  | nil =>
    cases h
    cases ht
  | cons c cs =>
    obtain ⟨t', rest, ts', hit, hrest, rfl⟩ := tokenizeChars_eq_ok hcls h
    rcases List.mem_append.mp ht with ht | ht
    · rw [Option.mem_toList] at ht
      exact ⟨c :: cs, rest, ht ▸ hit⟩
    · have hlength := length_iteration hcls hit
      rw [List.length_cons] at hn
      exact ih rest.length (by omega) hrest ht rfl

/-- A token is read in front of the tokens behind it. -/
theorem tokenizeChars_source (hcls : cls.Python) (ht : Returned cls t) :
    tokenizeChars cls (t.source ++ ' ' :: rest) =
      (do return t :: (← tokenizeChars cls rest)) := by
  obtain ⟨src, ts, hts, ht⟩ := ht
  obtain ⟨cs, rest', hit⟩ := exists_iteration_of_mem hcls hts ht
  obtain ⟨left, hread, hleft⟩ := iteration_source hcls hit rest
  have hsame : tokenizeChars cls left = tokenizeChars cls rest := by
    rcases hleft with rfl | rfl
    · rfl
    · rw [tokenizeChars_eq hcls (iteration_blank rfl)]
      cases tokenizeChars cls rest <;> rfl
  rw [tokenizeChars_eq hcls hread, hsame]
  rfl

/-- Printed tokens are read back. -/
theorem tokenize_printed (hcls : cls.Python) (h : ∀ t ∈ ts, Returned cls t) :
    tokenize cls (printed ts) = .ok ts := by
  change tokenizeChars cls (printed ts).toList = .ok ts
  rw [printed, String.toList_ofList]
  induction ts with
  | nil => rfl
  | cons t ts ih =>
    obtain ⟨ht, hts⟩ := List.forall_mem_cons.mp h
    rw [List.flatMap_cons, List.append_assoc, List.singleton_append, tokenizeChars_source hcls ht,
      ih hts]
    rfl

end Printing

/-! ### The tokenizer -/

/-- The tokenizer is faithful on the texts with plain lexemes, and reads printed tokens back. -/
theorem faithful_iff {cls : CharClass} (hcls : cls.Python) :
    (∀ src ls, src.toList = textOf ls → Lexes ls →
      (Faithful cls src ls ↔ Along PlainLexeme ls)) ∧
    ∀ ts, (∀ t ∈ ts, Returned cls t) → tokenize cls (printed ts) = .ok ts := by
  refine ⟨fun src ls hsrc hls => ?_, fun ts hts => tokenize_printed hcls hts⟩
  have htokens : tokenize cls src = tokenizeChars cls (textOf ls) := by
    rw [← hsrc]
    rfl
  constructor
  · intro hfaithful
    exact plain_of_faithful hcls hls (htokens.symm.trans hfaithful.tokens) hfaithful.comments
  · intro hplain
    exact ⟨htokens.trans (tokenizeChars_textOf hcls hls hplain), comments_of_plain hcls hls hplain⟩

theorem python_ascii : CharClass.ascii.Python where
  ascii := fun _ _ => ⟨rfl, rfl, rfl⟩
  alnum := fun _ hc => isAlphanum_of_isAlpha hc

/-- A name, a comment, a constant and a semicolon. -/
theorem faithful_iff_constant :
    Faithful .ascii "a1/*b*/1'b0;" [.name "a1".toList, .blockComment "b".toList,
      .number "1'b0".toList, .punct .semi] ∧
    tokenize .ascii (printed [.id "a1", .num "1'b0", .semi]) =
      .ok [.id "a1", .num "1'b0", .semi] := by
  have hname : ['a', '1'] ∈ names := Or.inl (mem_word.mpr ⟨'a', ['1'], rfl, by decide, by decide⟩)
  have hcomment : Free ['*', '/'] ['b'] := by decide
  have hsize : ['1'] ∈ size := mem_word.mpr ⟨'1', [], rfl, by decide, List.forall_mem_nil _⟩
  have hbase : ['\x27', 'b'] ∈ base "bB" :=
    Language.append_mem_mul (a := ['\x27']) (b := ['b'])
      (Language.append_mem_mul (a := ['\x27']) (b := []) ⟨'\x27', rfl, rfl⟩ (Or.inl rfl))
      ⟨'b', by unfold among; decide, rfl⟩
  have hdigits : ['0'] ∈ digits (among "01xXzZ?") :=
    mem_word.mpr ⟨'0', [], rfl, by unfold among; decide, List.forall_mem_nil _⟩
  have hbased : ['1', '\x27', 'b', '0'] ∈ based :=
    Language.append_mem_mul (a := ['1']) (b := ['\x27', 'b', '0']) (Or.inr hsize)
      (Or.inl (Or.inl (Or.inr
        (Language.append_mem_mul (a := ['\x27', 'b']) (b := ['0']) hbase hdigits))))
  have hnumber : (Lexeme.number ['1', '\x27', 'b', '0']).At [';'] :=
    longest_of_within (Or.inl (Or.inr hbased)) numbers_le_within (by decide)
  have hpunct : (Lexeme.punct .semi).At [] := by
    change Token.semi ∈ punctuation.map Prod.snd
    decide
  have hlexes : Lexes [.name "a1".toList, .blockComment "b".toList, .number "1'b0".toList,
      .punct .semi] :=
    ⟨Lexeme.at_name_iff.mpr ⟨hname, by decide⟩, hcomment, hnumber, hpunct, trivial⟩
  have hcomment' : ['b'].head? ≠ some '/' := by decide
  have hreturned : ∀ t ∈ [Token.id "a1", .num "1'b0", .semi], Returned .ascii t :=
    fun t ht => ⟨"a1 1'b0;", _, by decide, ht⟩
  exact ⟨((faithful_iff python_ascii).1 _ _ (by decide) hlexes).mpr
    ⟨trivial, hcomment', ⟨by decide, by decide, by decide⟩, trivial, trivial⟩,
    (faithful_iff python_ascii).2 _ hreturned⟩

/-- The slash behind its beginning ends a comment, and another begins within it. -/
theorem not_faithful : ¬ ∀ (src : String) (ls : List Lexeme), src.toList = textOf ls → Lexes ls →
    Faithful .ascii src ls := by
  intro h
  have hletter {c : Char} {rest : List Char} (hc : c.isAlpha)
      (hrest : ∀ c ∈ rest.head?, ¬ isNameChar c) : (Lexeme.name [c]).At rest :=
    Lexeme.at_name_iff.mpr
      ⟨Or.inl (mem_word.mpr ⟨c, [], rfl, Or.inl hc, List.forall_mem_nil _⟩), hrest⟩
  have hcomment : Free ['*', '/'] "/ a // ".toList := by decide
  have hread : tokenize .ascii "/*/ a // */ b\nc" = .ok [.id "a", .id "c"] := by decide
  have hfaithful := h "/*/ a // */ b\nc" [.blockComment "/ a // ".toList, .white ' ', .name ['b'],
    .white '\n', .name ['c']] (by decide)
    ⟨hcomment, rfl, hletter rfl (by decide), rfl, hletter rfl (by decide), trivial⟩
  have htokens := hfaithful.tokens
  rw [hread] at htokens
  exact absurd htokens (by decide)

end Saltworks.Sim
