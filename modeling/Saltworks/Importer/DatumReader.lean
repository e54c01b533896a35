import Saltworks.Data.Decimal
import Saltworks.Data.Text
import Saltworks.Importer.ToLean
import Saltworks.Importer.TopModule

/-!
# Reading the emitted file

The readback check reads the gates and the outputs back from the file. It looks for the definition
of the datum at the beginning of a line. Where this joins chunks, it reads each chunk at its own
definition; else it reads the first literal of the file.

## Main definitions

* `datumBody`, `readGates`, `readOuts`: the gates and the outputs.
* `readDatum`: the datum of a file.

## Main results

* `readGates_literalText`: the gates are read from their lines.
* `afterDef_defHead`, `afterDef_eq_none`: a definition is found at its head, and no other one is.
-/

namespace Saltworks.Importer

open Silicon Text

/-! ### The reader -/

/-- The ways in which the reader stops: a chunk without a definition, an exception, or a text that
is not among those that are written. -/
inductive Unread where
  | noChunk (name : List Char)
  | indexError
  | attributeError
  | foreign
  deriving Repr, DecidableEq

/-- The text behind the head of a definition with the given name. A name that begins with white
space is not met with. -/
def afterDef (name : List Char) (cs : List Char) : Option (List Char) := do
  let cs ← afterPrefix "def".toList cs
  if ¬ cs.head?.any isSpace then none
  else do
    let cs ← afterPrefix name (cs.dropWhile isSpace)
    let cs ← afterPrefix ":".toList (cs.dropWhile isSpace)
    let cs ← afterPrefix "SaltWorks.Silicon.Netlist".toList (cs.dropWhile isSpace)
    let cs ← afterPrefix ":=".toList (cs.dropWhile isSpace)
    return cs.dropWhile isSpace

/-- The rest of the line of a definition. -/
def defLine (name : List Char) (cs : List Char) : Option (List Char) := do
  let rest ← afterDef name cs
  if rest = [] then none else some (rest.takeWhile (· ≠ '\n'))

/-- The text behind the line of a definition by a literal. -/
def defLiteral (name : List Char) (cs : List Char) : Option (List Char) := do
  afterPrefix "[\n".toList (← afterDef name cs)

/-- The text of a literal. -/
def literal (block : List Char) : List Char :=
  match splitFirst "\n]".toList block with
  | some (x, _) => x
  | none => block

/-- The pattern in front of the first literal. -/
def literalStart : List Char := "Netlist := [".toList

/-- The pattern in front of the outputs. -/
def outsStart : List Char := "_outs : List Nat := [".toList

/-- The lines of a chunk. -/
def chunkBody (src name : List Char) : Except Unread (List Char) :=
  match firstLine (defLiteral name) src with
  | some block => .ok (literal block)
  | none => .error (.noChunk name)

/-- The lines of the gates. -/
def datumBody (src name : List Char) : Except Unread (List Char) :=
  match (firstLine (defLine name) src).filter fun line => "++".toList <:+: line with
  | some line => do
    let bodies ← ((pieces "++".toList line).map strip).mapM (chunkBody src)
    return ",\n".toList.intercalate bodies
  | none => match behind literalStart src with
    | some block => .ok (literal block)
    | none => .error .indexError

/-- The operator and the operands of a line. -/
def readLine (line : List Char) : Except Unread (List Char × List (List Char)) :=
  match words (strip line) with
  | [] => .error .indexError
  | t :: ts => .ok (t.dropWhile (· = '.'), ts)

/-- A number in decimal digits. -/
def readNumber (digits : List Char) : Except Unread ℕ :=
  match intOf (String.ofList digits) with
  | some n => .ok n
  | none => .error .foreign

/-- The gate of an operator and its operands, as the check evaluates them. -/
def readGate : List Char × List (List Char) → Except Unread Gate
  | (op, args) => do
    let operand (k : ℕ) : Except Unread (List Char) :=
      match args[k]? with
      | some a => .ok a
      | none => .error .indexError
    if op = "inp".toList then return .inp (← readNumber (← operand 0))
    else if op = "const".toList then return .const ((← operand 0) = "true".toList)
    else if op = "not".toList then return .not (← readNumber (← operand 0))
    else if op = "and".toList then
      return .and (← readNumber (← operand 0)) (← readNumber (← operand 1))
    else if op = "or".toList then
      return .or (← readNumber (← operand 0)) (← readNumber (← operand 1))
    else if op = "xor".toList then
      return .xor (← readNumber (← operand 0)) (← readNumber (← operand 1))
    else throw .foreign

/-- The gates of the lines. -/
def readGates (body : List Char) : Except Unread Netlist :=
  (pieces ",\n".toList (strip body)).mapM fun line => do readGate (← readLine line)

/-- The outputs: the first list of the file that is bound to a name in `_outs`. -/
def readOuts (src : List Char) : Except Unread (List ℕ) :=
  match behind outsStart src with
  | none => .error .attributeError
  | some rest =>
    if ']' ∉ rest then .error .attributeError
    else
      let inside := rest.takeWhile (· ≠ ']')
      if inside = [] then .ok []
      else (pieces ", ".toList inside).mapM readNumber

/-- The datum of a file. -/
def readDatum (name src : String) : Except Unread Datum := do
  let gates ← readGates (← datumBody src.toList name.toList)
  return ⟨gates, ← readOuts src.toList⟩

/-! ### Gates -/

/-- The operator of a gate. -/
def gateOp : Gate → List Char
  | .inp _ => "inp".toList
  | .const _ => "const".toList
  | .not _ => "not".toList
  | .and _ _ => "and".toList
  | .or _ _ => "or".toList
  | .xor _ _ => "xor".toList

/-- The operands of a gate. -/
def gateArgs : Gate → List (List Char)
  | .inp a | .not a => [(toString a).toList]
  | .const b => [(if b then "true" else "false").toList]
  | .and a b | .or a b | .xor a b => [(toString a).toList, (toString b).toList]

/-- The words of the line of a gate. -/
def gateWords (g : Gate) : List (List Char) := ('.' :: gateOp g) :: gateArgs g

/-- The line of a gate without the blanks in front. -/
def gateText (g : Gate) : List Char := [' '].intercalate (gateWords g)

section Gates

variable {g : Gate} {gs : Netlist} {c : Char}

theorem isSpace_isAlphanum (hc : c.isAlphanum) : isSpace c = false := by
  rw [← Bool.not_eq_true]
  intro hspace
  have hspaces : ∀ n ∈ [0x09, 0x0a, 0x0b, 0x0c, 0x0d, 0x1c, 0x1d, 0x1e, 0x1f, 0x20, 0x85, 0xa0,
      0x1680, 0x2000, 0x2001, 0x2002, 0x2003, 0x2004, 0x2005, 0x2006, 0x2007, 0x2008, 0x2009,
      0x200a, 0x2028, 0x2029, 0x202f, 0x205f, 0x3000], (Char.ofNat n).isAlphanum = false := by
    decide
  have hmem := hspaces _ (List.contains_iff_mem.mp hspace)
  rw [Char.ofNat_toNat, hc] at hmem
  cases hmem

theorem toString_isDigit {n : ℕ} (hc : c ∈ (toString n).toList) : c.isDigit := by
  rw [Nat.toString_eq_repr, Nat.toList_repr] at hc
  exact Nat.isDigit_of_mem_toDigits (by decide) (by decide) hc

theorem toString_isAlphanum {n : ℕ} (hc : c ∈ (toString n).toList) : c.isAlphanum := by
  rw [Char.isAlphanum, toString_isDigit hc, Bool.or_true]

theorem notMem_toString {n : ℕ} (hc : c.isDigit = false) : c ∉ (toString n).toList := by
  intro hmem
  rw [toString_isDigit hmem] at hc
  cases hc

theorem isSpace_toString {n : ℕ} (hc : c ∈ (toString n).toList) : isSpace c = false :=
  isSpace_isAlphanum (toString_isAlphanum hc)

theorem toString_ne_nil (n : ℕ) : (toString n).toList ≠ [] := by
  rw [Nat.toString_eq_repr, Nat.toList_repr]
  exact Nat.toDigits_ne_nil

theorem gateOp_isAlphanum (g : Gate) : ∀ c ∈ gateOp g, c.isAlphanum := by
  cases g with
  | inp | const | not | and | or | xor => simp only [gateOp]; decide

theorem gateArgs_isAlphanum (g : Gate) : ∀ w ∈ gateArgs g, w ≠ [] ∧ ∀ c ∈ w, c.isAlphanum := by
  have hnum (n : ℕ) : (toString n).toList ≠ [] ∧ ∀ c ∈ (toString n).toList, c.isAlphanum :=
    ⟨toString_ne_nil n, fun c hc => toString_isAlphanum hc⟩
  cases g with
  | inp a | not a => exact List.forall_mem_singleton.mpr (hnum a)
  | const b => cases b <;> decide
  | and a b | or a b | xor a b =>
    exact List.forall_mem_cons.mpr ⟨hnum a, List.forall_mem_singleton.mpr (hnum b)⟩

theorem gateWords_isWord (g : Gate) : ∀ w ∈ gateWords g, IsWord w := by
  refine List.forall_mem_cons.mpr ⟨⟨List.cons_ne_nil _ _, ?_⟩, fun w hw => ?_⟩
  · exact List.forall_mem_cons.mpr ⟨by decide, fun c hc =>
      isSpace_isAlphanum (gateOp_isAlphanum g c hc)⟩
  · obtain ⟨hne, halnum⟩ := gateArgs_isAlphanum g w hw
    exact ⟨hne, fun c hc => isSpace_isAlphanum (halnum c hc)⟩

theorem gateLine_toList (g : Gate) : (gateLine g).toList = "  ".toList ++ gateText g := by
  cases g with
  | const b => cases b <;> rfl
  | inp | not | and | or | xor => simp [gateLine, gateText, gateWords, gateOp, gateArgs]

/-- The characters of a gate are letters and digits, dots and blanks. -/
theorem notMem_gateText (halnum : c.isAlphanum = false) (hdot : c ≠ '.') (hblank : c ≠ ' ') :
    c ∉ gateText g := by
  have hne {w : List Char} (hw : ∀ c ∈ w, c.isAlphanum) : c ∉ w := by
    intro hc
    rw [hw c hc] at halnum
    cases halnum
  intro hc
  rcases mem_intercalate hc with hc | ⟨w, hw, hc⟩
  · exact hblank (List.mem_singleton.mp hc)
  · rcases List.mem_cons.mp hw with rfl | hw
    · rcases List.mem_cons.mp hc with hc | hc
      · exact hdot hc
      · exact hne (gateOp_isAlphanum g) hc
    · exact hne (gateArgs_isAlphanum g w hw).2 hc

theorem readNumber_toString (n : ℕ) : readNumber (toString n).toList = .ok n := by
  rw [readNumber, String.ofList_toList, intOf_toString]

/-- A gate is read from its operator and its operands. -/
theorem readGate_gateOp (g : Gate) : readGate (gateOp g, gateArgs g) = .ok g := by
  cases g with
  | const b => cases b <;> decide
  | inp a | not a =>
    rw [readGate, gateOp, gateArgs]
    simp only [List.getElem?_cons_zero, bind, Except.bind, readNumber_toString]
    rfl
  | and a b | or a b | xor a b =>
    rw [readGate, gateOp, gateArgs]
    simp only [List.getElem?_cons_zero, List.getElem?_cons_succ, bind, Except.bind,
      readNumber_toString]
    rfl

theorem gateText_head? (g : Gate) : (gateText g).head? = some '.' := by
  rw [gateText, gateWords, head?_intercalate (List.cons_ne_nil _ _)]
  rfl

theorem gateText_getLast? (g : Gate) : ∀ c ∈ (gateText g).getLast?, isSpace c = false :=
  getLast?_intercalate fun w hw => ⟨(gateWords_isWord g w hw).1, fun c hc =>
    (gateWords_isWord g w hw).2 c (List.mem_of_getLast? hc)⟩

theorem gateText_ne_nil (g : Gate) : gateText g ≠ [] := by
  intro hnil
  have hhead := gateText_head? g
  rw [hnil] at hhead
  cases hhead

/-- A gate is read from its line. -/
theorem readLine_gateText (g : Gate) {front : List Char} (hfront : ∀ c ∈ front, isSpace c) :
    (readLine (front ++ gateText g) >>= readGate) = .ok g := by
  have hdrop : ('.' :: gateOp g).dropWhile (· = '.') = gateOp g := by
    cases g with
    | inp | const | not | and | or | xor => simp only [gateOp]; decide
  have hstrip : strip (front ++ gateText g) = gateText g := by
    refine strip_append hfront ?_ (gateText_getLast? g) (gateText_ne_nil g)
    rw [gateText_head?]
    rintro c ⟨⟩
    decide
  rw [readLine, hstrip, gateText, words_intercalate (gateWords_isWord g), gateWords]
  simp only [hdrop]
  exact readGate_gateOp g

/-- The lines of gates as the members of a literal. -/
theorem literalText_toList (gs : Netlist) : (literalText (gs.map gateLine)).toList =
    ",\n".toList.intercalate (gs.map fun g => "  ".toList ++ gateText g) := by
  rw [literalText, String.toList_intercalate, List.map_map]
  exact congrArg _ (List.map_congr_left fun g _ => gateLine_toList g)

/-- The gates are read from their lines. -/
theorem readGates_literalText (hgs : gs ≠ []) {front : List Char}
    (hfront : ∀ c ∈ front, isSpace c) :
    readGates (front ++ (literalText (gs.map gateLine)).toList) = .ok gs := by
  obtain ⟨g, gs, rfl⟩ := List.exists_cons_of_ne_nil hgs
  have hblanks : ∀ c ∈ "  ".toList, isSpace c := by decide
  let lines := gateText g :: gs.map fun g => "  ".toList ++ gateText g
  have htext : front ++ (literalText ((g :: gs).map gateLine)).toList =
      (front ++ "  ".toList) ++ ",\n".toList.intercalate lines := by
    rw [literalText_toList, List.map_cons, List.append_assoc]
    cases gs <;> simp [lines]
  have hstrip : strip ((front ++ "  ".toList) ++ ",\n".toList.intercalate lines) =
      ",\n".toList.intercalate lines := by
    have hhead : (",\n".toList.intercalate lines).head? = some '.' :=
      (head?_intercalate (gateText_ne_nil g)).trans (gateText_head? g)
    refine strip_append (List.forall_mem_append.mpr ⟨hfront, hblanks⟩) ?_
      (getLast?_intercalate (List.forall_mem_cons.mpr
        ⟨⟨gateText_ne_nil g, gateText_getLast? g⟩, ?_⟩)) ?_
    · rw [hhead]
      rintro c ⟨⟩
      decide
    · rw [List.forall_mem_map]
      intro g' _
      refine ⟨List.append_ne_nil_of_right_ne_nil _ (gateText_ne_nil g'), ?_⟩
      rw [List.getLast?_append_of_ne_nil _ (gateText_ne_nil g')]
      exact gateText_getLast? g'
    · intro hnil
      rw [hnil] at hhead
      cases hhead
  have hlines : ∀ x ∈ lines, '\n' ∉ x := by
    have hgate (g : Gate) : '\n' ∉ gateText g := notMem_gateText (by decide) (by decide) (by decide)
    refine List.forall_mem_cons.mpr ⟨hgate g, List.forall_mem_map.mpr fun g' _ => ?_⟩
    exact List.mem_append.not.mpr (not_or.mpr ⟨by decide, hgate g'⟩)
  have hpieces : pieces ",\n".toList (",\n".toList.intercalate lines) = lines := by
    refine pieces_intercalate (by decide) (List.cons_ne_nil _ _) fun x hx => ?_
    have hlast : (x ++ ",\n".toList).dropLast = x ++ [','] := by
      rw [List.dropLast_append_of_ne_nil (by decide)]
      rfl
    rw [hlast]
    refine free_of_notMem (a := '\n') (by decide) ?_
    exact List.mem_append.not.mpr (not_or.mpr ⟨hlines x hx, by decide⟩)
  rw [htext, readGates, hstrip, hpieces]
  refine Fallible.mapM_of_forall₂ (.cons ?_ ?_)
  · exact @readLine_gateText g [] nofun
  · rw [List.forall₂_map_left_iff, List.forall₂_same]
    exact fun g' _ => readLine_gateText g' hblanks

end Gates

/-! ### Definitions -/

section Defs

variable {name name' rest : List Char} {x : List Char}

theorem afterPrefix_append (t cs : List Char) : afterPrefix t (t ++ cs) = some cs := by
  rw [afterPrefix, if_pos (List.isPrefixOf_iff_prefix.mpr (List.prefix_append t cs)),
    List.drop_left]

theorem afterPrefix_eq_none {t cs : List Char} (h : ¬ t <+: cs) : afterPrefix t cs = none := by
  rw [afterPrefix, if_neg (mt List.isPrefixOf_iff_prefix.mp h)]

theorem dropWhile_isSpace (h : ∀ c ∈ x.head?, isSpace c = false) : x.dropWhile isSpace = x := by
  cases x with
  | nil => rfl
  | cons c x => exact List.dropWhile_cons_of_neg (by rw [h c rfl]; exact Bool.false_ne_true)

theorem defHead_toList (nm : String) : (defHead nm).toList =
    "def ".toList ++ (nm.toList ++ " : SaltWorks.Silicon.Netlist := ".toList) := by
  rw [defHead, String.toList_append, String.toList_append, List.append_assoc]

theorem defHead_append (nm : String) (rest : List Char) : (defHead nm).toList ++ rest =
    "def".toList ++ (' ' :: (nm.toList ++ (' ' :: (":".toList ++ (' ' ::
      ("SaltWorks.Silicon.Netlist".toList ++ (' ' :: (":=".toList ++ (' ' :: rest))))))))) := by
  rw [defHead_toList, List.append_assoc, List.append_assoc]
  rfl

theorem dropWhile_blank (h : ∀ c ∈ x.head?, isSpace c = false) :
    (' ' :: x).dropWhile isSpace = x := by
  rw [List.dropWhile_cons_of_pos (by decide), dropWhile_isSpace h]

/-- The definition of a name is found at its head. -/
theorem afterDef_defHead {nm : String} (hnm : Unindented nm.toList)
    (hrest : ∀ c ∈ rest.head?, isSpace c = false) :
    afterDef nm.toList ((defHead nm).toList ++ rest) = some rest := by
  have hblank : isSpace ' ' := by decide
  have hfixed : ∀ x ∈ [":".toList, "SaltWorks.Silicon.Netlist".toList, ":=".toList],
      Unindented x := by decide
  rw [defHead_append, afterDef, afterPrefix_append]
  simp only [bind, Option.bind, List.head?_cons, Option.any_some, hblank, not_true_eq_false,
    if_false]
  rw [dropWhile_blank (hnm.append _).head?, afterPrefix_append]
  simp only
  rw [dropWhile_blank ((hfixed _ (by decide)).append _).head?, afterPrefix_append]
  simp only
  rw [dropWhile_blank ((hfixed _ (by decide)).append _).head?, afterPrefix_append]
  simp only
  rw [dropWhile_blank ((hfixed _ (by decide)).append _).head?, afterPrefix_append]
  simp only
  rw [dropWhile_blank hrest]
  rfl

/-- The definition of another name is not taken for it, where the two differ in a word behind what
they begin with. -/
theorem afterDef_eq_none {nm : String} {front u w : List Char} (hhead : Unindented nm.toList)
    (hnm : nm.toList = front ++ w) (hw : ∀ c ∈ w, isSpace c = false) (hcolon : ':' ∉ w)
    (hu : ' ' ∉ u) (hne : u ≠ w) :
    afterDef (front ++ u) ((defHead nm).toList ++ rest) = none := by
  have hblank : isSpace ' ' := by decide
  rw [defHead_append, afterDef, afterPrefix_append]
  simp only [bind, Option.bind, List.head?_cons, Option.any_some, hblank, not_true_eq_false,
    if_false]
  rw [dropWhile_blank (hhead.append _).head?, hnm, List.append_assoc]
  by_cases hpre : u <+: w
  · obtain ⟨z, rfl⟩ := hpre
    have hz : z ≠ [] := fun hz => hne (by rw [hz, List.append_nil])
    obtain ⟨c, z, rfl⟩ := List.exists_cons_of_ne_nil hz
    have hmem : c ∈ u ++ c :: z := List.mem_append_right _ List.mem_cons_self
    rw [List.append_assoc, ← List.append_assoc front, afterPrefix_append]
    simp only
    rw [List.cons_append, List.dropWhile_cons_of_neg (by simp [hw c hmem]), afterPrefix_eq_none]
    intro h
    exact hcolon ((List.cons_prefix_cons.mp h).1 ▸ hmem)
  · rw [afterPrefix_eq_none]
    rw [List.prefix_append_right_inj]
    exact fun h => hpre (prefix_of_notMem hu h)

theorem afterDef_of_not_prefix (h : ¬ "def".toList <+: x) : afterDef name x = none := by
  rw [afterDef, afterPrefix_eq_none h]
  rfl

end Defs

end Saltworks.Importer
