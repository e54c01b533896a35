import Mathlib.Data.List.Basic
import Mathlib.Data.List.DropRight
import Mathlib.Data.List.Infix
import Mathlib.Tactic.Common

/-!
# Searching and cutting texts

The functions of Python that search a text for a pattern and cut it up, on lists of characters.

* `splitFirst_append` cuts a text at the only place of a pattern, `behind_line` passes over the
  lines that do not show it.
* `pieces_intercalate` takes apart what has been joined.
* `firstLine_line` passes over the lines that do not match at their beginning.
* `Free.insert` and its relatives say that a pattern does not show in a text, by parts of the text.

## Main definitions

* `splitFirst`, `behind`, `pieces`: `split` with and without a limit.
* `firstLine`: the search of a pattern that is anchored at the beginning of a line.
* `isSpace`, `strip`, `words`: white space.
* `IsWord`, `Unindented`: no white space in a text, and none in front.
* `Free`: a pattern does not show in a text.
-/

namespace Text

/-- What holds of all characters of a text is decided along the text, in every module. -/
instance (priority := 2000) decidableForallMem (p : Char → Prop) [DecidablePred p]
    (text : List Char) : Decidable (∀ c ∈ text, p c) := List.decidableBAll p text

/-- What holds of the first character of a text is decided on it, in every module. -/
instance (priority := 2000) decidableForallHead (p : Char → Prop) [DecidablePred p]
    (text : List Char) : Decidable (∀ c ∈ text.head?, p c) :=
  decidable_of_iff (∀ c ∈ text.head?.toList, p c)
    (forall_congr' fun _ => imp_congr_left Option.mem_toList)

section Search

variable {α β : Type*} [DecidableEq α]

/-! ### Definitions -/

/-- The text in front of the first place of a pattern and the text behind it. -/
def splitFirst (p : List α) : List α → Option (List α × List α)
  | [] => if p = [] then some ([], []) else none
  | c :: cs =>
    if p <+: c :: cs then some ([], (c :: cs).drop p.length)
    else (splitFirst p cs).map fun s => (c :: s.1, s.2)

/-- The text behind the first place of a pattern. -/
def behind (p text : List α) : Option (List α) := (splitFirst p text).map Prod.snd

/-- The pieces of a text between the places of a pattern, behind the first `n` characters. -/
def piecesFrom (p : List α) : ℕ → List α → List (List α)
  | _, [] => [[]]
  | n + 1, _ :: cs => piecesFrom p n cs
  | 0, c :: cs =>
    if p <+: c :: cs then [] :: piecesFrom p (p.length - 1) cs
    else (piecesFrom p 0 cs).modifyHead (c :: ·)

/-- The pieces of a text between the places of a pattern. -/
def pieces (p text : List α) : List (List α) := piecesFrom p 0 text

/-- The pattern does not show in the text. -/
abbrev Free (p text : List α) : Prop := ¬ p <:+: text

/-! ### The first place of a pattern -/

variable {p x rest : List α} {a : α}

theorem splitFirst_prefix (hp : p ≠ []) (rest : List α) :
    splitFirst p (p ++ rest) = some ([], rest) := by
  obtain ⟨c, cs, hcs⟩ := List.exists_cons_of_ne_nil (List.append_ne_nil_of_left_ne_nil hp rest)
  rw [hcs, splitFirst, if_pos (hcs ▸ List.prefix_append p rest), ← hcs, List.drop_left]

/-- A text is cut at the first place of a pattern. -/
theorem splitFirst_append (hp : p ≠ []) (hx : Free p (x ++ p).dropLast) (rest : List α) :
    splitFirst p (x ++ (p ++ rest)) = some (x, rest) := by
  induction x with
  | nil => exact splitFirst_prefix hp rest
  | cons c x ih =>
    have hne : x ++ p ≠ [] := List.append_ne_nil_of_right_ne_nil x hp
    have hlast : (c :: x ++ p).dropLast = c :: (x ++ p).dropLast := by
      rw [List.cons_append, List.dropLast_cons_of_ne_nil hne]
    rw [hlast] at hx
    have hpre : ¬ p <+: c :: (x ++ (p ++ rest)) := by
      refine fun hpre => hx (List.IsPrefix.isInfix ?_)
      have hshort : c :: (x ++ p).dropLast <+: c :: (x ++ (p ++ rest)) := by
        rw [← List.append_assoc, List.prefix_cons_inj]
        exact (List.dropLast_prefix _).trans (List.prefix_append _ _)
      refine List.prefix_of_prefix_length_le hpre hshort ?_
      rw [List.length_cons, List.length_dropLast, List.length_append]
      omega
    rw [List.cons_append, splitFirst, if_neg hpre, ih fun h => hx (List.infix_cons h)]
    rfl

theorem splitFirst_eq_none (hp : p ≠ []) (h : Free p x) : splitFirst p x = none := by
  induction x with
  | nil => exact if_neg hp
  | cons c x ih =>
    rw [splitFirst, if_neg fun hpre => h hpre.isInfix, ih fun hx => h (List.infix_cons hx)]
    rfl

omit [DecidableEq α] in
theorem prefix_of_notMem (ha : a ∉ p) (h : p <+: x ++ a :: rest) : p <+: x := by
  induction x generalizing p with
  | nil =>
    cases p with
    | nil => exact List.nil_prefix
    | cons c p => exact absurd (List.cons_prefix_cons.mp h).1 (List.ne_of_not_mem_cons ha).symm
  | cons c x ih =>
    cases p with
    | nil => exact List.nil_prefix
    | cons d p =>
      obtain ⟨rfl, htail⟩ := List.cons_prefix_cons.mp h
      exact List.cons_prefix_cons.mpr ⟨rfl, ih (List.not_mem_of_not_mem_cons ha) htail⟩

/-- A text that does not show a pattern is passed over. -/
theorem behind_line (hp : p ≠ []) (ha : a ∉ p) (hx : Free p x) (rest : List α) :
    behind p (x ++ a :: rest) = behind p rest := by
  have hstep (c : α) (cs : List α) (hpre : ¬ p <+: c :: cs) : behind p (c :: cs) = behind p cs := by
    rw [behind, splitFirst, if_neg hpre, Option.map_map]
    rfl
  induction x with
  | nil =>
    exact hstep a rest fun hpre => hp (List.prefix_nil.mp (prefix_of_notMem (x := []) ha hpre))
  | cons c x ih =>
    have hpre : ¬ p <+: c :: (x ++ a :: rest) := fun hpre =>
      hx (prefix_of_notMem (x := c :: x) ha hpre).isInfix
    exact (hstep c _ hpre).trans (ih fun h => hx (List.infix_cons h))

/-! ### Pieces -/

theorem piecesFrom_drop (p l rest : List α) :
    piecesFrom p l.length (l ++ rest) = piecesFrom p 0 rest := by
  induction l with
  | nil => rfl
  | cons c l ih => exact ih

theorem pieces_eq (hp : p ≠ []) (text : List α) : pieces p text = match splitFirst p text with
    | some (x, rest) => x :: pieces p rest
    | none => [text] := by
  induction text with
  | nil =>
    rw [splitFirst, if_neg hp]
    rfl
  | cons c cs ih =>
    rw [pieces, piecesFrom, splitFirst]
    split_ifs with hpre
    · obtain ⟨rest, hrest⟩ := hpre
      obtain ⟨d, q, rfl⟩ := List.exists_cons_of_ne_nil hp
      rw [List.cons_append, List.cons_eq_cons] at hrest
      obtain ⟨rfl, rfl⟩ := hrest
      simp only [List.length_cons, Nat.add_sub_cancel, List.drop_succ_cons, List.drop_left]
      rw [piecesFrom_drop]
      rfl
    · change (pieces p cs).modifyHead (c :: ·) = _
      rw [ih]
      cases splitFirst p cs <;> rfl

/-- A text that has been joined from parts comes apart into them. -/
theorem pieces_intercalate (hp : p ≠ []) {parts : List (List α)} (hne : parts ≠ [])
    (hparts : ∀ x ∈ parts, Free p (x ++ p).dropLast) : pieces p (p.intercalate parts) = parts := by
  induction parts with
  | nil => exact absurd rfl hne
  | cons x parts ih =>
    obtain ⟨hx, hparts⟩ := List.forall_mem_cons.mp hparts
    cases parts with
    | nil =>
      have hfree : Free p x := by
        refine fun h => hx (h.trans (List.IsPrefix.isInfix ?_))
        obtain ⟨q, c, rfl⟩ := List.eq_nil_or_concat p |>.resolve_left hp
        rw [List.concat_eq_append, ← List.append_assoc, List.dropLast_concat]
        exact List.prefix_append x q
      rw [List.intercalate_singleton, pieces_eq hp, splitFirst_eq_none hp hfree]
    | cons y parts =>
      rw [List.intercalate_cons_cons, pieces_eq hp, List.append_assoc, splitFirst_append hp hx]
      simp only [ih (List.cons_ne_nil y parts) hparts]

/-! ### Texts that do not show a pattern -/

/-- A text that can stand between others: it does not show the pattern, no proper beginning of the
pattern ends it, and it is neither the beginning of a proper end of the pattern nor begins with
one. -/
structure Glue (p c : List α) : Prop where
  free : Free p c
  head : ∀ k < p.length, 0 < k → ¬ p.take k <:+ c
  tail : ∀ k < p.length, 0 < k → ¬ p.drop k <+: c ∧ ¬ c <+: p.drop k

instance (p c : List α) : Decidable (Glue p c) :=
  decidable_of_iff (Free p c ∧ (∀ k < p.length, 0 < k → ¬ p.take k <:+ c) ∧
    ∀ k < p.length, 0 < k → ¬ p.drop k <+: c ∧ ¬ c <+: p.drop k)
    ⟨fun h => ⟨h.1, h.2.1, h.2.2⟩, fun h => ⟨h.free, h.head, h.tail⟩⟩

section Free

omit [DecidableEq α]

variable {v c z : List α}

theorem free_nil (hp : p ≠ []) : Free p [] := fun h => hp (List.infix_nil.mp h)

theorem free_of_notMem (ha : a ∈ p) (hx : a ∉ x) : Free p x := fun h => hx (h.subset ha)

/-- The two parts of a pattern that shows across the border of two texts. -/
theorem infix_append_cases (h : p <:+: x ++ z) : p <:+: x ∨ p <:+: z ∨
    ∃ k < p.length, 0 < k ∧ p.take k <:+ x ∧ p.drop k <+: z := by
  rcases List.infix_append_iff_ne_nil.mp h with h | h | ⟨l₁, l₂, h₁, h₂, rfl, hx, hz⟩
  · exact .inl h
  · exact .inr (.inl h)
  · have hpos := List.length_pos_of_ne_nil h₁
    have hpos' := List.length_pos_of_ne_nil h₂
    refine .inr (.inr ⟨l₁.length, by rw [List.length_append]; omega, hpos, ?_, ?_⟩)
    · rwa [List.take_left]
    · rwa [List.drop_left]

theorem Free.const (hc : Glue p c) (hz : Free p z) : Free p (c ++ z) := by
  intro h
  rcases infix_append_cases h with h | h | ⟨k, hk, hpos, hx, -⟩
  · exact hc.free h
  · exact hz h
  · exact hc.head k hk hpos hx

/-- A text in front of one that can stand between others. -/
theorem Free.insert (hv : Free p v) (hc : Glue p c) (hz : Free p z) : Free p (v ++ (c ++ z)) := by
  intro h
  rcases infix_append_cases h with h | h | ⟨k, hk, hpos, -, hpre⟩
  · exact hv h
  · exact Free.const hc hz h
  · obtain ⟨hdrop, hpre'⟩ := hc.tail k hk hpos
    exact (List.prefix_or_prefix_of_prefix hpre (List.prefix_append c z)).elim hdrop hpre'

theorem Free.last (hv : Free p v) (hc : Free p c)
    (htail : ∀ k < p.length, 0 < k → ¬ p.drop k <+: c) : Free p (v ++ c) := by
  intro h
  rcases infix_append_cases h with h | h | ⟨k, hk, hpos, -, hpre⟩
  · exact hv h
  · exact hc h
  · exact htail k hk hpos hpre

/-- A character that the pattern does not have parts a text. -/
theorem Free.split (ha : a ∉ p) (hx : Free p x) (hz : Free p z) : Free p (x ++ a :: z) := by
  intro h
  rcases infix_append_cases h with h | h | ⟨k, hk, hpos, -, hpre⟩
  · exact hx h
  · rcases List.infix_cons_iff.mp h with h | h
    · exact hx ((prefix_of_notMem (x := []) ha h).isInfix.trans List.nil_infix)
    · exact hz h
  · have hnil := prefix_of_notMem (x := []) (fun hmem => ha (List.mem_of_mem_drop hmem)) hpre
    have hlength := congrArg List.length (List.prefix_nil.mp hnil)
    rw [List.length_drop, List.length_nil] at hlength
    omega

/-- A text that has been joined from parts by a character that the pattern does not have, and that
the pattern may follow. -/
theorem Free.intercalate (hp : p ≠ []) {sep : List α} (hsep : Glue p sep) {parts : List (List α)}
    (hparts : ∀ x ∈ parts, Free p x) : Free p (sep.intercalate parts) := by
  induction parts with
  | nil => exact free_nil hp
  | cons x parts ih =>
    obtain ⟨hx, hparts⟩ := List.forall_mem_cons.mp hparts
    cases parts with
    | nil => rwa [List.intercalate_singleton]
    | cons y parts =>
      rw [List.intercalate_cons_cons, List.append_assoc]
      exact hx.insert hsep (ih hparts)

/-! ### Joined texts -/

theorem mem_intercalate {sep : List α} {parts : List (List α)} (h : a ∈ sep.intercalate parts) :
    a ∈ sep ∨ ∃ x ∈ parts, a ∈ x := by
  induction parts with
  | nil => cases h
  | cons x parts ih =>
    cases parts with
    | nil =>
      rw [List.intercalate_singleton] at h
      exact .inr ⟨x, List.mem_cons_self, h⟩
    | cons y parts =>
      rw [List.intercalate_cons_cons, List.mem_append, List.mem_append] at h
      rcases h with (h | h) | h
      · exact .inr ⟨x, List.mem_cons_self, h⟩
      · exact .inl h
      · exact (ih h).imp_right fun ⟨z, hz, hmem⟩ => ⟨z, List.mem_cons_of_mem x hz, hmem⟩

/-- The last character of a joined text is the last one of its last part. -/
theorem getLast?_intercalate {P : α → Prop} {sep : List α} {parts : List (List α)}
    (hparts : ∀ x ∈ parts, x ≠ [] ∧ ∀ c ∈ x.getLast?, P c) :
    ∀ c ∈ (sep.intercalate parts).getLast?, P c := by
  induction parts with
  | nil => exact nofun
  | cons x parts ih =>
    obtain ⟨hx, hparts⟩ := List.forall_mem_cons.mp hparts
    cases parts with
    | nil =>
      rw [List.intercalate_singleton]
      exact hx.2
    | cons y parts =>
      have hne : sep.intercalate (y :: parts) ≠ [] := by
        have hy := (hparts y List.mem_cons_self).1
        cases parts with
        | nil => rwa [List.intercalate_singleton]
        | cons z parts =>
          rw [List.intercalate_cons_cons, List.append_assoc]
          exact List.append_ne_nil_of_left_ne_nil hy _
      rw [List.intercalate_cons_cons, List.getLast?_append_of_ne_nil _ hne]
      exact ih hparts

theorem head?_intercalate {sep : List α} {parts : List (List α)} (hx : x ≠ []) :
    (sep.intercalate (x :: parts)).head? = x.head? := by
  cases parts with
  | nil => rw [List.intercalate_singleton]
  | cons y parts =>
    rw [List.intercalate_cons_cons, List.append_assoc, List.head?_append_of_ne_nil _ hx]

theorem intercalate_append {sep : List α} {xs ys : List (List α)} (hxs : xs ≠ []) (hys : ys ≠ []) :
    sep.intercalate (xs ++ ys) = sep.intercalate xs ++ (sep ++ sep.intercalate ys) := by
  induction xs with
  | nil => exact absurd rfl hxs
  | cons x xs ih =>
    by_cases hnil : xs = []
    · rw [hnil, List.singleton_append, List.intercalate_cons_of_ne_nil hys,
        List.intercalate_singleton, List.append_assoc]
    · rw [List.cons_append, List.intercalate_cons_of_ne_nil (by simp [hnil]), ih hnil,
        List.intercalate_cons_of_ne_nil hnil]
      simp only [List.append_assoc]

/-- What is joined from joined texts is joined from all their parts. -/
theorem intercalate_map_intercalate {sep : List α} {parts : List (List (List α))}
    (hparts : ∀ xs ∈ parts, xs ≠ []) :
    sep.intercalate (parts.map sep.intercalate) = sep.intercalate parts.flatten := by
  induction parts with
  | nil => rfl
  | cons xs parts ih =>
    obtain ⟨hxs, hparts⟩ := List.forall_mem_cons.mp hparts
    cases parts with
    | nil => simp
    | cons ys parts =>
      have hys : (ys :: parts).flatten ≠ [] := by
        obtain ⟨y, ys, rfl⟩ := List.exists_cons_of_ne_nil (hparts ys List.mem_cons_self)
        simp
      rw [List.flatten_cons, intercalate_append hxs hys, ← ih hparts, List.map_cons, List.map_cons,
        List.intercalate_cons_cons, List.append_assoc]

end Free

end Search

/-! ### Lines -/

section Lines

variable {β : Type*} {m : List Char → Option β} {x : List Char}

/-- The first match at the beginning of a line. -/
def firstLineFrom (m : List Char → Option β) : Bool → List Char → Option β
  | start, [] => if start then m [] else none
  | start, c :: cs =>
    (if start then m (c :: cs) else none).or (firstLineFrom m (c = '\n') cs)

/-- The first match of a pattern that is anchored at the beginning of a line. -/
def firstLine (m : List Char → Option β) (text : List Char) : Option β := firstLineFrom m true text

theorem firstLineFrom_line (start : Bool) (hx : '\n' ∉ x) (rest : List Char) :
    firstLineFrom m start (x ++ '\n' :: rest) =
      (if start then m (x ++ '\n' :: rest) else none).or (firstLine m rest) := by
  induction x generalizing start with
  | nil => rfl
  | cons c x ih =>
    rw [List.mem_cons, not_or] at hx
    rw [List.cons_append, firstLineFrom, ih _ hx.2, decide_eq_false (Ne.symm hx.1)]
    rfl

theorem firstLine_line (hx : '\n' ∉ x) (rest : List Char) :
    firstLine m (x ++ '\n' :: rest) = (m (x ++ '\n' :: rest)).or (firstLine m rest) :=
  firstLineFrom_line true hx rest

/-- The lines of a text, each with its end. -/
def unlines (xs : List (List Char)) : List Char := xs.flatMap (· ++ ['\n'])

theorem unlines_append (xs ys : List (List Char)) : unlines (xs ++ ys) = unlines xs ++ unlines ys :=
  List.flatMap_append

theorem intercalate_lines (xs : List (List Char)) {ys : List (List Char)} (hys : ys ≠ []) :
    ['\n'].intercalate (xs ++ ys) = unlines xs ++ ['\n'].intercalate ys := by
  induction xs with
  | nil => rfl
  | cons x xs ih =>
    rw [List.cons_append, List.intercalate_cons_of_ne_nil (by simp [hys]), ih, unlines, unlines,
      List.flatMap_cons, List.append_assoc, List.append_assoc, List.append_assoc]

theorem behind_unlines {p : List Char} (hp : p ≠ []) (hline : '\n' ∉ p) {xs : List (List Char)}
    (hxs : ∀ x ∈ xs, Free p x) (rest : List Char) :
    behind p (unlines xs ++ rest) = behind p rest := by
  induction xs with
  | nil => rfl
  | cons x xs ih =>
    obtain ⟨hx, hxs⟩ := List.forall_mem_cons.mp hxs
    rw [unlines, List.flatMap_cons, List.append_assoc, List.append_assoc, List.singleton_append,
      behind_line hp hline hx]
    exact ih hxs

/-- No line of the text matches. -/
def Passes (m : List Char → Option β) (x : List Char) : Prop :=
  ∀ rest, firstLine m (x ++ '\n' :: rest) = firstLine m rest

theorem passes_line (hx : '\n' ∉ x) (hm : ∀ rest, m (x ++ '\n' :: rest) = none) : Passes m x := by
  intro rest
  rw [firstLine_line hx, hm]
  rfl

theorem Passes.append {y : List Char} (hx : Passes m x) (hy : Passes m y) :
    Passes m (x ++ '\n' :: y) := by
  intro rest
  rw [List.append_assoc, List.cons_append, hx, hy]

theorem firstLine_unlines {xs : List (List Char)} (hxs : ∀ x ∈ xs, Passes m x) (rest : List Char) :
    firstLine m (unlines xs ++ rest) = firstLine m rest := by
  induction xs with
  | nil => rfl
  | cons x xs ih =>
    obtain ⟨hx, hxs⟩ := List.forall_mem_cons.mp hxs
    rw [unlines, List.flatMap_cons, List.append_assoc, List.append_assoc, List.singleton_append, hx]
    exact ih hxs

end Lines

/-! ### White space -/

/-- The characters that Python counts as white space. -/
def isSpace (c : Char) : Bool :=
  [0x09, 0x0a, 0x0b, 0x0c, 0x0d, 0x1c, 0x1d, 0x1e, 0x1f, 0x20, 0x85, 0xa0, 0x1680, 0x2000, 0x2001,
    0x2002, 0x2003, 0x2004, 0x2005, 0x2006, 0x2007, 0x2008, 0x2009, 0x200a, 0x2028, 0x2029, 0x202f,
    0x205f, 0x3000].contains c.toNat

/-- `strip`. -/
def strip (text : List Char) : List Char := (text.dropWhile isSpace).rdropWhile isSpace

/-- `split` without a pattern: the words between white space. -/
def words (text : List Char) : List (List Char) := (text.splitOnP isSpace).filter (· ≠ [])

section Words

variable {text w : List Char} {c : Char}

theorem words_word (hw : ∀ c ∈ w, isSpace c = false) (hne : w ≠ []) (hc : isSpace c)
    (text : List Char) : words (w ++ c :: text) = w :: words text := by
  rw [words, List.splitOnP_append_cons_of_forall_mem hw c hc, List.filter_cons, if_pos (by simpa)]
  rfl

theorem words_single (hw : ∀ c ∈ w, isSpace c = false) (hne : w ≠ []) : words w = [w] := by
  rw [words, List.splitOnP_eq_singleton hw, List.filter_cons, if_pos (by simpa)]
  rfl

/-- What stripping leaves of a text between white space. -/
theorem strip_eq {front back : List Char} (hfront : ∀ c ∈ front, isSpace c)
    (hback : ∀ c ∈ back, isSpace c) (hhead : ∀ c ∈ text.head?, isSpace c = false)
    (hlast : ∀ c ∈ text.getLast?, isSpace c = false) (hne : text ≠ []) :
    strip (front ++ (text ++ back)) = text := by
  have hdrop : (front ++ (text ++ back)).dropWhile isSpace = text ++ back := by
    rw [List.dropWhile_append_of_pos hfront]
    obtain ⟨c, text, rfl⟩ := List.exists_cons_of_ne_nil hne
    exact List.dropWhile_cons_of_neg (by rw [hhead c rfl]; exact Bool.false_ne_true)
  have hrdrop : (text ++ back).rdropWhile isSpace = text.rdropWhile isSpace := by
    rw [List.rdropWhile, List.reverse_append, List.dropWhile_append_of_pos fun c hc =>
      hback c (List.mem_reverse.mp hc)]
    rfl
  rw [strip, hdrop, hrdrop, List.rdropWhile_eq_self_iff]
  intro hne hspace
  rw [hlast _ (List.getLast?_eq_some_getLast hne)] at hspace
  cases hspace

theorem strip_append {front : List Char} (hfront : ∀ c ∈ front, isSpace c)
    (hhead : ∀ c ∈ text.head?, isSpace c = false) (hlast : ∀ c ∈ text.getLast?, isSpace c = false)
    (hne : text ≠ []) : strip (front ++ text) = text := by
  have hstrip := @strip_eq text front [] hfront nofun hhead hlast hne
  rwa [List.append_nil] at hstrip

theorem notMem_of_isSpace {x : List Char} (hx : ∀ c ∈ x, isSpace c = false)
    (hc : isSpace c) : c ∉ x := by
  intro hmem
  rw [hx c hmem] at hc
  cases hc

/-- A text is a word: it is not empty and has no white space. -/
def IsWord (w : List Char) : Prop := w ≠ [] ∧ ∀ c ∈ w, isSpace c = false

instance (w : List Char) : Decidable (IsWord w) := inferInstanceAs (Decidable (_ ∧ _))

/-- Words that have been joined by blanks come apart into them. -/
theorem words_intercalate {ws : List (List Char)} (hws : ∀ w ∈ ws, IsWord w) :
    words ([' '].intercalate ws) = ws := by
  induction ws with
  | nil => rfl
  | cons w ws ih =>
    obtain ⟨⟨hne, hw⟩, hws⟩ := List.forall_mem_cons.mp hws
    cases ws with
    | nil => rw [List.intercalate_singleton, words_single hw hne]
    | cons w' ws =>
      rw [List.intercalate_cons_cons, List.append_assoc, List.singleton_append,
        words_word hw hne (by decide), ih hws]

/-- A text begins, and not with white space. -/
def Unindented (text : List Char) : Prop := text.head?.map isSpace = some false

instance (text : List Char) : Decidable (Unindented text) := inferInstanceAs (Decidable (_ = _))

theorem IsWord.unindented (hw : IsWord w) : Unindented w := by
  obtain ⟨c, w, rfl⟩ := List.exists_cons_of_ne_nil hw.1
  exact congrArg some (hw.2 c List.mem_cons_self)

theorem Unindented.ne_nil (h : Unindented text) : text ≠ [] := by
  rintro rfl
  cases h

theorem Unindented.append (h : Unindented text) (rest : List Char) :
    Unindented (text ++ rest) := by
  rwa [Unindented, List.head?_append_of_ne_nil _ h.ne_nil]

theorem Unindented.head? (h : Unindented text) : ∀ c ∈ text.head?, isSpace c = false := by
  intro c hc
  rw [Unindented, Option.mem_def.mp hc] at h
  exact Option.some.inj h

end Words

end Text
