import Saltworks.Importer.LibertyFunction
import Saltworks.Sim.Tokenize
import Mathlib.Data.List.Chain

/-!
# The grammar of Liberty expressions

Negation binds tighter than conjunction, conjunction tighter than exclusive or and exclusive or
tighter than disjunction. A conjunction is written with `&` or `*` or by putting its operands side
by side. The evaluation takes an operand that stands behind another one for a conjunct only if it
does not begin with a constant. It skips the characters that belong to no token, and it does not
look at what is left behind the expression that it has evaluated.

## Main definitions

* `Denotes`: the values of the expressions of the grammar.
* `Spaced`: no constant stands directly behind an operand.
* `lex`: the tokens of a text without foreign characters.
* `Evaluates`: an expression has its value, and any other text is refused.

## Main results

* `consumes_of_denotes`: the descent consumes the plain expressions.
* `sound`: what the descent has consumed is a plain expression.
* `evaluates_iff`: the texts that are evaluated as they should be.
-/

namespace Saltworks.Importer.Liberty

/-! ### The grammar -/

/-- The token is a pin name. -/
def isName (t : String) : Bool :=
  match t.toList with
  | c :: cs => isNameStart c && cs.all isNameChar
  | [] => false

/-- The levels of the grammar: operands with their postfix negations, negations, conjunctions,
exclusive ors and disjunctions. -/
inductive Level where
  | post
  | neg
  | and
  | xor
  | or

/-- The tokens `ts` are an expression with the value `v`. The second operand of a conjunction
without an operator must meet `J`. -/
inductive Denotes (J : List String → Prop) (env : String → Option Bool) :
    Level → List String → Bool → Prop
  | zero : Denotes J env .post ["0"] false
  | one : Denotes J env .post ["1"] true
  | pin {t : String} {v : Bool} (ht : isName t) (hv : env t = some v) : Denotes J env .post [t] v
  | paren {ts : List String} {v : Bool} (h : Denotes J env .or ts v) :
      Denotes J env .post ("(" :: (ts ++ [")"])) v
  | quote {ts : List String} {v : Bool} (h : Denotes J env .post ts v) :
      Denotes J env .post (ts ++ ["'"]) (!v)
  | post {ts : List String} {v : Bool} (h : Denotes J env .post ts v) : Denotes J env .neg ts v
  | not {ts : List String} {v : Bool} (h : Denotes J env .neg ts v) :
      Denotes J env .neg ("!" :: ts) (!v)
  | neg {ts : List String} {v : Bool} (h : Denotes J env .neg ts v) : Denotes J env .and ts v
  | and {ts ts' : List String} {v v' : Bool} {op : String} (h : Denotes J env .and ts v)
      (hop : op = "&" ∨ op = "*") (h' : Denotes J env .neg ts' v') :
      Denotes J env .and (ts ++ op :: ts') (v && v')
  | juxtapose {ts ts' : List String} {v v' : Bool} (h : Denotes J env .and ts v)
      (h' : Denotes J env .neg ts' v') (hj : J ts') : Denotes J env .and (ts ++ ts') (v && v')
  | conj {ts : List String} {v : Bool} (h : Denotes J env .and ts v) : Denotes J env .xor ts v
  | xor {ts ts' : List String} {v v' : Bool} (h : Denotes J env .xor ts v)
      (h' : Denotes J env .and ts' v') : Denotes J env .xor (ts ++ "^" :: ts') (v ^^ v')
  | parity {ts : List String} {v : Bool} (h : Denotes J env .xor ts v) : Denotes J env .or ts v
  | or {ts ts' : List String} {v v' : Bool} {op : String} (h : Denotes J env .xor ts v)
      (hop : op = "|" ∨ op = "+") (h' : Denotes J env .or ts' v') :
      Denotes J env .or (ts ++ op :: ts') (v || v')

/-- The token is a constant. -/
def isConst (t : String) : Bool := t == "0" || t == "1"

/-- An operand may end in the token. -/
def endsOperand (t : String) : Bool := isName t || isConst t || t == ")" || t == "'"

/-- No constant stands directly behind an operand. -/
def Spaced (ts : List String) : Prop := ts.IsChain fun t t' => ¬ (endsOperand t ∧ isConst t')

/-- The tokens do not begin with a constant. -/
def NoConst (ts : List String) : Prop := ∀ t ∈ ts.head?, isConst t = false

/-- The expressions of the grammar. -/
abbrev Expr (env : String → Option Bool) : Level → List String → Bool → Prop :=
  Denotes (fun _ => True) env

/-- The expressions in which no operand that begins with a constant stands directly behind
another one. -/
abbrev PlainExpr (env : String → Option Bool) : Level → List String → Bool → Prop :=
  Denotes NoConst env

section Grammar

variable {J : List String → Prop} {env : String → Option Bool} {l : Level} {ts : List String}
  {v : Bool}

theorem Denotes.ne_nil (h : Denotes J env l ts v) : ts ≠ [] := by
  induction h with
  | zero | one | pin | paren | quote | not => simp
  | post _ ih | neg _ ih | conj _ ih | parity _ ih => exact ih
  | and _ _ _ ih | juxtapose _ _ _ ih | xor _ _ ih | or _ _ _ ih =>
    exact List.append_ne_nil_of_left_ne_nil ih _

theorem Denotes.length_pos (h : Denotes J env l ts v) : 0 < ts.length :=
  List.length_pos_of_ne_nil h.ne_nil

/-- An expression ends in a token in which an operand may end. -/
theorem Denotes.endsOperand (h : Denotes J env l ts v) :
    ∀ t ∈ ts.getLast?, Liberty.endsOperand t := by
  induction h with
  | zero | one => simp [Liberty.endsOperand, isConst]
  | pin ht => simp [Liberty.endsOperand, ht]
  | paren =>
    rw [← List.cons_append, List.getLast?_append_of_ne_nil _ (by simp)]
    simp [Liberty.endsOperand]
  | quote => simp [Liberty.endsOperand]
  | post _ ih | neg _ ih | conj _ ih | parity _ ih => exact ih
  | not h ih => rwa [← List.singleton_append, List.getLast?_append_of_ne_nil _ h.ne_nil]
  | and _ _ h' _ ih | xor _ h' _ ih | or _ _ h' _ ih =>
    rwa [List.append_cons, List.getLast?_append_of_ne_nil _ h'.ne_nil]
  | juxtapose _ h' _ _ ih => rwa [List.getLast?_append_of_ne_nil _ h'.ne_nil]

theorem startsAtom_of_isName {t : String} (h : isName t) : startsAtom t := by
  rw [isName] at h
  rw [startsAtom]
  cases hl : t.toList with
  | nil => simp [hl] at h
  | cons c cs =>
    simp only [hl, Bool.and_eq_true] at h
    simp [h.1]

/-- An expression begins with a token that the evaluation takes for the beginning of an operand, or
else with a constant. -/
theorem Denotes.startsAtom (h : Denotes J env l ts v) :
    ∀ t ∈ ts.head?, Liberty.startsAtom t ∨ isConst t := by
  induction h with
  | zero | one => simp [isConst]
  | pin ht => simp [startsAtom_of_isName ht]
  | paren | not => simp [Liberty.startsAtom]
  | quote h ih => rwa [List.head?_append_of_ne_nil _ h.ne_nil]
  | post _ ih | neg _ ih | conj _ ih | parity _ ih => exact ih
  | and h _ _ ih | juxtapose h _ _ ih | xor h _ ih | or h _ _ ih =>
    rwa [List.head?_append_of_ne_nil _ h.ne_nil]

theorem spaced_append {ts ts' : List String} : Spaced (ts ++ ts') ↔ Spaced ts ∧ Spaced ts' ∧
    ∀ t ∈ ts.getLast?, ∀ t' ∈ ts'.head?, ¬ (Liberty.endsOperand t ∧ isConst t') :=
  List.isChain_append

theorem isConst_eq_false {t : String} (h : Liberty.endsOperand t = false) : isConst t = false := by
  rw [Liberty.endsOperand, Bool.or_eq_false_iff, Bool.or_eq_false_iff, Bool.or_eq_false_iff] at h
  exact h.1.1.2

theorem spaced_cons {t : String} (h : Liberty.endsOperand t = false) :
    Spaced (t :: ts) ↔ Spaced ts := by
  rw [← List.singleton_append, spaced_append]
  simp [h, Spaced]

theorem spaced_concat {t : String} (h : isConst t = false) :
    Spaced (ts ++ [t]) ↔ Spaced ts := by
  rw [spaced_append]
  simp [h, Spaced]

theorem spaced_op {ts ts' : List String} {op : String} (h : Liberty.endsOperand op = false) :
    Spaced (ts ++ op :: ts') ↔ Spaced ts ∧ Spaced ts' := by
  rw [spaced_append, spaced_cons h]
  simp [isConst_eq_false h]

/-- An expression in which no constant stands directly behind an operand is plain. -/
theorem Denotes.plain (h : Expr env l ts v) (hts : Spaced ts) : PlainExpr env l ts v := by
  induction h with
  | zero => exact .zero
  | one => exact .one
  | pin ht hv => exact .pin ht hv
  | paren _ ih =>
    rw [spaced_cons (by decide), spaced_concat (by decide)] at hts
    exact .paren (ih hts)
  | quote _ ih => exact .quote (ih ((spaced_concat (by decide)).mp hts))
  | post _ ih => exact .post (ih hts)
  | not _ ih => exact .not (ih ((spaced_cons (by decide)).mp hts))
  | neg _ ih => exact .neg (ih hts)
  | and _ hop _ ih ih' =>
    obtain ⟨h, h'⟩ := (spaced_op (by rcases hop with rfl | rfl <;> decide)).mp hts
    exact .and (ih h) hop (ih' h')
  | juxtapose hleft _ _ ih ih' =>
    obtain ⟨h, h', hjoin⟩ := spaced_append.mp hts
    refine .juxtapose (ih h) (ih' h') fun t' ht' => ?_
    obtain ⟨t, ht⟩ := Option.isSome_iff_exists.mp (List.getLast?_isSome.mpr hleft.ne_nil)
    rw [← Bool.not_eq_true]
    exact fun hconst => hjoin t ht t' ht' ⟨hleft.endsOperand t ht, hconst⟩
  | conj _ ih => exact .conj (ih hts)
  | xor _ _ ih ih' =>
    obtain ⟨h, h'⟩ := (spaced_op (by decide)).mp hts
    exact .xor (ih h) (ih' h')
  | parity _ ih => exact .parity (ih hts)
  | or _ hop _ ih ih' =>
    obtain ⟨h, h'⟩ := (spaced_op (by rcases hop with rfl | rfl <;> decide)).mp hts
    exact .or (ih h) hop (ih' h')

/-- In a plain expression no constant stands directly behind an operand. -/
theorem Denotes.spaced (h : PlainExpr env l ts v) : Spaced ts := by
  induction h with
  | zero | one | pin => exact List.isChain_singleton _
  | paren _ ih =>
    rw [spaced_cons (by decide), spaced_concat (by decide)]
    exact ih
  | quote _ ih => exact (spaced_concat (by decide)).mpr ih
  | post _ ih | neg _ ih | conj _ ih | parity _ ih => exact ih
  | not _ ih => exact (spaced_cons (by decide)).mpr ih
  | and _ hop _ ih ih' | or _ hop _ ih ih' =>
    exact (spaced_op (by rcases hop with rfl | rfl <;> decide)).mpr ⟨ih, ih'⟩
  | juxtapose _ _ hj ih ih' =>
    refine spaced_append.mpr ⟨ih, ih', fun t _ t' ht' hconst => ?_⟩
    rw [hj t' ht'] at hconst
    cases hconst.2
  | xor _ _ ih ih' => exact (spaced_op (by decide)).mpr ⟨ih, ih'⟩

/-- A plain expression is an expression. -/
theorem Denotes.any (h : Denotes J env l ts v) : Expr env l ts v := by
  induction h with
  | zero => exact .zero
  | one => exact .one
  | pin ht hv => exact .pin ht hv
  | paren _ ih => exact .paren ih
  | quote _ ih => exact .quote ih
  | post _ ih => exact .post ih
  | not _ ih => exact .not ih
  | neg _ ih => exact .neg ih
  | and _ hop _ ih ih' => exact .and ih hop ih'
  | juxtapose _ _ _ ih ih' => exact .juxtapose ih ih' trivial
  | conj _ ih => exact .conj ih
  | xor _ _ ih ih' => exact .xor ih ih'
  | parity _ ih => exact .parity ih
  | or _ hop _ ih ih' => exact .or ih hop ih'

end Grammar

/-! ### The descent -/

/-- The tokens with which an expression of a level goes on. -/
def continues : Level → String → Bool
  | .post, _ => false
  | .neg, t => t == "'"
  | .and, t => t == "'" || t == "&" || t == "*" || startsAtom t
  | .xor, t => t == "'" || t == "&" || t == "*" || startsAtom t || t == "^"
  | .or, t => t == "'" || t == "&" || t == "*" || startsAtom t || t == "^" || t == "|" || t == "+"

/-- The tokens do not go on with an expression of a level. -/
def After (l : Level) (ts : List String) : Prop := ∀ t ∈ ts.head?, continues l t = false

section Descent

variable {env : String → Option Bool} {l : Level} {ts ts' rest : List String} {v v' : Bool}

theorem after_nil (l : Level) : After l [] := nofun

theorem after_cons {t : String} (h : continues l t = false) (ts : List String) :
    After l (t :: ts) := by
  intro t' ht'
  rwa [← Option.some.inj ht']

theorem After.imp {l l' : Level} (hl : ∀ t, continues l t = false → continues l' t = false)
    (h : After l rest) : After l' rest := fun t ht => hl t (h t ht)

theorem After.neg (h : After .and rest) : After .neg rest := by
  refine h.imp fun t ht => ?_
  simp only [continues, Bool.or_eq_false_iff] at ht ⊢
  exact ht.1.1.1

theorem After.and (h : After .xor rest) : After .and rest := by
  refine h.imp fun t ht => ?_
  rw [continues, Bool.or_eq_false_iff] at ht
  exact ht.1

theorem After.xor (h : After .or rest) : After .xor rest := by
  refine h.imp fun t ht => ?_
  rw [continues, Bool.or_eq_false_iff, Bool.or_eq_false_iff] at ht
  exact ht.1.1

theorem postfixNot_of_after (h : After .neg rest) (v : Bool) : postfixNot v rest = (v, rest) := by
  cases rest with
  | nil => rfl
  | cons t rest =>
    have ht : t ≠ "'" := by simpa [continues] using h t rfl
    rw [postfixNot, if_neg ht]

theorem parseConjuncts_of_after (h : After .and rest) {d : ℕ} (hd : 0 < d) (v : Bool) :
    parseConjuncts env d v rest = .ok (v, rest) := by
  obtain ⟨d, rfl⟩ := Nat.exists_eq_succ_of_ne_zero hd.ne'
  cases rest with
  | nil => rw [parseConjuncts]
  | cons t rest =>
    have ht := h t rfl
    simp only [continues, Bool.or_eq_false_iff, beq_eq_false_iff_ne] at ht
    rw [parseConjuncts, if_neg (not_or.mpr ⟨ht.1.1.2, ht.1.2⟩), if_neg (by rw [ht.2]; simp)]

theorem parseXorTail_of_after (h : After .xor rest) {d : ℕ} (hd : 0 < d) (v : Bool) :
    parseXorTail env d v rest = .ok (v, rest) := by
  obtain ⟨d, rfl⟩ := Nat.exists_eq_succ_of_ne_zero hd.ne'
  cases rest with
  | nil => rw [parseXorTail]
  | cons t rest =>
    have ht := h t rfl
    simp only [continues, Bool.or_eq_false_iff, beq_eq_false_iff_ne] at ht
    rw [parseXorTail, if_neg ht.2]

theorem parseOrTail_of_after (h : After .or rest) {d : ℕ} (hd : 0 < d) (v : Bool) :
    parseOrTail env d v rest = .ok (v, rest) := by
  obtain ⟨d, rfl⟩ := Nat.exists_eq_succ_of_ne_zero hd.ne'
  cases rest with
  | nil => rw [parseOrTail]
  | cons t rest =>
    have ht := h t rfl
    simp only [continues, Bool.or_eq_false_iff, beq_eq_false_iff_ne] at ht
    rw [parseOrTail, if_neg (not_or.mpr ⟨ht.1.2, ht.2⟩)]

/-- What the descent makes of the tokens of an expression in front of others, at a depth that is
large enough. The loops come to stand behind the expression at a depth that has not gone down by
more than the number of its tokens. -/
def Consumes (env : String → Option Bool) (ts : List String) (v : Bool) : Level → Prop
  | .post => ∀ d rest, 4 * ts.length ≤ d →
      parseAtom env d (ts ++ rest) = .ok (postfixNot v rest)
  | .neg => ∀ d rest, After .neg rest → 4 * ts.length ≤ d →
      parseAtom env d (ts ++ rest) = .ok (v, rest)
  | .and => ∀ d rest, After .neg rest → 4 * ts.length + 1 ≤ d → ∃ d', d ≤ d' + ts.length ∧
      parseAnd env d (ts ++ rest) = parseConjuncts env d' v rest
  | .xor => ∀ d rest, After .and rest → 4 * ts.length + 2 ≤ d → ∃ d', d ≤ d' + ts.length ∧
      parseXor env d (ts ++ rest) = parseXorTail env d' v rest
  | .or => ∀ d rest, After .or rest → 4 * ts.length + 3 ≤ d →
      parseOr env d (ts ++ rest) = .ok (v, rest)

theorem isName_ne {t s : String} (ht : isName t) (hs : isName s = false) : t ≠ s := by
  rintro rfl
  rw [ht] at hs
  cases hs

/-! A plain expression is consumed where its parts are. -/

theorem Consumes.pin {t : String} (ht : isName t) (hv : env t = some v) :
    Consumes env [t] v .post := by
  intro d rest hd
  obtain ⟨d, rfl⟩ := Nat.exists_eq_succ_of_ne_zero (by simp at hd; omega : d ≠ 0)
  have hconst := not_or.mpr ⟨isName_ne ht (by decide : isName "0" = false),
    isName_ne ht (by decide : isName "1" = false)⟩
  rw [List.singleton_append, parseAtom, if_neg (isName_ne ht (by decide)),
    if_neg (isName_ne ht (by decide)), if_neg hconst, hv]

theorem Consumes.paren (h : Consumes env ts v .or) :
    Consumes env ("(" :: (ts ++ [")"])) v .post := by
  intro d rest hd
  have happend : "(" :: (ts ++ [")"]) ++ rest = "(" :: (ts ++ ")" :: rest) := by simp
  simp only [List.length_cons, List.length_append, List.length_nil] at hd
  obtain ⟨d, rfl⟩ := Nat.exists_eq_succ_of_ne_zero (by omega : d ≠ 0)
  have hinner := h d (")" :: rest) (after_cons (by decide) rest) (by omega)
  rw [happend, parseAtom, if_pos rfl, hinner]
  simp only [if_pos]

theorem Consumes.not (h : Consumes env ts v .neg) : Consumes env ("!" :: ts) (!v) .neg := by
  intro d rest hrest hd
  rw [List.length_cons] at hd
  obtain ⟨d, rfl⟩ := Nat.exists_eq_succ_of_ne_zero (by omega : d ≠ 0)
  rw [List.cons_append, parseAtom, if_neg (by decide), if_pos rfl, h d rest hrest (by omega)]
  simp only [postfixNot_of_after hrest]

theorem Consumes.and {op : String} (h : Consumes env ts v .and) (hop : op = "&" ∨ op = "*")
    (h' : Consumes env ts' v' .neg) : Consumes env (ts ++ op :: ts') (v && v') .and := by
  intro d rest hrest hd
  rw [List.length_append, List.length_cons] at hd
  have hop' : continues .neg op = false := by rcases hop with rfl | rfl <;> decide
  obtain ⟨d', hd', hleft⟩ := h d _ (after_cons hop' _) (by omega)
  obtain ⟨d', rfl⟩ := Nat.exists_eq_succ_of_ne_zero (by omega : d' ≠ 0)
  refine ⟨d', by rw [List.length_append, List.length_cons]; omega, ?_⟩
  rw [List.append_assoc, List.cons_append, hleft, parseConjuncts, if_pos hop,
    h' d' rest hrest (by omega), Bool.and_comm]

/-- The operand behind another one begins with a token that begins an operand. -/
theorem Consumes.juxtapose {t : String} (h : Consumes env ts v .and) (ht : startsAtom t)
    (h' : Consumes env (t :: ts') v' .neg) : Consumes env (ts ++ t :: ts') (v && v') .and := by
  intro d rest hrest hd
  have hne {s : String} (hs : startsAtom s = false) : t ≠ s := by
    rintro rfl
    rw [ht] at hs
    cases hs
  have hquote : continues .neg t = false := beq_false_of_ne (hne (by decide))
  have hlength : (t :: ts').length = ts'.length + 1 := List.length_cons
  rw [List.length_append] at hd
  obtain ⟨d', hd', hleft⟩ := h d _ (after_cons hquote _) (by omega)
  obtain ⟨d', rfl⟩ := Nat.exists_eq_succ_of_ne_zero (by omega : d' ≠ 0)
  refine ⟨d', by rw [List.length_append]; omega, ?_⟩
  rw [List.append_assoc, List.cons_append, hleft, parseConjuncts,
    if_neg (not_or.mpr ⟨hne (by decide), hne (by decide)⟩), if_pos ht, ← List.cons_append,
    h' d' rest hrest (by omega), Bool.and_comm]

theorem Consumes.xor (h : Consumes env ts v .xor) (h' : Consumes env ts' v' .and) :
    Consumes env (ts ++ "^" :: ts') (v ^^ v') .xor := by
  intro d rest hrest hd
  rw [List.length_append, List.length_cons] at hd
  have hop : continues .and "^" = false := by decide
  obtain ⟨d', hd', hleft⟩ := h d _ (after_cons hop _) (by omega)
  obtain ⟨d', rfl⟩ := Nat.exists_eq_succ_of_ne_zero (by omega : d' ≠ 0)
  obtain ⟨d₁, hd₁, hright⟩ := h' d' rest hrest.neg (by omega)
  refine ⟨d', by rw [List.length_append, List.length_cons]; omega, ?_⟩
  rw [List.append_assoc, List.cons_append, hleft, parseXorTail, if_pos rfl, hright,
    parseConjuncts_of_after hrest (by omega)]

theorem Consumes.or {op : String} (h : Consumes env ts v .xor) (hop : op = "|" ∨ op = "+")
    (h' : Consumes env ts' v' .or) : Consumes env (ts ++ op :: ts') (v || v') .or := by
  intro d rest hrest hd
  rw [List.length_append, List.length_cons] at hd
  obtain ⟨d, rfl⟩ := Nat.exists_eq_add_of_le' (by omega : 2 ≤ d)
  have hop' : continues .xor op = false := by rcases hop with rfl | rfl <;> decide
  have hafter : After .xor (op :: (ts' ++ rest)) := after_cons hop' _
  obtain ⟨d', hd', hleft⟩ := h (d + 1) _ hafter.and (by omega)
  rw [List.append_assoc, List.cons_append, parseOr, hleft,
    parseXorTail_of_after hafter (by omega)]
  simp only [parseOrTail, if_pos hop]
  rw [h' d rest hrest (by omega)]
  simp only [parseOrTail_of_after hrest (by omega : 0 < d), Bool.or_comm]

/-- The descent consumes the plain expressions. -/
theorem consumes_of_denotes (h : PlainExpr env l ts v) : Consumes env ts v l := by
  induction h with
  | zero | one =>
    intro d rest hd
    obtain ⟨d, rfl⟩ := Nat.exists_eq_succ_of_ne_zero (by simp at hd; omega : d ≠ 0)
    simp [parseAtom]
  | pin ht hv => exact .pin ht hv
  | paren _ ih => exact .paren ih
  | quote _ ih =>
    intro d rest hd
    rw [List.length_append] at hd
    rw [List.append_assoc, ih d _ (by omega)]
    rfl
  | post _ ih =>
    intro d rest hrest hd
    rw [ih d rest hd, postfixNot_of_after hrest]
  | not _ ih => exact .not ih
  | neg h ih =>
    intro d rest hrest hd
    have hpos := h.length_pos
    obtain ⟨d, rfl⟩ := Nat.exists_eq_succ_of_ne_zero (by omega : d ≠ 0)
    refine ⟨d, by omega, ?_⟩
    rw [parseAnd, ih d rest hrest (by omega)]
  | and _ hop _ ih ih' => exact .and ih hop ih'
  | juxtapose _ h' hj ih ih' =>
    obtain ⟨t, ts', rfl⟩ := List.exists_cons_of_ne_nil h'.ne_nil
    have ht : startsAtom t := (h'.startsAtom t rfl).resolve_right (by rw [hj t rfl]; simp)
    exact .juxtapose ih ht ih'
  | conj h ih =>
    intro d rest hrest hd
    have hpos := h.length_pos
    obtain ⟨d, rfl⟩ := Nat.exists_eq_succ_of_ne_zero (by omega : d ≠ 0)
    obtain ⟨d', hd', hleft⟩ := ih d rest hrest.neg (by omega)
    refine ⟨d, by omega, ?_⟩
    rw [parseXor, hleft, parseConjuncts_of_after hrest (by omega)]
  | xor _ _ ih ih' => exact .xor ih ih'
  | parity h ih =>
    intro d rest hrest hd
    have hpos := h.length_pos
    obtain ⟨d, rfl⟩ := Nat.exists_eq_succ_of_ne_zero (by omega : d ≠ 0)
    obtain ⟨d', hd', hleft⟩ := ih d rest hrest.xor.and (by omega)
    rw [parseOr, hleft, parseXorTail_of_after hrest.xor (by omega)]
    simp only [parseOrTail_of_after hrest (by omega : 0 < d)]
  | or _ hop _ ih ih' => exact .or ih hop ih'

/-- The pins are not among the operators: a token with a value is a name or a constant. -/
def PinsNamed (env : String → Option Bool) (ts : List String) : Prop :=
  ∀ t ∈ ts, ∀ v, env t = some v → isName t ∨ isConst t

theorem PinsNamed.behind {ts₁ : List String} (h : PinsNamed env (ts₁ ++ rest)) :
    PinsNamed env rest :=
  fun t ht => h t (List.mem_append_right ts₁ ht)

theorem PinsNamed.tail {t : String} (h : PinsNamed env (t :: ts)) : PinsNamed env ts :=
  fun t' ht' => h t' (List.mem_cons_of_mem t ht')

/-- The tokens that the descent has consumed where it returns are a plain expression that the rest
does not go on with. A loop continues the expression `ts₀` in front of it. -/
structure Sound (env : String → Option Bool) (d : ℕ) : Prop where
  atom {ts rest : List String} {v : Bool} : PinsNamed env ts → parseAtom env d ts = .ok (v, rest) →
    ∃ ts₁, ts = ts₁ ++ rest ∧ PlainExpr env .neg ts₁ v ∧ After .neg rest
  conjuncts {ts₀ ts rest : List String} {v w : Bool} :
    PinsNamed env ts → PlainExpr env .and ts₀ v → After .neg ts →
    parseConjuncts env d v ts = .ok (w, rest) →
    ∃ ts₁, ts = ts₁ ++ rest ∧ PlainExpr env .and (ts₀ ++ ts₁) w ∧ After .and rest
  and {ts rest : List String} {v : Bool} : PinsNamed env ts → parseAnd env d ts = .ok (v, rest) →
    ∃ ts₁, ts = ts₁ ++ rest ∧ PlainExpr env .and ts₁ v ∧ After .and rest
  xorTail {ts₀ ts rest : List String} {v w : Bool} :
    PinsNamed env ts → PlainExpr env .xor ts₀ v → After .and ts →
    parseXorTail env d v ts = .ok (w, rest) →
    ∃ ts₁, ts = ts₁ ++ rest ∧ PlainExpr env .xor (ts₀ ++ ts₁) w ∧ After .xor rest
  xor {ts rest : List String} {v : Bool} : PinsNamed env ts → parseXor env d ts = .ok (v, rest) →
    ∃ ts₁, ts = ts₁ ++ rest ∧ PlainExpr env .xor ts₁ v ∧ After .xor rest
  orTail {ts₀ ts rest : List String} {v w : Bool} :
    PinsNamed env ts → PlainExpr env .xor ts₀ v → After .xor ts →
    parseOrTail env d v ts = .ok (w, rest) →
    ∃ ts₁, ts = ts₁ ++ rest ∧ PlainExpr env .or (ts₀ ++ ts₁) w ∧ After .or rest
  or {ts rest : List String} {v : Bool} : PinsNamed env ts → parseOr env d ts = .ok (v, rest) →
    ∃ ts₁, ts = ts₁ ++ rest ∧ PlainExpr env .or ts₁ v ∧ After .or rest

theorem sound_zero : Sound env 0 where
  atom _ h := by rw [parseAtom] at h; cases h
  conjuncts _ _ _ h := by rw [parseConjuncts] at h; cases h
  and _ h := by rw [parseAnd] at h; cases h
  xorTail _ _ _ h := by rw [parseXorTail] at h; cases h
  xor _ h := by rw [parseXor] at h; cases h
  orTail _ _ _ h := by rw [parseOrTail] at h; cases h
  or _ h := by rw [parseOr] at h; cases h

/-- The postfix negations behind an operand belong to it. -/
theorem denotes_of_postfixNot {ts₀ : List String} {w : Bool} (h : PlainExpr env .post ts₀ v)
    (hpost : postfixNot v ts = (w, rest)) :
    ∃ ts₁, ts = ts₁ ++ rest ∧ PlainExpr env .neg (ts₀ ++ ts₁) w ∧ After .neg rest := by
  induction ts generalizing ts₀ v with
  | nil =>
    cases hpost
    exact ⟨[], rfl, by rw [List.append_nil]; exact .post h, after_nil _⟩
  | cons t ts ih =>
    rw [postfixNot] at hpost
    split_ifs at hpost with ht
    · obtain ⟨ts₁, rfl, hts₁, hrest⟩ := ih (.quote h) hpost
      refine ⟨t :: ts₁, rfl, ?_, hrest⟩
      rwa [ht, List.append_cons]
    · cases hpost
      exact ⟨[], rfl, by rw [List.append_nil]; exact .post h,
        after_cons (l := .neg) (beq_false_of_ne ht) _⟩

theorem Sound.atom_succ {d : ℕ} (hd : Sound env d) (hts : PinsNamed env ts)
    (h : parseAtom env (d + 1) ts = .ok (v, rest)) :
    ∃ ts₁, ts = ts₁ ++ rest ∧ PlainExpr env .neg ts₁ v ∧ After .neg rest := by
  cases ts with
  | nil => rw [parseAtom] at h; cases h
  | cons t ts =>
    rw [parseAtom] at h
    split_ifs at h with hparen hnot hconst
    · cases hor : parseOr env d ts with
      | error e => rw [hor] at h; cases h
      | ok p =>
        obtain ⟨u, ts₂⟩ := p
        rw [hor] at h
        cases ts₂ with
        | nil => cases h
        | cons t' ts₂ =>
          simp only at h
          split_ifs at h with ht'
          obtain ⟨ts₁, rfl, hts₁, -⟩ := hd.or hts.tail hor
          obtain ⟨ts₃, rfl, hts₃, hrest⟩ := denotes_of_postfixNot (.paren hts₁) (Except.ok.inj h)
          exact ⟨_, by rw [hparen, ht']; simp, hts₃, hrest⟩
    · cases hatom : parseAtom env d ts with
      | error e => rw [hatom] at h; cases h
      | ok p =>
        obtain ⟨u, ts₂⟩ := p
        rw [hatom] at h
        obtain ⟨ts₁, rfl, hts₁, hrest⟩ := hd.atom hts.tail hatom
        have hpost := Except.ok.inj h
        rw [postfixNot_of_after hrest] at hpost
        cases hpost
        exact ⟨t :: ts₁, rfl, hnot ▸ .not hts₁, hrest⟩
    · have hpost := Except.ok.inj h
      have hoperand : PlainExpr env .post [t] (decide (t = "1")) := by
        rcases hconst with rfl | rfl
        · exact .zero
        · exact .one
      obtain ⟨ts₁, rfl, hts₁, hrest⟩ := denotes_of_postfixNot hoperand hpost
      exact ⟨t :: ts₁, rfl, hts₁, hrest⟩
    · cases hpin : env t with
      | none => rw [hpin] at h; cases h
      | some u =>
        rw [hpin] at h
        have hname : isName t := by
          refine (hts t List.mem_cons_self u hpin).resolve_right fun ht => hconst ?_
          rwa [isConst, Bool.or_eq_true, beq_iff_eq, beq_iff_eq] at ht
        obtain ⟨ts₁, rfl, hts₁, hrest⟩ :=
          denotes_of_postfixNot (.pin hname hpin) (Except.ok.inj h)
        exact ⟨t :: ts₁, rfl, hts₁, hrest⟩

theorem Sound.conjuncts_succ {d : ℕ} (hd : Sound env d) {ts₀ : List String} {w : Bool}
    (hts : PinsNamed env ts) (h₀ : PlainExpr env .and ts₀ v) (hstop : After .neg ts)
    (h : parseConjuncts env (d + 1) v ts = .ok (w, rest)) :
    ∃ ts₁, ts = ts₁ ++ rest ∧ PlainExpr env .and (ts₀ ++ ts₁) w ∧ After .and rest := by
  cases ts with
  | nil =>
    rw [parseConjuncts] at h
    cases h
    exact ⟨[], rfl, by rwa [List.append_nil], after_nil _⟩
  | cons t ts =>
    rw [parseConjuncts] at h
    split_ifs at h with hop hstart
    · cases hatom : parseAtom env d ts with
      | error e => rw [hatom] at h; cases h
      | ok p =>
        obtain ⟨u, ts₂⟩ := p
        rw [hatom] at h
        obtain ⟨ts₁, rfl, hts₁, hafter⟩ := hd.atom hts.tail hatom
        have hand := Denotes.and h₀ hop hts₁
        rw [Bool.and_comm] at hand
        obtain ⟨ts₃, rfl, hts₃, hrest⟩ := hd.conjuncts hts.tail.behind hand hafter h
        exact ⟨t :: (ts₁ ++ ts₃), by simp, by simpa using hts₃, hrest⟩
    · cases hatom : parseAtom env d (t :: ts) with
      | error e => rw [hatom] at h; cases h
      | ok p =>
        obtain ⟨u, ts₂⟩ := p
        rw [hatom] at h
        obtain ⟨ts₁, hsplit, hts₁, hafter⟩ := hd.atom hts hatom
        have hfirst : NoConst ts₁ := by
          obtain ⟨t', ts₁, rfl⟩ := List.exists_cons_of_ne_nil hts₁.ne_nil
          obtain rfl : t = t' := (List.cons.inj hsplit).1
          intro t' ht'
          obtain rfl : t = t' := Option.some.inj ht'
          rw [← Bool.not_eq_true, isConst, Bool.or_eq_true, beq_iff_eq, beq_iff_eq]
          rintro (rfl | rfl)
          · exact absurd hstart (by decide)
          · exact absurd hstart (by decide)
        have hand := Denotes.juxtapose h₀ hts₁ hfirst
        rw [Bool.and_comm] at hand
        rw [hsplit] at hts
        obtain ⟨ts₃, rfl, hts₃, hrest⟩ := hd.conjuncts hts.behind hand hafter h
        exact ⟨ts₁ ++ ts₃, by rw [hsplit, List.append_assoc], by simpa using hts₃, hrest⟩
    · cases h
      refine ⟨[], rfl, by rwa [List.append_nil], after_cons ?_ _⟩
      have hquote := hstop t rfl
      simp only [continues] at hquote ⊢
      simpa [hquote] using ⟨not_or.mp hop, Bool.not_eq_true _ ▸ hstart⟩

theorem Sound.and_succ {d : ℕ} (hd : Sound env d) (hts : PinsNamed env ts)
    (h : parseAnd env (d + 1) ts = .ok (v, rest)) :
    ∃ ts₁, ts = ts₁ ++ rest ∧ PlainExpr env .and ts₁ v ∧ After .and rest := by
  rw [parseAnd] at h
  cases hatom : parseAtom env d ts with
  | error e => rw [hatom] at h; cases h
  | ok p =>
    obtain ⟨u, ts₂⟩ := p
    rw [hatom] at h
    obtain ⟨ts₁, rfl, hts₁, hafter⟩ := hd.atom hts hatom
    obtain ⟨ts₃, rfl, hts₃, hrest⟩ := hd.conjuncts hts.behind (.neg hts₁) hafter h
    exact ⟨ts₁ ++ ts₃, (List.append_assoc _ _ _).symm, hts₃, hrest⟩

theorem Sound.xorTail_succ {d : ℕ} (hd : Sound env d) {ts₀ : List String} {w : Bool}
    (hts : PinsNamed env ts) (h₀ : PlainExpr env .xor ts₀ v) (hstop : After .and ts)
    (h : parseXorTail env (d + 1) v ts = .ok (w, rest)) :
    ∃ ts₁, ts = ts₁ ++ rest ∧ PlainExpr env .xor (ts₀ ++ ts₁) w ∧ After .xor rest := by
  cases ts with
  | nil =>
    rw [parseXorTail] at h
    cases h
    exact ⟨[], rfl, by rwa [List.append_nil], after_nil _⟩
  | cons t ts =>
    rw [parseXorTail] at h
    split_ifs at h with hop
    · cases hand : parseAnd env d ts with
      | error e => rw [hand] at h; cases h
      | ok p =>
        obtain ⟨u, ts₂⟩ := p
        rw [hand] at h
        obtain ⟨ts₁, rfl, hts₁, hafter⟩ := hd.and hts.tail hand
        obtain ⟨ts₃, rfl, hts₃, hrest⟩ := hd.xorTail hts.tail.behind (.xor h₀ hts₁) hafter h
        exact ⟨t :: (ts₁ ++ ts₃), by simp, by simpa [hop] using hts₃, hrest⟩
    · cases h
      refine ⟨[], rfl, by rwa [List.append_nil], after_cons ?_ _⟩
      have hand := hstop t rfl
      simp only [continues] at hand ⊢
      rw [hand, Bool.false_or]
      exact beq_false_of_ne hop

theorem Sound.xor_succ {d : ℕ} (hd : Sound env d) (hts : PinsNamed env ts)
    (h : parseXor env (d + 1) ts = .ok (v, rest)) :
    ∃ ts₁, ts = ts₁ ++ rest ∧ PlainExpr env .xor ts₁ v ∧ After .xor rest := by
  rw [parseXor] at h
  cases hand : parseAnd env d ts with
  | error e => rw [hand] at h; cases h
  | ok p =>
    obtain ⟨u, ts₂⟩ := p
    rw [hand] at h
    obtain ⟨ts₁, rfl, hts₁, hafter⟩ := hd.and hts hand
    obtain ⟨ts₃, rfl, hts₃, hrest⟩ := hd.xorTail hts.behind (.conj hts₁) hafter h
    exact ⟨ts₁ ++ ts₃, (List.append_assoc _ _ _).symm, hts₃, hrest⟩

theorem Sound.orTail_succ {d : ℕ} (hd : Sound env d) {ts₀ : List String} {w : Bool}
    (hts : PinsNamed env ts) (h₀ : PlainExpr env .xor ts₀ v) (hstop : After .xor ts)
    (h : parseOrTail env (d + 1) v ts = .ok (w, rest)) :
    ∃ ts₁, ts = ts₁ ++ rest ∧ PlainExpr env .or (ts₀ ++ ts₁) w ∧ After .or rest := by
  cases ts with
  | nil =>
    rw [parseOrTail] at h
    cases h
    exact ⟨[], rfl, by rw [List.append_nil]; exact .parity h₀, after_nil _⟩
  | cons t ts =>
    rw [parseOrTail] at h
    split_ifs at h with hop
    · cases hor : parseOr env d ts with
      | error e => rw [hor] at h; cases h
      | ok p =>
        obtain ⟨u, ts₂⟩ := p
        simp only [hor] at h
        obtain ⟨ts₁, rfl, hts₁, hafter⟩ := hd.or hts.tail hor
        -- the right operand was a whole disjunction, so the loop ends here
        have hpos : 0 < d := by
          refine Nat.pos_of_ne_zero ?_
          rintro rfl
          rw [parseOr] at hor
          cases hor
        rw [parseOrTail_of_after hafter hpos, Bool.or_comm] at h
        cases h
        exact ⟨t :: ts₁, rfl, .or h₀ hop hts₁, hafter⟩
    · cases h
      refine ⟨[], rfl, by rw [List.append_nil]; exact .parity h₀, after_cons ?_ _⟩
      have hxor := hstop t rfl
      simp only [continues] at hxor ⊢
      simpa [hxor] using not_or.mp hop

theorem Sound.or_succ {d : ℕ} (hd : Sound env d) (hts : PinsNamed env ts)
    (h : parseOr env (d + 1) ts = .ok (v, rest)) :
    ∃ ts₁, ts = ts₁ ++ rest ∧ PlainExpr env .or ts₁ v ∧ After .or rest := by
  rw [parseOr] at h
  cases hxor : parseXor env d ts with
  | error e => rw [hxor] at h; cases h
  | ok p =>
    obtain ⟨u, ts₂⟩ := p
    rw [hxor] at h
    obtain ⟨ts₁, rfl, hts₁, hafter⟩ := hd.xor hts hxor
    obtain ⟨ts₃, rfl, hts₃, hrest⟩ := hd.orTail hts.behind hts₁ hafter h
    exact ⟨ts₁ ++ ts₃, (List.append_assoc _ _ _).symm, hts₃, hrest⟩

theorem sound (d : ℕ) : Sound env d := by
  induction d with
  | zero => exact sound_zero
  | succ d hd =>
    exact ⟨hd.atom_succ, hd.conjuncts_succ, hd.and_succ, hd.xorTail_succ, hd.xor_succ,
      hd.orTail_succ, hd.or_succ⟩

end Descent

/-! ### Texts -/

/-- Read a character outside a name; a character that is neither part of a token nor blank is
foreign. -/
def lexChar (c : Char) (name : List Char → Option (List String)) (next : Option (List String)) :
    Option (List String) :=
  if isNameStart c then name [c]
  else if isSymbol c then (c.toString :: ·) <$> next
  else if Sim.isBlank c then next
  else none

/-- The tokens behind the name that has been read so far, in reverse. -/
def lexFrom : List Char → List Char → Option (List String)
  | [], [] => some []
  | [], name => some [String.ofList name.reverse]
  | c :: cs, [] => lexChar c (lexFrom cs) (lexFrom cs [])
  | c :: cs, name =>
    if isNameChar c then lexFrom cs (c :: name)
    else (String.ofList name.reverse :: ·) <$> lexChar c (lexFrom cs) (lexFrom cs [])

/-- The tokens of a text that has no foreign characters. -/
def lex (text : String) : Option (List String) := lexFrom text.toList []

theorem scanChar_of_lexChar {c : Char} {name : List Char → Option (List String)}
    {next : Option (List String)} {name' : List Char → List String} {next' ts : List String}
    (hname : ∀ ts, name [c] = some ts → name' [c] = ts) (hnext : ∀ ts, next = some ts → next' = ts)
    (h : lexChar c name next = some ts) : scanChar c name' next' = ts := by
  rw [lexChar] at h
  rw [scanChar]
  split_ifs at h ⊢ with hstart hsymbol
  · exact hname ts h
  · obtain ⟨ts', hts', rfl⟩ := Option.map_eq_some_iff.mp h
    rw [hnext ts' hts']
  · exact hnext ts h

/-- Where no character is foreign the scan skips nothing but blanks. -/
theorem scanFrom_of_lexFrom {cs name : List Char} {ts : List String}
    (h : lexFrom cs name = some ts) : scanFrom cs name = ts := by
  induction cs generalizing name ts with
  | nil =>
    cases name with
    | nil => exact Option.some.inj h
    | cons => exact Option.some.inj h
  | cons c cs ih =>
    cases name with
    | nil => exact scanChar_of_lexChar (fun _ => ih) (fun _ => ih) h
    | cons d name =>
      simp only [lexFrom] at h
      simp only [scanFrom]
      split_ifs at h ⊢ with hchar
      · exact ih h
      · obtain ⟨ts', hts', rfl⟩ := Option.map_eq_some_iff.mp h
        rw [scanChar_of_lexChar (fun _ => ih) (fun _ => ih) hts']

theorem scan_of_lex {text : String} {ts : List String} (h : lex text = some ts) :
    scan text = ts :=
  scanFrom_of_lexFrom h

/-- The parentheses and the operators. -/
def operators : List String := ["(", ")", "!", "&", "|", "^", "*", "+", "'"]

/-- The tokens other than names. -/
def symbols : List String := operators ++ ["0", "1"]

theorem toString_mem_symbols {c : Char} (h : isSymbol c) : c.toString ∈ symbols := by
  rw [isSymbol, List.contains_iff_mem] at h
  simp only [List.mem_cons, List.not_mem_nil, or_false] at h
  rcases h with rfl | rfl | rfl | rfl | rfl | rfl | rfl | rfl | rfl | rfl | rfl <;> decide

/-- A name that is being read, in reverse. -/
def NameSoFar (name : List Char) : Prop := name = [] ∨ isName (String.ofList name.reverse)

theorem isName_concat {c d : Char} {name : List Char}
    (h : isName (String.ofList (d :: name).reverse)) (hc : isNameChar c) :
    isName (String.ofList (c :: d :: name).reverse) := by
  obtain ⟨e, cs, hcs⟩ := List.exists_cons_of_ne_nil
    (List.reverse_ne_nil_iff.mpr (List.cons_ne_nil d name))
  rw [List.reverse_cons, hcs]
  rw [hcs] at h
  simp only [isName, String.toList_ofList, List.cons_append, List.all_append, Bool.and_eq_true]
    at h ⊢
  exact ⟨h.1, h.2, by simpa using hc⟩

theorem scanChar_tokens {c : Char} {name : List Char → List String} {next : List String}
    (hname : NameSoFar [c] → ∀ t ∈ name [c], isName t ∨ t ∈ symbols)
    (hnext : ∀ t ∈ next, isName t ∨ t ∈ symbols) :
    ∀ t ∈ scanChar c name next, isName t ∨ t ∈ symbols := by
  rw [scanChar]
  split_ifs with hstart hsymbol
  · exact hname (Or.inr (by simp [isName, hstart]))
  · exact List.forall_mem_cons.mpr ⟨Or.inr (toString_mem_symbols hsymbol), hnext⟩
  · exact hnext

theorem scanFrom_tokens {cs name : List Char} (h : NameSoFar name) :
    ∀ t ∈ scanFrom cs name, isName t ∨ t ∈ symbols := by
  induction cs generalizing name with
  | nil =>
    cases name with
    | nil => exact nofun
    | cons d name => exact List.forall_mem_singleton.mpr (Or.inl (h.resolve_left nofun))
  | cons c cs ih =>
    cases name with
    | nil => exact scanChar_tokens ih (ih (Or.inl rfl))
    | cons d name =>
      have hname := h.resolve_left (List.cons_ne_nil d name)
      simp only [scanFrom]
      split_ifs with hchar
      · exact ih (Or.inr (isName_concat hname hchar))
      · exact List.forall_mem_cons.mpr ⟨Or.inl hname, scanChar_tokens ih (ih (Or.inl rfl))⟩

/-- The tokens of a text are names and symbols. -/
theorem mem_scan {text t : String} (h : t ∈ scan text) : isName t ∨ t ∈ symbols :=
  scanFrom_tokens (Or.inl rfl) t h

/-! ### Evaluation -/

/-- No operand and no operator follows: the tokens begin with a closing parenthesis or with a
constant, if there are any. -/
def Stops (ts : List String) : Prop := ∀ t ∈ ts.head?, t = ")" ∨ isConst t

/-- The text is an expression of the grammar. -/
def IsExpr (text : String) : Prop :=
  ∃ ts v, lex text = some ts ∧ Expr (fun _ => some false) .or ts v

/-- An expression has the value that the grammar gives it, and all of it is read. Any other text is
refused. -/
structure Evaluates (env : String → Option Bool) (text : String) : Prop where
  value {ts : List String} {v : Bool} (hts : lex text = some ts) (h : Expr env .or ts v) :
    evalFn env text = .ok v ∧
      parseOr env (8 * (scan text).length + 8) (scan text) = .ok (v, [])
  refuses (h : ¬ IsExpr text) : ∃ e, evalFn env text = .error e

/-- In an expression no constant stands directly behind an operand. In any other text no
expression of that kind is followed by a closing parenthesis, by a constant or by the end of the
tokens. -/
structure Isolated (env : String → Option Bool) (text : String) : Prop where
  spaced {ts : List String} {v : Bool} (hts : lex text = some ts) (h : Expr env .or ts v) :
    Spaced ts
  alone {ts rest : List String} {v : Bool} (hexpr : ¬ IsExpr text) (hscan : scan text = ts ++ rest)
    (h : Expr env .or ts v) (hts : Spaced ts) : ¬ Stops rest

section Evaluation

variable {env : String → Option Bool} {text : String} {ts rest : List String} {v : Bool}

theorem Stops.after (h : Stops rest) : After .or rest := by
  intro t ht
  rcases h t ht with rfl | hconst
  · decide
  · rw [isConst, Bool.or_eq_true, beq_iff_eq, beq_iff_eq] at hconst
    rcases hconst with rfl | rfl <;> decide

theorem stops_of_after (h : After .or rest) (hrest : ∀ t ∈ rest, isName t ∨ t ∈ symbols) :
    Stops rest := by
  intro t ht
  have hcont := h t ht
  rcases hrest t (List.mem_of_mem_head? ht) with hname | hsymbol
  · simp [continues, startsAtom_of_isName hname] at hcont
  · have hsymbols : ∀ t ∈ symbols, continues .or t = false → t = ")" ∨ isConst t := by decide
    exact hsymbols t hsymbol hcont

theorem pinsNamed_scan (henv : ∀ t ∈ operators, env t = none) (text : String) :
    PinsNamed env (scan text) := by
  intro t ht v hv
  refine (mem_scan ht).imp_right fun hsymbol => ?_
  rcases List.mem_append.mp hsymbol with hop | hconst
  · rw [henv t hop] at hv
    cases hv
  · simpa [isConst] using hconst

/-- The evaluation returns behind the plain expressions that nothing goes on with. -/
theorem parseOr_scan_eq_ok_iff (henv : ∀ t ∈ operators, env t = none) :
    parseOr env (8 * (scan text).length + 8) (scan text) = .ok (v, rest) ↔
      ∃ ts, scan text = ts ++ rest ∧ PlainExpr env .or ts v ∧ Stops rest := by
  constructor
  · intro h
    obtain ⟨ts, hts, hexpr, hafter⟩ := (sound _).or (pinsNamed_scan henv text) h
    refine ⟨ts, hts, hexpr, stops_of_after hafter fun t ht => ?_⟩
    exact mem_scan (hts ▸ List.mem_append_right ts ht)
  · rintro ⟨ts, hts, hexpr, hstops⟩
    rw [hts]
    exact consumes_of_denotes hexpr _ rest hstops.after (by rw [List.length_append]; omega)

theorem evalFn_eq_ok_iff : evalFn env text = .ok v ↔
    ∃ rest, parseOr env (8 * (scan text).length + 8) (scan text) = .ok (v, rest) := by
  rw [evalFn]
  cases parseOr env (8 * (scan text).length + 8) (scan text) with
  | error e => simp
  | ok p => simp [Prod.ext_iff]

/-- The texts that are evaluated as the grammar has it. -/
theorem evaluates_iff (henv : ∀ t ∈ operators, env t = none) :
    Evaluates env text ↔ Isolated env text := by
  constructor
  · refine fun h => ⟨fun {ts v} hts hexpr => ?_, fun {ts rest v} hnot hscan hexpr hts hstops => ?_⟩
    · obtain ⟨ts', hscan, hplain, -⟩ := (parseOr_scan_eq_ok_iff henv).mp (h.value hts hexpr).2
      rw [scan_of_lex hts, List.append_nil] at hscan
      exact hscan ▸ hplain.spaced
    · obtain ⟨e, he⟩ := h.refuses hnot
      have hok : evalFn env text = .ok v := evalFn_eq_ok_iff.mpr
        ⟨rest, (parseOr_scan_eq_ok_iff henv).mpr ⟨ts, hscan, hexpr.plain hts, hstops⟩⟩
      rw [he] at hok
      cases hok
  · refine fun h => ⟨fun {ts v} hts hexpr => ?_, fun hnot => ?_⟩
    · have hparse := (parseOr_scan_eq_ok_iff henv).mpr
        ⟨ts, (scan_of_lex hts).trans (List.append_nil ts).symm,
          hexpr.plain (h.spaced hts hexpr), nofun⟩
      exact ⟨evalFn_eq_ok_iff.mpr ⟨[], hparse⟩, hparse⟩
    · cases heval : evalFn env text with
      | error e => exact ⟨e, rfl⟩
      | ok v =>
        obtain ⟨rest, hparse⟩ := evalFn_eq_ok_iff.mp heval
        obtain ⟨ts, hscan, hplain, hstops⟩ := (parseOr_scan_eq_ok_iff henv).mp hparse
        exact absurd hstops (h.alone hnot hscan hplain.any hplain.spaced)

/-- The negation of a pin. -/
theorem evaluates_iff_not :
    Evaluates (fun t => if t = "A" then some true else none) "!A" := by
  refine (evaluates_iff (by decide)).mpr ⟨fun hts _ => ?_, fun hnot => absurd ?_ hnot⟩
  · have hlex : lex "!A" = some ["!", "A"] := by decide
    rw [hlex] at hts
    exact Option.some.inj hts ▸ (spaced_cons (by decide)).mpr (List.isChain_singleton _)
  · exact ⟨["!", "A"], !false, by decide,
      .parity (.conj (.neg (.not (.post (.pin (by decide) rfl)))))⟩

/-- A constant behind a pin is not read. -/
theorem not_evaluates :
    ¬ Evaluates (fun t => if t = "A" then some true else none) "A 0" := by
  intro h
  have hpin : Expr (fun t => if t = "A" then some true else none) .and ["A"] true :=
    .neg (.post (.pin (by decide) rfl))
  have hvalue := (h.value (by decide) (.parity (.conj (.juxtapose hpin (.post .zero) trivial)))).1
  exact absurd hvalue (by decide)

end Evaluation

end Saltworks.Importer.Liberty
