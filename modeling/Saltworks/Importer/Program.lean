import Saltworks.Data.Dict
import Saltworks.Importer.Cells
import Mathlib.Logic.Basic

/-!
# Programs over pins whose values are given by a relation

The elaboration reads the pins of a cell one by one, and what it knows about a pin is a relation
between its net and a value. `Runs P ops L L'` executes a program when every pin that is read
shows some value related to it. Where the relation is a function, this is `evalOps`.

* `evalOps_of_runs` turns a relational run into an evaluation.
* `Yields.unique` compares two runs of one program.
* `evalOps_congr` says that a program depends on the pins that it reads and on no others.

## Main definitions

* `ArgShows`, `OpShows`, `Runs`, `Yields`: the relational execution of a program.
* `pinsRead`: the pins that a program reads.
-/

namespace Saltworks.Importer

variable {P : Pin → Bool → Prop} {env env' : Pin → Option Bool}

/-- An operand shows the value of an earlier result, or else a value of its pin. -/
def ArgShows (P : Pin → Bool → Prop) (L : List (String × Bool)) (a : String) (b : Bool) : Prop :=
  L.lookup a = some b ∨ L.lookup a = none ∧ P a b

/-- The result of one step shows a value. -/
def OpShows (P : Pin → Bool → Prop) (L : List (String × Bool)) : Op → Bool → Prop
  | .const _ c, b => b = c
  | .buf _ a, b => ArgShows P L a b
  | .not _ a, b => ∃ c, ArgShows P L a c ∧ b = !c
  | .bin op _ a a', b => ∃ c c', ArgShows P L a c ∧ ArgShows P L a' c' ∧ b = op.apply c c'

/-- A program takes the results `L` to the results `L'`. -/
def Runs (P : Pin → Bool → Prop) : List Op → List (String × Bool) → List (String × Bool) → Prop
  | [], L, L' => L' = L
  | op :: ops, L, L' => ∃ b, OpShows P L op b ∧ Runs P ops ((op.tmp, b) :: L) L'

/-- A program run from the start gives the result `t` a value. -/
def Yields (P : Pin → Bool → Prop) (ops : List Op) (t : String) (b : Bool) : Prop :=
  ∃ L, Runs P ops [] L ∧ L.lookup t = some b

/-- The pins that a program reads below the results named `ts`. -/
def pinsRead : List Op → List String → List Pin
  | [], _ => []
  | op :: ops, ts => op.args.filter (· ∉ ts) ++ pinsRead ops (op.tmp :: ts)

/-! ### Operands -/

theorem argValue_of_argShows {L : List (String × Bool)} {a : String} {b : Bool}
    (h : ArgShows P L a b) (hP : a ∉ L.map Prod.fst → ∀ c, P a c → env a = some c) :
    argValue env L a = some b := by
  rcases h with h | ⟨hnone, hp⟩
  · rw [argValue, h, Option.some_or]
  · rw [argValue, hnone, Option.none_or]
    exact hP (Dict.lookup_eq_none_iff.mp hnone) b hp

theorem argShows_of_argValue {L : List (String × Bool)} {a : String} {b : Bool}
    (h : argValue env L a = some b) (hP : a ∉ L.map Prod.fst → ∀ c, env a = some c → P a c) :
    ArgShows P L a b := by
  rw [argValue] at h
  cases hl : L.lookup a with
  | some c =>
    rw [hl, Option.some_or] at h
    exact Or.inl (hl.trans h)
  | none =>
    rw [hl, Option.none_or] at h
    exact Or.inr ⟨hl, hP (Dict.lookup_eq_none_iff.mp hl) b h⟩

/-! ### Steps -/

/-- A step evaluates to the value that it shows. -/
theorem eval_of_opShows {L : List (String × Bool)} {op : Op} {b : Bool} (h : OpShows P L op b)
    (hP : ∀ a ∈ op.args, a ∉ L.map Prod.fst → ∀ c, P a c → env a = some c) :
    op.eval env L = some b := by
  cases op with
  | const t c => rw [OpShows] at h; rw [Op.eval, h]
  | buf t a => exact argValue_of_argShows h (hP a (by simp [Op.args]))
  | not t a =>
    obtain ⟨c, hc, rfl⟩ := h
    rw [Op.eval, argValue_of_argShows hc (hP a (by simp [Op.args])), Option.map_some]
  | bin op t a a' =>
    obtain ⟨c, c', hc, hc', rfl⟩ := h
    rw [Op.eval, argValue_of_argShows hc (hP a (by simp [Op.args])),
      argValue_of_argShows hc' (hP a' (by simp [Op.args]))]
    rfl

/-- A step shows the value that it evaluates to. -/
theorem opShows_of_eval {L : List (String × Bool)} {op : Op} {b : Bool}
    (h : op.eval env L = some b)
    (hP : ∀ a ∈ op.args, a ∉ L.map Prod.fst → ∀ c, env a = some c → P a c) :
    OpShows P L op b := by
  cases op with
  | const t c => exact (Option.some.inj h).symm
  | buf t a => exact argShows_of_argValue h (hP a (by simp [Op.args]))
  | not t a =>
    obtain ⟨c, hc, hb⟩ := Option.map_eq_some_iff.mp h
    exact ⟨c, argShows_of_argValue hc (hP a (by simp [Op.args])), hb.symm⟩
  | bin op t a a' =>
    obtain ⟨c, hc, h⟩ := Option.bind_eq_some_iff.mp h
    obtain ⟨c', hc', h⟩ := Option.bind_eq_some_iff.mp h
    exact ⟨c, c', argShows_of_argValue hc (hP a (by simp [Op.args])),
      argShows_of_argValue hc' (hP a' (by simp [Op.args])), (Option.some.inj h).symm⟩

/-! ### Programs -/

/-- A program evaluates to the results of its run, where the environment knows the value of
every pin that is read. -/
theorem evalOps_of_runs {ops : List Op} {L L' : List (String × Bool)} (h : Runs P ops L L')
    (hP : ∀ p ∈ pinsRead ops (L.map Prod.fst), ∀ c, P p c → env p = some c) :
    evalOps env ops L = some L' := by
  induction ops generalizing L with
  | nil => rw [evalOps, h]
  | cons op ops ih =>
    obtain ⟨b, hb, hrest⟩ := h
    have hop : op.eval env L = some b := eval_of_opShows hb fun a ha hnot =>
      hP a (List.mem_append_left _ (List.mem_filter.mpr ⟨ha, by simpa using hnot⟩))
    rw [evalOps, hop]
    exact ih hrest fun p hp => hP p (List.mem_append_right _ hp)

/-- A program runs to the results of its evaluation, where every value of the environment that
is read is a value of the pin. -/
theorem runs_of_evalOps {ops : List Op} {L L' : List (String × Bool)}
    (h : evalOps env ops L = some L')
    (hP : ∀ p ∈ pinsRead ops (L.map Prod.fst), ∀ c, env p = some c → P p c) :
    Runs P ops L L' := by
  induction ops generalizing L with
  | nil => exact (Option.some.inj h).symm
  | cons op ops ih =>
    obtain ⟨b, hb, hrest⟩ := Option.bind_eq_some_iff.mp h
    refine ⟨b, opShows_of_eval hb fun a ha hnot =>
      hP a (List.mem_append_left _ (List.mem_filter.mpr ⟨ha, by simpa using hnot⟩)), ?_⟩
    exact ih hrest fun p hp => hP p (List.mem_append_right _ hp)

/-- The value of an expansion whose program yields it. -/
theorem eval_of_yields {e : Expansion} {t : String} {b : Bool} (h : Yields P e.ops t b)
    (hP : ∀ p ∈ pinsRead e.ops [], ∀ c, P p c → env p = some c) : e.eval env t = some b := by
  obtain ⟨L, hruns, hlookup⟩ := h
  rw [Expansion.eval, evalOps_of_runs hruns hP]
  exact hlookup

variable {Q : Pin → Bool → Prop}

theorem ArgShows.unique (hPQ : ∀ p c c', P p c → Q p c' → c = c') {L : List (String × Bool)}
    {a : String} {b b' : Bool} (h : ArgShows P L a b) (h' : ArgShows Q L a b') : b = b' := by
  rcases h with h | ⟨hnone, h⟩ <;> rcases h' with h' | ⟨hnone', h'⟩
  · exact Option.some.inj (h.symm.trans h')
  · rw [hnone'] at h
    cases h
  · rw [hnone] at h'
    cases h'
  · exact hPQ a b b' h h'

theorem OpShows.unique (hPQ : ∀ p c c', P p c → Q p c' → c = c') {L : List (String × Bool)}
    {op : Op} {b b' : Bool} (h : OpShows P L op b) (h' : OpShows Q L op b') : b = b' := by
  cases op with
  | const t c => exact h.trans h'.symm
  | buf t a => exact ArgShows.unique hPQ h h'
  | not t a =>
    obtain ⟨c, hc, rfl⟩ := h
    obtain ⟨c', hc', rfl⟩ := h'
    rw [hc.unique hPQ hc']
  | bin op t a₁ a₂ =>
    obtain ⟨c₁, c₂, hc₁, hc₂, rfl⟩ := h
    obtain ⟨c₁', c₂', hc₁', hc₂', rfl⟩ := h'
    rw [hc₁.unique hPQ hc₁', hc₂.unique hPQ hc₂']

/-- Pins that show equal values lead a program to equal results. -/
theorem Runs.unique (hPQ : ∀ p c c', P p c → Q p c' → c = c') {ops : List Op}
    {L L₁ L₂ : List (String × Bool)} (h₁ : Runs P ops L L₁) (h₂ : Runs Q ops L L₂) : L₁ = L₂ := by
  induction ops generalizing L with
  | nil => exact h₁.trans h₂.symm
  | cons op ops ih =>
    obtain ⟨b₁, hb₁, h₁⟩ := h₁
    obtain ⟨b₂, hb₂, h₂⟩ := h₂
    rw [← hb₁.unique hPQ hb₂] at h₂
    exact ih h₁ h₂

theorem Yields.unique (hPQ : ∀ p c c', P p c → Q p c' → c = c') {ops : List Op} {t : String}
    {b b' : Bool} (h : Yields P ops t b) (h' : Yields Q ops t b') : b = b' := by
  obtain ⟨L, hL, hb⟩ := h
  obtain ⟨L', hL', hb'⟩ := h'
  rw [hL.unique hPQ hL'] at hb
  exact Option.some.inj (hb.symm.trans hb')

/-! ### The pins that are read -/

theorem ArgShows.exists_pin {L : List (String × Bool)} {a : String} {b : Bool}
    (h : ArgShows P L a b) (hnot : a ∉ L.map Prod.fst) : ∃ c, P a c := by
  rcases h with h | ⟨_, h⟩
  · rw [Dict.lookup_eq_none_iff.mpr hnot] at h
    cases h
  · exact ⟨b, h⟩

theorem OpShows.exists_pin {L : List (String × Bool)} {op : Op} {b : Bool} (h : OpShows P L op b)
    {a : String} (ha : a ∈ op.args) (hnot : a ∉ L.map Prod.fst) : ∃ c, P a c := by
  cases op with
  | const t c => cases ha
  | buf t a' =>
    rw [List.mem_singleton.mp ha] at hnot ⊢
    exact ArgShows.exists_pin h hnot
  | not t a' =>
    obtain ⟨c, hc, -⟩ := h
    rw [List.mem_singleton.mp ha] at hnot ⊢
    exact hc.exists_pin hnot
  | bin op t a₁ a₂ =>
    obtain ⟨c₁, c₂, hc₁, hc₂, -⟩ := h
    rcases List.mem_pair.mp ha with rfl | rfl
    · exact hc₁.exists_pin hnot
    · exact hc₂.exists_pin hnot

/-- Every pin that a run reads shows a value. -/
theorem Runs.exists_pin {ops : List Op} {L L' : List (String × Bool)} (h : Runs P ops L L')
    {p : Pin} (hp : p ∈ pinsRead ops (L.map Prod.fst)) : ∃ c, P p c := by
  induction ops generalizing L with
  | nil => cases hp
  | cons op ops ih =>
    obtain ⟨b, hb, h⟩ := h
    rcases List.mem_append.mp hp with hp | hp
    · obtain ⟨ha, hnot⟩ := List.mem_filter.mp hp
      exact hb.exists_pin ha (by simpa using hnot)
    · exact ih h hp

/-- A program depends on the pins that it reads and on no others. -/
theorem evalOps_congr {ops : List Op} {L : List (String × Bool)}
    (h : ∀ p ∈ pinsRead ops (L.map Prod.fst), env p = env' p) :
    evalOps env ops L = evalOps env' ops L := by
  have key {env env' : Pin → Option Bool}
      (h : ∀ p ∈ pinsRead ops (L.map Prod.fst), env p = env' p) {L' : List (String × Bool)}
      (hL : evalOps env ops L = some L') : evalOps env' ops L = some L' :=
    evalOps_of_runs (P := fun p c => env p = some c) (runs_of_evalOps hL fun _ _ _ hc => hc)
      fun p hp c hc => (h p hp).symm.trans hc
  refine Option.ext fun L' => ⟨key h, key fun p hp => (h p hp).symm⟩

end Saltworks.Importer
