import Mathlib.Order.Nat
import Mathlib.Tactic.Common

/-!
# The source language

The language of `HDL/TinyRustN0.lean`: words and booleans, `let mut` with shadowing, assignment
and loops. A binder's cell is its level, the number of bindings below it, so that a binding that
shadows another lies in a cell of its own. The state is indexed by levels and the big-step relation
threads the context.

A boolean is the word `0` or `1`. `BigStep.stateOK` says that a well-typed statement keeps this for
every binding that is visible; a binding that is shadowed inside of a `let mut` is visible again
after it, and is untouched meanwhile by `BigStep.frame`.

## Main definitions

* `Ty`, `Exp`, `Stmt`, `Ctx`: syntax.
* `lookLvl`, `look`, `slotOf`: resolution of names.
* `inferE`, `chkS`: types.
* `evalE`, `BigStep`: semantics.

## Main results

* `BigStep.frame`, `BigStep.stateOK`.
-/

namespace Saltworks.TinyRust

/-! ### Syntax -/

/-- The types. -/
inductive Ty where
  | i32
  | bool
  deriving DecidableEq, Repr

/-- Expressions. -/
inductive Exp where
  | var (x : ℕ)
  | const (n : BitVec 32)
  | tt
  | ff
  | add (a b : Exp)
  | xor (a b : Exp)
  | slt (a b : Exp)
  deriving DecidableEq, Repr

/-- Statements. `letmut` carries the statements in its scope. -/
inductive Stmt where
  | skip
  | letmut (x : ℕ) (t : Ty) (e : Exp) (body : Stmt)
  | assign (x : ℕ) (e : Exp)
  | seq (s t : Stmt)
  | ite (c : Exp) (thn els : Stmt)
  | while (c : Exp) (body : Stmt)
  deriving DecidableEq, Repr

/-- The bindings in scope, innermost first. -/
abbrev Ctx := List (ℕ × Ty)

/-! ### Resolution of names -/

/-- The level and the type of a name. -/
def lookLvl : Ctx → ℕ → Option (ℕ × Ty)
  | [], _ => none
  | (y, t) :: rest, x => if x = y then some (rest.length, t) else lookLvl rest x

def look (Γ : Ctx) (x : ℕ) : Option Ty := (lookLvl Γ x).map Prod.snd

/-- The level of a name, `0` if it is unbound. -/
def slotOf (Γ : Ctx) (x : ℕ) : ℕ :=
  match lookLvl Γ x with
  | some (l, _) => l
  | none => 0

variable {Γ : Ctx} {x l : ℕ} {t : Ty}

/-- The levels that a context names lie below its length. -/
theorem lookLvl_lt (h : lookLvl Γ x = some (l, t)) : l < Γ.length := by
  induction Γ with
  | nil => simp [lookLvl] at h
  | cons b rest ih =>
    obtain ⟨y, u⟩ := b
    rw [lookLvl] at h
    split_ifs at h with hxy
    · obtain ⟨rfl, -⟩ := Prod.mk.inj (Option.some.inj h)
      exact Nat.lt_succ_self _
    · exact (ih h).trans (Nat.lt_succ_self _)

theorem look_eq_some : look Γ x = some t ↔ ∃ l, lookLvl Γ x = some (l, t) := by
  simp [look]

theorem slotOf_of_lookLvl (h : lookLvl Γ x = some (l, t)) : slotOf Γ x = l := by
  rw [slotOf, h]

theorem slotOf_lt_of_look (h : look Γ x = some t) : slotOf Γ x < Γ.length := by
  obtain ⟨l, hl⟩ := look_eq_some.1 h
  rw [slotOf_of_lookLvl hl]
  exact lookLvl_lt hl

/-- Two names of one level are the same name. -/
theorem lookLvl_inj {y : ℕ} {u : Ty} (hx : lookLvl Γ x = some (l, t))
    (hy : lookLvl Γ y = some (l, u)) : x = y ∧ t = u := by
  induction Γ with
  | nil => simp [lookLvl] at hx
  | cons b rest ih =>
    obtain ⟨z, v⟩ := b
    rw [lookLvl] at hx hy
    split_ifs at hx hy with hxz hyz
    · obtain rfl := Option.some.inj (hx.symm.trans hy) |> Prod.mk.inj |>.2
      exact ⟨hxz.trans ‹y = z›.symm, rfl⟩
    · obtain ⟨rfl, -⟩ := Prod.mk.inj (Option.some.inj hx)
      exact absurd (lookLvl_lt hy) (lt_irrefl _)
    · obtain ⟨rfl, -⟩ := Prod.mk.inj (Option.some.inj hy)
      exact absurd (lookLvl_lt hx) (lt_irrefl _)
    · exact ih hx hy

/-! ### Types -/

/-- The type of an expression. -/
def inferE (Γ : Ctx) : Exp → Option Ty
  | .var x => look Γ x
  | .const _ => some .i32
  | .tt => some .bool
  | .ff => some .bool
  | .add a b =>
    match inferE Γ a, inferE Γ b with
    | some .i32, some .i32 => some .i32
    | _, _ => none
  | .xor a b =>
    match inferE Γ a, inferE Γ b with
    | some .i32, some .i32 => some .i32
    | _, _ => none
  | .slt a b =>
    match inferE Γ a, inferE Γ b with
    | some .i32, some .i32 => some .bool
    | _, _ => none

/-- The statement is well-typed. -/
def chkS (Γ : Ctx) : Stmt → Bool
  | .skip => true
  | .letmut x t e body => (inferE Γ e == some t) && chkS ((x, t) :: Γ) body
  | .assign x e =>
    match look Γ x, inferE Γ e with
    | some tx, some te => tx == te
    | _, _ => false
  | .seq s t => chkS Γ s && chkS Γ t
  | .ite c thn els => (inferE Γ c == some .bool) && chkS Γ thn && chkS Γ els
  | .while c body => (inferE Γ c == some .bool) && chkS Γ body

/-- A binary operation is typed from two words. -/
theorem match_i32_eq_some {r : Ty} {ta tb : Option Ty} :
    (match ta, tb with
      | some .i32, some .i32 => some r
      | _, _ => none) = some t ↔ ta = some .i32 ∧ tb = some .i32 ∧ r = t := by
  rcases ta with _ | _ | _ <;> rcases tb with _ | _ | _ <;> simp

@[simp] theorem inferE_add {a b : Exp} : inferE Γ (.add a b) = some t ↔
    inferE Γ a = some .i32 ∧ inferE Γ b = some .i32 ∧ .i32 = t :=
  match_i32_eq_some

@[simp] theorem inferE_xor {a b : Exp} : inferE Γ (.xor a b) = some t ↔
    inferE Γ a = some .i32 ∧ inferE Γ b = some .i32 ∧ .i32 = t :=
  match_i32_eq_some

@[simp] theorem inferE_slt {a b : Exp} : inferE Γ (.slt a b) = some t ↔
    inferE Γ a = some .i32 ∧ inferE Γ b = some .i32 ∧ .bool = t :=
  match_i32_eq_some

section Checks

attribute [local simp] chkS

theorem chkS_assign {e : Exp} : chkS Γ (.assign x e) = true ↔
    ∃ t, look Γ x = some t ∧ inferE Γ e = some t := by
  rw [chkS]
  rcases look Γ x with _ | tx
  · simp
  · rcases inferE Γ e with _ | te
    · simp
    · simp only [beq_iff_eq, Option.some.injEq, exists_eq_left']
      exact eq_comm

@[simp] theorem chkS_letmut {e : Exp} {body : Stmt} : chkS Γ (.letmut x t e body) = true ↔
    inferE Γ e = some t ∧ chkS ((x, t) :: Γ) body = true := by
  simp [chkS]

@[simp] theorem chkS_seq {s₁ s₂ : Stmt} :
    chkS Γ (.seq s₁ s₂) = true ↔ chkS Γ s₁ = true ∧ chkS Γ s₂ = true := by
  simp [chkS]

@[simp] theorem chkS_ite {c : Exp} {thn els : Stmt} : chkS Γ (.ite c thn els) = true ↔
    (inferE Γ c = some .bool ∧ chkS Γ thn = true) ∧ chkS Γ els = true := by
  simp [chkS]

@[simp] theorem chkS_while {c : Exp} {body : Stmt} : chkS Γ (.while c body) = true ↔
    inferE Γ c = some .bool ∧ chkS Γ body = true := by
  simp [chkS]

end Checks

/-- `let mut x0 = 7; while x0 < 7 { x0 = x0 ^ 1 }`. -/
def acceptProg : Stmt :=
  .letmut 0 .i32 (.const 7)
    (.while (.slt (.var 0) (.const 7)) (.assign 0 (.xor (.var 0) (.const 1))))

/-! ### Semantics -/

/-- The values of the cells, by level. -/
abbrev State := ℕ → BitVec 32

def upd (σ : State) (l : ℕ) (v : BitVec 32) : State := fun k => if k = l then v else σ k

/-- The value of an expression. -/
def evalE (Γ : Ctx) (σ : State) : Exp → BitVec 32
  | .var x => σ (slotOf Γ x)
  | .const n => n
  | .tt => 1
  | .ff => 0
  | .add a b => evalE Γ σ a + evalE Γ σ b
  | .xor a b => evalE Γ σ a ^^^ evalE Γ σ b
  | .slt a b => if (evalE Γ σ a).slt (evalE Γ σ b) then 1 else 0

/-- A statement takes one state to another. `letmut` writes at the level above the context. -/
inductive BigStep : Ctx → Stmt → State → State → Prop where
  | skip {Γ σ} : BigStep Γ .skip σ σ
  | letmut {Γ x t e body σ σ'} :
    BigStep ((x, t) :: Γ) body (upd σ Γ.length (evalE Γ σ e)) σ' →
      BigStep Γ (.letmut x t e body) σ σ'
  | assign {Γ x e σ} : BigStep Γ (.assign x e) σ (upd σ (slotOf Γ x) (evalE Γ σ e))
  | seq {Γ s t σ σ₁ σ'} : BigStep Γ s σ σ₁ → BigStep Γ t σ₁ σ' → BigStep Γ (.seq s t) σ σ'
  | iteT {Γ c thn els σ σ'} :
    evalE Γ σ c = 1 → BigStep Γ thn σ σ' → BigStep Γ (.ite c thn els) σ σ'
  | iteF {Γ c thn els σ σ'} :
    evalE Γ σ c = 0 → BigStep Γ els σ σ' → BigStep Γ (.ite c thn els) σ σ'
  | whileF {Γ c body σ} : evalE Γ σ c = 0 → BigStep Γ (.while c body) σ σ
  | whileT {Γ c body σ σ₁ σ'} :
    evalE Γ σ c = 1 → BigStep Γ body σ σ₁ → BigStep Γ (.while c body) σ₁ σ' →
      BigStep Γ (.while c body) σ σ'

variable {σ σ' : State}

/-- Every visible boolean binding holds `0` or `1`. -/
def stateOK (Γ : Ctx) (σ : State) : Prop :=
  ∀ x l t, lookLvl Γ x = some (l, t) → t = .bool → σ l = 0 ∨ σ l = 1

/-- A boolean expression has the value `0` or `1`. -/
theorem evalE_bool {e : Exp} (hty : inferE Γ e = some .bool) (hok : stateOK Γ σ) :
    evalE Γ σ e = 0 ∨ evalE Γ σ e = 1 := by
  cases e with
  | var x =>
    obtain ⟨l, hl⟩ := look_eq_some.1 hty
    rw [evalE, slotOf_of_lookLvl hl]
    exact hok x l .bool hl rfl
  | const n => simp [inferE] at hty
  | tt => exact .inr rfl
  | ff => exact .inl rfl
  | add a b => simp at hty
  | xor a b => simp at hty
  | slt a b =>
    rw [evalE]
    split_ifs
    · exact .inr rfl
    · exact .inl rfl

/-- Binding a value of the right type keeps the booleans. -/
theorem stateOK.bind {v : BitVec 32} (hok : stateOK Γ σ) (hv : t = .bool → v = 0 ∨ v = 1) :
    stateOK ((x, t) :: Γ) (upd σ Γ.length v) := by
  intro y l u hy hu
  rw [lookLvl] at hy
  split_ifs at hy with hyx
  · obtain ⟨rfl, rfl⟩ := Prod.mk.inj (Option.some.inj hy)
    simpa [upd] using hv hu
  · have hl := lookLvl_lt hy
    rw [upd, if_neg (by omega)]
    exact hok y l u hy hu

/-- Assigning a value of the right type keeps the booleans. -/
theorem stateOK.assign {v : BitVec 32} (hok : stateOK Γ σ) (hx : look Γ x = some t)
    (hv : t = .bool → v = 0 ∨ v = 1) : stateOK Γ (upd σ (slotOf Γ x) v) := by
  intro y l u hy hu
  obtain ⟨k, hk⟩ := look_eq_some.1 hx
  rw [slotOf_of_lookLvl hk, upd]
  split_ifs with hlk
  · subst hlk
    exact hv ((lookLvl_inj hk hy).2.trans hu)
  · exact hok y l u hy hu

/-- A value of a type, for `stateOK.bind` and `stateOK.assign`. -/
theorem evalE_of_infer {e : Exp} (hty : inferE Γ e = some t) (hok : stateOK Γ σ) :
    t = .bool → evalE Γ σ e = 0 ∨ evalE Γ σ e = 1 := by
  rintro rfl
  exact evalE_bool hty hok

/-- A well-typed statement leaves the cells alone whose binding is shadowed. -/
theorem BigStep.frame {s : Stmt} (h : BigStep Γ s σ σ') (hs : chkS Γ s = true) {l : ℕ}
    (hl : l < Γ.length) (hshadow : ∀ x t, lookLvl Γ x ≠ some (l, t)) : σ' l = σ l := by
  induction h with
  | skip => rfl
  | @letmut Γ x t e body σ σ' _ ih =>
    obtain ⟨-, hbody⟩ := chkS_letmut.1 hs
    refine (ih hbody (hl.trans (Nat.lt_succ_self _)) fun y u hy => ?_).trans ?_
    · rw [lookLvl] at hy
      split_ifs at hy with hyx
      · obtain ⟨rfl, -⟩ := Prod.mk.inj (Option.some.inj hy)
        exact lt_irrefl _ hl
      · exact hshadow y u hy
    · rw [upd, if_neg hl.ne]
  | @assign Γ x e σ =>
    obtain ⟨t, hx, -⟩ := chkS_assign.1 hs
    obtain ⟨k, hk⟩ := look_eq_some.1 hx
    rw [slotOf_of_lookLvl hk, upd, if_neg]
    rintro rfl
    exact hshadow x t hk
  | seq _ _ ih₁ ih₂ =>
    obtain ⟨hs₁, hs₂⟩ := chkS_seq.1 hs
    rw [ih₂ hs₂ hl hshadow, ih₁ hs₁ hl hshadow]
  | iteT _ _ ih => exact ih (chkS_ite.1 hs).1.2 hl hshadow
  | iteF _ _ ih => exact ih (chkS_ite.1 hs).2 hl hshadow
  | whileF => rfl
  | whileT _ _ _ ih₁ ih₂ =>
    rw [ih₂ hs hl hshadow, ih₁ (chkS_while.1 hs).2 hl hshadow]

/-- A well-typed statement keeps the booleans. -/
theorem BigStep.stateOK {s : Stmt} (h : BigStep Γ s σ σ') (hs : chkS Γ s = true)
    (hok : stateOK Γ σ) : TinyRust.stateOK Γ σ' := by
  induction h with
  | skip => exact hok
  | @letmut Γ x t e body σ σ' hbody ih =>
    obtain ⟨he, hs'⟩ := chkS_letmut.1 hs
    have hin := ih hs' (hok.bind (evalE_of_infer he hok))
    intro y l u hy hu
    have hl := lookLvl_lt hy
    by_cases hyx : y = x
    -- the binding of `y` is shadowed in the body, and visible again after it
    · have hframe : σ' l = upd σ Γ.length (evalE Γ σ e) l := by
        refine hbody.frame hs' (hl.trans (Nat.lt_succ_self _)) fun z v hz => ?_
        rw [lookLvl] at hz
        split_ifs at hz with hzx
        · obtain ⟨rfl, -⟩ := Prod.mk.inj (Option.some.inj hz)
          exact lt_irrefl _ hl
        · exact hzx ((lookLvl_inj hz hy).1.trans hyx)
      rw [hframe, upd, if_neg hl.ne]
      exact hok y l u hy hu
    · exact hin y l u (by rw [lookLvl, if_neg hyx, hy]) hu
  | assign =>
    obtain ⟨t, hx, he⟩ := chkS_assign.1 hs
    exact hok.assign hx (evalE_of_infer he hok)
  | seq _ _ ih₁ ih₂ =>
    obtain ⟨hs₁, hs₂⟩ := chkS_seq.1 hs
    exact ih₂ hs₂ (ih₁ hs₁ hok)
  | iteT _ _ ih => exact ih (chkS_ite.1 hs).1.2 hok
  | iteF _ _ ih => exact ih (chkS_ite.1 hs).2 hok
  | whileF => exact hok
  | whileT _ _ _ ih₁ ih₂ => exact ih₂ hs (ih₁ (chkS_while.1 hs).2 hok)

end Saltworks.TinyRust
