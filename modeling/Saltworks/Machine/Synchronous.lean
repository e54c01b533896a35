import Mathlib.Algebra.GroupWithZero.Nat
import Mathlib.Tactic.Common

/-!
# Synchronous machines and their runs

A synchronous machine reads one input in every clock cycle and takes one state to the next at
the clock edge. A run is indexed by the cycle: `run s inp t` is the state during cycle `t`, so
cycle `t` reads `inp t` and ends in `run s inp (t + 1)`.

* `Machine.run_add` splits a run, which is how a multi-cycle transaction is executed in parts.
* `Machine.run_invariant` is the induction rule for a property kept by every step.
* `Machine.run_simulation` relates the runs of two machines step by step.
* `counter_history` reads back what a counter that only restarts or advances has seen.

## Main definitions

* `Machine`, `Machine.run`.
-/

namespace Synchronous

/-- A machine clocked by one edge: `step s i` is the state after the edge of a cycle that
started in `s` and read the input `i`. -/
structure Machine (S I : Type*) where
  step : S → I → S

namespace Machine

variable {S I T J : Type*} (M : Machine S I)

/-- The state during cycle `t` of the run from `s` on the input stream `inp`. -/
def run (s : S) (inp : ℕ → I) : ℕ → S
  | 0 => s
  | t + 1 => M.step (run s inp t) (inp t)

@[simp] theorem run_zero (s : S) (inp : ℕ → I) : M.run s inp 0 = s := rfl

theorem run_succ (s : S) (inp : ℕ → I) (t : ℕ) :
    M.run s inp (t + 1) = M.step (M.run s inp t) (inp t) := rfl

/-- A run continues from any of its states on the rest of the input stream. -/
theorem run_add (s : S) (inp : ℕ → I) (m n : ℕ) :
    M.run s inp (m + n) = M.run (M.run s inp m) (fun t => inp (m + t)) n := by
  induction n with
  | zero => rfl
  | succ n ih => rw [← Nat.add_assoc, run_succ, run_succ, ih]

/-- A property of the first state that every step keeps holds during every cycle. -/
theorem run_invariant {P : S → Prop} {s : S} {inp : ℕ → I} (h0 : P s)
    (hstep : ∀ s i, P s → P (M.step s i)) (t : ℕ) : P (M.run s inp t) := by
  induction t with
  | zero => exact h0
  | succ t ih => exact hstep _ _ ih

/-- A relation kept by every pair of steps that a run takes holds during every cycle before
the first pair that does not keep it. -/
theorem run_simulation (N : Machine T J) {R : S → T → Prop} {s : S} {t : T} {inp : ℕ → I}
    {jnp : ℕ → J} (h0 : R s t) (n : ℕ)
    (hstep : ∀ k < n, R (M.run s inp k) (N.run t jnp k) →
      R (M.run s inp (k + 1)) (N.run t jnp (k + 1))) :
    ∀ k ≤ n, R (M.run s inp k) (N.run t jnp k) := by
  intro k hk
  induction k with
  | zero => exact h0
  | succ k ih => exact hstep k (by omega) (ih (by omega))

end Machine

/-! ### Counters -/

/-- A counter starts at `0` and in every cycle restarts at `0` or advances by one; when it
advances it keeps its tag and the cycle meets `Q`. Then a count of `n` means that the last `n`
cycles counted `0, …, n - 1` without a restart, all with the same tag and all meeting `Q`. -/
theorem counter_history {α : Type*} (pos : ℕ → ℕ) (tag : ℕ → α) (Q : ℕ → Prop)
    (h0 : pos 0 = 0)
    (hstep : ∀ t, pos (t + 1) = 0 ∨ (pos (t + 1) = pos t + 1 ∧ tag (t + 1) = tag t ∧ Q t))
    (t : ℕ) :
    pos t ≤ t ∧ ∀ j < pos t,
      pos (t - pos t + j) = j ∧ tag (t - pos t + j) = tag t ∧ Q (t - pos t + j) := by
  induction t with
  | zero => simp [h0]
  | succ t ih =>
    rcases hstep t with hz | ⟨hp, htag, hQ⟩
    · simp [hz]
    · obtain ⟨hle, hhist⟩ := ih
      have hstart : t + 1 - pos (t + 1) = t - pos t := by omega
      refine ⟨by omega, fun j hj => ?_⟩
      rw [hstart, htag]
      obtain hj | rfl : j < pos t ∨ j = pos t := by omega
      · exact hhist j hj
      · rw [Nat.sub_add_cancel hle]
        exact ⟨rfl, rfl, hQ⟩

/-! ### Port numbers

Definitions that name ports by literals of `Fin n` take these instances, and so mean the same
term in every module.
-/

instance (priority := 2000) neZero_two : NeZero 2 := ⟨by decide⟩

instance (priority := 2000) neZero_three : NeZero 3 := ⟨by decide⟩

instance (priority := 2000) neZero_four : NeZero 4 := ⟨by decide⟩

instance (priority := 2000) neZero_eight : NeZero 8 := ⟨by decide⟩

instance (priority := 2000) neZero_twentyFour : NeZero 24 := ⟨by decide⟩

end Synchronous
