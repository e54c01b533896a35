import Mathlib.Logic.Function.Iterate
import Mathlib.Order.Nat
import Mathlib.Tactic.Common

/-!
# Segments of an autonomous run

A run of a function on states is cut where a condition ends. `Leads f P n s s'` is a segment: `n`
steps of `f` take `s` to `s'`, with `P` in every state but the last. `Stays f P n s` is a run that
has not left `P` in its first `n` steps. Segments compose, two segments from one state that both
end outside of `P` are the same, and a relation that the steps keep inside of `P` carries segments
from one system to another.

## Main definitions

* `Leads`, `Stays`.

## Main results

* `Leads.trans`, `Leads.stays`: composition.
* `Leads.unique`: a run leaves `P` once.
* `Leads.simulate`, `Stays.simulate`: transport along a simulation.
-/

namespace Synchronous

variable {α β : Type*} {f : α → α} {g : β → β} {P Q : α → Prop} {s s' s'' : α} {m n : ℕ}

/-- A segment of `n` steps with `P` before its end. -/
structure Leads (f : α → α) (P : α → Prop) (n : ℕ) (s s' : α) : Prop where
  arrives : f^[n] s = s'
  inside : ∀ t < n, P (f^[t] s)

/-- `P` holds at the start and after each of the first `n` steps. -/
def Stays (f : α → α) (P : α → Prop) (n : ℕ) (s : α) : Prop := ∀ t ≤ n, P (f^[t] s)

namespace Leads

theorem refl (s : α) : Leads f P 0 s s := ⟨rfl, fun t ht => absurd ht t.not_lt_zero⟩

theorem single (h : P s) : Leads f P 1 s (f s) := by
  refine ⟨rfl, fun t ht => ?_⟩
  obtain rfl : t = 0 := by omega
  exact h

/-- A state in the second of two successive segments. -/
theorem iterate_of_le (h : Leads f P m s s') {t : ℕ} (ht : m ≤ t) : f^[t] s = f^[t - m] s' := by
  rw [← h.arrives, ← Function.iterate_add_apply, Nat.sub_add_cancel ht]

theorem trans (h : Leads f P m s s') (h' : Leads f P n s' s'') : Leads f P (m + n) s s'' := by
  refine ⟨?_, fun t ht => ?_⟩
  · rw [h.iterate_of_le (Nat.le_add_right m n), Nat.add_sub_cancel_left, h'.arrives]
  · by_cases htm : t < m
    · exact h.inside t htm
    · rw [h.iterate_of_le (by omega)]
      exact h'.inside _ (by omega)

theorem mono (h : Leads f P n s s') (hPQ : ∀ x, P x → Q x) : Leads f Q n s s' :=
  ⟨h.arrives, fun t ht => hPQ _ (h.inside t ht)⟩

/-- A run stays in `P` along a segment, and then as long as it does from the segment's end. -/
theorem stays (h : Leads f P m s s') (h' : m ≤ n → Stays f P (n - m) s') : Stays f P n s := by
  intro t ht
  by_cases htm : t < m
  · exact h.inside t htm
  · rw [h.iterate_of_le (by omega)]
    exact h' (by omega) _ (by omega)

/-- A run leaves `P` once. -/
theorem unique (h : Leads f P m s s') (h' : Leads f P n s s'') (hs' : ¬P s') (hs'' : ¬P s'') :
    m = n ∧ s' = s'' := by
  obtain hlt | rfl | hgt := lt_trichotomy m n
  · exact absurd (h.arrives ▸ h'.inside m hlt) hs'
  · exact ⟨rfl, h.arrives.symm.trans h'.arrives⟩
  · exact absurd (h'.arrives ▸ h.inside n hgt) hs''

end Leads

theorem Stays.mono (h : Stays f P n s) (hPQ : ∀ x, P x → Q x) : Stays f Q n s :=
  fun t ht => hPQ _ (h t ht)

/-! ### Simulation -/

section Simulation

variable {R : α → β → Prop} {S : β → Prop} {b : β}

/-- A relation that steps from `P` keep holds as long as the run was in `P`. -/
theorem iterate_simulate (hstep : ∀ x y, R x y → P x → R (f x) (g y)) (hR : R s b)
    (hP : ∀ t < n, P (f^[t] s)) : R (f^[n] s) (g^[n] b) := by
  induction n with
  | zero => exact hR
  | succ n ih =>
    rw [Function.iterate_succ_apply', Function.iterate_succ_apply']
    exact hstep _ _ (ih fun t ht => hP t (by omega)) (hP n (by omega))

theorem Leads.simulate (hstep : ∀ x y, R x y → P x → R (f x) (g y))
    (hPS : ∀ x y, R x y → P x → S y) (h : Leads f P n s s') (hR : R s b) :
    ∃ b', Leads g S n b b' ∧ R s' b' := by
  refine ⟨g^[n] b, ⟨rfl, fun t ht => ?_⟩, ?_⟩
  · exact hPS _ _ (iterate_simulate hstep hR fun u hu => h.inside u (by omega)) (h.inside t ht)
  · rw [← h.arrives]
    exact iterate_simulate hstep hR h.inside

theorem Stays.simulate (hstep : ∀ x y, R x y → P x → R (f x) (g y))
    (hPS : ∀ x y, R x y → P x → S y) (h : Stays f P n s) (hR : R s b) : Stays g S n b := by
  intro t ht
  exact hPS _ _ (iterate_simulate hstep hR fun u hu => h u (by omega)) (h t ht)

end Simulation

end Synchronous
