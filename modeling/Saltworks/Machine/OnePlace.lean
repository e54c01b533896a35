import Mathlib.Tactic.Common
import Mathlib.Data.Nat.Basic

/-!
# Exactly-once delivery through a one-place buffer

Items arrive at a buffer that holds at most one of them and are taken from it, both in discrete
time. An item that arrives in a cycle may be taken in the same cycle. When items only arrive at
an empty buffer and only the item held, or the one arriving, is taken, every item is taken at
most once and before the next arrival, and exactly once if there is a next arrival.

## Main definitions

* `OnePlace`: the arrivals, takes and contents of a one-place buffer over time.

## Main results

* `OnePlace.exists_arrive_of_take`: what is taken is the latest arrival, not taken before.
* `OnePlace.exactly_once`: one take between consecutive arrivals.
* `OnePlace.exists_arrive_between`: two takes have an arrival between them.
-/

/-- A one-place buffer over time. `held t` is its content at the start of cycle `t`, `arrive t`
the item that arrives in that cycle and `take t` the item that leaves. -/
structure OnePlace (α : Type*) where
  held : ℕ → Option α
  arrive : ℕ → Option α
  take : ℕ → Option α
  held_zero : held 0 = none
  held_of_arrive : ∀ t a, arrive t = some a → held t = none
  of_take : ∀ t a, take t = some a → held t = some a ∨ arrive t = some a
  held_succ_of_take : ∀ t a, take t = some a → held (t + 1) = none
  held_succ_of_arrive : ∀ t a, take t = none → arrive t = some a → held (t + 1) = some a
  held_succ : ∀ t, take t = none → arrive t = none → held (t + 1) = held t

namespace OnePlace

variable {α : Type*} (B : OnePlace α)

/-- What the buffer holds is its latest arrival, which has not been taken. -/
theorem exists_arrive_of_held {t : ℕ} {a : α} (h : B.held t = some a) :
    ∃ s < t, B.arrive s = some a ∧ (∀ u, s < u → u < t → B.arrive u = none) ∧
      ∀ u, s ≤ u → u < t → B.take u = none := by
  induction t with
  | zero => simp [B.held_zero] at h
  | succ t ih =>
    cases htake : B.take t with
    | some b => simp [B.held_succ_of_take t b htake] at h
    | none =>
      cases harr : B.arrive t with
      | some b =>
        rw [B.held_succ_of_arrive t b htake harr] at h
        refine ⟨t, by omega, by rw [harr, h], fun u _ _ => by omega, fun u _ _ => ?_⟩
        obtain rfl : u = t := by omega
        exact htake
      | none =>
        rw [B.held_succ t htake harr] at h
        obtain ⟨s, hs, ha, hnone, hfree⟩ := ih h
        refine ⟨s, by omega, ha, fun u hsu hut => ?_, fun u hsu hut => ?_⟩
        · obtain hut | rfl : u < t ∨ u = t := by omega
          · exact hnone u hsu hut
          · exact harr
        · obtain hut | rfl : u < t ∨ u = t := by omega
          · exact hfree u hsu hut
          · exact htake

/-- What is taken is the latest arrival, which has not been taken before. -/
theorem exists_arrive_of_take {r : ℕ} {a : α} (h : B.take r = some a) :
    ∃ s ≤ r, B.arrive s = some a ∧ (∀ u, s < u → u ≤ r → B.arrive u = none) ∧
      ∀ u, s ≤ u → u < r → B.take u = none := by
  cases harr : B.arrive r with
  | some b =>
    have hheld := B.held_of_arrive r b harr
    obtain hh | ha := B.of_take r a h
    · simp [hheld] at hh
    · exact ⟨r, le_rfl, ha, fun u _ _ => by omega, fun u _ _ => by omega⟩
  | none =>
    have hh : B.held r = some a := (B.of_take r a h).resolve_right (by simp [harr])
    obtain ⟨s, hs, ha, hnone, hfree⟩ := B.exists_arrive_of_held hh
    refine ⟨s, by omega, ha, fun u hsu hur => ?_, hfree⟩
    obtain hur | rfl : u < r ∨ u = r := by omega
    · exact hnone u hsu hur
    · exact harr

/-- Between two takes there is an arrival. -/
theorem exists_arrive_between {r r' : ℕ} {a b : α} (h : B.take r = some a)
    (h' : B.take r' = some b) (hlt : r < r') : ∃ s, r < s ∧ s ≤ r' ∧ B.arrive s = some b := by
  obtain ⟨s, hs, ha, -, hfree⟩ := B.exists_arrive_of_take h'
  refine ⟨s, ?_, hs, ha⟩
  by_contra hsr
  simp [hfree r (by omega) hlt] at h

/-- An arrival that is not taken before cycle `t` is held at cycle `t`, as long as nothing else
arrives. -/
theorem held_of_not_taken {s t : ℕ} {a : α} (h : B.arrive s = some a) (hst : s < t)
    (hnone : ∀ u, s < u → u < t → B.arrive u = none)
    (hfree : ∀ u, s ≤ u → u < t → B.take u = none) : B.held t = some a := by
  induction t, hst using Nat.le_induction with
  | base => exact B.held_succ_of_arrive s a (hfree s le_rfl (by omega)) h
  | succ t hst ih =>
    rw [B.held_succ t (hfree t (by omega) (by omega)) (hnone t (by omega) (by omega))]
    exact ih (fun u hu hut => hnone u hu (by omega)) fun u hu hut => hfree u hu (by omega)

/-- **Exactly once.** Between an arrival and the next one, counting the cycle of the first and
not that of the second, exactly one cycle takes an item, and it takes the first one. -/
theorem exactly_once {s t : ℕ} {a b : α} (h : B.arrive s = some a) (ht : B.arrive t = some b)
    (hst : s < t) (hnone : ∀ u, s < u → u < t → B.arrive u = none) :
    ∃ r, (s ≤ r ∧ r < t ∧ B.take r = some a) ∧
      ∀ r', s ≤ r' → r' < t → (B.take r').isSome → r' = r := by
  have hex : ∃ r, s ≤ r ∧ r < t ∧ (B.take r).isSome := by
    by_contra hno
    push Not at hno
    have hheld := B.held_of_not_taken h hst hnone fun u hsu hut => by
      simpa using hno u hsu hut
    simp [B.held_of_arrive t b ht] at hheld
  obtain ⟨r, hsr, hrt, hr⟩ := hex
  obtain ⟨c, hc⟩ := Option.isSome_iff_exists.mp hr
  refine ⟨r, ⟨hsr, hrt, ?_⟩, fun r' hsr' hrt' hr' => ?_⟩
  · obtain ⟨s', hs', ha', hnone', -⟩ := B.exists_arrive_of_take hc
    obtain hlt | rfl | hlt := lt_trichotomy s s'
    · simp [hnone s' hlt (by omega)] at ha'
    · rw [hc, ← ha', h]
    · simp [hnone' s hlt hsr] at h
  · obtain ⟨c', hc'⟩ := Option.isSome_iff_exists.mp hr'
    by_contra hne
    obtain hlt | hlt : r < r' ∨ r' < r := by omega
    · obtain ⟨u, hu, hu', hau⟩ := B.exists_arrive_between hc hc' hlt
      simp [hnone u (by omega) (by omega)] at hau
    · obtain ⟨u, hu, hu', hau⟩ := B.exists_arrive_between hc' hc hlt
      simp [hnone u (by omega) (by omega)] at hau

end OnePlace
