import Mathlib.Data.Set.Defs
import Mathlib.Tactic.Common

/-!
# Settled values of a network

A network has leaves, whose values are given, and nets that are driven by functions of other
nets. A net settles to a value when it is a leaf with that value, or when all nets that its
drivers read have settled and all of its drivers then give it that value. A net with drivers that
disagree, a net on a cycle and a net without a driver do not settle.

* `Settles.unique`: a net settles to at most one value.
* `Settles.exists_value`: the settled values are those of one valuation.
* `Settles.of_single`: a net with one driver settles when the nets that it reads settle.
* `Settles.driver`: every driver of a net that settles gives it its value.

## Main definitions

* `Driver`: a function of the values of finitely many nets.
* `Settles`: the settled values.
-/

/-- A partial function of the values of the nets `reads`. -/
structure Driver (N V : Type*) where
  reads : List N
  value : (N → V) → Option V
  value_congr : ∀ w w' : N → V, (∀ m ∈ reads, w m = w' m) → value w = value w'

/-- The driver that repeats the value of a net. -/
def Driver.copy {N V : Type*} (m : N) : Driver N V where
  reads := [m]
  value w := some (w m)
  value_congr w w' h := by rw [h m List.mem_cons_self]

/-- A driver that reads no net: a constant, which may be unknown. -/
def Driver.const {N V : Type*} (v : Option V) : Driver N V where
  reads := []
  value _ := v
  value_congr _ _ _ := rfl

/-- A net settles to a value, where `leaf` gives the leaves and `drives` the drivers. -/
inductive Settles {N V : Type*} (leaf : N → Option V) (drives : N → Set (Driver N V)) :
    N → V → Prop
  | leaf {n : N} {v : V} (h : leaf n = some v) : Settles leaf drives n v
  | driven {n : N} {v : V} (w : N → V) (hn : leaf n = none) (hd : (drives n).Nonempty)
      (hread : ∀ d ∈ drives n, ∀ m ∈ d.reads, Settles leaf drives m (w m))
      (hval : ∀ d ∈ drives n, d.value w = some v) : Settles leaf drives n v

namespace Settles

variable {N V : Type*} {leaf : N → Option V} {drives : N → Set (Driver N V)} {n : N} {v v' : V}

theorem eq_of_leaf (h : Settles leaf drives n v) (hn : leaf n = some v') : v = v' := by
  cases h with
  | leaf h => exact Option.some.inj (h.symm.trans hn)
  | driven _ hnone => rw [hn] at hnone; cases hnone

/-- A driver of a net that settles reads nets that settle and gives the net its value. -/
theorem driver (h : Settles leaf drives n v) (hn : leaf n = none) {d : Driver N V}
    (hd : d ∈ drives n) :
    ∃ w : N → V, (∀ m ∈ d.reads, Settles leaf drives m (w m)) ∧ d.value w = some v := by
  cases h with
  | leaf h => rw [hn] at h; cases h
  | driven w _ _ hread hval => exact ⟨w, hread d hd, hval d hd⟩

/-- A net settles to at most one value. -/
theorem unique (h : Settles leaf drives n v) (h' : Settles leaf drives n v') : v = v' := by
  induction h generalizing v' with
  | leaf h => exact (h'.eq_of_leaf h).symm
  | driven w hn hd _ hval ih =>
    obtain ⟨d, hd⟩ := hd
    obtain ⟨w', hread', hval'⟩ := h'.driver hn hd
    have hw : d.value w = d.value w' :=
      d.value_congr w w' fun m hm => ih d hd m hm (hread' m hm)
    exact Option.some.inj ((hval d hd).symm.trans (hw.trans hval'))

/-- The settled values are those of one valuation. -/
theorem exists_value [Nonempty V] (leaf : N → Option V) (drives : N → Set (Driver N V)) :
    ∃ w : N → V, ∀ n v, Settles leaf drives n v → w n = v := by
  classical
  have hex (n : N) : ∃ v', ∀ v, Settles leaf drives n v → v' = v := by
    by_cases h : ∃ v, Settles leaf drives n v
    · obtain ⟨v', h⟩ := h
      exact ⟨v', fun v hv => h.unique hv⟩
    · exact ⟨Classical.arbitrary V, fun v hv => absurd ⟨v, hv⟩ h⟩
  choose w hw using hex
  exact ⟨w, hw⟩

/-- A net with a single driver settles when the nets that it reads settle. -/
theorem of_single (hn : leaf n = none) {d : Driver N V} (hd : d ∈ drives n)
    (hsingle : ∀ d' ∈ drives n, d' = d) (w : N → V)
    (hread : ∀ m ∈ d.reads, Settles leaf drives m (w m)) (hval : d.value w = some v) :
    Settles leaf drives n v := by
  refine .driven w hn ⟨d, hd⟩ (fun d' hd' => ?_) fun d' hd' => ?_
  · rw [hsingle d' hd']
    exact hread
  · rw [hsingle d' hd']
    exact hval

end Settles
