import Mathlib.Data.List.GetD
import Mathlib.Data.Nat.Basic
import Mathlib.Order.Basic
import Mathlib.Tactic.Common

/-!
# Straight-line netlists

A netlist datum is a straight-line program: gate `k` defines net `k` from nets with smaller
indices. This is the datum that the importer emits and that the equivalence proofs evaluate.

* `value_append` reads a net of a netlist that has since grown.
* `value_snoc` reads the net that was added last.
* `value_of_getElem?` reads a net through its gate.
* `ordered_snoc` keeps the operands in front of the gates that read them.

## Main definitions

* `Gate`, `Netlist`, `stepP`, `runP`: the data and their pointwise evaluation.
* `value`: the value of a net under an input configuration.
* `Ordered`: every operand of a gate has a smaller index.
* `InputsFirst`: the input gates stand in front, in order.
-/

namespace Saltworks.Silicon

/-- A gate. Its operands are indices into the net environment. -/
inductive Gate where
  | inp (i : ℕ)
  | const (b : Bool)
  | not (a : ℕ)
  | and (a b : ℕ)
  | or (a b : ℕ)
  | xor (a b : ℕ)
  deriving Repr, DecidableEq

/-- The nets that a gate reads. -/
def Gate.operands : Gate → List ℕ
  | .inp _ | .const _ => []
  | .not a => [a]
  | .and a b | .or a b | .xor a b => [a, b]

/-- Net `k` is defined by gate `k`. -/
abbrev Netlist := List Gate

/-- The value of one gate in an environment. -/
def stepP (ins : ℕ → Bool) (env : List Bool) : Gate → Bool
  | .inp i => ins i
  | .const b => b
  | .not a => !env.getD a false
  | .and a b => env.getD a false && env.getD b false
  | .or a b => env.getD a false || env.getD b false
  | .xor a b => env.getD a false ^^ env.getD b false

/-- The environment after the gates of a netlist, under one input configuration. -/
def runP (ins : ℕ → Bool) (env : List Bool) : Netlist → List Bool
  | [] => env
  | g :: gs => runP ins (env ++ [stepP ins env g]) gs

namespace Netlist

/-- The value of net `k` under one input configuration. -/
def value (ins : ℕ → Bool) (gates : Netlist) (k : ℕ) : Bool :=
  (runP ins [] gates).getD k false

/-- Every operand of a gate is the index of an earlier gate. -/
def Ordered (gates : Netlist) : Prop :=
  ∀ (k : ℕ) (g : Gate), gates[k]? = some g → ∀ a ∈ g.operands, a < k

/-- The input gates are the first `n` gates, and gate `k` of them reads input `k`. -/
def InputsFirst (n : ℕ) (gates : Netlist) : Prop :=
  ∀ k i : ℕ, gates[k]? = some (.inp i) ↔ k < n ∧ i = k

/-! ### Evaluation of a growing netlist -/

variable (ins : ℕ → Bool)

theorem runP_append (env : List Bool) (gs hs : Netlist) :
    runP ins env (gs ++ hs) = runP ins (runP ins env gs) hs := by
  induction gs generalizing env with
  | nil => rfl
  | cons g gs ih => exact ih _

theorem length_runP (env : List Bool) (gs : Netlist) :
    (runP ins env gs).length = env.length + gs.length := by
  induction gs generalizing env with
  | nil => rfl
  | cons g gs ih =>
    rw [runP, ih, List.length_append, List.length_singleton, List.length_cons]
    omega

theorem isPrefix_runP (env : List Bool) (gs : Netlist) : env <+: runP ins env gs := by
  induction gs generalizing env with
  | nil => exact List.prefix_rfl
  | cons g gs ih => exact (List.prefix_append _ _).trans (ih _)

/-- A net keeps its value while the netlist grows. -/
theorem value_append {gs hs : Netlist} {k : ℕ} (hk : k < gs.length) :
    value ins (gs ++ hs) k = value ins gs k := by
  rw [value, value, runP_append]
  obtain ⟨rest, hrest⟩ := isPrefix_runP ins (runP ins [] gs) hs
  rw [← hrest, List.getD_append _ _ _ _ (by rw [length_runP]; simpa using hk)]

theorem value_mono {gs hs : Netlist} (h : gs <+: hs) {k : ℕ} (hk : k < gs.length) :
    value ins hs k = value ins gs k := by
  obtain ⟨rest, rfl⟩ := h
  exact value_append ins hk

/-- The value of the net that was added last. -/
theorem value_snoc (gs : Netlist) (g : Gate) :
    value ins (gs ++ [g]) gs.length = stepP ins (runP ins [] gs) g := by
  have hlen : (runP ins [] gs).length = gs.length := by rw [length_runP]; simp
  rw [value, runP_append, runP, runP, List.getD_append_right _ _ _ _ hlen.le, hlen, Nat.sub_self]
  rfl

/-- A net has the value of its gate in the environment of the gates in front of it. -/
theorem value_of_getElem? {gs : Netlist} {k : ℕ} {g : Gate} (h : gs[k]? = some g) :
    value ins gs k = stepP ins (runP ins [] (gs.take k)) g := by
  obtain ⟨hk, rfl⟩ := List.getElem?_eq_some_iff.mp h
  have hlen : (gs.take k).length = k := List.length_take_of_le hk.le
  have hpre : gs.take k ++ [gs[k]] <+: gs := by
    rw [List.take_append_getElem]
    exact List.take_prefix _ _
  have hsnoc := value_snoc ins (gs.take k) gs[k]
  rw [hlen] at hsnoc
  rw [value_mono ins hpre (by rw [List.length_append, hlen]; simp), hsnoc]

/-! ### Well-formedness of a growing netlist -/

variable {ins}

theorem ordered_snoc {gs : Netlist} {g : Gate} (h : Ordered gs)
    (hg : ∀ a ∈ g.operands, a < gs.length) : Ordered (gs ++ [g]) := by
  intro k g' hk a ha
  rcases lt_trichotomy k gs.length with hlt | rfl | hgt
  · rw [List.getElem?_append_left hlt] at hk
    exact h k g' hk a ha
  · rw [List.getElem?_append_right le_rfl, Nat.sub_self] at hk
    obtain rfl : g = g' := by simpa using hk
    exact hg a ha
  · rw [List.getElem?_eq_none (by simp; omega)] at hk
    cases hk

/-- A gate that is no input leaves the input gates in front. -/
theorem inputsFirst_snoc {n : ℕ} {gs : Netlist} {g : Gate} (h : InputsFirst n gs)
    (hn : n ≤ gs.length) (hg : ∀ i, g ≠ .inp i) : InputsFirst n (gs ++ [g]) := by
  intro k i
  rcases lt_trichotomy k gs.length with hlt | rfl | hgt
  · rw [List.getElem?_append_left hlt]
    exact h k i
  · rw [List.getElem?_append_right le_rfl, Nat.sub_self]
    have hne : g ≠ .inp i := hg i
    simp [hne]
    omega
  · rw [List.getElem?_eq_none (by simp; omega)]
    simp
    omega

end Netlist

end Saltworks.Silicon
