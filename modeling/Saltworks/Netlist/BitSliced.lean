import Mathlib.Data.Nat.Bitwise
import Mathlib.Tactic.Common
import Saltworks.Netlist.Datum

/-!
# Bit-sliced evaluation

A netlist with `n` inputs has `2 ^ n` input configurations. Bit-sliced evaluation carries the
truth table of every net as one number, whose bit `j` is the value of the net under configuration
`j`, so that a netlist is evaluated once for all configurations (`runS`). The table of an input is
its column (`col`).

Two netlists have equal tables at their outputs if and only if they agree under every input
configuration: the tables have no bits beyond the configurations, and a netlist reads no input
beyond its own.

## Main definitions

* `stepS`, `runS`, `col`, `outsOf`: bit-sliced evaluation.
* `Agree`: the tables and the values under one configuration.
* `Netlist.InputsBelow`: a netlist with `n` inputs at most.

## Main results

* `reflect`: bit `j` of the tables is the evaluation under configuration `j`.
* `outsOf_eq_iff`: equal tables are equal functions.
-/

namespace Saltworks.Silicon

/-! ### Tables -/

/-- The table of one gate, `W` configurations wide. -/
def stepS (W : ℕ) (cols : ℕ → ℕ) (env : List ℕ) : Gate → ℕ
  | .inp i => cols i
  | .const b => if b then 2 ^ W - 1 else 0
  | .not a => (2 ^ W - 1) ^^^ env.getD a 0
  | .and a b => env.getD a 0 &&& env.getD b 0
  | .or a b => env.getD a 0 ||| env.getD b 0
  | .xor a b => env.getD a 0 ^^^ env.getD b 0

/-- The tables after the gates of a netlist. -/
def runS (W : ℕ) (cols : ℕ → ℕ) (env : List ℕ) : Netlist → List ℕ
  | [] => env
  | g :: gs => runS W cols (env ++ [stepS W cols env g]) gs

/-- The column of input `i` of `n`: bit `j` is bit `i` of `j`. -/
def col : ℕ → ℕ → ℕ
  | 0, _ => 0
  | n + 1, i =>
    if i = n then 2 ^ 2 ^ n * (2 ^ 2 ^ n - 1) else 2 ^ 2 ^ n * col n i + col n i

/-- The tables of a run at the given nets. -/
def outsOf (run : List ℕ) (idx : List ℕ) : List ℕ := idx.map fun k => run.getD k 0

/-! ### Columns -/

theorem col_lt (n i : ℕ) : col n i < 2 ^ 2 ^ n := by
  induction n generalizing i with
  | zero => exact Nat.zero_lt_two
  | succ n ih =>
    have hpos : 0 < 2 ^ 2 ^ n := Nat.two_pow_pos _
    rw [pow_succ 2 n, pow_mul, sq, col]
    split_ifs
    · exact Nat.mul_lt_mul_of_pos_left (Nat.sub_lt hpos Nat.zero_lt_one) hpos
    · calc 2 ^ 2 ^ n * col n i + col n i < 2 ^ 2 ^ n * col n i + 2 ^ 2 ^ n :=
            Nat.add_lt_add_left (ih i) _
        _ = 2 ^ 2 ^ n * (col n i + 1) := (Nat.mul_succ _ _).symm
        _ ≤ 2 ^ 2 ^ n * 2 ^ 2 ^ n := Nat.mul_le_mul_left _ (ih i)

/-- Bit `j` of the column of input `i` is the value of the input under configuration `j`. -/
theorem testBit_col {n i j : ℕ} (hi : i < n) (hj : j < 2 ^ n) :
    (col n i).testBit j = j.testBit i := by
  induction n generalizing i j with
  | zero => omega
  | succ n ih =>
    -- the upper half of the configurations has bit `n` set
    have hhigh (h : ¬j < 2 ^ n) : j = 2 ^ n * 1 + (j - 2 ^ n) ∧ j - 2 ^ n < 2 ^ n := by
      rw [pow_succ] at hj
      omega
    rw [col]
    split_ifs with hin
    · have hzero : 2 ^ 2 ^ n * (2 ^ 2 ^ n - 1) = 2 ^ 2 ^ n * (2 ^ 2 ^ n - 1) + 0 := rfl
      rw [hin, hzero, Nat.testBit_two_pow_mul_add _ (Nat.two_pow_pos _)]
      split_ifs with h
      · rw [Nat.zero_testBit, Nat.testBit_lt_two_pow h]
      · obtain ⟨hsplit, hlt⟩ := hhigh h
        rw [Nat.testBit_two_pow_sub_one, decide_eq_true hlt, hsplit,
          Nat.testBit_two_pow_mul_add _ hlt, if_neg (Nat.lt_irrefl n), Nat.sub_self]
        rfl
    · have hin' : i < n := by omega
      rw [Nat.testBit_two_pow_mul_add _ (col_lt n i)]
      split_ifs with h
      · exact ih hin' h
      · obtain ⟨hsplit, hlt⟩ := hhigh h
        rw [ih hin' hlt]
        conv_rhs => rw [hsplit, Nat.testBit_two_pow_mul_add _ hlt, if_pos hin']

/-! ### Reflection -/

/-- The tables show, under configuration `j`, the values of the nets. -/
structure Agree (j : ℕ) (envS : List ℕ) (envP : List Bool) : Prop where
  length : envS.length = envP.length
  testBit : ∀ k, (envS.getD k 0).testBit j = envP.getD k false

theorem agree_nil (j : ℕ) : Agree j [] [] := ⟨rfl, fun _ => Nat.zero_testBit j⟩

theorem getD_concat {α : Type*} (l : List α) (x d : α) (k : ℕ) :
    (l ++ [x]).getD k d = if k = l.length then x else l.getD k d := by
  split_ifs with h
  · rw [h, List.getD_append_right _ _ _ _ (Nat.le_refl _), Nat.sub_self]
    rfl
  · rcases Nat.lt_or_gt_of_ne h with h | h
    · exact List.getD_append _ _ _ _ h
    · rw [List.getD_eq_default _ _ (Nat.le_of_lt h), List.getD_eq_default]
      rw [List.length_append, List.length_singleton]
      exact h

theorem agree_concat {j x : ℕ} {b : Bool} {envS : List ℕ} {envP : List Bool}
    (h : Agree j envS envP) (hx : x.testBit j = b) : Agree j (envS ++ [x]) (envP ++ [b]) := by
  refine ⟨by simp [h.length], fun k => ?_⟩
  rw [getD_concat, getD_concat, h.length]
  split_ifs
  · exact hx
  · exact h.testBit k

section Reflect

variable {W j : ℕ} (hj : j < W) {cols : ℕ → ℕ} {ins : ℕ → Bool}

include hj in
/-- The table of a gate shows the value of the gate. -/
theorem testBit_stepS {envS : List ℕ} {envP : List Bool} (h : Agree j envS envP) {g : Gate}
    (hinp : ∀ i, g = .inp i → (cols i).testBit j = ins i) :
    (stepS W cols envS g).testBit j = stepP ins envP g := by
  have hmask : (2 ^ W - 1).testBit j = true := by
    rw [Nat.testBit_two_pow_sub_one, decide_eq_true hj]
  cases g with
  | inp i => exact hinp i rfl
  | const b =>
    cases b with
    | true => exact hmask
    | false => exact Nat.zero_testBit j
  | not a => rw [stepS, stepP, Nat.testBit_xor, hmask, Bool.true_xor, h.testBit]
  | and a b => rw [stepS, stepP, Nat.testBit_and, h.testBit, h.testBit]
  | or a b => rw [stepS, stepP, Nat.testBit_or, h.testBit, h.testBit]
  | xor a b => rw [stepS, stepP, Nat.testBit_xor, h.testBit, h.testBit]

include hj in
/-- **Reflection.** Bit `j` of the tables is the evaluation under configuration `j`. -/
theorem reflect {gs : Netlist} (hinp : ∀ i, Gate.inp i ∈ gs → (cols i).testBit j = ins i)
    {envS : List ℕ} {envP : List Bool} (h : Agree j envS envP) :
    Agree j (runS W cols envS gs) (runP ins envP gs) := by
  induction gs generalizing envS envP with
  | nil => exact h
  | cons g gs ih =>
    refine ih (fun i hi => hinp i (List.mem_cons_of_mem g hi)) (agree_concat h ?_)
    exact testBit_stepS hj h fun i hi => hinp i (hi ▸ List.mem_cons_self)

end Reflect

/-! ### Tables without further bits -/

theorem stepS_lt {W : ℕ} {cols : ℕ → ℕ} (hcols : ∀ i, cols i < 2 ^ W) {env : List ℕ}
    (henv : ∀ k, env.getD k 0 < 2 ^ W) (g : Gate) : stepS W cols env g < 2 ^ W := by
  have hmask : 2 ^ W - 1 < 2 ^ W := Nat.sub_lt (Nat.two_pow_pos W) Nat.zero_lt_one
  cases g with
  | inp i => exact hcols i
  | const b =>
    cases b with
    | true => exact hmask
    | false => exact Nat.two_pow_pos W
  | not a => exact Nat.xor_lt_two_pow hmask (henv a)
  | and a b => exact Nat.and_lt_two_pow _ (henv b)
  | or a b => exact Nat.or_lt_two_pow (henv a) (henv b)
  | xor a b => exact Nat.xor_lt_two_pow (henv a) (henv b)

theorem runS_lt {W : ℕ} {cols : ℕ → ℕ} (hcols : ∀ i, cols i < 2 ^ W) {env : List ℕ}
    (henv : ∀ k, env.getD k 0 < 2 ^ W) (gs : Netlist) (k : ℕ) :
    (runS W cols env gs).getD k 0 < 2 ^ W := by
  induction gs generalizing env with
  | nil => exact henv k
  | cons g gs ih =>
    refine ih fun k => ?_
    rw [getD_concat]
    split_ifs
    · exact stepS_lt hcols henv g
    · exact henv k

/-! ### Equal tables -/

namespace Netlist

/-- The input gates read inputs below `n`. -/
def InputsBelow (n : ℕ) (gates : Netlist) : Prop := ∀ i, Gate.inp i ∈ gates → i < n

theorem InputsFirst.inputsBelow {n : ℕ} {gates : Netlist} (h : InputsFirst n gates) :
    InputsBelow n gates := by
  intro i hi
  obtain ⟨k, hk⟩ := List.mem_iff_getElem?.1 hi
  obtain ⟨hlt, rfl⟩ := (h k i).1 hk
  exact hlt

/-- A netlist depends on the inputs that it reads. -/
theorem runP_congr {gs : Netlist} {ins ins' : ℕ → Bool}
    (h : ∀ i, Gate.inp i ∈ gs → ins i = ins' i) (env : List Bool) :
    runP ins env gs = runP ins' env gs := by
  induction gs generalizing env with
  | nil => rfl
  | cons g gs ih =>
    have hstep : stepP ins env g = stepP ins' env g := by
      cases g with
      | inp i => exact h i List.mem_cons_self
      | _ => rfl
    rw [runP, runP, hstep]
    exact ih (fun i hi => h i (List.mem_cons_of_mem g hi)) _

end Netlist

/-- The configuration of an input assignment. -/
def config (n : ℕ) (ins : ℕ → Bool) : ℕ := Nat.ofBits fun i : Fin n => ins i

theorem config_lt (n : ℕ) (ins : ℕ → Bool) : config n ins < 2 ^ n := Nat.ofBits_lt_two_pow _

theorem testBit_config {n i : ℕ} (hi : i < n) (ins : ℕ → Bool) :
    (config n ins).testBit i = ins i := by
  rw [config, Nat.testBit_ofBits_lt _ _ hi]

/-- A configuration is that of its bits. -/
theorem config_testBit {n j : ℕ} (hj : j < 2 ^ n) : config n (fun i => j.testBit i) = j := by
  refine Nat.eq_of_testBit_eq fun i => ?_
  by_cases hi : i < n
  · exact testBit_config hi _
  · have hle := Nat.pow_le_pow_right (by decide : 0 < 2) (Nat.le_of_not_lt hi)
    rw [Nat.testBit_lt_two_pow ((config_lt n _).trans_le hle),
      Nat.testBit_lt_two_pow (hj.trans_le hle)]

/-- The table of a net shows its value under every input assignment. -/
theorem testBit_runS {n : ℕ} {gs : Netlist} (hgs : gs.InputsBelow n) (ins : ℕ → Bool) (k : ℕ) :
    ((runS (2 ^ n) (col n) [] gs).getD k 0).testBit (config n ins) = gs.value ins k := by
  refine (reflect (config_lt n ins) (fun i hi => ?_) (agree_nil _)).testBit k
  rw [testBit_col (hgs i hi) (config_lt n ins), testBit_config (hgs i hi)]

/-- **Equal tables are equal functions.** Two netlists with `n` inputs have the same tables at
their outputs if and only if the outputs agree under every input assignment. -/
theorem outsOf_eq_iff {n : ℕ} {gs hs : Netlist} (hgs : gs.InputsBelow n) (hhs : hs.InputsBelow n)
    (is js : List ℕ) :
    outsOf (runS (2 ^ n) (col n) [] gs) is = outsOf (runS (2 ^ n) (col n) [] hs) js ↔
      ∀ ins, is.map (gs.value ins) = js.map (hs.value ins) := by
  have hbits (gs : Netlist) (hgs : gs.InputsBelow n) (idx : List ℕ) (ins : ℕ → Bool) :
      idx.map (gs.value ins) =
        (outsOf (runS (2 ^ n) (col n) [] gs) idx).map fun v => v.testBit (config n ins) := by
    rw [outsOf, List.map_map]
    exact List.map_congr_left fun k _ => (testBit_runS hgs ins k).symm
  constructor
  · intro h ins
    rw [hbits gs hgs, hbits hs hhs, h]
  · intro h
    have hlt (gs : Netlist) (k : ℕ) : (runS (2 ^ n) (col n) [] gs).getD k 0 < 2 ^ 2 ^ n :=
      runS_lt (col_lt n) (fun _ => Nat.two_pow_pos _) gs k
    have hlen : is.length = js.length := by
      simpa using congrArg List.length (h fun _ => false)
    refine List.ext_getElem (by simpa [outsOf] using hlen) fun m hm hm' => ?_
    simp only [outsOf, List.getElem_map]
    simp only [outsOf, List.length_map] at hm hm'
    refine Nat.eq_of_testBit_eq fun j => ?_
    by_cases hj : j < 2 ^ n
    · -- the assignment of configuration `j`
      have hval := congrArg (fun l => l[m]?) (h fun i => j.testBit i)
      simp only [List.getElem?_map, List.getElem?_eq_getElem hm, List.getElem?_eq_getElem hm',
        Option.map_some, Option.some.injEq] at hval
      rw [← config_testBit hj, testBit_runS hgs, testBit_runS hhs, hval]
    · have hle := Nat.pow_le_pow_right (by decide : 0 < 2) (Nat.le_of_not_lt hj)
      rw [Nat.testBit_lt_two_pow ((hlt gs _).trans_le hle),
        Nat.testBit_lt_two_pow ((hlt hs _).trans_le hle)]

end Saltworks.Silicon
