import Mathlib.Data.List.ReduceOption
import Saltworks.Machine.Synchronous

/-!
# Simulation of one machine by blocks of steps of another

A synchronous machine can also be driven by a finite list of inputs: `feed` is the state after
it, `trace` what an observer sees in its cycles. A machine `N` simulates `M` in blocks if every
step of `M` corresponds to a list of steps of `N`, one step or several, that leads from the image
of the first state to the image of the second. Then the same holds of every run, and what is seen
of `N` is what its blocks show, one after the other.

An observer of both machines may skip some of the cycles of `N`. If what he sees of each block is
what he sees of its step, he cannot tell the machines apart (`BlockSimulation.visible_blocks`).

## Main definitions

* `Machine.feed`, `Machine.trace`: the state after a list of inputs, and the values shown.
* `BlockSimulation`: simulation of steps by blocks of steps.
* `BlockSimulation.blocks`, `BlockSimulation.shown`: the inputs of all blocks, and what they show.

## Main results

* `Machine.filterMap_trace_conserved`: items that arrive in a run leave in order.
* `Machine.foldl_filterMap_trace`: a view that changes with the events of a run.
* `Machine.getElem?_trace_inputs`: a run on a stream, seen as a list.
* `BlockSimulation.feed_blocks`, `BlockSimulation.trace_blocks`,
  `BlockSimulation.visible_blocks`: simulation of runs.
-/

namespace Synchronous

namespace Machine

variable {S I O : Type*} (M : Machine S I)

/-- The state after the inputs of a list. -/
def feed (s : S) : List I → S
  | [] => s
  | i :: is => feed (M.step s i) is

/-- What the output `out` shows in the cycles of a list of inputs. -/
def trace (out : S → I → O) (s : S) : List I → List O
  | [] => []
  | i :: is => out s i :: trace out (M.step s i) is

@[simp] theorem feed_nil (s : S) : M.feed s [] = s := rfl

@[simp] theorem feed_cons (s : S) (i : I) (is : List I) :
    M.feed s (i :: is) = M.feed (M.step s i) is := rfl

@[simp] theorem trace_nil (out : S → I → O) (s : S) : M.trace out s [] = [] := rfl

@[simp] theorem trace_cons (out : S → I → O) (s : S) (i : I) (is : List I) :
    M.trace out s (i :: is) = out s i :: M.trace out (M.step s i) is := rfl

theorem feed_append (s : S) (is js : List I) :
    M.feed s (is ++ js) = M.feed (M.feed s is) js := by
  induction is generalizing s with
  | nil => rfl
  | cons i is ih => exact ih _

theorem trace_append (out : S → I → O) (s : S) (is js : List I) :
    M.trace out s (is ++ js) = M.trace out s is ++ M.trace out (M.feed s is) js := by
  induction is generalizing s with
  | nil => rfl
  | cons i is ih => exact congrArg (out s i :: ·) (ih _)

@[simp] theorem length_trace (out : S → I → O) (s : S) (is : List I) :
    (M.trace out s is).length = is.length := by
  induction is generalizing s with
  | nil => rfl
  | cons i is ih => simp [ih]

/-! ### Events of a run -/

section Events

variable {E A : Type*} {out : S → I → O} {P : S → Prop}

/-- Items that arrive at a queue leave it in order: what was pending and what arrives in a run is
what is taken, followed by what is pending after it, if this holds of every step. -/
theorem filterMap_trace_conserved {pending : S → List E} (arrive take : O → Option E)
    (hP : ∀ s i, P s → P (M.step s i))
    (hstep : ∀ s i, P s → pending s ++ (arrive (out s i)).toList =
      (take (out s i)).toList ++ pending (M.step s i)) {s : S} (hs : P s) (is : List I) :
    pending s ++ (M.trace out s is).filterMap arrive =
      (M.trace out s is).filterMap take ++ pending (M.feed s is) := by
  induction is generalizing s with
  | nil => simp
  | cons i is ih =>
    have hcons (f : O → Option E) (l : List O) (o : O) :
        (o :: l).filterMap f = (f o).toList ++ l.filterMap f := by
      rw [List.filterMap_cons]
      cases f o <;> rfl
    rw [trace_cons, hcons, hcons, ← List.append_assoc, hstep s i hs, List.append_assoc,
      ih (hP s i hs), List.append_assoc, feed_cons]

/-- A view that changes with the events of a run alone is folded over them. -/
theorem foldl_filterMap_trace {view : S → A} {event : O → Option E} {f : A → E → A}
    (hstep : ∀ s i, view (M.step s i) = (event (out s i)).elim (view s) (f (view s))) (s : S)
    (is : List I) :
    view (M.feed s is) = ((M.trace out s is).filterMap event).foldl f (view s) := by
  induction is generalizing s with
  | nil => rfl
  | cons i is ih =>
    rw [feed_cons, ih, hstep, trace_cons, List.filterMap_cons]
    cases event (out s i) <;> rfl

end Events

/-! ### Runs on a stream -/

/-- The first `n` inputs of a stream. -/
def inputs (inp : ℕ → I) (n : ℕ) : List I := (List.range n).map inp

@[simp] theorem length_inputs (inp : ℕ → I) (n : ℕ) : (inputs inp n).length = n := by
  simp [inputs]

theorem inputs_succ (inp : ℕ → I) (n : ℕ) : inputs inp (n + 1) = inputs inp n ++ [inp n] := by
  simp [inputs, List.range_succ]

theorem inputs_add (inp : ℕ → I) (m n : ℕ) :
    inputs inp (m + n) = inputs inp m ++ inputs (fun t => inp (m + t)) n := by
  simp [inputs, List.range_add]

theorem feed_inputs (s : S) (inp : ℕ → I) (n : ℕ) : M.feed s (inputs inp n) = M.run s inp n := by
  induction n with
  | zero => rfl
  | succ n ih => rw [inputs_succ, feed_append, ih, run_succ, feed_cons, feed_nil]

/-- The trace of a shorter run. -/
theorem trace_inputs_eq_take (out : S → I → O) (s : S) (inp : ℕ → I) {m n : ℕ} (h : m ≤ n) :
    M.trace out s (inputs inp m) = (M.trace out s (inputs inp n)).take m := by
  obtain ⟨d, rfl⟩ := Nat.exists_eq_add_of_le h
  rw [inputs_add, trace_append, List.take_left' (by simp)]

/-- A cycle of the trace of a run. -/
theorem getElem?_trace_inputs (out : S → I → O) (s : S) (inp : ℕ → I) {n t : ℕ} (ht : t < n) :
    (M.trace out s (inputs inp n))[t]? = some (out (M.run s inp t) (inp t)) := by
  obtain ⟨m, rfl⟩ := Nat.exists_eq_add_of_le (Nat.succ_le_of_lt ht)
  have hlen : (M.trace out s (inputs inp t)).length = t := by simp
  rw [inputs_add, inputs_succ, trace_append, trace_append, List.append_assoc,
    List.getElem?_append_right (by simp), hlen, Nat.sub_self, feed_inputs]
  rfl

end Machine

/-! ### Simulation by blocks -/

/-- `N` simulates `M` in blocks: the step of `M` from `s` on `i` is the block `expand s i` of
inputs of `N`, run from the image of `s`. -/
structure BlockSimulation {S I T J : Type*} (M : Machine S I) (N : Machine T J) where
  embed : S → T
  expand : S → I → List J
  feed_expand : ∀ s i, N.feed (embed s) (expand s i) = embed (M.step s i)

namespace BlockSimulation

variable {S I T J O V : Type*} {M : Machine S I} {N : Machine T J} (B : BlockSimulation M N)

/-- The blocks of a list of inputs, one after the other. -/
def blocks (s : S) : List I → List J
  | [] => []
  | i :: is => B.expand s i ++ blocks (M.step s i) is

/-- What the blocks of a list of inputs show, when the block of a step shows `show s i`. -/
def shown (block : S → I → List O) (s : S) (is : List I) : List O :=
  (M.trace block s is).flatten

/-- A run of `M` is the run of `N` through its blocks. -/
theorem feed_blocks (s : S) (is : List I) :
    N.feed (B.embed s) (B.blocks s is) = B.embed (M.feed s is) := by
  induction is generalizing s with
  | nil => rfl
  | cons i is ih => rw [blocks, Machine.feed_append, B.feed_expand, ih, Machine.feed_cons]

/-- What `N` shows in a run is what its blocks show. -/
theorem trace_blocks {out : T → J → O} {block : S → I → List O}
    (hblock : ∀ s i, N.trace out (B.embed s) (B.expand s i) = block s i) (s : S) (is : List I) :
    N.trace out (B.embed s) (B.blocks s is) = shown (M := M) block s is := by
  induction is generalizing s with
  | nil => rfl
  | cons i is ih =>
    rw [blocks, Machine.trace_append, hblock, B.feed_expand, ih, shown, shown, Machine.trace_cons,
      List.flatten_cons]

/-- An observer to whom each block looks like its step sees the same of both runs. -/
theorem visible_blocks {out : T → J → Option V} {seen : S → I → V}
    (hblock : ∀ s i, (N.trace out (B.embed s) (B.expand s i)).reduceOption = [seen s i])
    (s : S) (is : List I) :
    (N.trace out (B.embed s) (B.blocks s is)).reduceOption = M.trace seen s is := by
  induction is generalizing s with
  | nil => rfl
  | cons i is ih =>
    rw [blocks, Machine.trace_append, List.reduceOption_append, hblock, B.feed_expand, ih]
    rfl

end BlockSimulation

end Synchronous
