import Mathlib.Data.List.GetD
import Mathlib.Tactic.Common

/-!
# Circuits as straight-line programs over nets

The carrier of `HDL/Syntax.lean`, `HDL/Sem.lean`, `HDL/Seq.lean` and `HDL/Compose.lean`: a list
of gates, each naming the net that it defines; a sequential machine, whose core reads the inputs
and then the state bits; and the placing of one circuit inside another.

A circuit whose gates are numbered in order (`ssaFrom`) can be placed anywhere above the nets that
it reads: its nets then carry what they carry in the circuit on its own.

## Main definitions

* `Op`, `Gate`, `Circ`, `run`, `sem`; `Seq`, `stepSeq`.
* `instMap`, `instGates`, `instOuts`.

## Main results

* `run_of_lt`: nets below all gates keep their values.
* `run_instGates`: a placed circuit computes what it computes alone.
-/

namespace Saltworks.HDL

/-- A net name. -/
abbrev Net := ℕ

/-- A gate's operation, over the nets it reads. -/
inductive Op where
  | const (b : Bool)
  | not (a : Net)
  | and (a b : Net)
  | or (a b : Net)
  | xor (a b : Net)
  deriving DecidableEq, Repr

/-- A valuation of the nets. -/
abbrev Env := Net → Bool

namespace Op

def fanin : Op → List Net
  | const _ => []
  | not a => [a]
  | and a b | or a b | xor a b => [a, b]

def eval (env : Env) : Op → Bool
  | const b => b
  | not a => !env a
  | and a b => env a && env b
  | or a b => env a || env b
  | xor a b => env a ^^ env b

def rename (f : Net → Net) : Op → Op
  | const b => const b
  | not a => not (f a)
  | and a b => and (f a) (f b)
  | or a b => or (f a) (f b)
  | xor a b => xor (f a) (f b)

theorem eval_rename (env : Env) (f : Net → Net) (o : Op) :
    (o.rename f).eval env = o.eval (env ∘ f) := by
  cases o <;> rfl

/-- An operation depends on the nets it reads. -/
theorem eval_congr {env env' : Env} {o : Op} (h : ∀ n ∈ o.fanin, env n = env' n) :
    o.eval env = o.eval env' := by
  cases o <;> simp_all [eval, fanin]

end Op

/-- One gate: the net it defines, and how. -/
structure Gate where
  out : Net
  op : Op
  deriving DecidableEq, Repr

/-- A combinational circuit: the nets below `nIn` are its inputs. -/
structure Circ where
  nIn : ℕ
  gates : List Gate
  outs : List Net
  deriving DecidableEq, Repr

def upd (env : Env) (n : Net) (v : Bool) : Env := fun j => if j = n then v else env j

def run (env : Env) : List Gate → Env
  | [] => env
  | g :: gs => run (upd env g.out (g.op.eval env)) gs

/-- The outputs of a circuit, in port order. -/
def sem (c : Circ) (ins : Env) : List Bool := c.outs.map (run ins c.gates)

/-- A sequential machine: its core reads the inputs and the state, and returns the outputs and the
next state. -/
structure Seq where
  nIn : ℕ
  nOut : ℕ
  nState : ℕ
  core : Circ

def Seq.env (m : Seq) (inp st : List Bool) : Env := fun j =>
  if j < m.nIn then inp.getD j false else st.getD (j - m.nIn) false

/-- One cycle: the outputs and the next state. -/
def stepSeq (m : Seq) (st inp : List Bool) : List Bool × List Bool :=
  let o := sem m.core (m.env inp st)
  (o.take m.nOut, o.drop m.nOut)

/-! ### Runs of gate lists -/

@[simp] theorem upd_self (env : Env) (n : Net) (v : Bool) : upd env n v n = v := if_pos rfl

theorem upd_of_ne (env : Env) {n m : Net} (v : Bool) (h : m ≠ n) : upd env n v m = env m :=
  if_neg h

theorem run_append (env : Env) (gs hs : List Gate) :
    run env (gs ++ hs) = run (run env gs) hs := by
  induction gs generalizing env with
  | nil => rfl
  | cons g gs ih => exact ih _

/-- A net below all gates of a list keeps its value. -/
theorem run_of_lt (env : Env) {gs : List Gate} {n : Net} (h : ∀ g ∈ gs, n < g.out) :
    run env gs n = env n := by
  induction gs generalizing env with
  | nil => rfl
  | cons g gs ih =>
    rw [run, ih _ fun g' hg' => h g' (List.mem_cons_of_mem g hg'),
      upd_of_ne _ _ (Nat.ne_of_lt (h g List.mem_cons_self))]

/-! ### Gates numbered in order -/

/-- The gates define the nets from `base` on, in order, and read earlier nets. -/
def ssaFrom : ℕ → List Gate → Prop
  | _, [] => True
  | base, g :: gs => g.out = base ∧ (∀ n ∈ g.op.fanin, n < base) ∧ ssaFrom (base + 1) gs

instance (base : ℕ) (gs : List Gate) : Decidable (ssaFrom base gs) := by
  induction gs generalizing base with
  | nil => exact isTrue trivial
  | cons g gs ih =>
    have := ih (base + 1)
    unfold ssaFrom
    infer_instance

theorem ssaFrom.le_out {base : ℕ} {gs : List Gate} (h : ssaFrom base gs) :
    ∀ g ∈ gs, base ≤ g.out := by
  induction gs generalizing base with
  | nil => exact fun g hg => absurd hg List.not_mem_nil
  | cons g gs ih =>
    intro g' hg'
    rcases List.mem_cons.1 hg' with rfl | hg'
    · exact Nat.le_of_eq h.1.symm
    · exact Nat.le_of_succ_le (ih h.2.2 g' hg')

/-! ### Placing a circuit -/

/-- The net of the host at which a net of `c` is placed. -/
def instMap (c : Circ) (σ : Net → Net) (off : ℕ) (n : Net) : Net :=
  if n < c.nIn then σ n else off + (n - c.nIn)

def instGates (c : Circ) (σ : Net → Net) (off : ℕ) : List Gate :=
  c.gates.map fun g => ⟨instMap c σ off g.out, g.op.rename (instMap c σ off)⟩

def instOuts (c : Circ) (σ : Net → Net) (off : ℕ) : List Net := c.outs.map (instMap c σ off)

section Placing

variable {c : Circ} {σ : Net → Net} {off : ℕ}

theorem instMap_of_lt {n : Net} (h : n < c.nIn) : instMap c σ off n = σ n := if_pos h

theorem instMap_of_le {n : Net} (h : c.nIn ≤ n) : instMap c σ off n = off + (n - c.nIn) :=
  if_neg (Nat.not_lt.2 h)

/-- A new net of the circuit is placed apart from the earlier ones. -/
theorem instMap_ne (hσ : ∀ i < c.nIn, σ i < off) {n base : Net} (hbase : c.nIn ≤ base)
    (h : n < base) : instMap c σ off n ≠ instMap c σ off base := by
  rw [instMap_of_le hbase]
  by_cases hn : n < c.nIn
  · rw [instMap_of_lt hn]
    exact Nat.ne_of_lt (Nat.lt_of_lt_of_le (hσ n hn) (Nat.le_add_right off _))
  · have hle := Nat.not_lt.1 hn
    rw [instMap_of_le hle]
    exact Nat.ne_of_lt (Nat.add_lt_add_left (Nat.sub_lt_sub_right hle h) off)

theorem off_le_of_mem_instGates (hssa : ssaFrom c.nIn c.gates) {g : Gate}
    (hg : g ∈ instGates c σ off) : off ≤ g.out := by
  obtain ⟨g', hg', rfl⟩ := List.mem_map.1 hg
  rw [instMap_of_le (hssa.le_out g' hg')]
  exact Nat.le_add_right off _

/-- Placed gates keep the nets of the host in step with those of the circuit. -/
theorem run_map_instMap (hσ : ∀ i < c.nIn, σ i < off) {gs : List Gate} {base : ℕ}
    (hbase : c.nIn ≤ base) (hssa : ssaFrom base gs) {env envC : Env}
    (h : ∀ n < base, env (instMap c σ off n) = envC n) :
    ∀ n < base + gs.length,
      run env (gs.map fun g => ⟨instMap c σ off g.out, g.op.rename (instMap c σ off)⟩)
        (instMap c σ off n) = run envC gs n := by
  induction gs generalizing base env envC with
  | nil => exact h
  | cons g gs ih =>
    obtain ⟨hout, hfan, hssa⟩ := hssa
    intro n hn
    refine ih (Nat.le_succ_of_le hbase) hssa (fun m hm => ?_) n
      (by rw [List.length_cons] at hn; omega)
    simp only [hout]
    rcases Nat.lt_succ_iff_lt_or_eq.1 hm with hlt | rfl
    · rw [upd_of_ne _ _ (instMap_ne hσ hbase hlt), upd_of_ne _ _ (Nat.ne_of_lt hlt), h m hlt]
    · rw [upd_self, upd_self, Op.eval_rename]
      exact Op.eval_congr fun k hk => h k (hfan k hk)

/-- **A placed circuit computes what it computes alone**, on the values that its inputs are wired
to. -/
theorem run_instGates (hσ : ∀ i < c.nIn, σ i < off) (hssa : ssaFrom c.nIn c.gates) (env : Env)
    {ins : Env} (hins : ∀ i < c.nIn, env (σ i) = ins i) {n : Net}
    (hn : n < c.nIn + c.gates.length) :
    run env (instGates c σ off) (instMap c σ off n) = run ins c.gates n :=
  run_map_instMap hσ (Nat.le_refl _) hssa
    (fun i hi => by rw [instMap_of_lt hi, hins i hi]) n hn

/-- A net below the place keeps its value. -/
theorem run_instGates_of_lt (hssa : ssaFrom c.nIn c.gates) (env : Env) {n : Net} (hn : n < off) :
    run env (instGates c σ off) n = env n :=
  run_of_lt env fun _ hg => Nat.lt_of_lt_of_le hn (off_le_of_mem_instGates hssa hg)

end Placing

end Saltworks.HDL
