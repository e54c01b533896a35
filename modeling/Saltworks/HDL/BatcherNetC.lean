import Mathlib.Order.Fin.Basic
import Mathlib.Tactic.IntervalCases
import Saltworks.HDL.Circuit
import Saltworks.Machine.Synchronous
import Saltworks.Network.Sorting

/-!
# The sorting network `batcherNetC`

`HDL/BatcherNetC.lean` places 24 copies of the element `ceCcore` of `HDL/CompareExchangeC.lean`,
one for each comparator of a bitonic network, in a circuit of 816 gates. A line is one wire:
activity on even cycles of the header and address bits, most significant first, on odd ones. The
four state bits of an element are its decision, the phase, and whether both lines were active.

## Main definitions

* `ceCcore`, `CeC.State`, `CeC.outs`, `CeC.next`: the element as a circuit, and what it computes.
* `bnComps`, `bnCBuild`, `batcherNetC`: the network.
* `cFrame`: a line's frame.

## Main results

* `run_bnCBuild`: the placed elements are a network of elements on the comparators.
* `stepSeq_batcherNetC`: one cycle, lane by lane and element by element.
-/

namespace Saltworks.HDL

open SortingNetwork (through lanes)

/-- Gates that define the nets from `base` on, in order. -/
def number : ℕ → List Op → List Gate
  | _, [] => []
  | base, o :: os => ⟨base, o⟩ :: number (base + 1) os

/-! ### The element -/

/-- The element's core: `rst`, `in0`, `in1` and the state bits on the nets `0, …, 6`; its gates
define the nets `7, …, 40`. -/
def ceCcore : Circ where
  nIn := 7
  gates := number 7
    [.not 0, .and 3 7, .not 8, .and 5 7, .not 10, .and 6 7,
      .xor 1 2, .not 1, .not 2, .and 14 2, .and 1 15,
      -- the decisions of the even and of the odd phase
      .and 11 13, .and 18 16, .and 10 12, .and 20 13, .and 21 17, .or 19 22,
      .and 8 4, .and 9 23, .or 24 25, .not 26,
      .and 27 1, .and 26 2, .or 28 29, .and 27 2, .and 26 1, .or 31 32,
      .or 18 21, .or 8 34, .and 1 2, .and 11 36, .and 10 12, .or 37 38, .not 10]
  outs := [30, 33, 35, 26, 40, 39]

namespace CeC

/-- The state bits of an element. -/
structure State where
  decided : Bool
  swap : Bool
  phase : Bool
  bothAct : Bool
  deriving DecidableEq

/-- The state bits in their order. -/
def State.bits (s : State) : List Bool := [s.decided, s.swap, s.phase, s.bothAct]

section Wires

variable (s : State) (rst in0 in1 : Bool)

def d : Bool := s.decided && !rst

def p : Bool := s.phase && !rst

def ba : Bool := s.bothAct && !rst

def diff : Bool := in0 ^^ in1

def swAct : Bool := !in0 && in1

def swAddr : Bool := in0 && !in1

def newSw : Bool :=
  (!p s rst && diff in0 in1) && swAct in0 in1 ||
    ((p s rst && ba s rst) && diff in0 in1) && swAddr in0 in1

def sw : Bool := d s rst && s.swap || !d s rst && newSw s rst in0 in1

/-- `out0` and `out1`. -/
def outs : Bool × Bool :=
  (!sw s rst in0 in1 && in0 || sw s rst in0 in1 && in1,
    !sw s rst in0 in1 && in1 || sw s rst in0 in1 && in0)

/-- The next state. -/
def next : State where
  decided := d s rst || (!p s rst && diff in0 in1 || (p s rst && ba s rst) && diff in0 in1)
  swap := sw s rst in0 in1
  phase := !p s rst
  bothAct := !p s rst && (in0 && in1) || p s rst && ba s rst

/-- The outputs are the inputs, exchanged or not. -/
theorem outs_eq : outs s rst in0 in1 = if sw s rst in0 in1 then (in1, in0) else (in0, in1) := by
  rw [outs]
  cases sw s rst in0 in1 <;> simp

end Wires

/-- What the core computes. -/
theorem run_ceCcore (ins : Env) :
    let s : State := ⟨ins 3, ins 4, ins 5, ins 6⟩
    run ins ceCcore.gates 30 = (outs s (ins 0) (ins 1) (ins 2)).1 ∧
      run ins ceCcore.gates 33 = (outs s (ins 0) (ins 1) (ins 2)).2 ∧
      [35, 26, 40, 39].map (run ins ceCcore.gates) = (next s (ins 0) (ins 1) (ins 2)).bits :=
  ⟨rfl, rfl, rfl⟩

end CeC

theorem ssaFrom_ceCcore : ssaFrom ceCcore.nIn ceCcore.gates := by decide

/-! ### The network -/

/-- The comparators, in the order in which their elements are placed. -/
def bnComps : List (Fin 8 × Fin 8) :=
  [(0, 1), (3, 2), (4, 5), (7, 6), (0, 2), (1, 3), (6, 4), (7, 5),
    (0, 1), (2, 3), (5, 4), (7, 6), (0, 4), (1, 5), (2, 6), (3, 7),
    (0, 2), (1, 3), (4, 6), (5, 7), (0, 1), (2, 3), (4, 5), (6, 7)]

def bnCWires : ℕ := 8

def bnCElems : ℕ := 24

def bnCRst : Net := 0

def bnCDatIn (w : ℕ) : Net := 1 + w

def bnCIn : ℕ := 1 + bnCWires

/-- The first of the four state nets of element `e`. -/
def bnCState (e : ℕ) : Net := bnCIn + 4 * e

def bnCCoreIn : ℕ := bnCIn + 4 * bnCElems

/-- The first net of the gates of element `e`. -/
def bnCOff (e : ℕ) : ℕ := bnCCoreIn + ceCcore.gates.length * e

/-- What the inputs of element `e` are wired to, if `dat` are the nets of the lines. -/
def bnCSigma (e : ℕ) (a b : Fin 8) (dat : Fin 8 → Net) (i : Net) : Net :=
  if i == 0 then bnCRst
  else if i == 1 then dat a
  else if i == 2 then dat b
  else bnCState e + (i - 3)

/-- The gates of the elements from `e` on, the nets of the lines behind them, and the nets of the
next state. -/
def bnCBuild : ℕ → List (Fin 8 × Fin 8) → (Fin 8 → Net) → List Gate × (Fin 8 → Net) × List Net
  | _, [], dat => ([], dat, [])
  | e, (a, b) :: cs, dat =>
    let σ := bnCSigma e a b dat
    let os := instOuts ceCcore σ (bnCOff e)
    let dat' := Function.update (Function.update dat a (os.getD 0 0)) b (os.getD 1 0)
    let rest := bnCBuild (e + 1) cs dat'
    (instGates ceCcore σ (bnCOff e) ++ rest.1, rest.2.1,
      os.getD 2 0 :: os.getD 3 0 :: os.getD 4 0 :: os.getD 5 0 :: rest.2.2)

def bnCResult : List Gate × (Fin 8 → Net) × List Net :=
  bnCBuild 0 bnComps fun w => bnCDatIn w

def bnCCore : Circ where
  nIn := bnCCoreIn
  gates := bnCResult.1
  outs := List.ofFn bnCResult.2.1 ++ bnCResult.2.2

def batcherNetC : Seq where
  nIn := bnCIn
  nOut := bnCWires
  nState := 4 * bnCElems
  core := bnCCore

/-- A line's frame: three times an activity bit and an address bit, then the payload. -/
def cFrame (active : Bool) (dest : ℕ) (payload : List Bool) : List Bool :=
  ((List.range 3).flatMap fun s => [active, active && dest.testBit (2 - s)]) ++ payload

/-! ### The placed elements -/

/-- The state of element `e`, read off the nets. -/
def stateAt (env : Env) (e : ℕ) : CeC.State :=
  ⟨env (bnCState e), env (bnCState e + 1), env (bnCState e + 2), env (bnCState e + 3)⟩

/-- The state bits behind elements `e, e + 1, …` on a list of comparators, if `s` are their states
and `w` the lines in front of them. -/
def nexts (s : ℕ → CeC.State) (rst : Bool) : ℕ → List (Fin 8 × Fin 8) → (Fin 8 → Bool) → List Bool
  | _, [], _ => []
  | e, c :: cs, w =>
    (CeC.next (s e) rst (w c.1) (w c.2)).bits ++
      nexts s rst (e + 1) cs (through (CeC.outs (s e) rst) c w)

theorem bnCState_add_lt {e i : ℕ} (he : e < 24) (hi : i < 4) : bnCState e + i < 105 := by
  change 9 + 4 * e + i < 105
  omega

section Placed

variable {e : ℕ} {a b : Fin 8} {dat : Fin 8 → Net}

theorem bnCSigma_lt (he : e < 24) (hdat : ∀ l, dat l < bnCOff e) :
    ∀ i < ceCcore.nIn, bnCSigma e a b dat i < bnCOff e := by
  have hoff : 105 ≤ bnCOff e := Nat.le_add_right 105 (34 * e)
  have hstate (j : ℕ) (hj : j < 4) : bnCState e + j < bnCOff e :=
    Nat.lt_of_lt_of_le (bnCState_add_lt he hj) hoff
  intro i hi
  change i < 7 at hi
  interval_cases i
  · exact Nat.lt_of_lt_of_le (by decide : (0 : ℕ) < 105) hoff
  · exact hdat a
  · exact hdat b
  · exact hstate 0 (by decide)
  · exact hstate 1 (by decide)
  · exact hstate 2 (by decide)
  · exact hstate 3 (by decide)

/-- A placed element computes what the element does, on its two lines and its state bits. -/
theorem run_element (he : e < 24) (hdat : ∀ l, dat l < bnCOff e) (env : Env) :
    let gs := instGates ceCcore (bnCSigma e a b dat) (bnCOff e)
    let os := instOuts ceCcore (bnCSigma e a b dat) (bnCOff e)
    let outs := CeC.outs (stateAt env e) (env bnCRst) (env (dat a)) (env (dat b))
    run env gs (os.getD 0 0) = outs.1 ∧ run env gs (os.getD 1 0) = outs.2 ∧
      [os.getD 2 0, os.getD 3 0, os.getD 4 0, os.getD 5 0].map (run env gs) =
        (CeC.next (stateAt env e) (env bnCRst) (env (dat a)) (env (dat b))).bits := by
  intro gs os outs
  have hplaced (n : ℕ) (hn : n < 41) := run_instGates (bnCSigma_lt (a := a) (b := b) he hdat)
    ssaFrom_ceCcore env (fun _ _ => rfl) (n := n) hn
  obtain ⟨h0, h1, hnext⟩ := CeC.run_ceCcore fun i => env (bnCSigma e a b dat i)
  refine ⟨(hplaced 30 (by decide)).trans h0, (hplaced 33 (by decide)).trans h1, ?_⟩
  refine Eq.trans ?_ hnext
  exact List.map_congr_left (f := fun n => run env gs (instMap ceCcore _ (bnCOff e) n))
    (l := [35, 26, 40, 39]) fun n hn => hplaced n (by revert n; decide)

/-- The nets that a placed element drives lie below the next element. -/
theorem instOuts_lt (i : ℕ) (hi : i < 6) :
    (instOuts ceCcore (bnCSigma e a b dat) (bnCOff e)).getD i 0 < bnCOff (e + 1) := by
  have hlt : ∀ i < 6, [23, 26, 28, 19, 33, 32].getD i 0 < 34 := by decide
  have hnet : (instOuts ceCcore (bnCSigma e a b dat) (bnCOff e)).getD i 0 =
      bnCOff e + [23, 26, 28, 19, 33, 32].getD i 0 := by
    interval_cases i <;> rfl
  rw [hnet]
  exact Nat.add_lt_add_left (hlt i hi) (bnCOff e)

/-- The nets of the lines behind a placed element. -/
def datBehind (e : ℕ) (a b : Fin 8) (dat : Fin 8 → Net) : Fin 8 → Net :=
  let os := instOuts ceCcore (bnCSigma e a b dat) (bnCOff e)
  Function.update (Function.update dat a (os.getD 0 0)) b (os.getD 1 0)

theorem datBehind_lt (hdat : ∀ l, dat l < bnCOff e) (l : Fin 8) :
    datBehind e a b dat l < bnCOff (e + 1) := by
  rw [datBehind, Function.update_apply, Function.update_apply]
  split_ifs
  · exact instOuts_lt 1 (by decide)
  · exact instOuts_lt 0 (by decide)
  · exact Nat.lt_of_lt_of_le (hdat l) (Nat.le_add_right (bnCOff e) 34)

/-- Behind a placed element the lines are those through the element. -/
theorem run_datBehind (he : e < 24) (hdat : ∀ l, dat l < bnCOff e) (hab : a ≠ b) (env : Env) :
    (fun l => run env (instGates ceCcore (bnCSigma e a b dat) (bnCOff e)) (datBehind e a b dat l)) =
      through (CeC.outs (stateAt env e) (env bnCRst)) (a, b) fun l => env (dat l) := by
  obtain ⟨h0, h1, -⟩ := run_element (a := a) (b := b) he hdat env
  have hfst := SortingNetwork.through_fst (CeC.outs (stateAt env e) (env bnCRst)) (a, b)
    fun l => env (dat l)
  have hsnd := SortingNetwork.through_snd (CeC.outs (stateAt env e) (env bnCRst)) (c := (a, b)) hab
    fun l => env (dat l)
  funext l
  rw [datBehind]
  by_cases hb : l = b
  · rw [hb, Function.update_self]
    exact h1.trans hsnd.symm
  · rw [Function.update_of_ne hb]
    by_cases ha : l = a
    · rw [ha, Function.update_self]
      exact h0.trans hfst.symm
    · rw [Function.update_of_ne ha, SortingNetwork.through_of_ne _ _ ha hb]
      exact run_instGates_of_lt ssaFrom_ceCcore env (hdat l)

theorem run_element_of_lt (env : Env) {n : Net} (hn : n < 105) :
    run env (instGates ceCcore (bnCSigma e a b dat) (bnCOff e)) n = env n :=
  run_instGates_of_lt ssaFrom_ceCcore env (Nat.lt_of_lt_of_le hn (Nat.le_add_right 105 (34 * e)))

/-- A placed element does not drive the state nets. -/
theorem stateAt_run_element (env : Env) {k : ℕ} (hk : k < 24) :
    stateAt (run env (instGates ceCcore (bnCSigma e a b dat) (bnCOff e))) k = stateAt env k := by
  have hbit (i : ℕ) (hi : i < 4) :
      run env (instGates ceCcore (bnCSigma e a b dat) (bnCOff e)) (bnCState k + i) =
        env (bnCState k + i) :=
    run_element_of_lt env (bnCState_add_lt hk hi)
  rw [stateAt, stateAt, hbit 1 (by decide), hbit 2 (by decide), hbit 3 (by decide)]
  exact congrArg (CeC.State.mk · _ _ _) (hbit 0 (by decide))

end Placed

theorem bnCOff_le_of_mem_bnCBuild {cs : List (Fin 8 × Fin 8)} {e : ℕ} {dat : Fin 8 → Net} :
    ∀ g ∈ (bnCBuild e cs dat).1, bnCOff e ≤ g.out := by
  induction cs generalizing e dat with
  | nil => exact fun g hg => absurd hg List.not_mem_nil
  | cons c cs ih =>
    intro g hg
    rcases List.mem_append.1 hg with hg | hg
    · exact off_le_of_mem_instGates ssaFrom_ceCcore hg
    · exact Nat.le_trans (Nat.le_add_right (bnCOff e) 34) (ih g hg)

/-- **The placed elements are a network of elements.** With the lines on nets below their gates,
they leave on the outgoing nets what the elements make of the lines, and on the state nets the
elements' next states. -/
theorem run_bnCBuild {cs : List (Fin 8 × Fin 8)} (hcs : ∀ c ∈ cs, c.1 ≠ c.2) {e : ℕ}
    (he : e + cs.length ≤ 24) (dat : Fin 8 → Net) (hdat : ∀ l, dat l < bnCOff e) (env : Env)
    (s : ℕ → CeC.State) (rst : Bool) (hrst : env bnCRst = rst)
    (hs : ∀ k < 24, stateAt env k = s k) :
    (∀ l, run env (bnCBuild e cs dat).1 ((bnCBuild e cs dat).2.1 l) =
      lanes (fun e => CeC.outs (s e) rst) e cs (fun l => env (dat l)) l) ∧
    (bnCBuild e cs dat).2.2.map (run env (bnCBuild e cs dat).1) =
      nexts s rst e cs fun l => env (dat l) := by
  induction cs generalizing e dat env with
  | nil => exact ⟨fun _ => rfl, rfl⟩
  | cons c cs ih =>
    rw [List.length_cons] at he
    have he24 : e < 24 := by omega
    obtain ⟨-, -, hnext⟩ := run_element (a := c.1) (b := c.2) he24 hdat env
    have hthrough := run_datBehind he24 hdat (hcs c List.mem_cons_self) env
    rw [hs e he24, hrst] at hnext hthrough
    obtain ⟨ihlines, ihstate⟩ := ih (fun c hc => hcs c (List.mem_cons_of_mem _ hc))
      (by omega : e + 1 + cs.length ≤ 24) (datBehind e c.1 c.2 dat) (datBehind_lt hdat)
      (run env (instGates ceCcore (bnCSigma e c.1 c.2 dat) (bnCOff e)))
      ((run_element_of_lt env (by decide)).trans hrst)
      (fun k hk => (stateAt_run_element env hk).trans (hs k hk))
    rw [hthrough] at ihlines ihstate
    simp only [bnCBuild, run_append]
    refine ⟨ihlines, ?_⟩
    rw [nexts, ← hnext, ← ihstate]
    -- the later elements drive nets behind those of this one
    have hkeep (i : ℕ) (hi : i < 6) (env' : Env) (dat' : Fin 8 → Net) :
        let n := (instOuts ceCcore (bnCSigma e c.1 c.2 dat) (bnCOff e)).getD i 0
        run env' (bnCBuild (e + 1) cs dat').1 n = env' n :=
      run_of_lt env' fun g hg => Nat.lt_of_lt_of_le (instOuts_lt i hi)
        (bnCOff_le_of_mem_bnCBuild g hg)
    simp only [List.map_cons, List.map_nil, List.cons_append, List.nil_append,
      hkeep 2 (by decide), hkeep 3 (by decide), hkeep 4 (by decide), hkeep 5 (by decide)]
    rfl

/-! ### One cycle -/

/-- The state of element `e` among the 96 state bits. -/
def bnCSlice (st : List Bool) (e : ℕ) : CeC.State :=
  ⟨st.getD (4 * e) false, st.getD (4 * e + 1) false, st.getD (4 * e + 2) false,
    st.getD (4 * e + 3) false⟩

/-- The next state bits are those of the elements, each on the lines in front of it. -/
theorem bnCSlice_nexts (s : ℕ → CeC.State) (rst : Bool) (e : ℕ) (pre post : List (Fin 8 × Fin 8))
    (c : Fin 8 × Fin 8) (w : Fin 8 → Bool) :
    bnCSlice (nexts s rst e (pre ++ c :: post) w) pre.length =
      CeC.next (s (e + pre.length)) rst (lanes (fun e => CeC.outs (s e) rst) e pre w c.1)
        (lanes (fun e => CeC.outs (s e) rst) e pre w c.2) := by
  induction pre generalizing e w with
  | nil => rfl
  | cons c' pre ih =>
    have ih := ih (e + 1) (through (CeC.outs (s e) rst) c' w)
    rw [Nat.add_right_comm] at ih
    exact ih

theorem sem_bnCCore (env : Env) :
    sem bnCCore env =
      (List.ofFn bnCResult.2.1 ++ bnCResult.2.2).map (run env bnCResult.1) := rfl

theorem bnComps_ne : ∀ c ∈ bnComps, c.1 ≠ c.2 := by decide

theorem sortsBits_bnComps : SortingNetwork.SortsBits bnComps := by decide +kernel

/-- **One cycle of the network**, whatever its state bits: the outputs are the lanes behind the 24
elements, and each element's state is stepped on the lanes in front of it. -/
theorem stepSeq_batcherNetC (st : List Bool) (rst : Bool) (w : Fin 8 → Bool) :
    let out e := CeC.outs (bnCSlice st e) rst
    (stepSeq batcherNetC st (rst :: List.ofFn w)).1 = List.ofFn (lanes out 0 bnComps w) ∧
      (stepSeq batcherNetC st (rst :: List.ofFn w)).2 =
        nexts (bnCSlice st) rst 0 bnComps w := by
  intro out
  have hdat (l : Fin 8) : batcherNetC.env (rst :: List.ofFn w) st (bnCDatIn l) = w l := by
    have hlt : 1 + l.val < 9 := by omega
    refine (if_pos hlt).trans ?_
    rw [bnCDatIn, Nat.add_comm, List.getD_cons_succ, List.getD_eq_getElem?_getD,
      List.getElem?_ofFn, dif_pos l.isLt]
    rfl
  have hstate (e : ℕ) : stateAt (batcherNetC.env (rst :: List.ofFn w) st) e = bnCSlice st e := by
    have hbit (i : ℕ) : batcherNetC.env (rst :: List.ofFn w) st (9 + (4 * e + i)) =
        st.getD (4 * e + i) false := by
      refine (if_neg (show ¬9 + (4 * e + i) < 9 by omega)).trans ?_
      exact congrArg (st.getD · false) (Nat.add_sub_cancel_left (n := 9) (m := 4 * e + i))
    rw [stateAt, bnCSlice, ← hbit 1, ← hbit 2, ← hbit 3]
    exact congrArg (CeC.State.mk · _ _ _) (hbit 0)
  obtain ⟨hlines, hnexts⟩ := run_bnCBuild bnComps_ne (e := 0) (by decide)
    (fun l => bnCDatIn l) (fun l => show 1 + l.val < 105 by omega)
    (batcherNetC.env (rst :: List.ofFn w) st) (bnCSlice st) rst rfl fun k _ => hstate k
  simp only [hdat] at hlines hnexts
  have hsem : sem batcherNetC.core (batcherNetC.env (rst :: List.ofFn w) st) =
      List.ofFn (lanes out 0 bnComps w) ++ nexts (bnCSlice st) rst 0 bnComps w := by
    rw [← hnexts, ← funext hlines]
    change sem bnCCore _ = _
    rw [sem_bnCCore, bnCResult, List.map_append, List.map_ofFn, Function.comp_def]
  rw [stepSeq, hsem]
  exact ⟨List.take_left' (by simp [batcherNetC, bnCWires]),
    List.drop_left' (by simp [batcherNetC, bnCWires])⟩

end Saltworks.HDL
