import Saltworks.Refine.BusLoops

/-!
# The bus plane refines RV32I with erratum E

`plane32bus` runs one instruction after another from a `Boundary` to the next; each shows the
predicted loops at the pins, retires in its last cycle and leaves the predicted state. The
specification is `exec true` with the timing of the current adapter, in which a load owns two
data loops and takes the host's word of the second.

## Main definitions

* `twoLoopLoad`, `stepH`, `runSpec`: the specification against a host.
* `EState.ofPlane`: the state of the specification that the plane's registers hold.

## Main results

* `instruction`: one instruction.
* `bus_refines`: any number of instructions.
-/

namespace Saltworks.Refine

open RTL Plane32Bus

/-! ### The specification -/

/-- The loops of an instruction with the timing of the adapter: a load owns an address loop and a
data loop. -/
def twoLoopLoad (ls : List Loop) : List Loop :=
  ls.flatMap fun l => if l.kind = .load then [l, l] else [l]

/-- One instruction against the host `h`, starting at cycle `c`: the new state, the cycle after
the last of its loops, and the loops. The word of a load is the one that the host drives in the
third loop. -/
def stepH (e : Bool) (h : ℕ → BitVec 8) (s : EState) (c : ℕ) :
    Option (EState × ℕ × List Loop) := do
  let d ← decode (hostWord h c)
  let (s', ls) ← exec e s d (hostWord h (c + 8))
  pure (s', c + 4 * (twoLoopLoad ls).length, twoLoopLoad ls)

/-- The state of the specification after reset, with the register file `r0`. -/
def EState.init (r0 : BitVec 5 → Word) : EState := ⟨⟨0#32, r0⟩, 0#32⟩

/-- The first `k` instructions against the host `h`: the state, the cycle after the last of them,
and all loops in order. -/
def runSpec (e : Bool) (h : ℕ → BitVec 8) (r0 : BitVec 5 → Word) :
    ℕ → Option (EState × ℕ × List Loop)
  | 0 => some (EState.init r0, 0, [])
  | k + 1 => do
    let (s, c, ls) ← runSpec e h r0 k
    let (s', c', ls') ← stepH e h s c
    pure (s', c', ls ++ ls')

theorem stepH_eq_some {e : Bool} {h : ℕ → BitVec 8} {s s' : EState} {c c' : ℕ} {ls : List Loop}
    (hst : stepH e h s c = some (s', c', ls)) :
    ∃ d ls₀, decode (hostWord h c) = some d ∧
      exec e s d (hostWord h (c + 8)) = some (s', ls₀) ∧ ls = twoLoopLoad ls₀ ∧
      c' = c + 4 * ls.length := by
  simp only [stepH, Option.bind_eq_bind, Option.bind_eq_some_iff, Option.pure_def,
    Option.some.injEq, Prod.mk.injEq] at hst
  obtain ⟨d, hd, ⟨s₁, ls₀⟩, hx, rfl, rfl, rfl⟩ := hst
  exact ⟨d, ls₀, hd, hx, rfl, rfl⟩

theorem runSpec_succ_eq_some {e : Bool} {h : ℕ → BitVec 8} {r0 : BitVec 5 → Word} {k : ℕ}
    {s' : EState} {c' : ℕ} {ls' : List Loop}
    (hr : runSpec e h r0 (k + 1) = some (s', c', ls')) :
    ∃ s c ls ls₁, runSpec e h r0 k = some (s, c, ls) ∧ stepH e h s c = some (s', c', ls₁) ∧
      ls' = ls ++ ls₁ := by
  simp only [runSpec, Option.bind_eq_bind, Option.bind_eq_some_iff, Option.pure_def,
    Option.some.injEq, Prod.mk.injEq] at hr
  obtain ⟨⟨s, c, ls⟩, hk, ⟨s₁, c₁, ls₁⟩, hst, rfl, rfl, rfl⟩ := hr
  exact ⟨s, c, ls, ls₁, hk, hst, rfl⟩

/-! ### The `pc` stays aligned -/

theorem aligned_add_four {pc : Word} (h : pc.extractLsb' 0 2 = 0#2) :
    (pc + 4#32).extractLsb' 0 2 = 0#2 := by
  have hpc : pc.toNat % 4 = 0 := by simpa using congrArg BitVec.toNat h
  apply BitVec.eq_of_toNat_eq
  simp
  omega

theorem aligned_of_jumpTo {t t' : Word} (h : jumpTo t = some t') : t'.extractLsb' 0 2 = 0#2 := by
  simp only [jumpTo] at h
  split_ifs at h with ht
  rwa [← Option.some.inj h]

/-- An instruction in scope leaves an aligned `pc`. -/
theorem aligned_of_exec {e : Bool} {s : EState} {d : Dec} {lword : Word}
    {r : EState × List Loop} (hr : exec e s d lword = some r)
    (hs : s.arch.pc.extractLsb' 0 2 = 0#2) : r.1.arch.pc.extractLsb' 0 2 = 0#2 := by
  obtain ⟨op, rd, rs1, rs2, imm⟩ := d
  have h4 := aligned_add_four hs
  cases op <;> simp only [exec] at hr
  case jal | jalr =>
    obtain ⟨t, ht, rfl⟩ := Option.map_eq_some_iff.1 hr
    exact aligned_of_jumpTo ht
  case beq | bne | blt | bge | bltu | bgeu =>
    split_ifs at hr with hb
    · obtain ⟨t, ht, rfl⟩ := Option.map_eq_some_iff.1 hr
      exact aligned_of_jumpTo ht
    · obtain rfl := Option.some.inj hr
      exact h4
  case lw | sw =>
    obtain ⟨-, hr⟩ := Option.ite_none_left_eq_some.1 hr
    obtain rfl := Option.some.inj hr
    exact h4
  all_goals
    obtain rfl := Option.some.inj hr
    exact h4

/-! ### One instruction -/

/-- The state of the specification that the plane's registers hold: `rdata_r` is the word of the
latest load. -/
def EState.ofPlane (s : State) : EState := ⟨archOf s.core, s.bus.rdataR⟩

variable {s s₀ : State} {h : ℕ → BitVec 8}

/-- The loops, the state and the boundary after one instruction. -/
theorem instruction (hs : Boundary s) {d : Dec} {e' : EState} {ls : List Loop}
    (hd : decode (hostWord h 0) = some d)
    (hx : exec true (EState.ofPlane s) d (hostWord h 8) = some (e', ls)) :
    ∃ s', Emits s h (twoLoopLoad ls) true s' ∧ Boundary s' ∧ EState.ofPlane s' = e' := by
  have haligned : e'.arch.pc.extractLsb' 0 2 = 0#2 := aligned_of_exec hx hs.aligned
  have hcore := exec_true_core hd hx
  simp only [coreStep, Prod.mk.injEq] at hcore
  obtain ⟨rfl, rfl⟩ := hcore
  cases hreq : Core32.dmemReq (hostWord h 0) with
  | false =>
    have hload : Core32.isLoadW (hostWord h 0) = false := by
      simp only [Core32.dmemReq, Bool.or_eq_false_iff] at hreq
      exact hreq.1
    obtain ⟨s', hemit, hp, hk, ha, hc, hr⟩ := fetchLoop_plain hs hreq
    refine ⟨s', ?_, ⟨hp, hk, ha, hc ▸ haligned⟩, ?_⟩
    · simpa [coreLoops, dataLoops, hreq, twoLoopLoad] using hemit
    · simp [EState.ofPlane, hc, hr, hload]
  | true =>
    have hload := Core32.isLoadW_eq_not_dmemWe hreq
    obtain ⟨s₁, hfetch, hs₁⟩ := fetchLoop_request hs hreq
    obtain ⟨s₂, haddr, hs₂⟩ := addressLoop hs₁ fun t => h (4 + t)
    obtain ⟨s₃, hdata, hp, hk, ha, hc, hr⟩ := dataLoop hs₂ fun t => h (8 + t)
    have hemit := (hfetch.append haddr (by simp)).append hdata (by simp)
    refine ⟨s₃, ?_, ⟨hp, hk, ha, hc ▸ haligned⟩, ?_⟩
    · cases hwe : Core32.dmemWe (hostWord h 0) <;> rw [hwe] at hemit <;>
        simpa [coreLoops, dataLoops, hreq, hwe, twoLoopLoad, dataKind] using hemit
    · cases hwe : Core32.dmemWe (hostWord h 0) <;>
        simp [EState.ofPlane, hc, hr, hload, hwe, hostWord_shift]

/-! ### A run -/

/-- The number of instructions that retire before cycle `t`. -/
def retiredBefore (s : State) (h : ℕ → BitVec 8) (t : ℕ) : ℕ :=
  Nat.count (fun u => retire (machine.run s (hostInput h) u) (hostInput h u) = true) t

theorem retiredBefore_succ (s : State) (h : ℕ → BitVec 8) (t : ℕ) :
    retiredBefore s h (t + 1) = retiredBefore s h t +
      if retire (machine.run s (hostInput h) t) (hostInput h t) = true then 1 else 0 :=
  Nat.count_succ _ _

theorem retiredBefore_add (s : State) (h : ℕ → BitVec 8) (c m : ℕ) :
    retiredBefore s h (c + m) = retiredBefore s h c +
      retiredBefore (machine.run s (hostInput h) c) (fun t => h (c + t)) m := by
  induction m with
  | zero => rfl
  | succ m ih =>
    rw [← Nat.add_assoc, retiredBefore_succ, ih, retiredBefore_succ, run_add_hostInput,
      Nat.add_assoc]
    rfl

/-- An instruction retires once, in the last of its cycles. -/
theorem retiredBefore_of_emits {s' : State} {ls : List Loop} (he : Emits s h ls true s') {m : ℕ}
    (hm : m ≤ 4 * ls.length) (hpos : 0 < ls.length) :
    retiredBefore s h m = if m = 4 * ls.length then 1 else 0 := by
  induction m with
  | zero => rw [if_neg (by omega)]; rfl
  | succ m ih =>
    rw [retiredBefore_succ, ih (by omega), he.retire m (by omega), if_neg (by omega)]
    simp

/-- What holds after the first `k` instructions. -/
structure Refined (s₀ : State) (h : ℕ → BitVec 8) (k : ℕ) (e : EState) (c : ℕ)
    (ls : List Loop) : Prop where
  cycles : c = 4 * ls.length
  boundary : Boundary (machine.run s₀ (hostInput h) c)
  state : EState.ofPlane (machine.run s₀ (hostInput h) c) = e
  pins : ∀ t < c, (ls.flatMap Loop.emit)[t]? =
    some (pins (machine.run s₀ (hostInput h) t) (hostInput h t))
  retired : retiredBefore s₀ h c = k
  retired_lt : ∀ t < c, retiredBefore s₀ h t < k

theorem Refined.init (hs : IsReset s₀) (h : ℕ → BitVec 8) :
    Refined s₀ h 0 (EState.init s₀.core.regs) 0 [] := by
  obtain ⟨hpc, hbus⟩ := (isReset_iff s₀).1 hs
  refine ⟨rfl, ⟨?_, ?_, Arbitrated.run hs _ 0, ?_⟩, ?_, by simp, rfl, by simp⟩ <;>
    simp only [Synchronous.Machine.run_zero, hbus, hpc, EState.ofPlane, EState.init, archOf] <;> rfl

theorem twoLoopLoad_ne_nil {ls : List Loop} (h : ls ≠ []) : twoLoopLoad ls ≠ [] := by
  obtain ⟨l, ls, rfl⟩ := List.exists_cons_of_ne_nil h
  rw [twoLoopLoad, List.flatMap_cons]
  split <;> simp

theorem exec_loops_ne_nil {s : State} {w lword : Word} {d : Dec} {r : EState × List Loop}
    (hd : decode w = some d) (hr : exec true (EState.ofPlane s) d lword = some r) : r.2 ≠ [] := by
  rw [exec_true_core hd hr]
  exact List.cons_ne_nil _ _

/-- One instruction more. -/
theorem Refined.step {k c c' : ℕ} {e e' : EState} {ls ls' : List Loop}
    (hr : Refined s₀ h k e c ls) (hst : stepH true h e c = some (e', c', ls')) :
    Refined s₀ h (k + 1) e' c' (ls ++ ls') := by
  obtain ⟨d, ls₀, hd, hx, rfl, rfl⟩ := stepH_eq_some hst
  rw [← hr.state] at hx
  have hpos : 0 < (twoLoopLoad ls₀).length :=
    List.length_pos_iff.2 (twoLoopLoad_ne_nil (exec_loops_ne_nil hd hx))
  obtain ⟨s', hemit, hb, he⟩ := instruction (h := fun t => h (c + t)) hr.boundary
    (by rw [hostWord_shift]; exact hd) (by rw [hostWord_shift]; exact hx)
  have hrun (u : ℕ) : machine.run s₀ (hostInput h) (c + u) =
      machine.run (machine.run s₀ (hostInput h) c) (hostInput fun t => h (c + t)) u :=
    run_add_hostInput s₀ h c u
  refine ⟨?_, ?_, ?_, fun t ht => ?_, ?_, fun t ht => ?_⟩
  · rw [hr.cycles, List.length_append, Nat.mul_add]
  · rw [hrun, hemit.run]
    exact hb
  · rw [hrun, hemit.run]
    exact he
  · rw [List.flatMap_append]
    have hlen : (ls.flatMap Loop.emit).length = c := by rw [length_flatMap_emit, hr.cycles]
    by_cases hlt : t < c
    · rw [List.getElem?_append_left (by omega), hr.pins t hlt]
    · obtain ⟨u, rfl⟩ := Nat.exists_eq_add_of_le (Nat.le_of_not_lt hlt)
      rw [List.getElem?_append_right (by omega), hlen, Nat.add_sub_cancel_left, hrun,
        hemit.pins u (by omega)]
      rfl
  · rw [retiredBefore_add, hr.retired, retiredBefore_of_emits hemit le_rfl hpos, if_pos rfl]
  · by_cases hlt : t < c
    · have := hr.retired_lt t hlt
      omega
    · obtain ⟨u, rfl⟩ := Nat.exists_eq_add_of_le (Nat.le_of_not_lt hlt)
      rw [retiredBefore_add, hr.retired, retiredBefore_of_emits hemit (by omega) hpos,
        if_neg (by omega)]
      omega

theorem refined_of_runSpec (hs : IsReset s₀) (h : ℕ → BitVec 8) {k : ℕ} {e : EState} {c : ℕ}
    {ls : List Loop} (hk : runSpec true h s₀.core.regs k = some (e, c, ls)) :
    Refined s₀ h k e c ls := by
  induction k generalizing e c ls with
  | zero =>
    simp only [runSpec, Option.some.injEq, Prod.mk.injEq] at hk
    obtain ⟨rfl, rfl, rfl⟩ := hk
    exact .init hs h
  | succ k ih =>
    obtain ⟨e₁, c₁, ls₁, ls₂, hk₁, hst, rfl⟩ := runSpec_succ_eq_some hk
    exact (ih hk₁).step hst

/-- **Refinement of the bus plane.** From every reset state, for every host with `sof` low and for
every number `k` of instructions that are in scope: the pins in every cycle before the end of
instruction `k` are the predicted ones, instruction `k` ends in the predicted cycle, and `pc` and
`x0, …, x31` then agree with the specification. -/
theorem bus_refines (hs : IsReset s₀) (h : ℕ → BitVec 8) {k : ℕ} {e : EState} {c : ℕ}
    {ls : List Loop} (hk : runSpec true h s₀.core.regs k = some (e, c, ls)) :
    (∀ t < c, (ls.flatMap Loop.emit)[t]? =
        some (pins (machine.run s₀ (hostInput h) t) (hostInput h t))) ∧
      (retiredBefore s₀ h c = k ∧ ∀ t < c, retiredBefore s₀ h t < k) ∧
      (archOf (machine.run s₀ (hostInput h) c).core).Agree e.arch := by
  have hr := refined_of_runSpec hs h hk
  refine ⟨hr.pins, ⟨hr.retired, hr.retired_lt⟩, ?_⟩
  rw [← hr.state]
  exact ⟨rfl, fun _ => rfl⟩

/-- A host that answers the first fetch with `lw x1, 0(x0)`, its data loop with the word `1` and
the second fetch with `sw x1, 0(x0)`. -/
def loadStoreHost (t : ℕ) : BitVec 8 :=
  [0x83#8, 0x20#8, 0x00#8, 0x00#8, 0#8, 0#8, 0#8, 0#8, 1#8, 0#8, 0#8, 0#8,
    0x23#8, 0x20#8, 0x10#8, 0x00#8].getD t 0#8

/-- The refinement over a load and a store: twenty-four cycles. -/
theorem bus_refines_loadStoreHost :
    retiredBefore zeroReset loadStoreHost 24 = 2 :=
  (bus_refines isReset_zeroReset loadStoreHost
    (show runSpec true loadStoreHost zeroReset.core.regs 2 = some _ from rfl)).2.1.1

end Saltworks.Refine
