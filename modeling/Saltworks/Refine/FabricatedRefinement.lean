import Saltworks.Bus.FabricatedSimulation
import Saltworks.Refine.BusRefinement

/-!
# The submitted design refines RV32I with erratum E

The specification is stated for the submitted design: a load makes a fetch loop and a load loop,
and takes the word that the host drives in the second. The plane is taken loop by loop to the
current one, whose loops are known (`Emits`); only the edge that opens a load is different, and it
leads past the address loop.

## Main definitions

* `Fabricated.stepH`, `Fabricated.runSpec`: the specification against a host.
* `PinMachine`, `RefinesE`, `RefinesRV32I`: a machine seen from its pins, and the claims about it.
* `fabricatedPins`: the submitted design, seen from its pins.
* `Fabricated.Shows`: what a run of whole loops shows at the pins and when it retires.

## Main results

* `Fabricated.shows_instruction`: one instruction.
* `fabricated_refinesE`: any number of instructions.
-/

namespace Saltworks.Refine

open RTL (Word)
open RTL.Plane32Bus (Input hostInput hostWord)

/-! ### The specification -/

namespace Fabricated

/-- One instruction against the host `h`, starting at cycle `c`: the new state, the cycle after
the last of its loops, and the loops. -/
def stepH (e : Bool) (h : ℕ → BitVec 8) (s : EState) (c : ℕ) :
    Option (EState × ℕ × List Loop) := do
  let d ← decode (hostWord h c)
  let (s', ls) ← exec e s d (hostWord h (c + 4))
  pure (s', c + 4 * ls.length, ls)

/-- The first `k` instructions against the host `h`: the state, the cycle after the last of them,
and all loops in order. -/
def runSpec (e : Bool) (h : ℕ → BitVec 8) (r0 : BitVec 5 → Word) :
    ℕ → Option (EState × ℕ × List Loop)
  | 0 => some (EState.init r0, 0, [])
  | k + 1 => do
    let (s, c, ls) ← runSpec e h r0 k
    let (s', c', ls') ← stepH e h s c
    pure (s', c', ls ++ ls')

end Fabricated

/-- A synchronous machine seen from its pins: `reset r0` is the state after a reset edge with the
register file `r0`, `step σ b` an edge with the byte `b` on `ui_in`, `out σ b` the values of
`uo_out` and `uio_out[1:0]` in the cycle before it, and `arch` reads `pc` and the registers. -/
structure PinMachine where
  St : Type
  reset : (BitVec 5 → Word) → St
  step : St → BitVec 8 → St
  out : St → BitVec 8 → BitVec 8 × BitVec 2
  arch : St → Arch

namespace PinMachine

/-- The state at cycle `t` under the host `h`. -/
def run (M : PinMachine) (r0 : BitVec 5 → Word) (h : ℕ → BitVec 8) : ℕ → M.St
  | 0 => M.reset r0
  | t + 1 => M.step (run M r0 h t) (h t)

/-- The pins are the predicted ones in every cycle of the instructions in scope, and `pc` and the
registers agree with the specification at their end. -/
def Refines (e : Bool) (M : PinMachine) : Prop :=
  ∀ (r0 : BitVec 5 → Word) (h : ℕ → BitVec 8) (k : ℕ) (s : EState) (c : ℕ) (ls : List Loop),
    Fabricated.runSpec e h r0 k = some (s, c, ls) →
      (∀ t, t < c → (ls.flatMap Loop.emit)[t]? = some (M.out (M.run r0 h t) (h t))) ∧
      Arch.Agree (M.arch (M.run r0 h c)) s.arch

end PinMachine

/-- `M` refines RV32I with erratum E. -/
def RefinesE (M : PinMachine) : Prop := M.Refines true

/-- `M` refines RV32I. -/
def RefinesRV32I (M : PinMachine) : Prop := M.Refines false

/-- The submitted design, seen from its pins with `sof` low. -/
def fabricatedPins : PinMachine where
  St := RTL.Fabricated.State
  reset := RTL.Fabricated.reset
  step s b := RTL.Fabricated.posedge true s ⟨b, false⟩
  out s b := RTL.Fabricated.pins s ⟨b, false⟩
  arch s := archOf s.core

/-! ### Runs of whole loops -/

namespace Fabricated

open RTL.Fabricated (State machine opensLoad)
open Synchronous.Machine (inputs)

variable {s s' s'' : State} {h : ℕ → BitVec 8}

/-- The strobe `retire` in the cycles of `n` loops: high in the last cycle if `b` holds. -/
def strobes (n : ℕ) (b : Bool) : List Bool := List.replicate (4 * n - 1) false ++ [b]

/-- The plane runs from `s` to `s'` in the cycles of the loops `ls`, shows them at its pins, and
retires in the last cycle if `b` holds and in no other cycle. -/
structure Shows (s : State) (h : ℕ → BitVec 8) (ls : List Loop) (b : Bool) (s' : State) :
    Prop where
  run : machine.run s (hostInput h) (4 * ls.length) = s'
  pins : machine.trace RTL.Fabricated.pins s (inputs (hostInput h) (4 * ls.length)) =
    ls.flatMap Loop.emit
  retire : machine.trace RTL.Fabricated.retire s (inputs (hostInput h) (4 * ls.length)) =
    strobes ls.length b

theorem strobes_append {m n : ℕ} (hm : 0 < m) (hn : 0 < n) (b : Bool) :
    strobes m false ++ strobes n b = strobes (m + n) b := by
  have hlast : ([false] : List Bool) = List.replicate 1 false := rfl
  have hsum : 4 * m - 1 + 1 + (4 * n - 1) = 4 * (m + n) - 1 := by omega
  rw [strobes, strobes, strobes, hlast, ← List.append_assoc, List.replicate_append_replicate,
    List.replicate_append_replicate, hsum]

/-- A run of loops that does not retire continues. -/
theorem Shows.append {ls ls' : List Loop} {b : Bool} (h₁ : Shows s h ls false s')
    (h₂ : Shows s' (fun t => h (4 * ls.length + t)) ls' b s'') (hne : ls ≠ []) (hne' : ls' ≠ []) :
    Shows s h (ls ++ ls') b s'' := by
  have hlen : 4 * (ls ++ ls').length = 4 * ls.length + 4 * ls'.length := by simp [Nat.mul_add]
  have hrest : (fun t => hostInput h (4 * ls.length + t)) =
      hostInput fun t => h (4 * ls.length + t) := rfl
  refine ⟨?_, ?_, ?_⟩
  · rw [hlen, Synchronous.Machine.run_add, h₁.run, hrest, h₂.run]
  · rw [hlen, Synchronous.Machine.inputs_add, Synchronous.Machine.trace_append, h₁.pins,
      Synchronous.Machine.feed_inputs, h₁.run, hrest, h₂.pins, List.flatMap_append]
  · rw [hlen, Synchronous.Machine.inputs_add, Synchronous.Machine.trace_append, h₁.retire,
      Synchronous.Machine.feed_inputs, h₁.run, hrest, h₂.retire, List.length_append,
      strobes_append (List.length_pos_iff.2 hne) (List.length_pos_iff.2 hne')]

/-! ### Loops of the current plane -/

/-- Before the last cycle of a loop the planes run side by side. -/
theorem run_toCurrent (hp : s.bus.phase = 0#2) (h : ℕ → BitVec 8) {j : ℕ} (hj : j < 4) :
    (machine.run s (hostInput h) j).bus.phase = BitVec.ofNat 2 j ∧
      RTL.Plane32Bus.machine.run s.toCurrent (hostInput h) j =
        (machine.run s (hostInput h) j).toCurrent := by
  induction j with
  | zero => exact ⟨hp, rfl⟩
  | succ j ih =>
    obtain ⟨hphase, hrun⟩ := ih (by omega)
    have hne : BitVec.ofNat 2 j ≠ 3#2 := by
      obtain rfl | rfl | rfl : j = 0 ∨ j = 1 ∨ j = 2 := by omega
      all_goals decide
    have hstays : opensLoad (machine.run s (hostInput h) j) (hostInput h j) = false := by
      simp [opensLoad, hostInput, hphase, hne]
    refine ⟨?_, ?_⟩
    · have hnext : (machine.run s (hostInput h) (j + 1)).bus.phase =
          (machine.run s (hostInput h) j).bus.phase + 1#2 := rfl
      rw [hnext, hphase]
      exact (BitVec.ofNat_add j 1).symm
    · rw [RTL.Plane32Bus.run_succ, hrun, RTL.Fabricated.posedge_toCurrent, hstays]
      rfl

/-- A loop of the current plane is a loop of the submitted one, which leads past the address loop
of a load. -/
theorem shows_of_emits (hp : s.bus.phase = 0#2) {l : Loop} {b : Bool} {t : RTL.Plane32Bus.State}
    (he : Emits s.toCurrent h [l] b t) :
    ∃ s', Shows s h [l] b s' ∧
      t = if t.bus.kind = .load then s'.inAddressLoop else s'.toCurrent := by
  have hlen : 4 * [l].length = 4 := rfl
  refine ⟨machine.run s (hostInput h) 4, ⟨rfl, ?_, ?_⟩, ?_⟩
  · refine List.ext_getElem? fun j => ?_
    by_cases hj : j < 4
    · rw [hlen, Synchronous.Machine.getElem?_trace_inputs _ _ _ _ hj, he.pins j hj,
        (run_toCurrent hp h hj).2]
      rfl
    · rw [List.getElem?_eq_none (by simp; omega), List.getElem?_eq_none (by simp; omega)]
  · refine List.ext_getElem? fun j => ?_
    by_cases hj : j < 4
    · have hret := he.retire j hj
      rw [(run_toCurrent hp h hj).2, RTL.Fabricated.retire_toCurrent] at hret
      rw [hlen, Synchronous.Machine.getElem?_trace_inputs _ _ _ _ hj, hret]
      obtain rfl | rfl | rfl | rfl : j = 0 ∨ j = 1 ∨ j = 2 ∨ j = 3 := by omega
      all_goals cases b <;> rfl
    · rw [List.getElem?_eq_none (by simp; omega),
        List.getElem?_eq_none (by simp [strobes]; omega)]
  · obtain ⟨hphase, hrun⟩ := run_toCurrent hp h (show 3 < 4 by omega)
    have hlast : t = RTL.Plane32Bus.posedge true (machine.run s (hostInput h) 3).toCurrent
        (hostInput h 3) := by
      rw [← hrun, ← RTL.Plane32Bus.run_succ]
      exact he.run.symm
    have hopens : opensLoad (machine.run s (hostInput h) 3) (hostInput h 3) =
        ((machine.run s (hostInput h) 4).bus.kind == .load) := by
      simp only [opensLoad, hphase]
      exact Bool.and_true _
    rw [RTL.Fabricated.posedge_toCurrent, hopens] at hlast
    have hkind : t.bus.kind = (machine.run s (hostInput h) 4).bus.kind := by
      rw [hlast]
      split <;> rfl
    rw [hkind, hlast]
    simp only [beq_iff_eq]
    rfl

/-! ### One instruction -/

/-- In a load loop the submitted plane is the current one in the data loop. -/
theorem serving_of_inAddressLoop {s₀ : RTL.Plane32Bus.State} {w : Word}
    (hs : Serving s₀ w false s.inAddressLoop) (hk : s.bus.kind = .load) :
    Serving s₀ w true s.toCurrent where
  phase := hs.phase
  kind := hs.kind
  beat := by
    have hkind : s.toCurrent.bus.kind = .load := hk
    rw [RTL.Plane32Bus.dataBeat, hkind]
    exact beq_iff_eq.2 hk
  instrR := hs.instrR
  arbitrated :=
    { hs.arbitrated with
      loadBeat := fun _ => hk }
  core := hs.core
  rdataR := hs.rdataR

/-- The loops, the state and the boundary after one instruction. -/
theorem shows_instruction (hs : Boundary s.toCurrent) {d : Dec} {e' : EState} {ls : List Loop}
    (hd : decode (hostWord h 0) = some d)
    (hx : exec true (EState.ofPlane s.toCurrent) d (hostWord h 4) = some (e', ls)) :
    ∃ s', Shows s h ls true s' ∧ Boundary s'.toCurrent ∧ EState.ofPlane s'.toCurrent = e' := by
  have haligned : e'.arch.pc.extractLsb' 0 2 = 0#2 := aligned_of_exec hx hs.aligned
  have hcore := exec_true_core hd hx
  simp only [coreStep, Prod.mk.injEq] at hcore
  obtain ⟨rfl, rfl⟩ := hcore
  cases hreq : RTL.Core32.dmemReq (hostWord h 0) with
  | false =>
    have hload : RTL.Core32.isLoadW (hostWord h 0) = false := by
      simp only [RTL.Core32.dmemReq, Bool.or_eq_false_iff] at hreq
      exact hreq.1
    obtain ⟨t, hemit, hp, hk, ha, hc, hr⟩ := fetchLoop_plain hs hreq
    obtain ⟨s', hshow, ht⟩ := shows_of_emits hs.phase hemit
    rw [if_neg (by rw [hk]; decide)] at ht
    subst ht
    refine ⟨s', ?_, ⟨hp, hk, ha, hc ▸ haligned⟩, ?_⟩
    · simpa [coreLoops, dataLoops, hreq] using hshow
    · simp [EState.ofPlane, hc, hr, hload]
  | true =>
    have hload := RTL.Core32.isLoadW_eq_not_dmemWe hreq
    obtain ⟨t₁, hfetch, hs₁⟩ := fetchLoop_request hs hreq
    obtain ⟨s₁, hshow₁, ht₁⟩ := shows_of_emits hs.phase hfetch
    cases hwe : RTL.Core32.dmemWe (hostWord h 0) with
    | false =>
      have hk₁ : t₁.bus.kind = .load := by rw [hs₁.kind, hwe]; rfl
      rw [if_pos hk₁] at ht₁
      subst ht₁
      obtain ⟨t₂, hdata, hp, hk, ha, hc, hr⟩ :=
        dataLoop (serving_of_inAddressLoop hs₁ hk₁) fun t => h (4 + t)
      obtain ⟨s₂, hshow₂, ht₂⟩ := shows_of_emits hs₁.phase hdata
      rw [if_neg (by rw [hk]; decide)] at ht₂
      subst ht₂
      refine ⟨s₂, ?_, ⟨hp, hk, ha, hc ▸ haligned⟩, ?_⟩
      · have hshow := hshow₁.append hshow₂ (by simp) (by simp)
        simpa [coreLoops, dataLoops, hreq, hwe, dataKind] using hshow
      · simp [EState.ofPlane, hc, hr, hload, hwe, RTL.Plane32Bus.hostWord_shift]
    | true =>
      have hk₁ : t₁.bus.kind = .store := by rw [hs₁.kind, hwe]; rfl
      rw [if_neg (by rw [hk₁]; decide)] at ht₁
      subst ht₁
      obtain ⟨t₂, haddr, hs₂⟩ := addressLoop hs₁ fun t => h (4 + t)
      obtain ⟨s₂, hshow₂, ht₂⟩ := shows_of_emits hs₁.phase haddr
      have hk₂ : t₂.bus.kind = .store := by rw [hs₂.kind, hwe]; rfl
      rw [if_neg (by rw [hk₂]; decide)] at ht₂
      subst ht₂
      obtain ⟨t₃, hdata, hp, hk, ha, hc, hr⟩ := dataLoop hs₂ fun t => h (8 + t)
      obtain ⟨s₃, hshow₃, ht₃⟩ := shows_of_emits hs₂.phase hdata
      rw [if_neg (by rw [hk]; decide)] at ht₃
      subst ht₃
      refine ⟨s₃, ?_, ⟨hp, hk, ha, hc ▸ haligned⟩, ?_⟩
      · have hshow := (hshow₁.append hshow₂ (by simp) (by simp)).append hshow₃ (by simp) (by simp)
        simpa [coreLoops, dataLoops, hreq, hwe, dataKind] using hshow
      · simp [EState.ofPlane, hc, hr, hload, hwe]

/-! ### A run -/

/-- The number of instructions that retire before cycle `t`. -/
def retired (s : State) (h : ℕ → BitVec 8) (t : ℕ) : ℕ :=
  (machine.trace RTL.Fabricated.retire s (inputs (hostInput h) t)).count true

theorem retired_add (s : State) (h : ℕ → BitVec 8) (c u : ℕ) :
    retired s h (c + u) = retired s h c +
      retired (machine.run s (hostInput h) c) (fun t => h (c + t)) u := by
  rw [retired, Synchronous.Machine.inputs_add, Synchronous.Machine.trace_append,
    List.count_append, Synchronous.Machine.feed_inputs]
  rfl

/-- An instruction retires once, in the last of its cycles. -/
theorem Shows.retired {ls : List Loop} (hs : Shows s h ls true s') (hne : ls ≠ []) {u : ℕ}
    (hu : u ≤ 4 * ls.length) : retired s h u = if u = 4 * ls.length then 1 else 0 := by
  have hpos : 0 < ls.length := List.length_pos_iff.2 hne
  have hlow (n : ℕ) : (List.replicate n false).count true = 0 := by
    rw [List.count_replicate]
    rfl
  rw [Fabricated.retired, Synchronous.Machine.trace_inputs_eq_take _ _ _ _ hu, hs.retire, strobes]
  split_ifs with hlast
  · rw [List.take_of_length_le (by simp; omega), List.count_append, hlow]
    rfl
  · rw [List.take_append_of_le_length (by simp; omega), List.take_replicate, hlow]

/-- What holds after the first `k` instructions. -/
structure Refined (r0 : BitVec 5 → Word) (h : ℕ → BitVec 8) (k : ℕ) (e : EState) (c : ℕ)
    (ls : List Loop) : Prop where
  boundary : Boundary (machine.run (RTL.Fabricated.reset r0) (hostInput h) c).toCurrent
  state : EState.ofPlane (machine.run (RTL.Fabricated.reset r0) (hostInput h) c).toCurrent = e
  pins : machine.trace RTL.Fabricated.pins (RTL.Fabricated.reset r0) (inputs (hostInput h) c) =
    ls.flatMap Loop.emit
  retired : retired (RTL.Fabricated.reset r0) h c = k
  retired_lt : ∀ t < c, Fabricated.retired (RTL.Fabricated.reset r0) h t < k

theorem Refined.init (r0 : BitVec 5 → Word) (h : ℕ → BitVec 8) :
    Refined r0 h 0 (EState.init r0) 0 [] := by
  refine ⟨⟨rfl, rfl, ?_, rfl⟩, rfl, rfl, rfl, by simp⟩
  have hbus : (RTL.Fabricated.reset r0).toCurrent.bus = RTL.BusAdapt8.resetState := by
    rw [RTL.Fabricated.bus_toCurrent]
    exact show RTL.Fabricated.busReset.toCurrent = RTL.BusAdapt8.resetState by decide
  rw [Synchronous.Machine.run_zero, hbus]
  exact .resetState

/-- One instruction more. -/
theorem Refined.step {r0 : BitVec 5 → Word} {k c c' : ℕ} {e e' : EState} {ls ls' : List Loop}
    (hr : Refined r0 h k e c ls) (hst : stepH true h e c = some (e', c', ls')) :
    Refined r0 h (k + 1) e' c' (ls ++ ls') := by
  simp only [stepH, Option.bind_eq_bind, Option.bind_eq_some_iff, Option.pure_def,
    Option.some.injEq, Prod.mk.injEq] at hst
  obtain ⟨d, hd, ⟨e₁, ls₁⟩, hx, rfl, rfl, rfl⟩ := hst
  rw [← hr.state] at hx
  have hne : ls₁ ≠ [] := exec_loops_ne_nil hd hx
  obtain ⟨s', hshow, hb, he⟩ := shows_instruction (h := fun t => h (c + t)) hr.boundary
    (by rw [RTL.Plane32Bus.hostWord_shift]; exact hd)
    (by rw [RTL.Plane32Bus.hostWord_shift]; exact hx)
  have hrest : (fun t => hostInput h (c + t)) = hostInput fun t => h (c + t) := rfl
  have hrun : machine.run (RTL.Fabricated.reset r0) (hostInput h) (c + 4 * ls₁.length) = s' := by
    rw [Synchronous.Machine.run_add, hrest, hshow.run]
  have hret {u : ℕ} (hu : u ≤ 4 * ls₁.length) :
      Fabricated.retired (RTL.Fabricated.reset r0) h (c + u) =
        k + if u = 4 * ls₁.length then 1 else 0 := by
    rw [retired_add, hr.retired, hshow.retired hne hu]
  refine ⟨by rw [hrun]; exact hb, by rw [hrun]; exact he, ?_, ?_, fun t ht => ?_⟩
  · rw [Synchronous.Machine.inputs_add, Synchronous.Machine.trace_append, hr.pins,
      Synchronous.Machine.feed_inputs, hrest, hshow.pins, List.flatMap_append]
  · rw [hret le_rfl, if_pos rfl]
  · obtain hlt | ⟨u, rfl⟩ : t < c ∨ ∃ u, t = c + u := by
      obtain hlt | hle := Nat.lt_or_ge t c
      · exact .inl hlt
      · exact .inr (Nat.exists_eq_add_of_le hle)
    · exact Nat.lt_succ_of_lt (hr.retired_lt t hlt)
    · have hlt : u < 4 * ls₁.length := Nat.lt_of_add_lt_add_left ht
      rw [hret hlt.le, if_neg hlt.ne]
      omega

theorem refined_of_runSpec {r0 : BitVec 5 → Word} {h : ℕ → BitVec 8} {k : ℕ} {e : EState} {c : ℕ}
    {ls : List Loop} (hk : runSpec true h r0 k = some (e, c, ls)) : Refined r0 h k e c ls := by
  induction k generalizing e c ls with
  | zero =>
    simp only [runSpec, Option.some.injEq, Prod.mk.injEq] at hk
    obtain ⟨rfl, rfl, rfl⟩ := hk
    exact .init r0 h
  | succ k ih =>
    simp only [runSpec, Option.bind_eq_bind, Option.bind_eq_some_iff, Option.pure_def,
      Option.some.injEq, Prod.mk.injEq] at hk
    obtain ⟨⟨e₁, c₁, ls₁⟩, hk₁, ⟨e₂, c₂, ls₂⟩, hst, rfl, rfl, rfl⟩ := hk
    exact (ih hk₁).step hst

/-- The run of the pin machine is the run of the plane with `sof` low. -/
theorem run_fabricatedPins (r0 : BitVec 5 → Word) (h : ℕ → BitVec 8) (t : ℕ) :
    fabricatedPins.run r0 h t = machine.run (RTL.Fabricated.reset r0) (hostInput h) t := by
  induction t with
  | zero => rfl
  | succ t ih => exact congrArg (fun s => RTL.Fabricated.posedge true s ⟨h t, false⟩) ih

end Fabricated

/-- **The submitted design refines RV32I with erratum E.** For every register file, every host
with `sof` low and every number `k` of instructions in scope, the pins are the predicted ones in
every cycle before the end of instruction `k`, `pc` and the registers then agree with the
specification, and the strobe `retire` has been high in `k` cycles, the last of them in the cycle
before. -/
theorem fabricated_refinesE :
    RefinesE fabricatedPins ∧
      ∀ (r0 : BitVec 5 → Word) (h : ℕ → BitVec 8) (k : ℕ) (s : EState) (c : ℕ) (ls : List Loop),
        Fabricated.runSpec true h r0 k = some (s, c, ls) →
          Fabricated.retired (RTL.Fabricated.reset r0) h c = k ∧
            ∀ t < c, Fabricated.retired (RTL.Fabricated.reset r0) h t < k := by
  refine ⟨fun r0 h k s c ls hk => ?_, fun r0 h k s c ls hk => ?_⟩
  · have hr := Fabricated.refined_of_runSpec hk
    refine ⟨fun t ht => ?_, ?_⟩
    · rw [← hr.pins, Synchronous.Machine.getElem?_trace_inputs _ _ _ _ ht,
        Fabricated.run_fabricatedPins]
      rfl
    · rw [Fabricated.run_fabricatedPins, ← hr.state]
      exact ⟨rfl, fun _ => rfl⟩
  · have hr := Fabricated.refined_of_runSpec hk
    exact ⟨hr.retired, hr.retired_lt⟩

/-- A host that drives `lui x1, 0x80000` and `srai x1, x1, 4`. -/
def shiftHost (t : ℕ) : BitVec 8 :=
  [0xb7#8, 0x00#8, 0x00#8, 0x80#8, 0x93#8, 0xd0#8, 0x40#8, 0x40#8].getD t 0#8

/-- The submitted design does not refine RV32I: an arithmetic shift of a negative word is
logical. -/
theorem not_fabricated_refinesRV32I : ¬RefinesRV32I fabricatedPins := by
  intro hall
  obtain ⟨-, -, hget⟩ := hall (fun _ => 0#32) shiftHost 2 _ _ _
    (show Fabricated.runSpec false shiftHost (fun _ => 0#32) 2 = some _ from rfl)
  have hbad := hget 1#5
  revert hbad
  decide

end Saltworks.Refine
