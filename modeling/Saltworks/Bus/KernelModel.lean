import Saltworks.Bus.Arbitration
import Saltworks.HDL.BusFSM

/-!
# The kernel's bus model against the arbitration of `plane32bus`

`busStateB` reads the kernel's state off the registers of the adapter. One edge of the plane and
one step of the kernel's model agree except in two kinds of cycle, both with `sof` high: the
cycle that retires a memory instruction, and the last phase of the fetch that was owed
(`Diverges`). In the first the adapter holds the fetch, since the decode in front of it belongs
to the instruction that retires, and the model issues the transaction again; in the second the
adapter decodes the word just assembled, and the model still holds the fetch.

## Main definitions

* `busStateB`, `ctrl`, `Diverges`, `Tracks`.

## Main results

* `tracks_iff`: an edge from an arbitrated state is a step of the model iff it does not diverge.
* `run_busStateB`: up to the first divergence the run is a run of the model.
-/

namespace Saltworks.RTL.Plane32Bus

open BusAdapt8 (Kind)
open HDL.BusFSM (BusStateB Ctrl stepB)

variable {s : State} {i : Input}

/-- The kernel's name of a loop kind. -/
def kindB : Kind → HDL.BusFSM.Kind
  | .idle => .idle
  | .fetch => .fetch
  | .load => .load
  | .store => .store

/-- The kernel's state, read off the adapter. -/
def busStateB (b : BusAdapt8.State) : BusStateB where
  kind := kindB b.kind
  beat := b.storeBeat || b.loadBeat
  fetchOwed := b.fetchOwed

/-- The arm that the kernel's model takes in a cycle. -/
def ctrl (s : State) (i : Input) : Ctrl where
  sof := i.sof
  loopEnd := BusAdapt8.loopEnd s.bus

/-- The step of the kernel's model for a cycle. -/
def modelStep (s : State) (i : Input) : BusStateB :=
  stepB (busStateB s.bus) (ctrl s i) (cDmemReq s i) (cDmemWe s i)

/-- The edge of a cycle is the step of the kernel's model. -/
def Tracks (s : State) (i : Input) : Prop := busStateB (posedge true s i).bus = modelStep s i

/-- The cycles in which `sof` meets a memory retire, or the last phase of a fetch that is owed. -/
def Diverges (s : State) (i : Input) : Prop :=
  i.sof = true ∧ (BusAdapt8.memRetireNow s.bus (cDmemReq s i) = true ∨
    (s.bus.fetchOwed = true ∧ BusAdapt8.instrAvail s.bus = true))

theorem kindB_dataKind (we : Bool) : kindB (BusAdapt8.dataKind we) = HDL.BusFSM.requested we := by
  cases we <;> rfl

namespace Arbitrated

variable {b : BusAdapt8.State}

/-- The mapped state of a fetch loop. -/
theorem busStateB_of_fetch (h : Arbitrated b) (hk : b.kind = .fetch) :
    busStateB b = ⟨.fetch, false, b.fetchOwed⟩ := by
  simp [busStateB, kindB, hk, h.storeBeat_eq_false hk, h.loadBeat_eq_false hk]

/-- The mapped state of a data loop. -/
theorem busStateB_of_data (h : Arbitrated b) (hk : b.kind ≠ .fetch) :
    busStateB b = ⟨kindB b.kind, dataBeat b, false⟩ := by
  have hs := h.storeBeat
  have hl := h.loadBeat
  rcases h.load_or_store hk with hd | hd <;>
    simp_all [busStateB, dataBeat, (h.serving hk).1]

end Arbitrated

/-! ### One edge -/

/-- A fetch in progress is held by both. -/
theorem tracks_of_fetching (h : Arbitrated s.bus) (hk : s.bus.kind = .fetch)
    (hp : s.bus.phase ≠ 3#2) : Tracks s i ∧ ¬Diverges s i := by
  obtain ⟨-, hk', -, -, ho', -⟩ := step_of_fetching (i := i) h hk hp
  have hreq : s.bus.fetchOwed = false → cDmemReq s i = false := fun ho => by
    rw [cDmemReq, cInstr_of_not_fetchCompletes fun hc => hp hc.2]
    exact h.stale hk ho
  constructor
  · rw [Tracks, (h.posedge i).busStateB_of_fetch hk', ho', modelStep, h.busStateB_of_fetch hk]
    cases ho : s.bus.fetchOwed <;> cases hsof : i.sof <;>
      simp [stepB, ctrl, BusAdapt8.loopEnd, HDL.BusFSM.sofNextB, hp, hsof, hreq, ho]
  · rintro ⟨-, hm | ⟨-, ha⟩⟩
    · simp [BusAdapt8.memRetireNow, hk] at hm
    · simp [BusAdapt8.instrAvail, hp] at ha

/-- At the end of a fetch both decode the word just assembled, unless `sof` finds the model still
holding a fetch that was owed. -/
theorem tracks_of_fetchCompletes (h : Arbitrated s.bus) (hc : FetchCompletes s) :
    Tracks s i ↔ ¬Diverges s i := by
  have hdiv : Diverges s i ↔ i.sof = true ∧ s.bus.fetchOwed = true := by
    simp [Diverges, BusAdapt8.memRetireNow, BusAdapt8.instrAvail, hc.1, hc.2]
  have hnext : busStateB (posedge true s i).bus =
      ⟨if cDmemReq s i then HDL.BusFSM.requested (cDmemWe s i) else .fetch, false, false⟩ := by
    cases hreq : cDmemReq s i with
    | false =>
      obtain ⟨-, hk', -, -, -, ho', -⟩ := step_of_plain hc hreq
      rw [(h.posedge i).busStateB_of_fetch hk', ho']
      rfl
    | true =>
      obtain ⟨-, hk', -, hs', hl', ho', -⟩ := step_of_request hc hreq
      simp [busStateB, hk', hs', hl', ho', kindB_dataKind]
  rw [hdiv, Tracks, hnext, modelStep, h.busStateB_of_fetch hc.1]
  cases ho : s.bus.fetchOwed <;> cases hsof : i.sof <;> cases hreq : cDmemReq s i <;>
    simp [stepB, ctrl, BusAdapt8.loopEnd, HDL.BusFSM.sofNextB, HDL.BusFSM.nextB,
      HDL.BusFSM.retireB, HDL.BusFSM.retire, HDL.BusFSM.proj, hc.2, hsof]

/-- A data transaction in progress goes on, or is reframed, in both. -/
theorem tracks_of_data (h : Arbitrated s.bus) (hk : s.bus.kind ≠ .fetch)
    (hlast : ¬(s.bus.phase = 3#2 ∧ dataBeat s.bus = true)) : Tracks s i ∧ ¬Diverges s i := by
  obtain ⟨-, hreq, hkind⟩ := decode_of_data (i := i) h hk
  obtain ⟨hret, hk', -⟩ := step_of_data (i := i) h hk hlast
  have hk'' : (posedge true s i).bus.kind ≠ .fetch := by rwa [hk']
  have hkB : kindB s.bus.kind = HDL.BusFSM.requested (cDmemWe s i) := by
    rw [← kindB_dataKind, ← hkind]
  constructor
  · rw [Tracks, (h.posedge i).busStateB_of_data hk'', hk', modelStep, h.busStateB_of_data hk]
    cases hsof : i.sof with
    | true =>
      obtain ⟨-, hs', hl'⟩ := step_of_sof (s := s) hsof
      have hbeat : dataBeat (posedge true s i).bus = false := by
        simp only [dataBeat, hs', hl']
        split <;> rfl
      simp [stepB, ctrl, HDL.BusFSM.sofNextB, hsof, hreq, hbeat, hkB]
    | false =>
      obtain ⟨-, hbeat⟩ := step_of_data_advance (i := i) h hk hlast hsof
      rw [hbeat, hkB]
      cases hp : s.bus.phase == 3#2 with
      | false => simp [stepB, ctrl, BusAdapt8.loopEnd, hsof, hp]
      | true =>
        have hb : dataBeat s.bus = false := by simpa [beq_iff_eq.1 hp] using hlast
        cases hwe : cDmemWe s i <;>
          simp [stepB, ctrl, BusAdapt8.loopEnd, HDL.BusFSM.nextB, HDL.BusFSM.retireB,
            HDL.BusFSM.retire, HDL.BusFSM.proj, HDL.BusFSM.requested, hsof, hp, hb]
  · simp only [retire] at hret
    simp [Diverges, BusAdapt8.memRetireNow, BusAdapt8.instrAvail, hret, hk]

/-- The last cycle of a data transaction: both go to a fetch that is owed, unless `sof` makes the
model issue the transaction again. -/
theorem tracks_of_dataEnd (h : Arbitrated s.bus) (hk : s.bus.kind ≠ .fetch)
    (hp : s.bus.phase = 3#2) (hbeat : dataBeat s.bus = true) : Tracks s i ↔ ¬Diverges s i := by
  obtain ⟨-, hreq, hkind⟩ := decode_of_data (i := i) h hk
  obtain ⟨hret, hk', -, -, -, ho', -⟩ := step_of_dataEnd (i := i) h hk hp hbeat
  have hkB : kindB s.bus.kind = HDL.BusFSM.requested (cDmemWe s i) := by
    rw [← kindB_dataKind, ← hkind]
  simp only [retire] at hret
  have hdiv : Diverges s i ↔ i.sof = true := by
    rcases h.load_or_store hk with hd | hd <;>
      simp [Diverges, BusAdapt8.memRetireNow, BusAdapt8.loopEnd, hret, hp, hd]
  rw [hdiv, Tracks, (h.posedge i).busStateB_of_fetch hk', ho', modelStep, h.busStateB_of_data hk,
    hbeat, hkB]
  cases hsof : i.sof <;> cases hwe : cDmemWe s i <;>
    simp [stepB, ctrl, BusAdapt8.loopEnd, HDL.BusFSM.sofNextB, HDL.BusFSM.nextB,
      HDL.BusFSM.retireB, HDL.BusFSM.retire, HDL.BusFSM.proj, HDL.BusFSM.requested, hsof, hp, hreq]

/-- An edge from an arbitrated state is a step of the kernel's model exactly when the cycle does
not diverge. -/
theorem tracks_iff (h : Arbitrated s.bus) (i : Input) : Tracks s i ↔ ¬Diverges s i := by
  by_cases hk : s.bus.kind = .fetch
  · by_cases hp : s.bus.phase = 3#2
    · exact tracks_of_fetchCompletes h ⟨hk, hp⟩
    · obtain ⟨ht, hd⟩ := tracks_of_fetching (i := i) h hk hp
      exact iff_of_true ht hd
  · by_cases hlast : s.bus.phase = 3#2 ∧ dataBeat s.bus = true
    · exact tracks_of_dataEnd h hk hlast.1 hlast.2
    · obtain ⟨ht, hd⟩ := tracks_of_data (i := i) h hk hlast
      exact iff_of_true ht hd

/-! ### Runs -/

/-- What the kernel's model reads in a cycle of the run. -/
def modelInput (s : State) (inp : ℕ → Input) (t : ℕ) : Ctrl × Bool × Bool :=
  (ctrl (machine.run s inp t) (inp t), cDmemReq (machine.run s inp t) (inp t),
    cDmemWe (machine.run s inp t) (inp t))

/-- As long as no cycle diverges, the run is a run of the kernel's model from the state that
fetches and owes nothing. -/
theorem run_busStateB (hs : IsReset s) (inp : ℕ → Input) (n : ℕ)
    (hn : ∀ t < n, ¬Diverges (machine.run s inp t) (inp t)) :
    busStateB (machine.run s inp n).bus =
      HDL.BusFSM.machineB.run ⟨.fetch, false, false⟩ (modelInput s inp) n := by
  refine machine.run_simulation HDL.BusFSM.machineB
    (R := fun s b => busStateB s.bus = b) ?_ n
    (fun t ht hb => ?_) n (Nat.le_refl n)
  · rw [((isReset_iff s).1 hs).2]
    rfl
  · rw [Synchronous.Machine.run_succ HDL.BusFSM.machineB, ← hb, run_succ]
    exact (tracks_iff (Arbitrated.run hs inp t) (inp t)).2 (hn t ht)

/-- An invariant of the kernel's model holds of a run that does not diverge. -/
theorem busStateB_invariant (hs : IsReset s) (inp : ℕ → Input) {P : BusStateB → Prop}
    (h0 : P ⟨.fetch, false, false⟩) (hstep : ∀ b c req we, P b → P (stepB b c req we))
    (hn : ∀ t, ¬Diverges (machine.run s inp t) (inp t)) (t : ℕ) :
    P (busStateB (machine.run s inp t).bus) := by
  rw [run_busStateB hs inp t fun u _ => hn u]
  exact HDL.BusFSM.machineB.run_invariant h0 (fun b i => hstep b i.1 i.2.1 i.2.2) t

/-- **The kernel's bus model and the arbitration.** After reset, for every host and every schedule
of `sof`, the edge of a cycle is a step of the model exactly when `sof` meets neither a memory
retire nor the last phase of a fetch that is owed; and a run without such cycles is a run of the
model, with its invariants. -/
theorem kernelModel_tracks (hs : IsReset s) (inp : ℕ → Input) :
    (∀ t, Tracks (machine.run s inp t) (inp t) ↔ ¬Diverges (machine.run s inp t) (inp t)) ∧
    (∀ n, (∀ t < n, ¬Diverges (machine.run s inp t) (inp t)) →
      busStateB (machine.run s inp n).bus =
        HDL.BusFSM.machineB.run ⟨.fetch, false, false⟩ (modelInput s inp) n) ∧
    ((∀ t, ¬Diverges (machine.run s inp t) (inp t)) → ∀ P : BusStateB → Prop,
      P ⟨.fetch, false, false⟩ → (∀ b c req we, P b → P (stepB b c req we)) →
      ∀ t, P (busStateB (machine.run s inp t).bus)) :=
  ⟨fun t => tracks_iff (Arbitrated.run hs inp t) (inp t), run_busStateB hs inp,
    fun hn _ h0 hstep => busStateB_invariant hs inp h0 hstep hn⟩

/-- A host that answers the first fetch with `sw x1, 0(x0)` and raises `sof` in the cycle in which
that store retires. -/
def retireSofHost (t : ℕ) : Input where
  instrByte := [0x23#8, 0x20#8, 0x10#8, 0x00#8].getD t 0#8
  sof := t == 11

/-- With `sof` in the cycle of a memory retire the model issues the store again, and the adapter
fetches. -/
theorem not_kernelModel_tracks :
    ¬ ∀ (s : State) (inp : ℕ → Input) (t : ℕ), IsReset s →
      Tracks (machine.run s inp t) (inp t) := by
  intro hall
  have hbad := hall zeroReset retireSofHost 11 isReset_zeroReset
  revert hbad
  simp only [Tracks]
  decide

/-- The kernel's model tracks the cycle before that one. -/
theorem kernelModel_tracks_retireSofHost :
    Tracks (machine.run zeroReset retireSofHost 10) (retireSofHost 10) :=
  ((kernelModel_tracks isReset_zeroReset retireSofHost).1 10).2 fun h => absurd h.1 (by decide)

end Saltworks.RTL.Plane32Bus
