import Saltworks.RTL.Plane32Bus

/-!
# The invariant of the bus arbitration

In a fetch loop the word in `instr_r` has retired, in a data loop it is the instruction that the
loop serves. `Arbitrated` states this with the facts about the beats and `fetch_owed` that the
`sof` arm rests on, and every clock edge with `rst_n` high keeps it, whatever `sof` does.

The file says once what a cycle can do, one lemma for each kind of cycle: a fetch in progress
(`step_of_fetching`), a fetched word that needs no data (`step_of_plain`), one that does
(`step_of_request`), a data transaction in progress (`step_of_data`) and its last cycle
(`step_of_dataEnd`).

## Main definitions

* `FetchCompletes`, `dataBeat`, `Arbitrated`.

## Main results

* `Arbitrated.posedge`, `Arbitrated.run`: the invariant is kept by every edge and holds during
  every cycle after reset.
-/

namespace Saltworks.RTL.Plane32Bus

open BusAdapt8 (Kind)

variable {s : State} {i : Input}

/-- A fetch completes: the last phase of a fetch loop. -/
def FetchCompletes (s : State) : Prop := s.bus.kind = .fetch ∧ s.bus.phase = 3#2

instance (s : State) : Decidable (FetchCompletes s) := by
  unfold FetchCompletes
  infer_instance

/-- The data loop of a transaction, as against its address loop. -/
def dataBeat (b : BusAdapt8.State) : Bool :=
  match b.kind with
  | .load => b.loadBeat
  | .store => b.storeBeat
  | _ => false

/-- The invariant of the arbitration. -/
structure Arbitrated (b : BusAdapt8.State) : Prop where
  notIdle : b.kind ≠ .idle
  storeBeat : b.storeBeat = true → b.kind = .store
  loadBeat : b.loadBeat = true → b.kind = .load
  /-- A data loop serves the instruction in `instr_r`, and nothing is owed. -/
  serving : b.kind ≠ .fetch → b.fetchOwed = false ∧ Core32.dmemReq b.instrR = true ∧
    b.kind = BusAdapt8.dataKind (Core32.dmemWe b.instrR)
  /-- In a fetch loop a decode of `instr_r` that asks for data is known to be stale. -/
  stale : b.kind = .fetch → b.fetchOwed = false → Core32.dmemReq b.instrR = false

namespace Arbitrated

theorem resetState : Arbitrated BusAdapt8.resetState where
  notIdle := by decide
  storeBeat := by decide
  loadBeat := by decide
  serving h := absurd rfl h
  stale _ _ := by decide

variable {b : BusAdapt8.State}

theorem storeBeat_eq_false (h : Arbitrated b) (hk : b.kind = .fetch) : b.storeBeat = false := by
  cases hb : b.storeBeat with
  | false => rfl
  | true => simpa [hk] using h.storeBeat hb

theorem loadBeat_eq_false (h : Arbitrated b) (hk : b.kind = .fetch) : b.loadBeat = false := by
  cases hb : b.loadBeat with
  | false => rfl
  | true => simpa [hk] using h.loadBeat hb

/-- A loop that is not a fetch is a load or a store. -/
theorem load_or_store (h : Arbitrated b) (hk : b.kind ≠ .fetch) :
    b.kind = .load ∨ b.kind = .store := by
  cases hb : b.kind with
  | idle => exact absurd hb h.notIdle
  | fetch => exact absurd hb hk
  | load => exact .inl rfl
  | store => exact .inr rfl

/-- A beat is set in data loops only. -/
theorem dataBeat_eq (h : Arbitrated b) : dataBeat b = (b.storeBeat || b.loadBeat) := by
  cases hk : b.kind with
  | idle => exact absurd hk h.notIdle
  | fetch => simp [dataBeat, hk, h.storeBeat_eq_false hk, h.loadBeat_eq_false hk]
  | load =>
    have hs : b.storeBeat = false := by
      by_contra hs
      simpa [hk] using h.storeBeat (by simpa using hs)
    simp [dataBeat, hk, hs]
  | store =>
    have hl : b.loadBeat = false := by
      by_contra hl
      simpa [hk] using h.loadBeat (by simpa using hl)
    simp [dataBeat, hk, hl]

/-- The invariant in a fetch loop. -/
theorem of_fetch (hk : b.kind = .fetch) (hs : b.storeBeat = false) (hl : b.loadBeat = false)
    (hstale : b.fetchOwed = false → Core32.dmemReq b.instrR = false) : Arbitrated b where
  notIdle := by simp [hk]
  storeBeat := by simp [hs]
  loadBeat := by simp [hl]
  serving h := absurd hk h
  stale _ := hstale

/-- In a data transaction the strobe is the end of the data loop, whatever the decode says. -/
theorem retire_of_data (h : Arbitrated b) (hk : b.kind ≠ .fetch) (req : Bool) :
    BusAdapt8.retire b req = (b.phase == 3#2 && dataBeat b) := by
  rcases h.load_or_store hk with hd | hd <;>
    simp only [BusAdapt8.retire, BusAdapt8.loopEnd, dataBeat, hd]

end Arbitrated

/-! ### What a cycle can do -/

theorem cInstr_of_fetchCompletes (h : FetchCompletes s) :
    cInstr s i = BusAdapt8.assembled s.bus i.instrByte := by
  simp [cInstr, BusAdapt8.cInstr, h.1, h.2]

theorem cInstr_of_not_fetchCompletes (h : ¬FetchCompletes s) : cInstr s i = s.bus.instrR := by
  simp only [FetchCompletes] at h
  simp [cInstr, BusAdapt8.cInstr, h]

/-- A fetch in progress: nothing retires, and `sof` cannot turn it into a transaction. -/
theorem step_of_fetching (h : Arbitrated s.bus) (hk : s.bus.kind = .fetch)
    (hp : s.bus.phase ≠ 3#2) :
    retire s i = false ∧ (posedge true s i).bus.kind = .fetch ∧
      (posedge true s i).bus.storeBeat = false ∧ (posedge true s i).bus.loadBeat = false ∧
      (posedge true s i).bus.fetchOwed = s.bus.fetchOwed ∧
      (posedge true s i).bus.instrR = s.bus.instrR := by
  have hword : cInstr s i = s.bus.instrR := cInstr_of_not_fetchCompletes fun hc => hp hc.2
  have hstale := h.stale hk
  have hs := h.storeBeat_eq_false hk
  have hl := h.loadBeat_eq_false hk
  cases ho : s.bus.fetchOwed <;> cases hsof : i.sof <;>
    simp_all [retire, posedge, BusAdapt8.posedge, BusAdapt8.retire, BusAdapt8.loopEnd,
      BusAdapt8.nextArb, BusAdapt8.nextFetchOwed, BusAdapt8.instrAvail, BusAdapt8.memRetireNow,
      BusAdapt8.staleDecode, cDmemReq]

/-- A fetched word that needs no data retires at once, and the next loop fetches. -/
theorem step_of_plain (h : FetchCompletes s) (hreq : cDmemReq s i = false) :
    retire s i = true ∧ (posedge true s i).bus.kind = .fetch ∧
      (posedge true s i).bus.phase = 0#2 ∧
      (posedge true s i).bus.storeBeat = false ∧ (posedge true s i).bus.loadBeat = false ∧
      (posedge true s i).bus.fetchOwed = false ∧
      (posedge true s i).bus.instrR = cInstr s i := by
  obtain ⟨hk, hp⟩ := h
  have hword := cInstr_of_fetchCompletes (i := i) ⟨hk, hp⟩
  cases hsof : i.sof <;>
    simp_all [retire, posedge, BusAdapt8.posedge, BusAdapt8.retire, BusAdapt8.loopEnd,
      BusAdapt8.nextArb, BusAdapt8.nextFetchOwed, BusAdapt8.instrAvail, BusAdapt8.nextPhase]

/-- A fetched word that asks for data does not retire; its address loop is next, with or without
`sof`. -/
theorem step_of_request (h : FetchCompletes s) (hreq : cDmemReq s i = true) :
    retire s i = false ∧
      (posedge true s i).bus.kind = BusAdapt8.dataKind (cDmemWe s i) ∧
      (posedge true s i).bus.phase = 0#2 ∧
      (posedge true s i).bus.storeBeat = false ∧ (posedge true s i).bus.loadBeat = false ∧
      (posedge true s i).bus.fetchOwed = false ∧
      (posedge true s i).bus.instrR = cInstr s i := by
  obtain ⟨hk, hp⟩ := h
  have hword := cInstr_of_fetchCompletes (i := i) ⟨hk, hp⟩
  cases hsof : i.sof <;>
    simp_all [retire, posedge, BusAdapt8.posedge, BusAdapt8.retire, BusAdapt8.loopEnd,
      BusAdapt8.nextArb, BusAdapt8.nextFetchOwed, BusAdapt8.instrAvail, BusAdapt8.staleDecode,
      BusAdapt8.nextPhase]

/-- The decode in front of a data loop is that of the instruction it serves. -/
theorem decode_of_data (h : Arbitrated s.bus) (hk : s.bus.kind ≠ .fetch) :
    cInstr s i = s.bus.instrR ∧ cDmemReq s i = true ∧
      s.bus.kind = BusAdapt8.dataKind (cDmemWe s i) := by
  have hword : cInstr s i = s.bus.instrR := cInstr_of_not_fetchCompletes fun hc => hk hc.1
  obtain ⟨-, hreq, hkind⟩ := h.serving hk
  exact ⟨hword, by rw [cDmemReq, hword, hreq], by rw [cDmemWe, hword, hkind]⟩

/-- A data transaction before its last cycle: nothing retires and the transaction goes on. -/
theorem step_of_data (h : Arbitrated s.bus) (hk : s.bus.kind ≠ .fetch)
    (hlast : ¬(s.bus.phase = 3#2 ∧ dataBeat s.bus = true)) :
    retire s i = false ∧ (posedge true s i).bus.kind = s.bus.kind ∧
      (posedge true s i).bus.fetchOwed = false ∧
      (posedge true s i).bus.instrR = s.bus.instrR ∧
      ((posedge true s i).bus.storeBeat = true → s.bus.kind = .store) ∧
      ((posedge true s i).bus.loadBeat = true → s.bus.kind = .load) := by
  obtain ⟨-, hreq, hkind⟩ := decode_of_data (i := i) h hk
  obtain ⟨howed, -⟩ := h.serving hk
  have hret (req : Bool) : BusAdapt8.retire s.bus req = false := by
    rw [h.retire_of_data hk, Bool.and_eq_false_iff]
    by_cases hp : s.bus.phase = 3#2
    · exact .inr (by simpa [hp] using hlast)
    · exact .inl (by simpa using hp)
  refine ⟨hret _, ?_, ?_, ?_, ?_⟩
  · cases hsof : i.sof <;> cases hend : BusAdapt8.loopEnd s.bus <;>
      rcases h.load_or_store hk with hd | hd <;>
      simp [posedge, BusAdapt8.posedge, BusAdapt8.nextArb, BusAdapt8.staleDecode,
        BusAdapt8.memRetireNow, hret, howed, hreq, hsof, hend, hd, ← hkind]
  · simp [posedge, BusAdapt8.posedge, BusAdapt8.nextFetchOwed, BusAdapt8.memRetireNow, hret, howed]
  · simp [posedge, BusAdapt8.posedge, hk]
  · have hsb := h.storeBeat
    have hlb := h.loadBeat
    clear hkind
    cases hsof : i.sof <;> cases hend : BusAdapt8.loopEnd s.bus <;>
      rcases h.load_or_store hk with hd | hd <;>
      simp_all [posedge, BusAdapt8.posedge, BusAdapt8.nextArb]

/-- Without `sof`, a data transaction before its last cycle advances by one cycle: within its
loop, or from the end of the address loop into the data loop. -/
theorem step_of_data_advance (h : Arbitrated s.bus) (hk : s.bus.kind ≠ .fetch)
    (hlast : ¬(s.bus.phase = 3#2 ∧ dataBeat s.bus = true)) (hsof : i.sof = false) :
    (posedge true s i).bus.phase = s.bus.phase + 1#2 ∧
      dataBeat (posedge true s i).bus = (dataBeat s.bus || s.bus.phase == 3#2) := by
  obtain ⟨hret, hkind, -⟩ := step_of_data (i := i) h hk hlast
  simp only [retire] at hret
  refine ⟨by simp [posedge, BusAdapt8.posedge, BusAdapt8.nextPhase, hsof], ?_⟩
  simp only [dataBeat, hkind]
  cases hend : s.bus.phase == 3#2 <;> rcases h.load_or_store hk with hd | hd <;>
    simp [posedge, BusAdapt8.posedge, BusAdapt8.nextArb, BusAdapt8.loopEnd, hret, hsof, hend, hd]

/-- `sof` restarts the loop at phase `0` and clears the beats. -/
theorem step_of_sof (hsof : i.sof = true) :
    (posedge true s i).bus.phase = 0#2 ∧ (posedge true s i).bus.storeBeat = false ∧
      (posedge true s i).bus.loadBeat = false := by
  simp [posedge, BusAdapt8.posedge, BusAdapt8.nextPhase, BusAdapt8.nextArb, hsof]

/-- The last cycle of a data transaction retires its instruction, and the next loop fetches: a
`sof` in this very cycle cannot issue the transaction again. -/
theorem step_of_dataEnd (h : Arbitrated s.bus) (hk : s.bus.kind ≠ .fetch)
    (hp : s.bus.phase = 3#2) (hbeat : dataBeat s.bus = true) :
    retire s i = true ∧ (posedge true s i).bus.kind = .fetch ∧
      (posedge true s i).bus.phase = 0#2 ∧
      (posedge true s i).bus.storeBeat = false ∧ (posedge true s i).bus.loadBeat = false ∧
      (posedge true s i).bus.fetchOwed = true ∧
      (posedge true s i).bus.instrR = s.bus.instrR := by
  have hret (req : Bool) : BusAdapt8.retire s.bus req = true := by
    rw [h.retire_of_data hk, hp, hbeat]
    rfl
  refine ⟨hret _, ?_⟩
  cases hsof : i.sof <;> rcases h.load_or_store hk with hd | hd <;>
    simp [posedge, BusAdapt8.posedge, BusAdapt8.nextArb, BusAdapt8.nextFetchOwed,
      BusAdapt8.nextPhase, BusAdapt8.staleDecode, BusAdapt8.memRetireNow, BusAdapt8.instrAvail,
      BusAdapt8.loopEnd, hret, hsof, hp, hd]

/-! ### The invariant -/

/-- Every edge with `rst_n` high keeps the invariant. -/
theorem Arbitrated.posedge (h : Arbitrated s.bus) (i : Input) :
    Arbitrated (posedge true s i).bus := by
  by_cases hk : s.bus.kind = .fetch
  · by_cases hp : s.bus.phase = 3#2
    · cases hreq : cDmemReq s i with
      | false =>
        obtain ⟨-, hk', -, hs', hl', -, hw'⟩ := step_of_plain ⟨hk, hp⟩ hreq
        exact of_fetch hk' hs' hl' fun _ => by rw [hw', ← cDmemReq, hreq]
      | true =>
        obtain ⟨-, hk', -, hs', hl', ho', hw'⟩ := step_of_request ⟨hk, hp⟩ hreq
        have hkind : BusAdapt8.dataKind (cDmemWe s i) ≠ .fetch ∧
            BusAdapt8.dataKind (cDmemWe s i) ≠ .idle := by
          cases cDmemWe s i <;> decide
        exact {
          notIdle := by rw [hk']; exact hkind.2
          storeBeat := by simp [hs']
          loadBeat := by simp [hl']
          serving := fun _ => ⟨ho', by rw [hw', ← cDmemReq, hreq], by rw [hk', hw', ← cDmemWe]⟩
          stale := fun hf => absurd (hk'.symm.trans hf) hkind.1 }
    · obtain ⟨-, hk', hs', hl', ho', hw'⟩ := step_of_fetching (i := i) h hk hp
      exact of_fetch hk' hs' hl' fun ho => by rw [hw']; exact h.stale hk (ho' ▸ ho)
  · by_cases hlast : s.bus.phase = 3#2 ∧ dataBeat s.bus = true
    · obtain ⟨-, hk', -, hs', hl', ho', -⟩ := step_of_dataEnd (i := i) h hk hlast.1 hlast.2
      exact of_fetch hk' hs' hl' fun ho => by simp [ho'] at ho
    · obtain ⟨-, hk', ho', hw', hsb, hlb⟩ := step_of_data (i := i) h hk hlast
      exact {
        notIdle := by rw [hk']; exact h.notIdle
        storeBeat := by rw [hk']; exact hsb
        loadBeat := by rw [hk']; exact hlb
        serving := fun _ => ⟨ho', by rw [hw']; exact (h.serving hk).2.1,
          by rw [hk', hw']; exact (h.serving hk).2.2⟩
        stale := fun hf => absurd (hk'.symm.trans hf) hk }

/-- The invariant holds during every cycle after reset. -/
theorem Arbitrated.run (h : IsReset s) (inp : ℕ → Input) (t : ℕ) :
    Arbitrated (machine.run s inp t).bus := by
  obtain ⟨-, hbus⟩ := (isReset_iff s).1 h
  exact machine.run_invariant (P := fun s => Arbitrated s.bus) (hbus ▸ Arbitrated.resetState)
    (fun _ i hs => hs.posedge i) t

end Saltworks.RTL.Plane32Bus
