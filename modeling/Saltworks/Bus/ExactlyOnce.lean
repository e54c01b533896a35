import Saltworks.Bus.Arbitration
import Saltworks.Machine.OnePlace

/-!
# Exactly-once execution on the bus under any framing

The bus plane, read as a one-place buffer of instruction words: a fetch completion puts the word
it assembled in front of the core, a retire takes it, and a data transaction is the time in
between. `instructionBuffer` is this reading for every run after reset, whatever the byte stream
and the schedule of `sof`, and the laws of `OnePlace` turn it into exactly-once execution.

The second half follows the position of a cycle inside its transaction (`position`): a counter
that `sof` can only restart, so the last cycle of a data loop has an uninterrupted address loop
and data loop behind it (`uninterruptedPair_of_retire`).

## Main definitions

* `instructionBuffer`, `UninterruptedPair`, `position`.

## Main results

* `bus_exactly_once`: every assembled word retires at most once and before the next one, and
  exactly once if there is a next one, in one step of the core.
-/

namespace Saltworks.RTL.Plane32Bus

open BusAdapt8 (Kind)

/-! ### Retires and the words they execute -/

section Step

variable {s : State} {i : Input}

/-- A retire in a fetch loop is a fetch completion. -/
theorem fetchCompletes_of_retire (h : retire s i = true) (hk : s.bus.kind = .fetch) :
    FetchCompletes s := by
  simp only [retire, BusAdapt8.retire, BusAdapt8.loopEnd, Bool.and_eq_true, beq_iff_eq] at h
  exact ⟨hk, h.1⟩

/-- A retire outside a fetch loop is the last cycle of a data loop. -/
theorem dataEnd_of_retire (ha : Arbitrated s.bus) (h : retire s i = true)
    (hk : s.bus.kind ≠ .fetch) : s.bus.phase = 3#2 ∧ dataBeat s.bus = true := by
  rw [retire, ha.retire_of_data hk, Bool.and_eq_true, beq_iff_eq] at h
  exact h

/-- After a retire the next loop fetches. -/
theorem kind_of_retire (ha : Arbitrated s.bus) (h : retire s i = true) :
    (posedge true s i).bus.kind = .fetch := by
  by_cases hk : s.bus.kind = .fetch
  · have hc := fetchCompletes_of_retire h hk
    cases hreq : cDmemReq s i with
    | false => exact (step_of_plain hc hreq).2.1
    | true => simp [(step_of_request hc hreq).1] at h
  · obtain ⟨hp, hb⟩ := dataEnd_of_retire ha h hk
    exact (step_of_dataEnd ha hk hp hb).2.1

/-- A cycle that neither completes a fetch nor retires leaves the loop kind and the instruction
register alone. -/
theorem step_of_quiet (ha : Arbitrated s.bus) (hc : ¬FetchCompletes s)
    (h : retire s i = false) :
    (posedge true s i).bus.kind = s.bus.kind ∧
      (posedge true s i).bus.instrR = s.bus.instrR := by
  by_cases hk : s.bus.kind = .fetch
  · obtain ⟨-, hk', -, -, -, hw⟩ := step_of_fetching (i := i) ha hk fun hp => hc ⟨hk, hp⟩
    exact ⟨hk'.trans hk.symm, hw⟩
  · have hlast : ¬(s.bus.phase = 3#2 ∧ dataBeat s.bus = true) := by
      rintro ⟨hp, hb⟩
      simp [(step_of_dataEnd (i := i) ha hk hp hb).1] at h
    obtain ⟨-, hk', -, hw, -⟩ := step_of_data (i := i) ha hk hlast
    exact ⟨hk', hw⟩

/-- A cycle without a retire changes nothing in the core. -/
theorem core_of_not_retire (h : retire s i = false) : (posedge true s i).core = s.core := by
  simp only [posedge, h, Core32.posedge_stall]

end Step

/-! ### The one-place buffer of instruction words -/

variable {s₀ : State} {inp : ℕ → Input}

/-- The instruction words of a run after reset pass through a one-place buffer: a completed fetch
puts the assembled word in, a retire takes the word that the core executes out, and a data
transaction holds the word it serves. -/
def instructionBuffer (h : IsReset s₀) (inp : ℕ → Input) : OnePlace Word where
  held t :=
    let s := machine.run s₀ inp t
    if s.bus.kind = .fetch then none else some s.bus.instrR
  arrive t :=
    let s := machine.run s₀ inp t
    if FetchCompletes s then some (BusAdapt8.assembled s.bus (inp t).instrByte) else none
  take t :=
    let s := machine.run s₀ inp t
    if retire s (inp t) then some (cInstr s (inp t)) else none
  held_zero := by
    have hk : s₀.bus.kind = .fetch := by rw [((isReset_iff s₀).1 h).2]; rfl
    simp [hk]
  held_of_arrive t a ha := by
    by_cases hc : FetchCompletes (machine.run s₀ inp t)
    · simp [hc.1]
    · simp [hc] at ha
  of_take t a ha := by
    by_cases hr : retire (machine.run s₀ inp t) (inp t) = true
    · by_cases hk : (machine.run s₀ inp t).bus.kind = .fetch
      · have hc := fetchCompletes_of_retire hr hk
        right
        simpa [hr, hc, cInstr_of_fetchCompletes hc] using ha
      · have hc : ¬FetchCompletes (machine.run s₀ inp t) := fun hc => hk hc.1
        left
        simpa [hr, hk, cInstr_of_not_fetchCompletes hc] using ha
    · simp [hr] at ha
  held_succ_of_take t a ha := by
    by_cases hr : retire (machine.run s₀ inp t) (inp t) = true
    · have hk := kind_of_retire (Arbitrated.run h inp t) hr
      simp [run_succ, hk]
    · simp [hr] at ha
  held_succ_of_arrive t a hnone ha := by
    by_cases hc : FetchCompletes (machine.run s₀ inp t)
    · have hr : ¬retire (machine.run s₀ inp t) (inp t) = true := by
        intro hr
        simp [hr] at hnone
      cases hreq : cDmemReq (machine.run s₀ inp t) (inp t) with
      | false => exact absurd (step_of_plain hc hreq).1 hr
      | true =>
        obtain ⟨-, hk, -, -, -, -, hw⟩ := step_of_request hc hreq
        have hdata : (posedge true (machine.run s₀ inp t) (inp t)).bus.kind ≠ .fetch := by
          rw [hk]
          cases cDmemWe (machine.run s₀ inp t) (inp t) <;> decide
        simpa [run_succ, hdata, hw, hc, cInstr_of_fetchCompletes hc] using ha
    · simp [hc] at ha
  held_succ t hnone hno := by
    have hc : ¬FetchCompletes (machine.run s₀ inp t) := by
      intro hc
      simp [hc] at hno
    have hr : retire (machine.run s₀ inp t) (inp t) = false := by
      cases hr : retire (machine.run s₀ inp t) (inp t) with
      | false => rfl
      | true => simp [hr] at hnone
    obtain ⟨hk, hw⟩ := step_of_quiet (Arbitrated.run h inp t) hc hr
    simp only [run_succ, hk, hw]

theorem instructionBuffer_take_isSome (h : IsReset s₀) (t : ℕ) :
    ((instructionBuffer h inp).take t).isSome = retire (machine.run s₀ inp t) (inp t) := by
  cases hr : retire (machine.run s₀ inp t) (inp t) <;> simp [instructionBuffer, hr]

/-! ### The position of a cycle in its transaction -/

/-- The number of cycles of the current transaction that have passed: the phase, and four more in
a data loop. -/
def position (b : BusAdapt8.State) : ℕ := b.phase.toNat + if dataBeat b then 4 else 0

/-- The last cycle of two uninterrupted loops of the kind `K`: the eight cycles up to `r` are the
phases of an address loop and of a data loop, and `sof` was low before the last of them. -/
structure UninterruptedPair (s₀ : State) (inp : ℕ → Input) (K : Kind) (r : ℕ) : Prop where
  le : 7 ≤ r
  kind : ∀ j < 8, (machine.run s₀ inp (r - 7 + j)).bus.kind = K
  phase : ∀ j < 8, (machine.run s₀ inp (r - 7 + j)).bus.phase = BitVec.ofNat 2 j
  beat : ∀ j < 8, dataBeat (machine.run s₀ inp (r - 7 + j)).bus = decide (4 ≤ j)
  sof : ∀ j < 7, (inp (r - 7 + j)).sof = false

/-- The position determines the phase and the beat. -/
theorem phase_and_beat_of_position {b : BusAdapt8.State} {j : ℕ} (h : position b = j) :
    b.phase = BitVec.ofNat 2 j ∧ dataBeat b = decide (4 ≤ j) := by
  rcases BusAdapt8.phase_cases b.phase with hp | hp | hp | hp <;>
    cases hb : dataBeat b <;> simp [position, hp, hb] at h <;> subst h <;> simp [hp]

/-- A transaction at its address loop is at the position given by its phase. -/
theorem position_of_address {b : BusAdapt8.State} (hs : b.storeBeat = false)
    (hl : b.loadBeat = false) : position b = b.phase.toNat := by
  cases hk : b.kind <;> simp [position, dataBeat, hk, hs, hl]

/-- A cycle moves on by one position of the same transaction with `sof` low, or the next cycle is
at position `0`. -/
theorem position_step {s : State} (ha : Arbitrated s.bus) (i : Input) :
    position (posedge true s i).bus = 0 ∨
      (position (posedge true s i).bus = position s.bus + 1 ∧
        (posedge true s i).bus.kind = s.bus.kind ∧ i.sof = false) := by
  cases hsof : i.sof with
  | true =>
    obtain ⟨hp, hs, hl⟩ := step_of_sof (s := s) hsof
    exact .inl (by simp [position_of_address hs hl, hp])
  | false =>
    have hphase : (posedge true s i).bus.phase = s.bus.phase + 1#2 := by
      simp [posedge, BusAdapt8.posedge, BusAdapt8.nextPhase, hsof]
    by_cases hk : s.bus.kind = .fetch
    · have hpos := position_of_address (ha.storeBeat_eq_false hk) (ha.loadBeat_eq_false hk)
      by_cases hp : s.bus.phase = 3#2
      · left
        cases hreq : cDmemReq s i with
        | false =>
          obtain ⟨-, -, hp', hs, hl, -⟩ := step_of_plain ⟨hk, hp⟩ hreq
          simp [position_of_address hs hl, hp']
        | true =>
          obtain ⟨-, -, hp', hs, hl, -⟩ := step_of_request ⟨hk, hp⟩ hreq
          simp [position_of_address hs hl, hp']
      · right
        obtain ⟨-, hk', hs, hl, -⟩ := step_of_fetching (i := i) ha hk hp
        refine ⟨?_, hk'.trans hk.symm, rfl⟩
        rw [position_of_address hs hl, hpos, hphase]
        rcases BusAdapt8.phase_cases s.bus.phase with h | h | h | h <;> simp [h] at hp ⊢
    · by_cases hlast : s.bus.phase = 3#2 ∧ dataBeat s.bus = true
      · obtain ⟨-, -, hp', hs, hl, -⟩ := step_of_dataEnd (i := i) ha hk hlast.1 hlast.2
        exact .inl (by simp [position_of_address hs hl, hp'])
      · right
        obtain ⟨hp', hb'⟩ := step_of_data_advance ha hk hlast hsof
        obtain ⟨-, hk', -⟩ := step_of_data (i := i) ha hk hlast
        refine ⟨?_, hk', rfl⟩
        rw [position, position, hp', hb']
        rcases BusAdapt8.phase_cases s.bus.phase with h | h | h | h <;>
          cases hb : dataBeat s.bus <;> simp [h, hb] at hlast ⊢

/-- **A data transaction retires at the end of two uninterrupted loops.** -/
theorem uninterruptedPair_of_retire (h : IsReset s₀) (inp : ℕ → Input) {r : ℕ}
    (hr : retire (machine.run s₀ inp r) (inp r) = true)
    (hk : (machine.run s₀ inp r).bus.kind ≠ .fetch) :
    UninterruptedPair s₀ inp (machine.run s₀ inp r).bus.kind r := by
  have ha := Arbitrated.run h inp r
  obtain ⟨hp, hb⟩ := dataEnd_of_retire ha hr hk
  have hpos : position (machine.run s₀ inp r).bus = 7 := by simp [position, hp, hb]
  have h0 : position (machine.run s₀ inp 0).bus = 0 := by
    rw [Synchronous.Machine.run_zero, ((isReset_iff s₀).1 h).2]
    rfl
  obtain ⟨hle, hhist⟩ := Synchronous.counter_history
    (fun t => position (machine.run s₀ inp t).bus) (fun t => (machine.run s₀ inp t).bus.kind)
    (fun t => (inp t).sof = false) h0 (fun t => position_step (Arbitrated.run h inp t) (inp t)) r
  simp only [hpos] at hle hhist
  have hat (j : ℕ) (hj : j < 8) : position (machine.run s₀ inp (r - 7 + j)).bus = j ∧
      (machine.run s₀ inp (r - 7 + j)).bus.kind = (machine.run s₀ inp r).bus.kind := by
    obtain hj | rfl : j < 7 ∨ j = 7 := by omega
    · exact ⟨(hhist j hj).1, (hhist j hj).2.1⟩
    · rw [Nat.sub_add_cancel hle]
      exact ⟨hpos, rfl⟩
  exact {
    le := hle
    kind := fun j hj => (hat j hj).2
    phase := fun j hj => (phase_and_beat_of_position (hat j hj).1).1
    beat := fun j hj => (phase_and_beat_of_position (hat j hj).1).2
    sof := fun j hj => (hhist j hj).2.2 }

/-! ### Exactly-once execution -/

/-- Without a retire in between, the core is unchanged. -/
theorem core_eq_of_no_retire {a b : ℕ} (hab : a ≤ b)
    (h : ∀ u, a ≤ u → u < b → retire (machine.run s₀ inp u) (inp u) = false) :
    (machine.run s₀ inp b).core = (machine.run s₀ inp a).core := by
  induction b, hab using Nat.le_induction with
  | base => rfl
  | succ b hab ih =>
    rw [run_succ, core_of_not_retire (h b hab (by omega))]
    exact ih fun u hu hub => h u hu (by omega)

/-- The word that a completed fetch of the run puts in front of the core. -/
def fetchedWord (s₀ : State) (inp : ℕ → Input) (t : ℕ) : Word :=
  BusAdapt8.assembled (machine.run s₀ inp t).bus (inp t).instrByte

theorem instructionBuffer_arrive (h : IsReset s₀) {t : ℕ}
    (hc : FetchCompletes (machine.run s₀ inp t)) :
    (instructionBuffer h inp).arrive t = some (fetchedWord s₀ inp t) := by
  simp [instructionBuffer, hc, fetchedWord]

theorem not_fetchCompletes_of_arrive_eq_none (h : IsReset s₀) {t : ℕ}
    (hn : (instructionBuffer h inp).arrive t = none) :
    ¬FetchCompletes (machine.run s₀ inp t) := by
  intro hc
  simp [instructionBuffer_arrive h hc] at hn

theorem instructionBuffer_take (h : IsReset s₀) {t : ℕ}
    (hr : retire (machine.run s₀ inp t) (inp t) = true) :
    (instructionBuffer h inp).take t =
      some (cInstr (machine.run s₀ inp t) (inp t)) := by
  simp [instructionBuffer, hr]

/-- Between consecutive fetch completions exactly one cycle retires, it executes the word
assembled at the first, and the core goes through exactly one enabled edge. -/
theorem one_retire_between (h : IsReset s₀) {t t' : ℕ} (htt : t < t')
    (hc : FetchCompletes (machine.run s₀ inp t)) (hc' : FetchCompletes (machine.run s₀ inp t'))
    (hno : ∀ u, t < u → u < t' → ¬FetchCompletes (machine.run s₀ inp u)) :
    ∃ r, (t ≤ r ∧ r < t' ∧ retire (machine.run s₀ inp r) (inp r) = true ∧
        cInstr (machine.run s₀ inp r) (inp r) = fetchedWord s₀ inp t) ∧
      (∀ r', t ≤ r' → r' < t' → retire (machine.run s₀ inp r') (inp r') = true → r' = r) ∧
      (machine.run s₀ inp t').core =
        Core32.posedge true true (fetchedWord s₀ inp t)
          (BusAdapt8.cDmemRdata (machine.run s₀ inp r).bus) (machine.run s₀ inp t).core := by
  obtain ⟨r, ⟨htr, hrt, htake⟩, huniq⟩ := (instructionBuffer h inp).exactly_once
    (instructionBuffer_arrive h hc) (instructionBuffer_arrive h hc') htt fun u hu hut => by
      simp [instructionBuffer, hno u hu hut]
  have hr : retire (machine.run s₀ inp r) (inp r) = true := by
    rw [← instructionBuffer_take_isSome h r, htake]
    rfl
  have hword : cInstr (machine.run s₀ inp r) (inp r) = fetchedWord s₀ inp t := by
    rw [instructionBuffer_take h hr] at htake
    exact Option.some.inj htake
  have huniq' (r' : ℕ) (hle : t ≤ r') (hlt : r' < t')
      (hr' : retire (machine.run s₀ inp r') (inp r') = true) : r' = r :=
    huniq r' hle hlt (by rw [instructionBuffer_take_isSome h r', hr'])
  have hquiet (u : ℕ) (hle : t ≤ u) (hlt : u < t') (hne : u ≠ r) :
      retire (machine.run s₀ inp u) (inp u) = false := by
    cases hu : retire (machine.run s₀ inp u) (inp u) with
    | false => rfl
    | true => exact absurd (huniq' u hle hlt hu) hne
  refine ⟨r, ⟨htr, hrt, hr, hword⟩, huniq', ?_⟩
  calc (machine.run s₀ inp t').core
      = (machine.run s₀ inp (r + 1)).core :=
        core_eq_of_no_retire hrt fun u hu hut => hquiet u (by omega) hut (by omega)
    _ = Core32.posedge true true (fetchedWord s₀ inp t)
          (BusAdapt8.cDmemRdata (machine.run s₀ inp r).bus) (machine.run s₀ inp r).core := by
        rw [run_succ, ← hword]
        simp only [posedge, hr]
    _ = _ := by
        rw [core_eq_of_no_retire htr fun u hu hur => hquiet u hu (by omega) (by omega)]

/-- Every retire executes the word of the latest fetch completion, for the first time. -/
theorem latest_word_of_retire (h : IsReset s₀) {r : ℕ}
    (hr : retire (machine.run s₀ inp r) (inp r) = true) :
    ∃ t ≤ r, FetchCompletes (machine.run s₀ inp t) ∧
      cInstr (machine.run s₀ inp r) (inp r) = fetchedWord s₀ inp t ∧
      (∀ u, t < u → u ≤ r → ¬FetchCompletes (machine.run s₀ inp u)) ∧
      ∀ u, t ≤ u → u < r → retire (machine.run s₀ inp u) (inp u) = false := by
  obtain ⟨t, htr, harr, hnone, hfree⟩ :=
    (instructionBuffer h inp).exists_arrive_of_take (instructionBuffer_take h hr)
  have hc : FetchCompletes (machine.run s₀ inp t) := by
    by_contra hc
    simp [instructionBuffer, hc] at harr
  rw [instructionBuffer_arrive h hc] at harr
  refine ⟨t, htr, hc, (Option.some.inj harr).symm, fun u hu hur =>
    not_fetchCompletes_of_arrive_eq_none h (hnone u hu hur), fun u hu hur => ?_⟩
  rw [← instructionBuffer_take_isSome h u, hfree u hu hur]
  rfl

/-- A data instruction retires outside the fetch loops, in a loop of its own kind. -/
theorem kind_of_data_retire (h : IsReset s₀) {r : ℕ}
    (hr : retire (machine.run s₀ inp r) (inp r) = true)
    (hreq : Core32.dmemReq (cInstr (machine.run s₀ inp r) (inp r)) = true) :
    (machine.run s₀ inp r).bus.kind ≠ .fetch ∧ (machine.run s₀ inp r).bus.kind =
      BusAdapt8.dataKind (Core32.dmemWe (cInstr (machine.run s₀ inp r) (inp r))) := by
  have hk : (machine.run s₀ inp r).bus.kind ≠ .fetch := by
    intro hk
    simp [(step_of_request (fetchCompletes_of_retire hr hk) hreq).1] at hr
  exact ⟨hk, (decode_of_data (Arbitrated.run h inp r) hk).2.2⟩

/-- **Exactly-once execution under any framing.** In every run after reset, for every byte stream
and every schedule of `sof`:

* between a fetch completion and the next, counting the cycle of the first, exactly one cycle
  retires; it executes the word assembled at the first, and the core goes through exactly one
  enabled edge, on that word;
* every retire executes the word of the latest fetch completion, which no cycle since has retired;
* a data instruction retires at the end of an uninterrupted address loop and data loop of its own
  kind. -/
theorem bus_exactly_once (h : IsReset s₀) (inp : ℕ → Input) :
    (∀ t t', t < t' → FetchCompletes (machine.run s₀ inp t) →
      FetchCompletes (machine.run s₀ inp t') →
      (∀ u, t < u → u < t' → ¬FetchCompletes (machine.run s₀ inp u)) →
      ∃ r, (t ≤ r ∧ r < t' ∧ retire (machine.run s₀ inp r) (inp r) = true ∧
          cInstr (machine.run s₀ inp r) (inp r) = fetchedWord s₀ inp t) ∧
        (∀ r', t ≤ r' → r' < t' → retire (machine.run s₀ inp r') (inp r') = true → r' = r) ∧
        (machine.run s₀ inp t').core =
          Core32.posedge true true (fetchedWord s₀ inp t)
            (BusAdapt8.cDmemRdata (machine.run s₀ inp r).bus) (machine.run s₀ inp t).core) ∧
    (∀ r, retire (machine.run s₀ inp r) (inp r) = true →
      ∃ t ≤ r, FetchCompletes (machine.run s₀ inp t) ∧
        cInstr (machine.run s₀ inp r) (inp r) = fetchedWord s₀ inp t ∧
        (∀ u, t < u → u ≤ r → ¬FetchCompletes (machine.run s₀ inp u)) ∧
        ∀ u, t ≤ u → u < r → retire (machine.run s₀ inp u) (inp u) = false) ∧
    (∀ r, retire (machine.run s₀ inp r) (inp r) = true →
      Core32.dmemReq (cInstr (machine.run s₀ inp r) (inp r)) = true →
      UninterruptedPair s₀ inp
        (BusAdapt8.dataKind (Core32.dmemWe (cInstr (machine.run s₀ inp r) (inp r)))) r) := by
  refine ⟨fun t t' htt hc hc' hno => one_retire_between h htt hc hc' hno,
    fun r hr => latest_word_of_retire h hr, fun r hr hreq => ?_⟩
  obtain ⟨hk, hkind⟩ := kind_of_data_retire h hr hreq
  rw [← hkind]
  exact uninterruptedPair_of_retire h inp hr hk

/-- A host that answers every fetch with `sw x1, 0(x0)` and pulses `sof` in the cycle in which
the first store retires. -/
def storeHost (t : ℕ) : Input where
  instrByte := [0x23#8, 0x20#8, 0x10#8, 0x00#8].getD (t % 4) 0#8
  sof := t == 11

/-- The store fetched in cycles `0` to `3` is not issued again by a pulse of `sof` on its own
retire. -/
theorem bus_exactly_once_storeHost :
    ∃ r, (3 ≤ r ∧ r < 15 ∧
        retire (machine.run zeroReset storeHost r) (storeHost r) = true) ∧
      ∀ r', 3 ≤ r' → r' < 15 →
        retire (machine.run zeroReset storeHost r') (storeHost r') = true → r' = r := by
  have hno : ∀ u < 15, 3 < u → ¬FetchCompletes (machine.run zeroReset storeHost u) := by
    decide
  obtain ⟨r, ⟨h3, h15, hr, -⟩, huniq, -⟩ :=
    (bus_exactly_once isReset_zeroReset storeHost).1 3 15 (by decide) (by decide)
      (by decide) fun u hu hu' => hno u hu' hu
  exact ⟨r, ⟨h3, h15, hr⟩, huniq⟩

end Saltworks.RTL.Plane32Bus
