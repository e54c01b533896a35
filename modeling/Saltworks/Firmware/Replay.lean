import Saltworks.Firmware.Computer

/-!
# The replay of the firmware against a trace

`Firmware/rp2040/ndf_memserver_replay.c` feeds the pins of a recorded run, one line for each
cycle, to the memory server, and compares the byte that the server drives with the recorded byte
of the host wherever the server says that the chip uses it. The recorded host is not the firmware;
where the chip does not use a byte it may have driven anything.

A replay without a mismatch says that the recorded run is the closed-loop run of chip and
firmware, up to bytes that the adapter captures and never uses (`SameRun`). Its other criteria
follow at the end of every instruction: the server has not lost the frame, it has compared as many
bytes as its loop counters predict, and it has seen the loops of loads in pairs.

## Main definitions

* `Replay`, `Replay.line`, `replay`: the program.
* `traceOf`: the trace of a run of the plane.
* `Uses`, `SameRun`: the loops whose bytes the chip uses, and runs that differ in other bytes.
* `Counted`: the loop counters and the bytes compared.

## Main results

* `SameRun.step`, `Counted.step`: one cycle.
* `replay_mismatch_iff`: what a replay without a mismatch shows.
-/

namespace Saltworks.Firmware

open RTL RTL.Plane32Bus
open BusAdapt8 (Kind capture)

/-! ### The program -/

/-- The variables of the replay: the server, and the counters of lines, of bytes compared, of
those in the data loops of loads, and of mismatches. -/
structure Replay where
  server : NdfServer
  line : ℕ
  compared : ℕ
  loadDataPhases : ℕ
  mismatch : ℕ

/-- A line of the trace: `phase_pins`, `uo_out` and `ui_in`. -/
structure TraceLine where
  pp : BitVec 8
  pout : BitVec 8
  uin : BitVec 8

namespace Replay

/-- One line of the trace. -/
def read (r : Replay) (l : TraceLine) : Replay :=
  let (s, drive, consumed) := ndfStep r.server l.pp l.pout
  { server := s
    line := r.line + 1
    compared := if consumed then r.compared + 1 else r.compared
    loadDataPhases :=
      if consumed ∧ s.type = NDF_T_LOAD then r.loadDataPhases + 1 else r.loadDataPhases
    mismatch := if consumed ∧ drive ≠ l.uin then r.mismatch + 1 else r.mismatch }

/-- The number of bytes that the loop counters predict. -/
def expect (r : Replay) : ℕ := 4 * r.server.nFetchLoops.toNat + 4 * (r.server.nLoadLoops.toNat / 2)

/-- The criteria `F0` to `F5` of the replay. -/
def criteria (r : Replay) : List Bool :=
  [decide (100 < r.line), r.server.desync == 0#32, r.mismatch == 0, r.compared == r.expect,
    rd32 r.server.mem 64#8 == 64#32,
    decide (0 < r.server.nLoadLoops.toNat) &&
      r.server.nLoadLoops.toNat == 2 * (r.server.nLoadLoops.toNat / 2)]

end Replay

/-- The replay of a trace, for the program image `prog`. -/
def replay (prog : Bytes) (ls : List TraceLine) : Replay :=
  ls.foldl Replay.read ⟨{ ndfInit with prog := prog }, 0, 0, 0, 0⟩

/-- The trace of the first `n` cycles of a run under the host `h`. -/
def traceOf (s₀ : State) (h : ℕ → BitVec 8) (n : ℕ) : List TraceLine :=
  (List.range n).map fun t => ⟨pins (machine.run s₀ (hostInput h) t),
    addrByte (machine.run s₀ (hostInput h) t) (hostInput h t), h t⟩

/-! ### Bytes that the chip uses -/

/-- The chip uses the bytes of the current loop: a fetch loop or the data loop of a load. -/
def Uses (s : State) : Prop := s.bus.kind = .fetch ∨ s.bus.kind = .load ∧ s.bus.loadBeat = true

instance (s : State) : Decidable (Uses s) := by
  unfold Uses
  infer_instance

/-- Two states that differ in captured bytes which the chip does not use. -/
structure SameRun (s s' : State) : Prop where
  core : s'.core = s.core
  bus : s'.bus = { s.bus with inAcc := s'.bus.inAcc }
  captured : Uses s → ∀ i < 8 * s.bus.phase.toNat, s'.bus.inAcc.getLsbD i = s.bus.inAcc.getLsbD i

theorem SameRun.refl (s : State) : SameRun s s := ⟨rfl, rfl, fun _ _ _ => rfl⟩

/-- A captured byte fills its own place. -/
theorem getLsbD_capture (p : BitVec 2) (acc : Word) (b : BitVec 8) {i : ℕ} (hp : p ≠ 3#2)
    (hi : i < 32) : (capture p acc b).getLsbD i =
      if 8 * p.toNat ≤ i ∧ i < 8 * p.toNat + 8 then b.getLsbD (i - 8 * p.toNat)
      else acc.getLsbD i := by
  obtain rfl | rfl | rfl | rfl := BusAdapt8.phase_cases p
  · rw [show capture 0#2 acc b = acc.extractLsb' 8 24 ++ b from rfl]
    simp only [BitVec.getLsbD_append, BitVec.getLsbD_extractLsb', BitVec.toNat_ofNat]
    split_ifs <;> grind
  · rw [show capture 1#2 acc b = acc.extractLsb' 16 16 ++ (b ++ acc.extractLsb' 0 8) from rfl]
    simp only [BitVec.getLsbD_append, BitVec.getLsbD_extractLsb', BitVec.toNat_ofNat]
    split_ifs <;> grind
  · rw [show capture 2#2 acc b = acc.extractLsb' 24 8 ++ (b ++ acc.extractLsb' 0 16) from rfl]
    simp only [BitVec.getLsbD_append, BitVec.getLsbD_extractLsb', BitVec.toNat_ofNat]
    split_ifs <;> grind
  · exact absurd rfl hp

variable {s s' : State}

namespace SameRun

theorem pins_eq (h : SameRun s s') : pins s' = pins s := by
  rw [pins, phaseO, h.bus]
  rfl

theorem addrByte_eq' (h : SameRun s s') (i i' : Input) : addrByte s' i' = addrByte s i := by
  rw [addrByte_eq, addrByte_eq, loopWord, h.core, h.bus]
  rfl

/-- The words assembled at the end of a loop whose bytes are used agree. -/
theorem assembled_eq (h : SameRun s s') (hu : Uses s) (hp : s.bus.phase = 3#2) (b : BitVec 8) :
    BusAdapt8.assembled s'.bus b = BusAdapt8.assembled s.bus b := by
  have hacc : s'.bus.inAcc.extractLsb' 0 24 = s.bus.inAcc.extractLsb' 0 24 := by
    refine BitVec.eq_of_getLsbD_eq fun i hi => ?_
    rw [BitVec.getLsbD_extractLsb', BitVec.getLsbD_extractLsb', Nat.zero_add,
      h.captured hu i (by rw [hp]; exact hi)]
  rw [BusAdapt8.assembled, BusAdapt8.assembled, hacc]

theorem cInstr_eq (h : SameRun s s') {b b' : BitVec 8} (hb : Uses s → b' = b) :
    cInstr s' ⟨b', false⟩ = cInstr s ⟨b, false⟩ := by
  have hk : s'.bus.kind = s.bus.kind := by rw [h.bus]
  have hp : s'.bus.phase = s.bus.phase := by rw [h.bus]
  by_cases hc : FetchCompletes s
  · rw [cInstr_of_fetchCompletes hc, cInstr_of_fetchCompletes ⟨hk.trans hc.1, hp.trans hc.2⟩,
      h.assembled_eq (.inl hc.1) hc.2, hb (.inl hc.1)]
  · rw [cInstr_of_not_fetchCompletes hc,
      cInstr_of_not_fetchCompletes fun hc' => hc ⟨hk ▸ hc'.1, hp ▸ hc'.2⟩, h.bus]

/-- A cycle in which the two hosts agree on a byte that is used. -/
theorem step (h : SameRun s s') {b b' : BitVec 8} (hb : Uses s → b' = b) :
    SameRun (posedge true s ⟨b, false⟩) (posedge true s' ⟨b', false⟩) := by
  by_cases hp : s.bus.phase = 3#2
  · have hword := h.cInstr_eq hb
    have hp' : s'.bus.phase = 3#2 := by rw [h.bus]; exact hp
    have hreq : cDmemReq s' ⟨b', false⟩ = cDmemReq s ⟨b, false⟩ := congrArg Core32.dmemReq hword
    have hwe : cDmemWe s' ⟨b', false⟩ = cDmemWe s ⟨b, false⟩ := congrArg Core32.dmemWe hword
    have hret : retire s' ⟨b', false⟩ = retire s ⟨b, false⟩ := by
      rw [retire, hreq, h.bus]
      rfl
    have hused (hu : Uses s) : BusAdapt8.assembled s'.bus b' = BusAdapt8.assembled s.bus b := by
      rw [h.assembled_eq hu hp, hb hu]
    refine ⟨?_, ?_, fun _ i hi => absurd hi ?_⟩
    · simp only [posedge, hret, hword, h.core]
      rw [h.bus]
      rfl
    · have hinstr : (posedge true s' ⟨b', false⟩).bus.instrR =
          (posedge true s ⟨b, false⟩).bus.instrR := by
        have hk : s'.bus.kind = s.bus.kind := by rw [h.bus]
        have hi : s'.bus.instrR = s.bus.instrR := by rw [h.bus]
        by_cases hf : s.bus.kind = .fetch
        · simp [posedge, BusAdapt8.posedge, hp, hp', hk, hf, hused (.inl hf)]
        · simp [posedge, BusAdapt8.posedge, hk, hf, hi]
      have hrdata : (posedge true s' ⟨b', false⟩).bus.rdataR =
          (posedge true s ⟨b, false⟩).bus.rdataR := by
        have hk : s'.bus.kind = s.bus.kind := by rw [h.bus]
        have hl : s'.bus.loadBeat = s.bus.loadBeat := by rw [h.bus]
        have hr : s'.bus.rdataR = s.bus.rdataR := by rw [h.bus]
        by_cases hf : s.bus.kind = .load ∧ s.bus.loadBeat = true
        · simp [posedge, BusAdapt8.posedge, hp, hp', hk, hl, hf.1, hf.2, hused (.inr hf)]
        · have hcond : (s.bus.kind == Kind.load && s.bus.loadBeat) = false := by simpa using hf
          simp [posedge, BusAdapt8.posedge, hk, hl, hcond, hr]
      have hrest : (posedge true s' ⟨b', false⟩).bus = { (posedge true s ⟨b, false⟩).bus with
          inAcc := (posedge true s' ⟨b', false⟩).bus.inAcc
          instrR := (posedge true s' ⟨b', false⟩).bus.instrR
          rdataR := (posedge true s' ⟨b', false⟩).bus.rdataR } := by
        simp only [posedge, BusAdapt8.posedge, hreq, hwe]
        rw [h.bus]
        rfl
      refine hrest.trans ?_
      rw [hinstr, hrdata]
    · simp [posedge, BusAdapt8.posedge, BusAdapt8.nextPhase, hp]
  · have hp' : s'.bus.phase ≠ 3#2 := by rw [h.bus]; exact hp
    rw [posedge_midLoop hp, posedge_midLoop hp']
    refine ⟨h.core, ?_, fun hu i hi => ?_⟩
    · rw [h.bus]
    · have hphase : s'.bus.phase = s.bus.phase := by rw [h.bus]
      have hnext : (s.bus.phase + 1#2).toNat = s.bus.phase.toNat + 1 := by
        obtain h0 | h0 | h0 | h0 := BusAdapt8.phase_cases s.bus.phase
        · rw [h0]; rfl
        · rw [h0]; rfl
        · rw [h0]; rfl
        · exact absurd h0 hp
      have hlt : s.bus.phase.toNat < 4 := s.bus.phase.isLt
      simp only [hnext] at hi
      have hi32 : i < 32 := by omega
      simp only [hphase, getLsbD_capture _ _ _ hp hi32, hb hu]
      split_ifs with hin
      · rfl
      · exact h.captured hu i (by omega)

end SameRun

/-! ### Counters -/

section Counters

variable (v : NdfServer) (pp pout : BitVec 8)

/-- The counters of the server move in phase `0`, with the type just read. -/
theorem ndfStep_counters :
    (ndfStep v pp pout).1.nFetchLoops = v.nFetchLoops +
        (if v.phase = 0#2 ∧ v.loopType pp = NDF_T_FETCH then 1#32 else 0#32) ∧
      (ndfStep v pp pout).1.nLoadLoops = v.nLoadLoops +
        if v.phase = 0#2 ∧ v.loopType pp = NDF_T_LOAD then 1#32 else 0#32 := by
  have hkeep : (ndfStep v pp pout).1.nFetchLoops = (v.readPins pp).nFetchLoops ∧
      (ndfStep v pp pout).1.nLoadLoops = (v.readPins pp).nLoadLoops := by
    rw [ndfStep, ← NdfServer.serving, NdfServer.serve_fst, NdfServer.serving_eq]
    exact ⟨rfl, rfl⟩
  rw [hkeep.1, hkeep.2, NdfServer.readPins, NdfServer.loopType, NdfServer.countLoop]
  by_cases h0 : v.phase = 0#2
  · rw [if_pos h0]
    have hne : NDF_T_FETCH ≠ NDF_T_LOAD := by decide
    by_cases hf : pp.setWidth 2 = NDF_T_FETCH
    · simp [h0, hf, hne]
    · by_cases hl : pp.setWidth 2 = NDF_T_LOAD
      · simp [h0, hl, hne.symm]
      · simp only [hf, hl, h0, if_false, true_and, if_true]
        split_ifs <;> simp
  · simp only [h0, if_false, false_and]
    split_ifs <;> simp

/-- The chip uses the byte of a fetch loop and of the data loop of a load. -/
theorem ndfStep_consumed : (ndfStep v pp pout).2.2 = true ↔
    v.loopType pp = NDF_T_FETCH ∨ v.loopType pp = NDF_T_LOAD ∧ v.beat = true := by
  have htype := NdfServer.serving_type v pp pout
  have hbeat : (v.serving pp pout).beat = v.beat := by rw [NdfServer.serving_eq]
  have hne : NDF_T_LOAD ≠ NDF_T_FETCH := by decide
  rw [ndfStep, ← NdfServer.serving, NdfServer.serve, htype, hbeat]
  by_cases hf : v.loopType pp = NDF_T_FETCH
  · simp [hf]
  · by_cases hl : v.loopType pp = NDF_T_LOAD
    · cases v.beat <;> simp [hl, hne]
    · simp only [hf, hl, if_false, false_and, or_false, iff_false]
      split_ifs <;> simp

end Counters

variable {prog : Bytes} {v : NdfServer}

theorem Agrees.consumed_iff (h : Agrees prog s v) (i : Input) :
    (answer v s i).2.2 = true ↔ Uses s := by
  rw [answer, ndfStep_consumed, h.loopType, h.beat, Uses]
  cases hk : s.bus.kind <;>
    simp [dataBeat, hk, BusAdapt8.Kind.code, NDF_T_FETCH, NDF_T_LOAD]

/-- The bytes of the current loop that are still to be compared. -/
def pending (s : State) : ℕ :=
  if s.bus.phase ≠ 0#2 ∧ Uses s then 4 - s.bus.phase.toNat else 0

/-- The first of the two loops of a load has been counted and the second has not. -/
def OddLoad (s : State) : Prop := s.bus.kind = .load ∧ (s.bus.loadBeat = true ↔ s.bus.phase = 0#2)

instance (s : State) : Decidable (OddLoad s) := by
  unfold OddLoad
  infer_instance

/-- After `t` cycles the server has counted `F` fetch loops and `L` loops of loads, and `n` bytes
have been compared. -/
structure Counted (s : State) (v : NdfServer) (n t F L : ℕ) : Prop where
  fetchLoops : v.nFetchLoops = BitVec.ofNat 32 F
  loadLoops : v.nLoadLoops = BitVec.ofNat 32 L
  fetch_le : F ≤ t
  load_le : L ≤ t
  compared : n + pending s = 4 * F + 4 * (L / 2)
  parity : L % 2 = if OddLoad s then 1 else 0

/-- The last cycle of a loop leaves no byte of it, and moves from the first loop of a load into
the second. -/
theorem counts_of_loopEnd (ha : Arbitrated s.bus) (hp : s.bus.phase = 3#2) (b : BitVec 8) :
    pending (posedge true s ⟨b, false⟩) = 0 ∧ pending s = (if Uses s then 1 else 0) ∧
      (OddLoad (posedge true s ⟨b, false⟩) ↔ OddLoad s) := by
  have hp' : (posedge true s ⟨b, false⟩).bus.phase = 0#2 := by
    simp [posedge, BusAdapt8.posedge, BusAdapt8.nextPhase, hp]
  refine ⟨by simp [pending, hp'], by simp [pending, hp], ?_⟩
  rw [OddLoad, OddLoad, hp, hp']
  obtain ⟨-, hb, hb', hk', -⟩ | ⟨hfirst, hb'⟩ := loopEnd_cases ha hp b
  · rw [hk']
    refine and_congr_right fun hk => ?_
    rw [dataBeat, hk] at hb
    rw [dataBeat, hk', hk] at hb'
    simp [hb, hb']
  · have hnext : ¬((posedge true s ⟨b, false⟩).bus.kind = .load ∧
        ((posedge true s ⟨b, false⟩).bus.loadBeat = true ↔ 0#2 = 0#2)) := by
      rintro ⟨hk', hl⟩
      rw [dataBeat, hk'] at hb'
      simp [hb'] at hl
    have hnow : ¬(s.bus.kind = .load ∧ (s.bus.loadBeat = true ↔ 3#2 = 0#2)) := by
      rintro ⟨hk, hl⟩
      obtain hf | hb := hfirst
      · simp [hk] at hf
      · rw [dataBeat, hk] at hb
        simp [hb] at hl
    exact iff_of_false hnext hnow

/-- One cycle of the counters. -/
theorem Counted.step {n t F L : ℕ} (h : Counted s v n t F L) (ha : Arbitrated s.bus)
    (hv : Agrees prog s v) (b : BitVec 8) :
    Counted (posedge true s ⟨b, false⟩) (answer v s ⟨b, false⟩).1
      (n + if Uses s then 1 else 0) (t + 1)
      (F + if s.bus.phase = 0#2 ∧ s.bus.kind = .fetch then 1 else 0)
      (L + if s.bus.phase = 0#2 ∧ s.bus.kind = .load then 1 else 0) := by
  obtain ⟨hF, hL, hFt, hLt, hn, hodd⟩ := h
  obtain ⟨hcF, hcL⟩ := ndfStep_counters v (pins s) (addrByte s ⟨b, false⟩)
  have hadd (P : Prop) [Decidable P] (m : ℕ) : BitVec.ofNat 32 m + (if P then 1#32 else 0#32) =
      BitVec.ofNat 32 (m + if P then 1 else 0) := by
    split_ifs
    · exact (BitVec.ofNat_add m 1).symm
    · simp
  have hcode (k : Kind) (c : BitVec 2) (hc : ∀ k' : Kind, k'.code = c ↔ k' = k) :
      (v.phase = 0#2 ∧ v.loopType (pins s) = c ↔ s.bus.phase = 0#2 ∧ s.bus.kind = k) := by
    rw [hv.phase, hv.loopType, hc]
  have hfetch := hcode .fetch NDF_T_FETCH (by intro k'; cases k' <;> decide)
  have hload := hcode .load NDF_T_LOAD (by intro k'; cases k' <;> decide)
  refine ⟨?_, ?_, by split_ifs <;> omega, by split_ifs <;> omega, ?_, ?_⟩
  · rw [answer, hcF, hF, hadd]
    simp only [hfetch]
  · rw [answer, hcL, hL, hadd]
    simp only [hload]
  · by_cases hp : s.bus.phase = 3#2
    · obtain ⟨hnext, hnow, -⟩ := counts_of_loopEnd ha hp b
      rw [hnow] at hn
      simp only [hnext, hp, show ¬3#2 = 0#2 by decide, false_and, if_false, Nat.add_zero]
      exact hn
    · rw [posedge_midLoop hp]
      have hL2 : L % 2 = 1 ∨ L % 2 = 0 := by omega
      obtain h0 | h0 | h0 | h0 := BusAdapt8.phase_cases s.bus.phase
      · cases hk : s.bus.kind <;> cases hl : s.bus.loadBeat <;>
          simp [pending, OddLoad, Uses, h0, hk, hl] at hn hodd ⊢ <;> omega
      · cases hk : s.bus.kind <;> cases hl : s.bus.loadBeat <;>
          simp [pending, Uses, h0, hk, hl] at hn ⊢ <;> omega
      · cases hk : s.bus.kind <;> cases hl : s.bus.loadBeat <;>
          simp [pending, Uses, h0, hk, hl] at hn ⊢ <;> omega
      · exact absurd h0 hp
  · by_cases hp : s.bus.phase = 3#2
    · simp only [(counts_of_loopEnd ha hp b).2.2, hp, show ¬3#2 = 0#2 by decide, false_and,
        if_false, Nat.add_zero]
      exact hodd
    · rw [posedge_midLoop hp]
      obtain h0 | h0 | h0 | h0 := BusAdapt8.phase_cases s.bus.phase
      · cases hk : s.bus.kind <;> cases hl : s.bus.loadBeat <;>
          simp [OddLoad, h0, hk, hl] at hodd ⊢ <;> omega
      · cases hk : s.bus.kind <;> cases hl : s.bus.loadBeat <;>
          simp [OddLoad, h0, hk, hl] at hodd ⊢ <;> omega
      · cases hk : s.bus.kind <;> cases hl : s.bus.loadBeat <;>
          simp [OddLoad, h0, hk, hl] at hodd ⊢ <;> omega
      · exact absurd h0 hp

/-! ### Replays -/

theorem Counted.init (c : ClosedLoop) : Counted (c.plane 0) (c.server 0) 0 0 0 0 := by
  obtain ⟨-, hbus⟩ := (isReset_iff _).1 c.isReset
  have hidle : ¬OddLoad (c.plane 0) := by
    rw [OddLoad, hbus]
    exact fun h => absurd h.1 (by decide)
  refine ⟨by rw [c.server_zero]; rfl, by rw [c.server_zero]; rfl, le_rfl, le_rfl, ?_, ?_⟩
  · rw [pending, hbus, if_neg fun h => h.1 rfl]
  · rw [if_neg hidle]

/-- The replay of one line more. -/
theorem replay_traceOf_succ (prog : Bytes) (s₀ : State) (h : ℕ → BitVec 8) (n : ℕ) :
    replay prog (traceOf s₀ h (n + 1)) = (replay prog (traceOf s₀ h n)).read
      ⟨pins (machine.run s₀ (hostInput h) n), addrByte (machine.run s₀ (hostInput h) n)
        (hostInput h n), h n⟩ := by
  simp only [replay, traceOf, List.range_succ, List.map_append, List.foldl_append, List.map_cons,
    List.map_nil, List.foldl_cons, List.foldl_nil]

/-- The replay is in step with the closed loop after `n` cycles. -/
structure InStep (c : ClosedLoop) (h : ℕ → BitVec 8) (r : Replay) (n : ℕ) : Prop where
  server : r.server = c.server n
  sameRun : SameRun (c.plane n) (machine.run (c.plane 0) (hostInput h) n)
  counted : ∃ F L, Counted (c.plane n) (c.server n) r.compared n F L

variable {h : ℕ → BitVec 8}

/-- A line of the trace of a run that is in step with the closed loop. -/
theorem InStep.read {c : ClosedLoop} {r : Replay} {n : ℕ} (hr : InStep c h r n) :
    let r' := r.read ⟨pins (machine.run (c.plane 0) (hostInput h) n),
      addrByte (machine.run (c.plane 0) (hostInput h) n) (hostInput h n), h n⟩
    r'.mismatch = (if Uses (c.plane n) ∧ c.pinIn n ≠ h n then r.mismatch + 1 else r.mismatch) ∧
      ((Uses (c.plane n) → h n = c.pinIn n) → InStep c h r' (n + 1)) := by
  have hstep : ndfStep r.server (pins (machine.run (c.plane 0) (hostInput h) n))
      (addrByte (machine.run (c.plane 0) (hostInput h) n) (hostInput h n)) =
        answer (c.server n) (c.plane n) ⟨c.pinIn n, false⟩ := by
    rw [hr.server, hr.sameRun.pins_eq, hr.sameRun.addrByte_eq' ⟨c.pinIn n, false⟩]
    rfl
  have hused := (c.agrees n).consumed_iff ⟨c.pinIn n, false⟩
  refine ⟨?_, fun hbyte => ⟨?_, ?_, ?_⟩⟩
  · simp only [Replay.read, hstep, hused, ← c.pinIn_eq]
  · simp only [Replay.read, hstep]
    exact (c.server_succ n).symm
  · rw [c.plane_succ, run_succ]
    exact hr.sameRun.step hbyte
  · obtain ⟨F, L, hcount⟩ := hr.counted
    have hnext := hcount.step (c.arbitrated n) (c.agrees n) (c.pinIn n)
    rw [← c.plane_succ, ← c.server_succ] at hnext
    have hcompared : (r.read ⟨pins (machine.run (c.plane 0) (hostInput h) n),
        addrByte (machine.run (c.plane 0) (hostInput h) n) (hostInput h n), h n⟩).compared =
          r.compared + if Uses (c.plane n) then 1 else 0 := by
      simp only [Replay.read, hstep, hused]
      split_ifs <;> rfl
    rw [← hcompared] at hnext
    exact ⟨_, _, hnext⟩

/-- A replay has no mismatch if and only if the recorded host drove the bytes of the closed loop
wherever they are used, and then it is in step. -/
theorem replay_inStep (c : ClosedLoop) (hdata : c.data = fun _ => 0#8) (h : ℕ → BitVec 8) (n : ℕ) :
    ((replay c.prog (traceOf (c.plane 0) h n)).mismatch = 0 ↔
        ∀ t < n, Uses (c.plane t) → h t = c.pinIn t) ∧
      ((replay c.prog (traceOf (c.plane 0) h n)).mismatch = 0 →
        InStep c h (replay c.prog (traceOf (c.plane 0) h n)) n) := by
  induction n with
  | zero =>
    refine ⟨by simp [replay, traceOf], fun _ => ⟨?_, .refl _, 0, 0, .init c⟩⟩
    rw [c.server_zero, hdata]
    rfl
  | succ n ih =>
    obtain ⟨hiff, hin⟩ := ih
    rw [replay_traceOf_succ]
    by_cases h0 : (replay c.prog (traceOf (c.plane 0) h n)).mismatch = 0
    · obtain ⟨hmis, hnext⟩ := (hin h0).read
      have hzero : ((replay c.prog (traceOf (c.plane 0) h n)).read
          ⟨pins (machine.run (c.plane 0) (hostInput h) n),
            addrByte (machine.run (c.plane 0) (hostInput h) n) (hostInput h n), h n⟩).mismatch = 0 ↔
          (Uses (c.plane n) → h n = c.pinIn n) := by
        rw [hmis, h0]
        by_cases hu : Uses (c.plane n) ∧ c.pinIn n ≠ h n
        · rw [if_pos hu]
          exact iff_of_false (by omega) fun hb => hu.2 (hb hu.1).symm
        · rw [if_neg hu]
          exact iff_of_true rfl fun hused => by_contra fun hne => hu ⟨hused, Ne.symm hne⟩
      refine ⟨hzero.trans ⟨fun hb t ht => ?_, fun hall => hall n (by omega)⟩, fun hb =>
        hnext (hzero.1 hb)⟩
      obtain hlt | rfl : t < n ∨ t = n := by omega
      · exact hiff.1 h0 t hlt
      · exact hb
    · have hle : (replay c.prog (traceOf (c.plane 0) h n)).mismatch ≤
          ((replay c.prog (traceOf (c.plane 0) h n)).read
            ⟨pins (machine.run (c.plane 0) (hostInput h) n),
              addrByte (machine.run (c.plane 0) (hostInput h) n) (hostInput h n),
              h n⟩).mismatch := by
        simp only [Replay.read]
        split_ifs <;> omega
      refine ⟨iff_of_false (by omega) fun hall => h0 (hiff.2 fun t ht => hall t (by omega)),
        fun hb => absurd hb (by omega)⟩

/-- The criteria that follow at a boundary between instructions. -/
theorem InStep.criteria {c : ClosedLoop} {r : Replay} {n : ℕ} (hr : InStep c h r n)
    (hk : (c.plane n).bus.kind = .fetch) (hp : (c.plane n).bus.phase = 0#2) (hn : n < 2 ^ 32) :
    r.compared = r.expect ∧
      r.server.nLoadLoops.toNat = 2 * (r.server.nLoadLoops.toNat / 2) := by
  obtain ⟨F, L, hF, hL, hFn, hLn, hcount, hodd⟩ := hr.counted
  have hpending : pending (c.plane n) = 0 := by simp [pending, hp]
  have hidle : ¬OddLoad (c.plane n) := by simp [OddLoad, hk]
  rw [if_neg hidle] at hodd
  have hFnat : r.server.nFetchLoops.toNat = F := by
    rw [hr.server, hF, BitVec.toNat_ofNat, Nat.mod_eq_of_lt (by omega)]
  have hLnat : r.server.nLoadLoops.toNat = L := by
    rw [hr.server, hL, BitVec.toNat_ofNat, Nat.mod_eq_of_lt (by omega)]
  refine ⟨?_, by rw [hLnat]; omega⟩
  rw [Replay.expect, hFnat, hLnat]
  omega

/-- **What a replay shows.** For every program image, host and state after reset, the replay of
the first `n` cycles of the plane under the host has no mismatch if and only if the host drove the
bytes of the closed-loop run of chip and firmware in every cycle in which the chip uses them. Then
the replayed server is the one of the closed loop and has not lost the frame, the plane is the one
of the closed loop up to bytes that are not used, in every cycle so far, and between two
instructions the number of bytes compared is the one that the loop counters predict and the loops
of loads have come in pairs. -/
theorem replay_mismatch_iff {s₀ : State} (hs : IsReset s₀) (prog : Bytes) (h : ℕ → BitVec 8)
    (n : ℕ) :
    let c := ClosedLoop.ofImages prog (fun _ => 0#8) s₀ hs
    let r := replay prog (traceOf s₀ h n)
    (r.mismatch = 0 ↔ ∀ t < n, Uses (c.plane t) → h t = c.pinIn t) ∧
      (r.mismatch = 0 →
        (r.server = c.server n ∧ r.server.desync = 0#32) ∧
        (∀ t ≤ n, SameRun (c.plane t) (machine.run s₀ (hostInput h) t)) ∧
        ((c.plane n).bus.kind = .fetch → (c.plane n).bus.phase = 0#2 → n < 2 ^ 32 →
          r.compared = r.expect ∧
            r.server.nLoadLoops.toNat = 2 * (r.server.nLoadLoops.toNat / 2))) := by
  intro c r
  have hreplay (t : ℕ) := replay_inStep c rfl h t
  obtain ⟨hiff, hin⟩ := hreplay n
  refine ⟨hiff, fun h0 => ⟨⟨(hin h0).server, ?_⟩, fun t ht => ?_, (hin h0).criteria⟩⟩
  · have hserver : r.server = c.server n := (hin h0).server
    rw [hserver]
    exact (c.agrees n).desync
  · have ht0 := (hreplay t).1.2 fun u hu => hiff.1 h0 u (by omega)
    exact ((hreplay t).2 ht0).sameRun

/-- A host that serves one pass through the program of the bench and drives `8'hee` wherever the
chip does not use the byte. -/
def benchHost (t : ℕ) : BitVec 8 :=
  ([0x93#8, 0x00#8, 0x00#8, 0x04#8, 0x23#8, 0xa0#8, 0x10#8, 0x00#8] ++
    List.replicate 8 0xee#8 ++ [0x83#8, 0xa1#8, 0x00#8, 0x00#8] ++ List.replicate 4 0xee#8 ++
    [0x40#8, 0x00#8, 0x00#8, 0x00#8, 0x13#8, 0x00#8, 0x00#8, 0x00#8]).getD t 0#8

/-- The replay of the host's thirty-two cycles compares the predicted number of bytes. -/
theorem replay_mismatch_iff_benchHost :
    (replay benchProg (traceOf zeroReset benchHost 32)).compared =
      (replay benchProg (traceOf zeroReset benchHost 32)).expect :=
  (((replay_mismatch_iff isReset_zeroReset benchProg benchHost 32).2 (by decide +kernel)).2.2
    (by decide +kernel) (by decide +kernel) (by decide)).1

end Saltworks.Firmware
