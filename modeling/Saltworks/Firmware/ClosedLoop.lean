import Saltworks.Bus.LoadData
import Saltworks.Firmware.NdfMemserver

/-!
# The memory server and the bus plane in closed loop

In every cycle after reset, with `rst_n` high and `sof` low, the server is handed the phase pins
and the address byte of `plane32bus`, and the byte it returns is on `instr_byte` in the same
cycle. There is no combinational loop: the address byte does not depend on `instr_byte`
(`addrByte_eq`), although the decode in front of the adapter does in the last phase of a fetch.

`Agrees` ties the two states together, and one cycle of the closed loop keeps it. It is read
twice: it says what the server drives, and when it writes its memory.

## Main definitions

* `ClosedLoop`: a closed-loop run; `ClosedLoop.ofImages`: the run for given images.
* `Agrees`: the invariant.

## Main results

* `Agrees.step`: one cycle.
* `closedLoop_agrees`: the two machines agree over every run.
-/

namespace Saltworks.Firmware

open RTL RTL.Plane32Bus
open BusAdapt8 (Kind)
open Function (update)

/-! ### The pins -/

/-- The word whose bytes leave the plane in the current loop. -/
def loopWord (s : State) : Word :=
  BusAdapt8.outWord s.bus (Core32.imemAddr s.core) (Core32.dmemAddr s.core s.bus.instrR)
    (Core32.dmemWdata s.core s.bus.instrR)

theorem byteOut_eq (p : BitVec 2) (w : Word) : BusAdapt8.byteOut p w = byte w p := by
  refine BitVec.eq_of_getLsbD_eq fun i hi => ?_
  rw [getLsbD_byte]
  obtain rfl | rfl | rfl | rfl := BusAdapt8.phase_cases p
  all_goals simp [BusAdapt8.byteOut]

/-- The bytes of the word that a host drives in four cycles. -/
theorem byte_hostWord (h : ℕ → BitVec 8) (u : ℕ) (p : BitVec 2) :
    byte (hostWord h u) p = h (u + p.toNat) := by
  refine BitVec.eq_of_getLsbD_eq fun i hi => ?_
  have hp := p.isLt
  rw [getLsbD_byte, decide_eq_true hi, Bool.true_and, hostWord, BitVec.getLsbD_append,
    BitVec.getLsbD_append, BitVec.getLsbD_append]
  generalize p.toNat = q at hp ⊢
  split_ifs with h24 h16 h8
  · obtain rfl : q = 0 := by omega
    exact congrArg (h u).getLsbD (by omega)
  · obtain rfl : q = 1 := by omega
    exact congrArg (h (u + 1)).getLsbD (by omega)
  · obtain rfl : q = 2 := by omega
    exact congrArg (h (u + 2)).getLsbD (by omega)
  · obtain rfl : q = 3 := by omega
    exact congrArg (h (u + 3)).getLsbD (by omega)

/-- The address byte does not depend on the byte that the host drives. -/
theorem addrByte_eq (s : State) (i : Input) : addrByte s i = byte (loopWord s) s.bus.phase := by
  rw [addrByte, BusAdapt8.pinOut, byteOut_eq, loopWord]
  by_cases hc : FetchCompletes s
  · simp only [BusAdapt8.outWord, hc.1, beq_self_eq_true, if_true]
  · rw [cInstr_of_not_fetchCompletes hc]

/-- The pins `uio_out[1:0]`, as the firmware reads them. -/
def pins (s : State) : BitVec 8 := (phaseO s).setWidth 8

theorem setWidth_pins (s : State) : (pins s).setWidth 2 = phaseO s := by
  rw [pins, BitVec.setWidth_setWidth_of_le _ (by decide), BitVec.setWidth_eq]

/-- The server's answer to the plane in one cycle. -/
def answer (v : NdfServer) (s : State) (i : Input) : NdfServer × BitVec 8 × Bool :=
  ndfStep v (pins s) (addrByte s i)

/-- A closed-loop run: the plane after reset, the server after `ndf_init` with its two images
loaded, and in every cycle the byte that the server drives in answer to this very cycle. -/
structure ClosedLoop where
  prog : Bytes
  data : Bytes
  plane : ℕ → State
  server : ℕ → NdfServer
  pinIn : ℕ → BitVec 8
  isReset : IsReset (plane 0)
  server_zero : server 0 = { ndfInit with mem := data, prog := prog }
  pinIn_eq : ∀ t, pinIn t = (answer (server t) (plane t) ⟨pinIn t, false⟩).2.1
  server_succ : ∀ t, server (t + 1) = (answer (server t) (plane t) ⟨pinIn t, false⟩).1
  plane_succ : ∀ t, plane (t + 1) = posedge true (plane t) ⟨pinIn t, false⟩

/-! ### The invariant -/

/-- The two-bit type code of the plane's current loop is the server's. -/
structure Agrees (prog : Bytes) (s : State) (v : NdfServer) : Prop where
  prog : v.prog = prog
  desync : v.desync = 0#32
  phase : v.phase = s.bus.phase
  type : s.bus.phase ≠ 0#2 → v.type = s.bus.kind.code
  beat : v.beat = dataBeat s.bus
  /-- The bytes handed over in the current loop. -/
  handed : ∀ p < s.bus.phase, v.a p = byte (loopWord s) p
  /-- The address bytes of a store, from its first loop. -/
  stAddr : s.bus.kind = .store → ∀ p, dataBeat s.bus = true ∨ p < s.bus.phase →
    v.stAddr p = byte (Core32.dmemAddr s.core s.bus.instrR) p
  /-- The word of a fetch, looked up in phase `0`. -/
  fetched : s.bus.kind = .fetch → s.bus.phase ≠ 0#2 →
    v.word = rd32 v.prog (byte (Core32.imemAddr s.core) 0#2)
  /-- The word of a load, looked up at the end of its address loop. -/
  loaded : s.bus.kind = .load → dataBeat s.bus = true →
    v.word = rd32 v.mem (byte (Core32.dmemAddr s.core s.bus.instrR) 0#2)

section Answer

variable {prog : Bytes} {s : State} {v : NdfServer} (i : Input)

/-- The server reads the type of the loop from the pins of phase `0`, and keeps it. -/
theorem Agrees.loopType (h : Agrees prog s v) : v.loopType (pins s) = s.bus.kind.code := by
  rw [NdfServer.loopType, setWidth_pins, phaseO, BusAdapt8.phasePins, h.phase]
  by_cases h0 : s.bus.phase = 0#2
  · rw [if_pos h0, if_pos (by simp [h0])]
  · rw [if_neg h0, h.type h0]

/-- What a cycle does whatever the transaction: the server stays in step and takes the byte. -/
theorem Agrees.answer_common (h : Agrees prog s v) :
    (answer v s i).1.prog = prog ∧ (answer v s i).1.desync = 0#32 ∧
      (answer v s i).1.phase = s.bus.phase + 1#2 ∧
      (answer v s i).1.type = s.bus.kind.code ∧
      (answer v s i).1.a = update v.a s.bus.phase (byte (loopWord s) s.bus.phase) := by
  obtain ⟨hphase, htype, ha, hprog, hdesync⟩ := ndfStep_common v (pins s) (addrByte s i)
  have hpins : ¬(v.phase ≠ 0#2 ∧ (pins s).setWidth 2 ≠ v.phase) := by
    rintro ⟨h0, hne⟩
    rw [h.phase] at h0
    rw [setWidth_pins, phaseO, BusAdapt8.phasePins, if_neg (by simpa using h0), h.phase] at hne
    exact hne rfl
  refine ⟨hprog.trans h.prog, ?_, ?_, htype.trans h.loopType, ?_⟩
  · rw [answer, hdesync, if_neg hpins, h.desync]
  · rw [answer, hphase, h.phase]
  · rw [answer, ha, h.phase, addrByte_eq]

/-- The server enters its second loop where the plane does. -/
theorem Agrees.answer_beat (h : Agrees prog s v) (ha : Arbitrated s.bus) :
    (answer v s i).1.beat =
      if s.bus.phase = 3#2 then decide (s.bus.kind ≠ .fetch) && !dataBeat s.bus
      else dataBeat s.bus := by
  rw [answer, ndfStep_beat, h.loopType, h.phase, h.beat]
  by_cases hk : s.bus.kind = .fetch
  · simp [hk, BusAdapt8.Kind.code, NDF_T_LOAD, NDF_T_STORE]
  · rcases ha.load_or_store hk with hd | hd <;>
      simp [hd, BusAdapt8.Kind.code, NDF_T_LOAD, NDF_T_STORE]

/-- In a fetch loop the server drives the word of the program. -/
theorem Agrees.answer_fetch (h : Agrees prog s v) (hk : s.bus.kind = .fetch) :
    (answer v s i).1.word = rd32 prog (byte (Core32.imemAddr s.core) 0#2) ∧
      (answer v s i).1.mem = v.mem ∧
      (answer v s i).2.1 = byte (rd32 prog (byte (Core32.imemAddr s.core) 0#2)) s.bus.phase := by
  have htype : v.loopType (pins s) = NDF_T_FETCH := by rw [h.loopType, hk]; rfl
  obtain ⟨hword, -, hmem, hdrive⟩ := ndfStep_of_fetch (addrByte s i) htype
  have hlookup : (if v.phase = 0#2 then rd32 v.prog (addrByte s i) else v.word) =
      rd32 prog (byte (Core32.imemAddr s.core) 0#2) := by
    rw [h.phase]
    split_ifs with h0
    · rw [addrByte_eq, h0, h.prog, loopWord, BusAdapt8.outWord, hk]
      rfl
    · rw [h.fetched hk h0, h.prog]
  exact ⟨hword.trans hlookup, hmem, by rw [answer, hdrive, hlookup, h.phase]⟩

/-- In the address loop of a load the server looks up the word in the last phase. -/
theorem Agrees.answer_loadAddress (h : Agrees prog s v) (hk : s.bus.kind = .load)
    (hb : dataBeat s.bus = false) :
    (answer v s i).1.mem = v.mem ∧ (s.bus.phase = 3#2 →
      (answer v s i).1.word =
        rd32 v.mem (byte (Core32.dmemAddr s.core s.bus.instrR) 0#2)) := by
  have htype : v.loopType (pins s) = NDF_T_LOAD := by rw [h.loopType, hk]; rfl
  obtain ⟨hword, -, hmem⟩ := ndfStep_of_loadAddress (addrByte s i) htype (h.beat.trans hb)
  refine ⟨hmem, fun h3 => ?_⟩
  have hfirst : v.a 0#2 = byte (Core32.dmemAddr s.core s.bus.instrR) 0#2 := by
    rw [h.handed 0#2 (by rw [h3]; decide), loopWord, BusAdapt8.outWord, hk]
    rfl
  rw [answer, hword, h.phase, if_pos h3, h3, Function.update_of_ne (by decide), hfirst]

/-- In the data loop of a load the server drives the word it looked up. -/
theorem Agrees.answer_loadData (h : Agrees prog s v) (hk : s.bus.kind = .load)
    (hb : dataBeat s.bus = true) :
    (answer v s i).1.mem = v.mem ∧ (answer v s i).1.word = v.word ∧
      (answer v s i).2.1 =
        byte (rd32 v.mem (byte (Core32.dmemAddr s.core s.bus.instrR) 0#2)) s.bus.phase := by
  have htype : v.loopType (pins s) = NDF_T_LOAD := by rw [h.loopType, hk]; rfl
  obtain ⟨hword, -, hmem, hdrive⟩ := ndfStep_of_loadData (addrByte s i) htype (h.beat.trans hb)
  exact ⟨hmem, hword, by rw [answer, hdrive, h.loaded hk hb, h.phase]⟩

/-- In the address loop of a store the server keeps the address. -/
theorem Agrees.answer_storeAddress (h : Agrees prog s v) (hk : s.bus.kind = .store)
    (hb : dataBeat s.bus = false) :
    (answer v s i).1.mem = v.mem ∧ ∀ p, p < s.bus.phase ∨ p = s.bus.phase →
      (answer v s i).1.stAddr p = byte (Core32.dmemAddr s.core s.bus.instrR) p := by
  have htype : v.loopType (pins s) = NDF_T_STORE := by rw [h.loopType, hk]; rfl
  have hbeat : s.bus.storeBeat = false := by simpa [dataBeat, hk] using hb
  have hout : loopWord s = Core32.dmemAddr s.core s.bus.instrR := by
    rw [loopWord, BusAdapt8.outWord, hk, hbeat]
    rfl
  obtain ⟨haddr, hmem⟩ := ndfStep_of_storeAddress (addrByte s i) htype (h.beat.trans hb)
  refine ⟨hmem, fun p hp => ?_⟩
  rw [answer, haddr, h.phase, addrByte_eq, hout]
  obtain hlt | rfl := hp
  · rw [Function.update_of_ne (BitVec.ne_of_lt hlt), h.stAddr hk p (.inr hlt)]
  · rw [Function.update_self]

/-- In the data loop of a store the server writes its memory in the last phase: the bytes of the
word at the address, and nothing else. -/
theorem Agrees.answer_storeData (h : Agrees prog s v) (hk : s.bus.kind = .store)
    (hb : dataBeat s.bus = true) :
    (answer v s i).1.stAddr = v.stAddr ∧
      (s.bus.phase ≠ 3#2 → (answer v s i).1.mem = v.mem) ∧
      (s.bus.phase = 3#2 →
        (∀ p : BitVec 2, (answer v s i).1.mem
            (byte (Core32.dmemAddr s.core s.bus.instrR) 0#2 + p.setWidth 8) =
          byte (Core32.dmemWdata s.core s.bus.instrR) p) ∧
        ∀ b, (∀ p : BitVec 2,
            b ≠ byte (Core32.dmemAddr s.core s.bus.instrR) 0#2 + p.setWidth 8) →
          (answer v s i).1.mem b = v.mem b) := by
  have htype : v.loopType (pins s) = NDF_T_STORE := by rw [h.loopType, hk]; rfl
  have hbeat : s.bus.storeBeat = true := by simpa [dataBeat, hk] using hb
  have hout : loopWord s = Core32.dmemWdata s.core s.bus.instrR := by
    rw [loopWord, BusAdapt8.outWord, hk, hbeat]
    rfl
  obtain ⟨haddr, hmem⟩ := ndfStep_of_storeData (addrByte s i) htype (h.beat.trans hb)
  refine ⟨haddr, fun h3 => ?_, fun h3 => ?_⟩
  · rw [answer, hmem, h.phase, if_neg h3]
  · rw [answer, hmem, h.phase, if_pos h3, ← h.stAddr hk 0#2 (.inl hb)]
    refine ⟨fun p => ?_, fun b hb => v.storeBytes_of_ne _ hb⟩
    rw [v.storeBytes_byte _ (h.phase.trans h3), h.phase, addrByte_eq, hout]
    by_cases hp : p = s.bus.phase
    · rw [hp, Function.update_self]
    · have hlt : p < s.bus.phase := by
        rw [h3] at hp ⊢
        clear * - hp
        revert p
        decide
      rw [Function.update_of_ne hp, h.handed p hlt, hout]

end Answer

/-! ### One cycle -/

section Step

variable {prog : Bytes} {s : State} {v : NdfServer}

/-- Phases up to the current one. -/
theorem lt_next_phase {p q : BitVec 2} (hq : q ≠ 3#2) (h : p < q + 1#2) : p < q ∨ p = q := by
  revert p q
  decide

/-- A cycle before the last of a loop. -/
theorem Agrees.midLoop (h : Agrees prog s v) (ha : Arbitrated s.bus) (hp : s.bus.phase ≠ 3#2)
    (b : BitVec 8) : Agrees prog (posedge true s ⟨b, false⟩) (answer v s ⟨b, false⟩).1 := by
  obtain ⟨hprog, hdesync, hphase, htype, hbytes⟩ := h.answer_common ⟨b, false⟩
  rw [posedge_midLoop hp]
  exact {
    prog := hprog
    desync := hdesync
    phase := hphase
    type := fun _ => htype
    beat := by
      rw [h.answer_beat _ ha, if_neg hp]
      rfl
    handed := fun p hlt => by
      rw [hbytes]
      obtain hlt | rfl := lt_next_phase hp hlt
      · rw [Function.update_of_ne (BitVec.ne_of_lt hlt), h.handed p hlt]
        rfl
      · exact Function.update_self ..
    stAddr := fun hk p hlt => by
      cases hb : dataBeat s.bus with
      | false =>
        have hlt : p < s.bus.phase + 1#2 := hlt.resolve_left (by simpa [dataBeat] using hb)
        exact (h.answer_storeAddress _ hk hb).2 p (lt_next_phase hp hlt)
      | true => rw [(h.answer_storeData _ hk hb).1, h.stAddr hk p (.inl hb)]
    fetched := fun hk _ => by rw [(h.answer_fetch _ hk).1, hprog]
    loaded := fun hk hb => by
      obtain ⟨hmem, hword, -⟩ := h.answer_loadData ⟨b, false⟩ hk hb
      rw [hmem, hword, h.loaded hk hb] }

/-- The last cycle of a loop: from an address loop into its data loop, or to a first loop. -/
theorem loopEnd_cases (ha : Arbitrated s.bus) (hp : s.bus.phase = 3#2) (b : BitVec 8) :
    (s.bus.kind ≠ .fetch ∧ dataBeat s.bus = false ∧
      dataBeat (posedge true s ⟨b, false⟩).bus = true ∧
      (posedge true s ⟨b, false⟩).bus.kind = s.bus.kind ∧
      (posedge true s ⟨b, false⟩).bus.instrR = s.bus.instrR ∧
      (posedge true s ⟨b, false⟩).core = s.core) ∨
    ((s.bus.kind = .fetch ∨ dataBeat s.bus = true) ∧
      dataBeat (posedge true s ⟨b, false⟩).bus = false) := by
  have hfirst {b : BusAdapt8.State} (hs : b.storeBeat = false) (hl : b.loadBeat = false) :
      dataBeat b = false := by
    cases hk : b.kind <;> simp [dataBeat, hk, hs, hl]
  by_cases hk : s.bus.kind = .fetch
  · refine .inr ⟨.inl hk, ?_⟩
    cases hreq : cDmemReq s ⟨b, false⟩ with
    | false =>
      obtain ⟨-, -, -, hs, hl, -⟩ := step_of_plain ⟨hk, hp⟩ hreq
      exact hfirst hs hl
    | true =>
      obtain ⟨-, -, -, hs, hl, -⟩ := step_of_request ⟨hk, hp⟩ hreq
      exact hfirst hs hl
  · cases hb : dataBeat s.bus with
    | false =>
      have hlast : ¬(s.bus.phase = 3#2 ∧ dataBeat s.bus = true) := by simp [hb]
      obtain ⟨hret, hkind, -, hinstr, -⟩ := step_of_data (i := ⟨b, false⟩) ha hk hlast
      refine .inl ⟨hk, rfl, ?_, hkind, hinstr, core_of_not_retire hret⟩
      rw [(step_of_data_advance ha hk hlast rfl).2, hp]
      simp
    | true =>
      obtain ⟨-, -, -, hs, hl, -⟩ := step_of_dataEnd (i := ⟨b, false⟩) ha hk hp hb
      exact .inr ⟨.inr rfl, hfirst hs hl⟩

theorem Agrees.loopEnd (h : Agrees prog s v) (ha : Arbitrated s.bus) (hp : s.bus.phase = 3#2)
    (b : BitVec 8) : Agrees prog (posedge true s ⟨b, false⟩) (answer v s ⟨b, false⟩).1 := by
  obtain ⟨hprog, hdesync, hphase, -, -⟩ := h.answer_common ⟨b, false⟩
  have hp' : (posedge true s ⟨b, false⟩).bus.phase = 0#2 := by
    simp [posedge, BusAdapt8.posedge, BusAdapt8.nextPhase, hp]
  have hbeat := h.answer_beat ⟨b, false⟩ ha
  rw [if_pos hp] at hbeat
  have hnone (p : BitVec 2) : ¬p < (posedge true s ⟨b, false⟩).bus.phase := by
    rw [hp']
    exact BitVec.not_lt_zero
  refine {
    prog := hprog
    desync := hdesync
    phase := by rw [hphase, hp, hp']; rfl
    type := fun h0 => absurd hp' h0
    beat := ?_
    handed := fun p hlt => absurd hlt (hnone p)
    stAddr := fun hk' p hlt => ?_
    fetched := fun _ h0 => absurd hp' h0
    loaded := fun hk' hb' => ?_ }
  · rw [hbeat]
    obtain ⟨hk, hb, hb', -⟩ | ⟨hfirst, hb'⟩ := loopEnd_cases ha hp b
    · simp [hk, hb, hb']
    · rw [hb']
      obtain hk | hb := hfirst
      · simp [hk]
      · simp [hb]
  · obtain ⟨hk, hb, hb', hkind, hinstr, hcore⟩ | ⟨-, hb'⟩ := loopEnd_cases ha hp b
    · rw [hcore, hinstr]
      refine (h.answer_storeAddress _ (hkind ▸ hk') hb).2 p ?_
      rw [hp]
      clear * -
      revert p
      decide
    · exact absurd (hlt.resolve_right (hnone p)) (by simp [hb'])
  · obtain ⟨hk, hb, -, hkind, hinstr, hcore⟩ | ⟨-, hb''⟩ := loopEnd_cases ha hp b
    · obtain ⟨hmem, hword⟩ := h.answer_loadAddress ⟨b, false⟩ (hkind ▸ hk') hb
      rw [hcore, hinstr, hmem, hword hp]
    · exact absurd hb' (by simp [hb''])

/-- **One cycle** of the closed loop keeps the two machines in agreement. -/
theorem Agrees.step (h : Agrees prog s v) (ha : Arbitrated s.bus) (b : BitVec 8) :
    Agrees prog (posedge true s ⟨b, false⟩) (answer v s ⟨b, false⟩).1 := by
  by_cases hp : s.bus.phase = 3#2
  · exact h.loopEnd ha hp b
  · exact h.midLoop ha hp b

end Step

/-! ### Runs -/

/-- The server's answer does not depend on the byte on `instr_byte`. -/
theorem answer_congr (v : NdfServer) (s : State) (i i' : Input) : answer v s i = answer v s i' := by
  rw [answer, answer, addrByte_eq, addrByte_eq]

namespace ClosedLoop

/-- The plane and the server in each cycle. -/
def states (prog data : Bytes) (s₀ : State) : ℕ → State × NdfServer
  | 0 => (s₀, { ndfInit with mem := data, prog := prog })
  | t + 1 =>
    let r := answer (states prog data s₀ t).2 (states prog data s₀ t).1 ⟨0#8, false⟩
    (posedge true (states prog data s₀ t).1 ⟨r.2.1, false⟩, r.1)

/-- The closed-loop run for given images, from a state after reset. -/
def ofImages (prog data : Bytes) (s₀ : State) (h : IsReset s₀) : ClosedLoop where
  prog := prog
  data := data
  plane t := (states prog data s₀ t).1
  server t := (states prog data s₀ t).2
  pinIn t := (answer (states prog data s₀ t).2 (states prog data s₀ t).1 ⟨0#8, false⟩).2.1
  isReset := h
  server_zero := rfl
  pinIn_eq _ := congrArg (fun r => r.2.1) (answer_congr _ _ _ _)
  server_succ _ := congrArg Prod.fst (answer_congr _ _ _ _)
  plane_succ _ := rfl

/-- The images and the state after reset determine the run. -/
theorem eq_ofImages (c : ClosedLoop) (t : ℕ) :
    c.plane t = (ofImages c.prog c.data (c.plane 0) c.isReset).plane t ∧
      c.server t = (ofImages c.prog c.data (c.plane 0) c.isReset).server t ∧
      c.pinIn t = (ofImages c.prog c.data (c.plane 0) c.isReset).pinIn t := by
  set d := ofImages c.prog c.data (c.plane 0) c.isReset with hd
  have hpin {t : ℕ} (hp : c.plane t = d.plane t) (hv : c.server t = d.server t) :
      c.pinIn t = d.pinIn t := by
    rw [c.pinIn_eq, d.pinIn_eq, hp, hv]
    exact congrArg (fun r => r.2.1) (answer_congr _ _ _ _)
  induction t with
  | zero =>
    have hv : c.server 0 = d.server 0 := c.server_zero.trans d.server_zero.symm
    exact ⟨rfl, hv, hpin rfl hv⟩
  | succ t ih =>
    obtain ⟨hp, hv, hb⟩ := ih
    have hp' : c.plane (t + 1) = d.plane (t + 1) := by rw [c.plane_succ, d.plane_succ, hp, hb]
    have hv' : c.server (t + 1) = d.server (t + 1) := by
      rw [c.server_succ, d.server_succ, hp, hv, hb]
    exact ⟨hp', hv', hpin hp' hv'⟩

variable (c : ClosedLoop)

theorem plane_eq_run (t : ℕ) : c.plane t = machine.run (c.plane 0) (hostInput c.pinIn) t := by
  induction t with
  | zero => rfl
  | succ t ih => rw [c.plane_succ, ih, run_succ, hostInput]

theorem arbitrated (t : ℕ) : Arbitrated (c.plane t).bus := by
  rw [c.plane_eq_run]
  exact Arbitrated.run c.isReset _ t

/-- The two machines agree in every cycle. -/
theorem agrees (t : ℕ) : Agrees c.prog (c.plane t) (c.server t) := by
  induction t with
  | zero =>
    obtain ⟨-, hbus⟩ := (isReset_iff _).1 c.isReset
    rw [c.server_zero]
    exact {
      prog := rfl
      desync := rfl
      phase := by rw [hbus]; rfl
      type := fun h => absurd (by rw [hbus]; rfl) h
      beat := by rw [hbus]; rfl
      handed := fun p h => absurd h (by rw [hbus]; exact BitVec.not_lt_zero)
      stAddr := fun h => absurd (h.symm.trans (by rw [hbus]; rfl))
        (show Kind.store ≠ .fetch by decide)
      fetched := fun _ h => absurd (by rw [hbus]; rfl) h
      loaded := fun h => absurd (h.symm.trans (by rw [hbus]; rfl))
        (show Kind.load ≠ .fetch by decide) }
  | succ t ih =>
    rw [c.server_succ, c.plane_succ]
    exact ih.step (c.arbitrated t) _

/-- The cycles of a fetch loop have the core and the kind of its last one. -/
theorem fetchLoop {u j : ℕ} (h0 : (c.plane u).bus.phase = 0#2) (hj : j < 4)
    (hk : (c.plane (u + 3)).bus.kind = .fetch) :
    (c.plane (u + j)).bus.kind = .fetch ∧ (c.plane (u + j)).bus.phase = BitVec.ofNat 2 j ∧
      (c.plane (u + j)).core = (c.plane (u + 3)).core := by
  have hloop {j : ℕ} (hj : j < 4) :
      c.plane (u + j) = inLoop (fun k => c.pinIn (u + k)) (c.plane u) j := by
    rw [c.plane_eq_run, run_add_hostInput, ← c.plane_eq_run, run_inLoop h0 _ hj]
  rw [hloop hj, hloop (j := 3) (by decide)]
  rw [hloop (j := 3) (by decide)] at hk
  exact ⟨hk, rfl, rfl⟩

/-- The word of a fetch loop is the word of the program at the address the plane drives. -/
theorem assembled_fetch {t : ℕ} (hc : FetchCompletes (c.plane t)) :
    BusAdapt8.assembled (c.plane t).bus (c.pinIn t) =
      rd32 c.prog (byte (Core32.imemAddr (c.plane t).core) 0#2) := by
  obtain ⟨hk, hp⟩ := hc
  have hp' := c.plane_eq_run t ▸ hp
  obtain ⟨u, rfl, h0⟩ := exists_loopStart c.isReset c.pinIn hp'
  have hword := assembled_of_loopEnd c.isReset c.pinIn hp'
  rw [← c.plane_eq_run, Nat.add_sub_cancel] at hword
  rw [← c.plane_eq_run] at h0
  rw [hword]
  refine eq_of_byte_eq fun p => ?_
  obtain ⟨hk', hp', hcore⟩ := c.fetchLoop h0 p.isLt hk
  have hdrive := ((c.agrees (u + p.toNat)).answer_fetch ⟨c.pinIn (u + p.toNat), false⟩ hk').2.2
  rw [← c.pinIn_eq, hp', BitVec.ofNat_toNat, BitVec.setWidth_eq, hcore] at hdrive
  rw [byte_hostWord, hdrive]

end ClosedLoop

/-! ### What the two machines agree on -/

/-- A store retires in this cycle. -/
def storeRetires (s : State) (i : Input) : Bool := retire s i && Core32.isStoreW (cInstr s i)

/-- A store retires exactly in the cycles in which the server writes its memory. -/
theorem storeRetires_eq {s : State} {i : Input} (ha : Arbitrated s.bus) :
    storeRetires s i = (s.bus.phase == 3#2 && (s.bus.kind == .store && dataBeat s.bus)) := by
  by_cases hk : s.bus.kind = .fetch
  · cases hr : retire s i with
    | false => simp [storeRetires, hr, hk]
    | true =>
      obtain ⟨-, hstore⟩ := not_request_of_retire hk hr
      simp [storeRetires, hstore, hk]
  · obtain ⟨-, -, hkind⟩ := decode_of_data (i := i) ha hk
    have hwe : Core32.isStoreW (cInstr s i) = (s.bus.kind == .store) := by
      rw [hkind]
      change cDmemWe s i = _
      cases cDmemWe s i <;> rfl
    rw [storeRetires, retire, ha.retire_of_data hk, hwe, Bool.and_assoc, Bool.and_comm (dataBeat _)]

/-- Nothing else changes the server's memory. -/
theorem Agrees.answer_mem {prog : Bytes} {s : State} {v : NdfServer} {i : Input}
    (h : Agrees prog s v) (ha : Arbitrated s.bus) (hr : storeRetires s i = false) :
    (answer v s i).1.mem = v.mem := by
  rw [storeRetires_eq ha] at hr
  cases hk : s.bus.kind with
  | idle => exact absurd hk ha.notIdle
  | fetch => exact (h.answer_fetch i hk).2.1
  | load =>
    cases hb : dataBeat s.bus with
    | false => exact (h.answer_loadAddress i hk hb).1
    | true => exact (h.answer_loadData i hk hb).1
  | store =>
    cases hb : dataBeat s.bus with
    | false => exact (h.answer_storeAddress i hk hb).1
    | true => exact (h.answer_storeData i hk hb).2.1 (by simpa [hk, hb] using hr)

theorem byte_zero (w : Word) : byte w 0#2 = w.setWidth 8 := rfl

theorem setWidth_imemAddr (s : Core32.State) :
    (Core32.imemAddr s).setWidth 8 = s.pcR.extractLsb' 2 6 ++ 0#2 := by
  refine BitVec.eq_of_getLsbD_eq fun i hi => ?_
  rw [BitVec.getLsbD_setWidth, decide_eq_true hi, Bool.true_and, Core32.imemAddr,
    BitVec.getLsbD_append, BitVec.getLsbD_append, BitVec.getLsbD_extractLsb',
    BitVec.getLsbD_extractLsb', decide_eq_true (by omega), decide_eq_true (by omega)]

/-- **Firmware and chip agree in closed loop.** In every cycle of every closed-loop run, for every
program, data image and register file:

* the server's phase is the adapter's; the type it holds for the cycle is the adapter's kind, and
  its beat the adapter's; `desync` stays zero;
* if a store retires, the four bytes of the server's memory from the low byte of the store's
  address, modulo `256`, become the bytes of the word, low byte first, and no other changes; in a
  cycle without such a retire the memory does not change;
* in the data loop of a load the server drives the bytes of the word in its memory at the low
  byte of the load's address;
* the instruction of a fetch loop is the word of the program at `{pc[7:2], 2'b00}`. -/
theorem closedLoop_agrees (c : ClosedLoop) (t : ℕ) :
    ((c.server t).phase = (c.plane t).bus.phase ∧
      (c.server (t + 1)).type = (c.plane t).bus.kind.code ∧
      ((c.plane t).bus.phase ≠ 0#2 → (c.server t).type = (c.plane t).bus.kind.code) ∧
      (c.server t).beat = ((c.plane t).bus.storeBeat || (c.plane t).bus.loadBeat) ∧
      (c.server t).desync = 0#32) ∧
    (storeRetires (c.plane t) ⟨c.pinIn t, false⟩ = true →
      (∀ p : BitVec 2, (c.server (t + 1)).mem ((Core32.dmemAddr (c.plane t).core
          (cInstr (c.plane t) ⟨c.pinIn t, false⟩)).setWidth 8 + p.setWidth 8) =
        byte (Core32.dmemWdata (c.plane t).core (cInstr (c.plane t) ⟨c.pinIn t, false⟩)) p) ∧
      ∀ b, (∀ p : BitVec 2, b ≠ (Core32.dmemAddr (c.plane t).core
          (cInstr (c.plane t) ⟨c.pinIn t, false⟩)).setWidth 8 + p.setWidth 8) →
        (c.server (t + 1)).mem b = (c.server t).mem b) ∧
    (storeRetires (c.plane t) ⟨c.pinIn t, false⟩ = false →
      (c.server (t + 1)).mem = (c.server t).mem) ∧
    ((c.plane t).bus.kind = .load → (c.plane t).bus.loadBeat = true →
      c.pinIn t = byte (rd32 (c.server t).mem ((Core32.dmemAddr (c.plane t).core
        (cInstr (c.plane t) ⟨c.pinIn t, false⟩)).setWidth 8)) (c.plane t).bus.phase) ∧
    (FetchCompletes (c.plane t) →
      BusAdapt8.assembled (c.plane t).bus (c.pinIn t) =
        rd32 c.prog ((c.plane t).core.pcR.extractLsb' 2 6 ++ 0#2)) := by
  have h := c.agrees t
  have ha := c.arbitrated t
  have hword (hk : (c.plane t).bus.kind ≠ .fetch) :
      cInstr (c.plane t) ⟨c.pinIn t, false⟩ = (c.plane t).bus.instrR :=
    cInstr_of_not_fetchCompletes fun hc => hk hc.1
  refine ⟨⟨h.phase, ?_, h.type, ?_, h.desync⟩, fun hr => ?_, fun hr => ?_, fun hk hl => ?_,
    fun hc => ?_⟩
  · rw [c.server_succ]
    exact (h.answer_common _).2.2.2.1
  · rw [h.beat, ha.dataBeat_eq]
  · rw [storeRetires_eq ha] at hr
    simp only [Bool.and_eq_true, beq_iff_eq] at hr
    obtain ⟨hp, hk, hb⟩ := hr
    rw [c.server_succ, hword (by simp [hk])]
    exact (h.answer_storeData _ hk hb).2.2 hp
  · rw [c.server_succ]
    exact h.answer_mem ha hr
  · rw [hword (by simp [hk])]
    conv_lhs => rw [c.pinIn_eq]
    exact (h.answer_loadData _ hk (by simp [dataBeat, hk, hl])).2.2
  · rw [c.assembled_fetch hc, byte_zero, setWidth_imemAddr]

/-- The store `sw x1, 5(x0)`, fetched everywhere. -/
def storeProg (a : BitVec 8) : BitVec 8 := [0xa3#8, 0x22#8, 0x10#8, 0x00#8].getD (a.toNat % 4) 0#8

/-- A plane after reset whose registers hold `0x04030201`. -/
def storeReset : State := ⟨⟨0#32, fun _ => 0x04030201#32⟩, BusAdapt8.resetState⟩

/-- The closed-loop run of the store. -/
def storeLoop : ClosedLoop :=
  .ofImages storeProg (fun _ => 0#8) storeReset ((isReset_iff _).2 ⟨rfl, rfl⟩)

/-- The first store leaves the bytes `1`, `2`, `3`, `4` from the address `5` on. -/
theorem closedLoop_agrees_storeLoop :
    (storeLoop.server 12).mem 5#8 = 1#8 ∧ (storeLoop.server 12).mem 6#8 = 2#8 ∧
      (storeLoop.server 12).mem 7#8 = 3#8 ∧ (storeLoop.server 12).mem 8#8 = 4#8 := by
  obtain ⟨hbytes, -⟩ := (closedLoop_agrees storeLoop 11).2.1 (by decide)
  have haddr : (Core32.dmemAddr (storeLoop.plane 11).core
      (cInstr (storeLoop.plane 11) ⟨storeLoop.pinIn 11, false⟩)).setWidth 8 = 5#8 := by
    decide
  have hdata : Core32.dmemWdata (storeLoop.plane 11).core
      (cInstr (storeLoop.plane 11) ⟨storeLoop.pinIn 11, false⟩) = 0x04030201#32 := by
    decide
  rw [haddr, hdata] at hbytes
  exact ⟨by simpa [byte] using hbytes 0#2, by simpa [byte] using hbytes 1#2,
    by simpa [byte] using hbytes 2#2, by simpa [byte] using hbytes 3#2⟩

/-- The jump `jal x0, 2`, followed by zeros. -/
def jumpProg (a : BitVec 8) : BitVec 8 := [0x6f#8, 0x00#8, 0x20#8, 0x00#8].getD a.toNat 0#8

/-- The closed-loop run of the jump. -/
def jumpLoop : ClosedLoop := .ofImages jumpProg (fun _ => 0#8) zeroReset isReset_zeroReset

/-- After a jump to the address `2` the plane fetches the word at `0`, not the one at `2`. -/
theorem not_fetch_at_pc :
    ¬ ∀ (c : ClosedLoop) (t : ℕ), FetchCompletes (c.plane t) →
      BusAdapt8.assembled (c.plane t).bus (c.pinIn t) =
        rd32 c.prog ((c.plane t).core.pcR.setWidth 8) := by
  intro hall
  have hbad := hall jumpLoop 7 (by decide)
  revert hbad
  decide

end Saltworks.Firmware
