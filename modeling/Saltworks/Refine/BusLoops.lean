import Mathlib.Data.Nat.Count
import Saltworks.Bus.LoadData
import Saltworks.Refine.CoreStep

/-!
# Runs of the bus plane, loop by loop

During a loop the pins carry one word, a byte in each cycle, and the type of the loop. `Emits`
says what a run of whole loops shows at the pins and in which cycle it retires; runs compose, and
the three kinds of loop that an instruction is made of are single steps of it.

## Main definitions

* `pins`: the values of `pin_out` and `phase_pins` in a cycle.
* `loopWord`: the word that leaves during a loop.
* `Emits`: what a run of whole loops shows at the pins.
* `Serving`: the plane at the start of a data loop.

## Main results

* `emits_of_loop`, `Emits.append`: one loop, and composition.
* `fetchLoop_plain`, `fetchLoop_request`, `addressLoop`, `dataLoop`: the loops of an instruction.
-/

namespace Saltworks.Refine

open RTL Plane32Bus

variable {s s' s'' : State} {h : ℕ → BitVec 8}

/-- The values of `pin_out` and `phase_pins` in a cycle. -/
def pins (s : State) (i : Input) : BitVec 8 × BitVec 2 := (addrByte s i, phaseO s)

/-- The word that leaves during the loop that starts in `s`. -/
def loopWord (s : State) : Word :=
  BusAdapt8.outWord s.bus (Core32.imemAddr s.core) (Core32.dmemAddr s.core s.bus.instrR)
    (Core32.dmemWdata s.core s.bus.instrR)

theorem outWord_inLoop (s : State) (h : ℕ → BitVec 8) (j : ℕ) (i : Input) :
    BusAdapt8.outWord (inLoop h s j).bus (Core32.imemAddr (inLoop h s j).core)
        (Core32.dmemAddr (inLoop h s j).core (cInstr (inLoop h s j) i))
        (Core32.dmemWdata (inLoop h s j).core (cInstr (inLoop h s j) i)) =
      loopWord s := by
  by_cases hk : s.bus.kind = .fetch
  · simp [loopWord, BusAdapt8.outWord, inLoop, hk]
  · have hword : cInstr (inLoop h s j) i = s.bus.instrR :=
      cInstr_of_not_fetchCompletes fun hc => hk hc.1
    rw [hword]
    rfl

/-- The pins during a loop are those of its kind and its word. -/
theorem pins_inLoop {l : Loop} (hk : l.kind.code = s.bus.kind.code) (ho : l.out = loopWord s)
    (i : Input) {j : ℕ} (hj : j < 4) : l.emit[j]? = some (pins (inLoop h s j) i) := by
  rw [pins, addrByte, BusAdapt8.pinOut, outWord_inLoop, ← ho, phaseO, BusAdapt8.phasePins]
  obtain rfl | rfl | rfl | rfl : j = 0 ∨ j = 1 ∨ j = 2 ∨ j = 3 := by omega
  · simp [Loop.emit, inLoop, BusAdapt8.byteOut, hk]
  all_goals rfl

/-! ### Runs of whole loops -/

/-- The plane runs from `s` to `s'` in the cycles of the loops `ls`, shows them at its pins, and
retires in the last cycle if `b` holds and in no other cycle. -/
structure Emits (s : State) (h : ℕ → BitVec 8) (ls : List Loop) (b : Bool) (s' : State) :
    Prop where
  run : machine.run s (hostInput h) (4 * ls.length) = s'
  pins : ∀ t < 4 * ls.length,
    (ls.flatMap Loop.emit)[t]? = some (pins (machine.run s (hostInput h) t) (hostInput h t))
  retire : ∀ t < 4 * ls.length, retire (machine.run s (hostInput h) t) (hostInput h t) =
    (b && decide (t + 1 = 4 * ls.length))

theorem length_flatMap_emit (ls : List Loop) : (ls.flatMap Loop.emit).length = 4 * ls.length := by
  induction ls with
  | nil => rfl
  | cons l ls ih =>
    simp only [List.flatMap_cons, List.length_append, ih, Loop.length_emit, List.length_cons]
    omega

/-- A run of loops that does not retire continues. -/
theorem Emits.append {ls ls' : List Loop} {b : Bool} (h₁ : Emits s h ls false s')
    (h₂ : Emits s' (fun t => h (4 * ls.length + t)) ls' b s'') (hne : ls' ≠ []) :
    Emits s h (ls ++ ls') b s'' := by
  have hlen : 4 * (ls ++ ls').length = 4 * ls.length + 4 * ls'.length := by
    simp [Nat.mul_add]
  have hpos : 0 < ls'.length := List.length_pos_iff.2 hne
  have hrun (t : ℕ) : machine.run s (hostInput h) (4 * ls.length + t) =
      machine.run s' (hostInput fun t => h (4 * ls.length + t)) t := by
    rw [run_add_hostInput, h₁.run]
  refine ⟨by rw [hlen, hrun, h₂.run], fun t ht => ?_, fun t ht => ?_⟩
  · rw [List.flatMap_append]
    by_cases hlt : t < 4 * ls.length
    · rw [List.getElem?_append_left (by rwa [length_flatMap_emit]), h₁.pins t hlt]
    · obtain ⟨u, rfl⟩ := Nat.exists_eq_add_of_le (Nat.le_of_not_lt hlt)
      rw [List.getElem?_append_right (by rw [length_flatMap_emit]; omega), length_flatMap_emit,
        Nat.add_sub_cancel_left, hrun, h₂.pins u (by omega)]
      rfl
  · by_cases hlt : t < 4 * ls.length
    · rw [h₁.retire t hlt, Bool.false_and, Bool.and_eq_false_iff.2 (.inr _)]
      exact decide_eq_false (by omega)
    · obtain ⟨u, rfl⟩ := Nat.exists_eq_add_of_le (Nat.le_of_not_lt hlt)
      have hu := h₂.retire u (by omega)
      rw [hrun]
      refine hu.trans ?_
      congr 2
      exact propext ⟨fun _ => by omega, fun _ => by omega⟩

/-- One loop: three cycles in which only the phase advances, and the edge that ends it. -/
theorem emits_of_loop (hp : s.bus.phase = 0#2) {l : Loop} (hk : l.kind.code = s.bus.kind.code)
    (ho : l.out = loopWord s) (h : ℕ → BitVec 8) {b : Bool}
    (hb : retire (inLoop h s 3) ⟨h 3, false⟩ = b) :
    Emits s h [l] b (posedge true (inLoop h s 3) ⟨h 3, false⟩) := by
  refine ⟨?_, fun t ht => ?_, fun t ht => ?_⟩
  · rw [List.length_singleton, run_succ, run_inLoop hp h (by omega)]
    rfl
  · simp only [List.length_singleton] at ht
    rw [run_inLoop hp h (by omega), List.flatMap_singleton]
    exact pins_inLoop hk ho _ (by omega)
  · simp only [List.length_singleton] at ht ⊢
    rw [run_inLoop hp h (by omega)]
    obtain ht3 | rfl : t < 3 ∨ t = 3 := by omega
    · have hne : t + 1 ≠ 4 := by omega
      have hphase : BitVec.ofNat 2 t ≠ 3#2 := by
        obtain rfl | rfl | rfl : t = 0 ∨ t = 1 ∨ t = 2 := by omega
        all_goals decide
      simp [retire, BusAdapt8.retire, BusAdapt8.loopEnd, inLoop, hphase, hne]
    · simpa [hostInput] using hb

/-! ### The loops of an instruction -/

/-- The type of the loops of a data transaction. -/
def dataKind (we : Bool) : Kind := if we then .store else .load

theorem code_dataKind (we : Bool) : (dataKind we).code = (BusAdapt8.dataKind we).code := by
  cases we <;> rfl

/-- The plane between two instructions: the first cycle of a fetch loop. -/
structure Boundary (s : State) : Prop where
  phase : s.bus.phase = 0#2
  kind : s.bus.kind = .fetch
  arbitrated : Arbitrated s.bus
  aligned : s.core.pcR.extractLsb' 0 2 = 0#2

/-- The plane at the start of a data loop of the instruction `w`, with the core and `rdata_r` as
they were at its fetch. -/
structure Serving (s₀ : State) (w : Word) (beat : Bool) (s : State) : Prop where
  phase : s.bus.phase = 0#2
  kind : s.bus.kind = BusAdapt8.dataKind (Core32.dmemWe w)
  beat : dataBeat s.bus = beat
  instrR : s.bus.instrR = w
  arbitrated : Arbitrated s.bus
  core : s.core = s₀.core
  rdataR : s.bus.rdataR = s₀.bus.rdataR

theorem imemAddr_of_aligned {s : Core32.State} (h : s.pcR.extractLsb' 0 2 = 0#2) :
    Core32.imemAddr s = s.pcR := by
  rw [Core32.imemAddr, ← h]
  exact BitVec.extractLsb'_append_extractLsb'

/-- The last cycle of a fetch loop is the completion of the host's word. -/
theorem cInstr_fetchLoop (hk : s.bus.kind = .fetch) :
    FetchCompletes (inLoop h s 3) ∧ cInstr (inLoop h s 3) ⟨h 3, false⟩ = hostWord h 0 := by
  have hc : FetchCompletes (inLoop h s 3) := ⟨hk, rfl⟩
  exact ⟨hc, (cInstr_of_fetchCompletes hc).trans (assembled_inLoop h s)⟩

theorem arbitrated_inLoop (ha : Arbitrated s.bus) (j : ℕ) : Arbitrated (inLoop h s j).bus :=
  ⟨ha.notIdle, ha.storeBeat, ha.loadBeat, ha.serving, ha.stale⟩

theorem loopWord_of_boundary (hs : Boundary s) : s.core.pcR = loopWord s := by
  simp [loopWord, BusAdapt8.outWord, hs.kind, imemAddr_of_aligned hs.aligned]

/-- A fetch loop whose word needs no data is a whole instruction. -/
theorem fetchLoop_plain (hs : Boundary s) (hreq : Core32.dmemReq (hostWord h 0) = false) :
    ∃ s', Emits s h [⟨.fetch, s.core.pcR⟩] true s' ∧ s'.bus.phase = 0#2 ∧
      s'.bus.kind = .fetch ∧ Arbitrated s'.bus ∧
      s'.core = Core32.posedge true true (hostWord h 0) s.bus.rdataR s.core ∧
      s'.bus.rdataR = s.bus.rdataR := by
  obtain ⟨hc, hw⟩ := cInstr_fetchLoop (s := s) (h := h) hs.kind
  obtain ⟨hret, hk', hp', -⟩ := step_of_plain hc (by rw [cDmemReq, hw, hreq])
  refine ⟨_, emits_of_loop hs.phase (by rw [hs.kind]; rfl) (loopWord_of_boundary hs) h hret, hp',
    hk', (arbitrated_inLoop hs.arbitrated 3).posedge _, ?_, ?_⟩
  · simp only [posedge, hret, hw]
    rfl
  · simp [posedge, BusAdapt8.posedge, inLoop, hs.kind]

/-- A fetch loop whose word asks for data leads to its address loop. -/
theorem fetchLoop_request (hs : Boundary s) (hreq : Core32.dmemReq (hostWord h 0) = true) :
    ∃ s', Emits s h [⟨.fetch, s.core.pcR⟩] false s' ∧ Serving s (hostWord h 0) false s' := by
  obtain ⟨hc, hw⟩ := cInstr_fetchLoop (s := s) (h := h) hs.kind
  obtain ⟨hret, hk', hp', hs', hl', -, hi'⟩ := step_of_request hc (by rw [cDmemReq, hw, hreq])
  refine ⟨_, emits_of_loop hs.phase (by rw [hs.kind]; rfl) (loopWord_of_boundary hs) h hret,
    ⟨hp', by rw [hk', cDmemWe, hw], ?_, hi'.trans hw,
      (arbitrated_inLoop hs.arbitrated 3).posedge _, ?_, ?_⟩⟩
  · rw [dataBeat, hs', hl']
    split <;> rfl
  · simp only [posedge, hret]
    rfl
  · simp [posedge, BusAdapt8.posedge, inLoop, hs.kind]

/-- The adapter captures a word in the last cycle of the data loop of a load. -/
theorem rdataR_posedge (s : State) (i : Input) :
    (posedge true s i).bus.rdataR =
      if s.bus.phase == 3#2 && (s.bus.kind == .load && dataBeat s.bus) then
        BusAdapt8.assembled s.bus i.instrByte
      else s.bus.rdataR := by
  cases hk : s.bus.kind <;> simp [posedge, BusAdapt8.posedge, dataBeat, hk]

namespace Serving

variable {s₀ : State} {w : Word} {beat : Bool}

theorem kind_ne_fetch (hs : Serving s₀ w beat s) : s.bus.kind ≠ .fetch := by
  rw [hs.kind]
  cases Core32.dmemWe w <;> decide

/-- The word of a data loop: the store data in the data loop of a store, else the address. -/
theorem loopWord_eq (hs : Serving s₀ w beat s) :
    loopWord s = if Core32.dmemWe w && beat then Core32.dmemWdata s₀.core w
      else Core32.dmemAddr s₀.core w := by
  have hbeat := hs.beat
  have hstore := hs.arbitrated.storeBeat
  rw [loopWord, BusAdapt8.outWord, hs.instrR, hs.core, hs.kind]
  rw [dataBeat, hs.kind] at hbeat
  rw [hs.kind] at hstore
  cases hwe : Core32.dmemWe w with
  | false => simp [BusAdapt8.dataKind]
  | true =>
    simp only [hwe, BusAdapt8.dataKind, if_true] at hbeat
    simp [BusAdapt8.dataKind, hbeat]

end Serving

/-- The address loop leads to the data loop. -/
theorem addressLoop {s₀ : State} {w : Word} (hs : Serving s₀ w false s) (h : ℕ → BitVec 8) :
    ∃ s', Emits s h [⟨dataKind (Core32.dmemWe w), Core32.dmemAddr s₀.core w⟩] false s' ∧
      Serving s₀ w true s' := by
  have ha := arbitrated_inLoop (h := h) hs.arbitrated 3
  have hne : (inLoop h s 3).bus.kind ≠ .fetch := hs.kind_ne_fetch
  have hphase : (inLoop h s 3).bus.phase = 3#2 := rfl
  have hlast : ¬((inLoop h s 3).bus.phase = 3#2 ∧ dataBeat (inLoop h s 3).bus = true) := by
    rw [show dataBeat (inLoop h s 3).bus = dataBeat s.bus from rfl, hs.beat]
    simp
  obtain ⟨hret, hk', -, hi', -⟩ := step_of_data (i := ⟨h 3, false⟩) ha hne hlast
  obtain ⟨hp', hb'⟩ := step_of_data_advance (i := ⟨h 3, false⟩) ha hne hlast rfl
  refine ⟨_, emits_of_loop hs.phase (by rw [code_dataKind, hs.kind]) (by simp [hs.loopWord_eq]) h
      hret,
    ⟨by rw [hp', hphase]; rfl, hk'.trans hs.kind, ?_, hi'.trans hs.instrR, ha.posedge _, ?_, ?_⟩⟩
  · rw [hb', Bool.or_eq_true]
    exact .inr rfl
  · simp only [posedge, hret]
    exact hs.core
  · rw [rdataR_posedge, show dataBeat (inLoop h s 3).bus = dataBeat s.bus from rfl, hs.beat]
    simpa [inLoop] using hs.rdataR

/-- The data loop ends the instruction; a load captures the host's word of the loop. -/
theorem dataLoop {s₀ : State} {w : Word} (hs : Serving s₀ w true s) (h : ℕ → BitVec 8) :
    ∃ s', Emits s h [⟨dataKind (Core32.dmemWe w), if Core32.dmemWe w then
        Core32.dmemWdata s₀.core w else Core32.dmemAddr s₀.core w⟩] true s' ∧
      s'.bus.phase = 0#2 ∧ s'.bus.kind = .fetch ∧
      Arbitrated s'.bus ∧ s'.core = Core32.posedge true true w s₀.bus.rdataR s₀.core ∧
      s'.bus.rdataR = if Core32.dmemWe w then s₀.bus.rdataR else hostWord h 0 := by
  have ha := arbitrated_inLoop (h := h) hs.arbitrated 3
  have hne : (inLoop h s 3).bus.kind ≠ .fetch := hs.kind_ne_fetch
  obtain ⟨hret, hk', hp', -⟩ := step_of_dataEnd (i := ⟨h 3, false⟩) ha hne rfl hs.beat
  have hword : cInstr (inLoop h s 3) ⟨h 3, false⟩ = w :=
    (cInstr_of_not_fetchCompletes fun hc => hne hc.1).trans hs.instrR
  refine ⟨_, emits_of_loop hs.phase (by rw [code_dataKind, hs.kind]) (by simp [hs.loopWord_eq]) h
    hret, hp', hk', ha.posedge _, ?_, ?_⟩
  · rw [← hs.core, ← hs.rdataR]
    simp only [posedge, hret, hword]
    rfl
  · rw [rdataR_posedge, show dataBeat (inLoop h s 3).bus = dataBeat s.bus from rfl, hs.beat,
      assembled_inLoop]
    have hkind := hs.kind
    have hrdata := hs.rdataR
    cases hwe : Core32.dmemWe w <;>
      simp_all [inLoop, BusAdapt8.dataKind]

end Saltworks.Refine
