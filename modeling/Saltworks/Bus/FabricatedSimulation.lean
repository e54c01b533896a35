import Saltworks.Bus.Loop
import Saltworks.Machine.Blocks
import Saltworks.RTL.FabricatedBus

/-!
# The current bus plane simulates the submitted one

The bus plane of the submitted design and the one of `RTL/` differ in the timing of a load, which
owns one loop in the first and an address loop and a data loop in the second. The submitted plane
is embedded in the current one with `load_beat` high in load loops: then every cycle of the
first is a cycle of the second, except that a load of the second starts with four cycles more, its
address loop. In these the host may repeat the bytes that the adapter holds, and then nothing but
the phase moves until the data loop begins.

So the runs of the submitted plane, under any bytes and any schedule of `sof`, are the runs of the
current one with the address loops of the loads left out.

## Main definitions

* `BusState.toCurrent`, `State.toCurrent`: the embedding.
* `opensLoad`: the edge of the cycle leads to the first phase of a load loop.
* `currentTiming`: the simulation.
* `outsideAddressLoops`: what is observed outside the address loops of loads.

## Main results

* `posedge_toCurrent`, `run_addressLoop`: one cycle, and the address loop of a load.
* `current_simulates_fabricated`: runs.
-/

namespace Saltworks.RTL.Fabricated

open BusAdapt8 (Kind byteOut capture dataKind)
open Plane32Bus (Input hostInput inLoop)

/-! ### The embedding -/

/-- The registers of the current adapter, with `load_beat` high in load loops. -/
def BusState.toCurrent (b : BusState) : BusAdapt8.State where
  phase := b.phase
  kind := b.kind
  storeBeat := b.storeBeat
  loadBeat := b.kind == .load
  fetchOwed := b.fetchOwed
  inAcc := b.inAcc
  instrR := b.instrR
  rdataR := b.rdataR

def State.toCurrent (s : State) : Plane32Bus.State := ⟨s.core, s.bus.toCurrent⟩

/-- The current plane in the address loop of the load whose loop starts in `s`. -/
def State.inAddressLoop (s : State) : Plane32Bus.State :=
  { s.toCurrent with bus := { s.bus.toCurrent with loadBeat := false } }

variable (s : State) (i : Input)

theorem bus_toCurrent : s.toCurrent.bus = s.bus.toCurrent := rfl

@[simp] theorem cInstr_toCurrent : Plane32Bus.cInstr s.toCurrent i = cInstr s i := rfl

theorem busRetire_toCurrent (b : BusState) (req : Bool) :
    BusAdapt8.retire b.toCurrent req = busRetire b req := by
  cases hk : b.kind <;> simp [BusAdapt8.retire, busRetire, BusState.toCurrent, hk] <;> rfl

@[simp] theorem retire_toCurrent : Plane32Bus.retire s.toCurrent i = retire s i :=
  busRetire_toCurrent s.bus _

@[simp] theorem pins_toCurrent :
    (Plane32Bus.addrByte s.toCurrent i, Plane32Bus.phaseO s.toCurrent) = pins s i := rfl

/-! ### One cycle -/

/-- The edge of the cycle leads to the first phase of a load loop. -/
def opensLoad (s : State) (i : Input) : Bool :=
  (posedge true s i).bus.kind == .load && (i.sof || s.bus.phase == 3#2)

theorem nextArb_toCurrent (b : BusState) (sof req we : Bool) :
    BusAdapt8.nextArb b.toCurrent true sof req we =
      ((nextArb b true sof req we).1, (nextArb b true sof req we).2,
        (nextArb b true sof req we).1 == .load && !(sof || b.phase == 3#2)) := by
  have hstale : BusAdapt8.staleDecode b.toCurrent req = staleDecode b req := by
    simp only [BusAdapt8.staleDecode, BusAdapt8.memRetireNow, busRetire_toCurrent]
    rfl
  have hloop : BusAdapt8.loopEnd b.toCurrent = loopEnd b := rfl
  simp only [BusAdapt8.nextArb, nextArb, hstale, busRetire_toCurrent, hloop]
  cases sof with
  | true => simp
  | false =>
    by_cases hend : b.phase = 3#2
    · cases hk : b.kind <;> cases req <;> cases we <;> cases hs : b.storeBeat <;>
        simp [busRetire, loopEnd, BusState.toCurrent, dataKind, hk, hs, hend]
    · simp [BusState.toCurrent, loopEnd, hend]

/-- A cycle of the submitted plane is a cycle of the current one, up to the address loop of a
load that begins with the edge. -/
theorem posedge_toCurrent :
    Plane32Bus.posedge true s.toCurrent i =
      if opensLoad s i then (posedge true s i).inAddressLoop else (posedge true s i).toCurrent := by
  have harb := nextArb_toCurrent s.bus i.sof (cDmemReq s i) (cDmemWe s i)
  have howed : BusAdapt8.nextFetchOwed s.bus.toCurrent true (cDmemReq s i) =
      nextFetchOwed s.bus true (cDmemReq s i) := by
    simp only [BusAdapt8.nextFetchOwed, BusAdapt8.memRetireNow, busRetire_toCurrent]
    rfl
  have hcore : (Plane32Bus.posedge true s.toCurrent i).core = (posedge true s i).core := by
    simp only [Plane32Bus.posedge, retire_toCurrent, cInstr_toCurrent]
    rfl
  have hbus : (Plane32Bus.posedge true s.toCurrent i).bus =
      { (posedge true s i).bus.toCurrent with
        loadBeat := (posedge true s i).bus.kind == .load && !(i.sof || s.bus.phase == 3#2) } := by
    have hreq : Plane32Bus.cDmemReq s.toCurrent i = cDmemReq s i := rfl
    have hwe : Plane32Bus.cDmemWe s.toCurrent i = cDmemWe s i := rfl
    have hrdata : (s.bus.toCurrent.kind == .load && s.bus.toCurrent.loadBeat) =
        (s.bus.kind == .load) := Bool.and_self _
    simp only [Plane32Bus.posedge, BusAdapt8.posedge, bus_toCurrent, hreq, hwe, harb, howed, hrdata]
    rfl
  have hbeat : ((posedge true s i).bus.kind == .load && !(i.sof || s.bus.phase == 3#2)) =
      if opensLoad s i then false else (posedge true s i).bus.kind == .load := by
    rw [opensLoad]
    cases (posedge true s i).bus.kind == .load <;> cases i.sof || s.bus.phase == 3#2 <;> rfl
  have hplane : Plane32Bus.posedge true s.toCurrent i =
      ⟨(Plane32Bus.posedge true s.toCurrent i).core,
        (Plane32Bus.posedge true s.toCurrent i).bus⟩ := rfl
  rw [hplane, hcore, hbus, hbeat]
  cases opensLoad s i <;> rfl

/-! ### The address loop of a load -/

/-- A byte that the adapter already holds is captured without effect. -/
theorem capture_byteOut (p : BitVec 2) (acc : Word) : capture p acc (byteOut p acc) = acc := by
  have h0 : acc.extractLsb' 8 24 ++ acc.extractLsb' 0 8 = acc :=
    BitVec.extractLsb'_append_extractLsb'
  have h1 : acc.extractLsb' 8 8 ++ acc.extractLsb' 0 8 = acc.extractLsb' 0 16 :=
    BitVec.extractLsb'_append_extractLsb'_eq_extractLsb' rfl
  have h2 : acc.extractLsb' 16 8 ++ acc.extractLsb' 0 16 = acc.extractLsb' 0 24 :=
    BitVec.extractLsb'_append_extractLsb'_eq_extractLsb' rfl
  have h3 : acc.extractLsb' 16 16 ++ acc.extractLsb' 0 16 = acc :=
    BitVec.extractLsb'_append_extractLsb'
  have h4 : acc.extractLsb' 24 8 ++ acc.extractLsb' 0 24 = acc :=
    BitVec.extractLsb'_append_extractLsb'
  obtain rfl | rfl | rfl | rfl := BusAdapt8.phase_cases p
  · exact h0
  · exact (congrArg (acc.extractLsb' 16 16 ++ ·) h1).trans h3
  · exact (congrArg (acc.extractLsb' 24 8 ++ ·) h2).trans h4
  · rfl

/-- The bytes that the adapter holds, one in each phase. -/
def heldBytes (acc : Word) (t : ℕ) : BitVec 8 := byteOut (BitVec.ofNat 2 t) acc

theorem captured_heldBytes (acc : Word) (j : ℕ) :
    Plane32Bus.captured (heldBytes acc) acc j = acc := by
  induction j with
  | zero => rfl
  | succ j ih => rw [Plane32Bus.captured, ih, heldBytes, capture_byteOut]

variable {s}

/-- The cycles of an address loop. -/
theorem inLoop_inAddressLoop (j : ℕ) :
    inLoop (heldBytes s.bus.inAcc) s.inAddressLoop j =
      { s.inAddressLoop with
        bus := { s.inAddressLoop.bus with phase := BitVec.ofNat 2 j } } := by
  have hacc : s.inAddressLoop.bus.inAcc = s.bus.inAcc := rfl
  rw [inLoop, hacc, captured_heldBytes]
  rfl

/-- The address loop of a load leads to its data loop and changes nothing else. -/
theorem run_addressLoop (hp : s.bus.phase = 0#2) (hk : s.bus.kind = .load) :
    Plane32Bus.machine.run s.inAddressLoop (hostInput (heldBytes s.bus.inAcc)) 4 = s.toCurrent := by
  rw [Plane32Bus.run_succ, Plane32Bus.run_inLoop hp _ (by omega), inLoop_inAddressLoop]
  have hret : Plane32Bus.retire { s.inAddressLoop with
      bus := { s.inAddressLoop.bus with phase := 3#2 } } (hostInput (heldBytes s.bus.inAcc) 3) =
        false := by
    simp [Plane32Bus.retire, BusAdapt8.retire, State.inAddressLoop, BusState.toCurrent, hk]
  have hbus (req we : Bool) (pinIn : BitVec 8) :
      BusAdapt8.posedge true false pinIn req we
        { s.inAddressLoop.bus with phase := 3#2 } = s.bus.toCurrent := by
    simp [BusAdapt8.posedge, BusAdapt8.nextPhase, BusAdapt8.nextArb, BusAdapt8.nextFetchOwed,
      BusAdapt8.instrAvail, BusAdapt8.memRetireNow, BusAdapt8.retire, BusAdapt8.loopEnd, capture,
      State.inAddressLoop, BusState.toCurrent, hp, hk]
  calc Plane32Bus.posedge true { s.inAddressLoop with
        bus := { s.inAddressLoop.bus with phase := 3#2 } } (hostInput (heldBytes s.bus.inAcc) 3)
      = ⟨s.core, s.bus.toCurrent⟩ := by
        simp only [Plane32Bus.posedge, hret]
        exact congrArg _ (hbus _ _ _)
    _ = s.toCurrent := rfl

/-! ### Runs -/

theorem kind_of_opensLoad (h : opensLoad s i = true) : (posedge true s i).bus.kind = .load := by
  simp only [opensLoad, Bool.and_eq_true, beq_iff_eq] at h
  exact h.1

theorem phase_of_opensLoad (h : opensLoad s i = true) : (posedge true s i).bus.phase = 0#2 := by
  simp only [opensLoad, Bool.and_eq_true, Bool.or_eq_true, beq_iff_eq] at h
  obtain hsof | hp := h.2
  · simp [posedge, busPosedge, nextPhase, hsof]
  · cases hsof : i.sof <;> simp [posedge, busPosedge, nextPhase, hsof, hp]

/-- The inputs of the address loop of the load whose loop starts in `s`. -/
def addressInputs (s : State) : List Input :=
  Synchronous.Machine.inputs (hostInput (heldBytes s.bus.inAcc)) 4

/-- The current plane simulates the submitted one, with an address loop in front of every load
loop. -/
def currentTiming : Synchronous.BlockSimulation machine Plane32Bus.machine where
  embed := State.toCurrent
  expand s i := i :: if opensLoad s i then addressInputs (posedge true s i) else []
  feed_expand s i := by
    have hstep : Plane32Bus.machine.step s.toCurrent i = _ := posedge_toCurrent s i
    rw [Synchronous.Machine.feed_cons, hstep]
    cases hload : opensLoad s i with
    | false => rfl
    | true =>
      simp only [if_true, addressInputs, Synchronous.Machine.feed_inputs]
      exact run_addressLoop (phase_of_opensLoad i hload) (kind_of_opensLoad i hload)

/-- What is observed in a cycle: the pins, the word fetched, the word executed with the content
of `rdata_r`, and the registers of the core. -/
structure Observation where
  pins : BitVec 8 × BitVec 2
  fetched : Option Word
  retired : Option (Word × Word)
  core : Core32.State

def observe (s : State) (i : Input) : Observation where
  pins := pins s i
  fetched := if s.bus.kind == .fetch && s.bus.phase == 3#2 then some (cInstr s i) else none
  retired := if retire s i then some (cInstr s i, s.bus.rdataR) else none
  core := s.core

/-- What is observed of the current plane. -/
def observeCurrent (s : Plane32Bus.State) (i : Input) : Observation where
  pins := (Plane32Bus.addrByte s i, Plane32Bus.phaseO s)
  fetched := if s.bus.kind == .fetch && s.bus.phase == 3#2 then some (Plane32Bus.cInstr s i)
    else none
  retired := if Plane32Bus.retire s i then some (Plane32Bus.cInstr s i, s.bus.rdataR) else none
  core := s.core

/-- An observer of the current plane who looks away in the address loops of loads. -/
def outsideAddressLoops (s : Plane32Bus.State) (i : Input) : Option Observation :=
  if s.bus.kind == .load && !s.bus.loadBeat then none else some (observeCurrent s i)

theorem outsideAddressLoops_toCurrent (s : State) (i : Input) :
    outsideAddressLoops s.toCurrent i = some (observe s i) := by
  have haway : (s.toCurrent.bus.kind == .load && !s.toCurrent.bus.loadBeat) = false :=
    Bool.and_not_self _
  rw [outsideAddressLoops, haway]
  simp only [observeCurrent, retire_toCurrent]
  rfl

theorem outsideAddressLoops_addressLoop (hp : s.bus.phase = 0#2) (hk : s.bus.kind = .load) :
    Plane32Bus.machine.trace outsideAddressLoops s.inAddressLoop (addressInputs s) =
      List.replicate 4 none := by
  refine List.ext_getElem? fun t => ?_
  by_cases ht : t < 4
  · rw [addressInputs, Synchronous.Machine.getElem?_trace_inputs _ _ _ _ ht,
      Plane32Bus.run_inLoop hp _ ht, inLoop_inAddressLoop, List.getElem?_replicate_of_lt ht]
    simp [outsideAddressLoops, State.inAddressLoop, BusState.toCurrent, hk]
  · rw [List.getElem?_eq_none (by simp [addressInputs]; omega),
      List.getElem?_eq_none (by simp; omega)]

/-- Outside the address loops of loads the observations are those of the submitted plane. -/
theorem reduceOption_trace_blocks (s : State) (is : List Input) :
    (Plane32Bus.machine.trace outsideAddressLoops s.toCurrent
      (currentTiming.blocks s is)).reduceOption = machine.trace observe s is := by
  refine currentTiming.visible_blocks (fun s i => ?_) s is
  have hstep : Plane32Bus.machine.step s.toCurrent i = _ := posedge_toCurrent s i
  have hfirst := outsideAddressLoops_toCurrent s i
  simp only [currentTiming, Synchronous.Machine.trace_cons, hfirst, hstep]
  cases hload : opensLoad s i with
  | false => rfl
  | true =>
    simp only [if_true]
    rw [outsideAddressLoops_addressLoop (phase_of_opensLoad i hload) (kind_of_opensLoad i hload)]
    rfl

/-- **The current plane simulates the submitted one.** From every state, under every stream of
bytes and every schedule of `sof`, the submitted plane runs as the current one does when its host
grants every load the four cycles of an address loop: the final states correspond, and outside
those cycles the pins, the words fetched and executed and the core are the same. -/
theorem current_simulates_fabricated (s : State) (is : List Input) :
    Plane32Bus.machine.feed s.toCurrent (currentTiming.blocks s is) =
        (machine.feed s is).toCurrent ∧
      (Plane32Bus.machine.trace outsideAddressLoops s.toCurrent
          (currentTiming.blocks s is)).reduceOption = machine.trace observe s is ∧
      (currentTiming.blocks s is).length =
        is.length + 4 * (machine.trace opensLoad s is).count true := by
  refine ⟨currentTiming.feed_blocks s is, reduceOption_trace_blocks s is, ?_⟩
  induction is generalizing s with
  | nil => rfl
  | cons i is ih =>
    rw [Synchronous.BlockSimulation.blocks, List.length_append, ih,
      Synchronous.Machine.trace_cons, List.count_cons]
    cases hload : opensLoad s i <;> simp [currentTiming, addressInputs, hload] <;> omega

end Saltworks.RTL.Fabricated
