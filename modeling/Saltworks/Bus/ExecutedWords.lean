import Saltworks.Bus.FabricatedSimulation

/-!
# The words that the bus planes execute

In any run the words that a plane executes are the words it has fetched, in order and without a
gap or a repetition; only the word of a data transaction in progress has not been executed yet.
The core goes through the edges of these words and no others.

The argument is made once, for the current plane seen outside the address loops of loads, and
the simulation carries it to the submitted plane.

## Main definitions

* `pendingWord`: the word of the data transaction in progress.

## Main results

* `fabricated_executes_fetched`: the submitted plane.
-/

namespace Saltworks.RTL.Fabricated

open Plane32Bus (Input Arbitrated)

/-- The word of the data transaction in progress. -/
def pendingWord (s : Plane32Bus.State) : List Word :=
  if s.bus.kind = .fetch then [] else [s.bus.instrR]

/-- The word fetched in a cycle that is observed. -/
def fetchedWord (o : Option Observation) : Option Word := o.bind Observation.fetched

/-- The word executed in a cycle that is observed. -/
def executedWord (o : Option Observation) : Option Word :=
  o.bind fun o => o.retired.map Prod.fst

variable {s : Plane32Bus.State}

/-- One cycle of the current plane: what is fetched becomes pending or is executed. -/
theorem pendingWord_step (h : Arbitrated s.bus) (i : Input) :
    pendingWord s ++ (fetchedWord (outsideAddressLoops s i)).toList =
      (executedWord (outsideAddressLoops s i)).toList ++
        pendingWord (Plane32Bus.posedge true s i) := by
  by_cases hk : s.bus.kind = .fetch
  · by_cases hp : s.bus.phase = 3#2
    · cases hreq : Plane32Bus.cDmemReq s i with
      | false =>
        obtain ⟨hret, hk', -⟩ := Plane32Bus.step_of_plain ⟨hk, hp⟩ hreq
        simp [pendingWord, fetchedWord, executedWord, outsideAddressLoops, observeCurrent, hk, hp,
          hret, hk']
      | true =>
        obtain ⟨hret, hk', -, -, -, -, hw⟩ := Plane32Bus.step_of_request ⟨hk, hp⟩ hreq
        have hne : BusAdapt8.dataKind (Plane32Bus.cDmemWe s i) ≠ .fetch := by
          cases Plane32Bus.cDmemWe s i <;> decide
        simp [pendingWord, fetchedWord, executedWord, outsideAddressLoops, observeCurrent, hk, hp,
          hret, hk', hne, hw]
    · obtain ⟨hret, hk', -⟩ := Plane32Bus.step_of_fetching (i := i) h hk hp
      simp [pendingWord, fetchedWord, executedWord, outsideAddressLoops, observeCurrent, hk, hp,
        hret, hk']
  · have hfetch : fetchedWord (outsideAddressLoops s i) = none := by
      simp [fetchedWord, outsideAddressLoops, observeCurrent, hk]
    by_cases hlast : s.bus.phase = 3#2 ∧ Plane32Bus.dataBeat s.bus = true
    · obtain ⟨hret, hk', -⟩ := Plane32Bus.step_of_dataEnd (i := i) h hk hlast.1 hlast.2
      have hword := (Plane32Bus.decode_of_data (i := i) h hk).1
      have haway : (s.bus.kind == .load && !s.bus.loadBeat) = false := by
        have hbeat := hlast.2
        rcases h.load_or_store hk with hd | hd <;> simp_all [Plane32Bus.dataBeat]
      have hexec : executedWord (outsideAddressLoops s i) = some s.bus.instrR := by
        simp [executedWord, outsideAddressLoops, haway, observeCurrent, hret, hword]
      simp [pendingWord, hfetch, hexec, hk, hk']
    · obtain ⟨hret, hk', -, hw, -⟩ := Plane32Bus.step_of_data (i := i) h hk hlast
      have hexec : executedWord (outsideAddressLoops s i) = none := by
        rw [executedWord, outsideAddressLoops]
        split
        · rfl
        · simp [observeCurrent, hret]
      simp [pendingWord, hfetch, hexec, hk, hk', hw]

/-- A reset state of the submitted plane is embedded as one of the current plane. -/
theorem bus_toCurrent_of_isReset {s : State} (hs : IsReset s) :
    s.toCurrent.bus = BusAdapt8.resetState := by
  obtain ⟨-, hbus⟩ := (isReset_iff s).1 hs
  rw [bus_toCurrent, hbus]
  decide

/-- **The submitted plane executes what it fetches.** From a reset state, under every stream of
bytes and every schedule of `sof`: the words fetched are the words executed, in order, followed by
the word of the data transaction in progress, and the core is the one that the words executed lead
to, each in one enabled edge. -/
theorem fabricated_executes_fetched {s : State} (hs : IsReset s) (is : List Input) :
    (machine.trace observe s is).filterMap Observation.fetched =
        ((machine.trace observe s is).filterMap Observation.retired).map Prod.fst ++
          pendingWord (machine.feed s is).toCurrent ∧
      (machine.feed s is).core =
        ((machine.trace observe s is).filterMap Observation.retired).foldl
          (fun c w => Core32.posedge true true w.1 w.2 c) s.core := by
  have hbus := bus_toCurrent_of_isReset hs
  have hqueue := Plane32Bus.machine.filterMap_trace_conserved fetchedWord
    executedWord (P := fun s => Arbitrated s.bus)
    (fun _ i ha => ha.posedge i) (fun _ i ha => pendingWord_step ha i)
    (show Arbitrated s.toCurrent.bus by rw [hbus]; exact .resetState) (currentTiming.blocks s is)
  have hempty : pendingWord s.toCurrent = [] := by
    rw [pendingWord, hbus]
    rfl
  have hseen (f : Observation → Option Word) :
      (Plane32Bus.machine.trace outsideAddressLoops s.toCurrent
        (currentTiming.blocks s is)).filterMap (fun o => o.bind f) =
        (machine.trace observe s is).filterMap f := by
    rw [← reduceOption_trace_blocks, List.reduceOption, List.filterMap_filterMap]
    rfl
  have hfeed : Plane32Bus.machine.feed s.toCurrent (currentTiming.blocks s is) =
      (machine.feed s is).toCurrent := currentTiming.feed_blocks s is
  rw [hempty, List.nil_append] at hqueue
  refine ⟨?_, machine.foldl_filterMap_trace (fun s i => ?_) s is⟩
  · rw [List.map_filterMap, ← hseen, ← hseen, ← hfeed]
    exact hqueue
  · cases hret : retire s i <;> simp [machine, posedge, observe, hret]

/-- The bytes of `sw x1, 0(x0)`, the eight cycles of its two loops with a pulse of `sof` on its
own retire, and two cycles more. -/
def storeInputs : List Input :=
  [⟨0x23#8, false⟩, ⟨0x20#8, false⟩, ⟨0x10#8, false⟩, ⟨0x00#8, false⟩] ++
    List.replicate 7 ⟨0#8, false⟩ ++ [⟨0#8, true⟩, ⟨0#8, false⟩, ⟨0#8, false⟩]

/-- The store is executed once. -/
theorem fabricated_executes_storeInputs :
    ((machine.trace observe (reset fun _ => 0#32) storeInputs).filterMap
        Observation.retired).map Prod.fst ++
      pendingWord (machine.feed (reset fun _ => 0#32) storeInputs).toCurrent = [0x00102023#32] :=
  (fabricated_executes_fetched (isReset_reset _) _).1.symm.trans (by decide)

end Saltworks.RTL.Fabricated
