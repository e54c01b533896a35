import Saltworks.Machine.Synchronous

/-!
# The bus protocol at loop granularity

The kernel's own model of the arbitration, `HDL/BusFSM.lean`: a state `(kind, beat, fetchOwed)`
with no phase and no instruction register. One step is one clock edge; `Ctrl` says which arm of
the update it takes. The suffix `B` names the second shape of the repair, the one with the
fetch-owed bit.

## Main definitions

* `BusFSM.retireB`, `BusFSM.stepB`: the end of an instruction and the whole update.
* `BusFSM.machineB`: the update, driven by the arm and the decode of each cycle.
-/

namespace Saltworks.HDL.BusFSM

/-- What a loop is doing. -/
inductive Kind where
  | idle | fetch | load | store
  deriving DecidableEq, Repr

/-- The loop kind and the data beat of either memory loop. -/
structure BusState where
  kind : Kind
  beat : Bool
  deriving DecidableEq, Repr

def retire (s : BusState) (req : Bool) : Bool :=
  match s.kind with
  | .fetch => !req
  | .load => s.beat
  | .store => s.beat
  | .idle => true

/-- The kind that a request turns into. -/
def requested (we : Bool) : Kind := if we then .store else .load

/-- Which arm of the priority chain is selected in a cycle. -/
structure Ctrl where
  sof : Bool
  loopEnd : Bool
  deriving DecidableEq, Repr

/-- The state with the fetch-owed bit. -/
structure BusStateB where
  kind : Kind
  beat : Bool
  fetchOwed : Bool
  deriving DecidableEq, Repr

/-- Forget the fetch-owed bit. -/
def proj (s : BusStateB) : BusState := ⟨s.kind, s.beat⟩

def retireB (s : BusStateB) (req : Bool) : Bool := retire (proj s) req

/-- The loop-end arm: a memory retire, and nothing else, sets the bit. -/
def nextB (s : BusStateB) (req we : Bool) : BusStateB :=
  if retireB s req then ⟨.fetch, false, s.kind == .load || s.kind == .store⟩
  else if s.kind = .fetch then ⟨requested we, false, false⟩
  else { s with beat := true }

/-- The realign arm: while a fetch is owed, a realign holds the fetch. -/
def sofNextB (s : BusStateB) (req we : Bool) : BusStateB :=
  if s.fetchOwed then ⟨.fetch, false, true⟩
  else ⟨if req then requested we else .fetch, false, false⟩

def stepB (s : BusStateB) (c : Ctrl) (req we : Bool) : BusStateB :=
  if c.sof then sofNextB s req we
  else if c.loopEnd then nextB s req we
  else s

/-- The update as a machine: a cycle reads the arm and the two strobes of the decode. -/
def machineB : Synchronous.Machine BusStateB (Ctrl × Bool × Bool) where
  step s i := stepB s i.1 i.2.1 i.2.2

end Saltworks.HDL.BusFSM
