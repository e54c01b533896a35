import Saltworks.Bus.Arbitration

/-!
# One bus loop with `sof` low

With `sof` low the four cycles of a loop differ from its first state only in the phase and in the
bytes captured so far, until the edge that ends the loop. The word captured over the loop is the
host's word, low byte first.

## Main definitions

* `hostInput`, `hostWord`: a host byte stream, and the word it drives over four cycles.
* `inLoop`: the state in phase `j` of the loop that starts in a given state.

## Main results

* `run_inLoop`: the cycles of a loop.
* `assembled_inLoop`: the word assembled at the end of a loop.
-/

namespace Saltworks.RTL.Plane32Bus

/-- The inputs of a host that drives the byte stream `h` and holds `sof` low. -/
def hostInput (h : ℕ → BitVec 8) (t : ℕ) : Input := ⟨h t, false⟩

/-- The word that a byte stream drives in the four cycles from `c`, low byte first. -/
def hostWord (h : ℕ → BitVec 8) (c : ℕ) : Word :=
  h (c + 3) ++ (h (c + 2) ++ (h (c + 1) ++ h c))

theorem hostWord_shift (h : ℕ → BitVec 8) (c j : ℕ) :
    hostWord (fun t => h (c + t)) j = hostWord h (c + j) := by
  simp only [hostWord, Nat.add_assoc]

/-- The bytes captured by the start of phase `j`, for a host that drives the bytes `h 0, h 1, …`
from the start of the loop. -/
def captured (h : ℕ → BitVec 8) (acc : Word) : ℕ → Word
  | 0 => acc
  | j + 1 => BusAdapt8.capture (BitVec.ofNat 2 j) (captured h acc j) (h j)

/-- The state in phase `j` of a loop that started in `s`. -/
def inLoop (h : ℕ → BitVec 8) (s : State) (j : ℕ) : State :=
  { s with bus := { s.bus with phase := BitVec.ofNat 2 j, inAcc := captured h s.bus.inAcc j } }

/-- Before the last phase of a loop, an edge with `sof` low only captures a byte and advances the
phase. -/
theorem posedge_midLoop {s : State} (hp : s.bus.phase ≠ 3#2) (b : BitVec 8) :
    posedge true s ⟨b, false⟩ =
      { s with bus := { s.bus with
          phase := s.bus.phase + 1#2
          inAcc := BusAdapt8.capture s.bus.phase s.bus.inAcc b } } := by
  have hret : retire s ⟨b, false⟩ = false := by
    simp [retire, BusAdapt8.retire, BusAdapt8.loopEnd, hp]
  simp [posedge, hret, BusAdapt8.posedge, BusAdapt8.nextPhase, BusAdapt8.nextArb,
    BusAdapt8.nextFetchOwed, BusAdapt8.instrAvail, BusAdapt8.memRetireNow, BusAdapt8.loopEnd, hp]

/-- The cycles of a loop. -/
theorem run_inLoop {s : State} (hp : s.bus.phase = 0#2) (h : ℕ → BitVec 8) {j : ℕ} (hj : j < 4) :
    machine.run s (hostInput h) j = inLoop h s j := by
  induction j with
  | zero => simp [inLoop, captured, ← hp]
  | succ j ih =>
    rw [run_succ, ih (by omega), hostInput, posedge_midLoop]
    · obtain rfl | rfl | rfl : j = 0 ∨ j = 1 ∨ j = 2 := by omega
      all_goals rfl
    · obtain rfl | rfl | rfl : j = 0 ∨ j = 1 ∨ j = 2 := by omega
      all_goals simp [inLoop]

/-- The three bytes captured before the last phase of a loop. -/
theorem captured_three (h : ℕ → BitVec 8) (acc : Word) :
    (captured h acc 3).extractLsb' 0 24 = h 2 ++ (h 1 ++ h 0) := by
  have h1 : (captured h acc 1).extractLsb' 0 8 = h 0 := BitVec.extractLsb'_append_eq_right
  have h2 : (captured h acc 2).extractLsb' 0 16 = h 1 ++ (captured h acc 1).extractLsb' 0 8 :=
    BitVec.extractLsb'_append_eq_right
  have h3 : (captured h acc 3).extractLsb' 0 24 = h 2 ++ (captured h acc 2).extractLsb' 0 16 :=
    BitVec.extractLsb'_append_eq_right
  rw [h3, h2, h1]

/-- **The word of a loop.** What is assembled in the last phase is what the host drove. -/
theorem assembled_inLoop (h : ℕ → BitVec 8) (s : State) :
    BusAdapt8.assembled (inLoop h s 3).bus (h 3) = hostWord h 0 := by
  simp only [BusAdapt8.assembled, inLoop, captured_three, hostWord, Nat.zero_add]

end Saltworks.RTL.Plane32Bus
