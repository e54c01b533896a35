import Mathlib.Data.BitVec
import Mathlib.Logic.Function.Basic
import Mathlib.Tactic.Common

/-!
# The byte-phase memory server `ndf_memserver`

The protocol core of the host firmware, `Firmware/rp2040/ndf_memserver.c`. The server keeps its
own phase, latches the transaction type in phase `0`, collects the four bytes that the chip drives
in a loop, and answers a fetch from `prog` and a load from `mem`. A load and a store own a second
loop, told apart from the first by `beat`. `ndfStep` is one bus phase, in the order of the source:
latch or check the pins, take the byte, serve the transaction, advance.

The fields of the source that hold `0 … 3` (`phase`, `type`, the indices of `a` and `st_addr`) are
words of two bits, and `beat` is a truth value; an 8-bit address indexes the two memories.

## Main definitions

* `NdfServer`, `ndfInit`, `rd32`, `ndfStep`.

## Main results

* `byte_rd32`: the bytes of a word that is read are those of the memory, low byte first.
-/

namespace Saltworks.Firmware

open Function (update)

/-! ### The transaction types -/

def NDF_T_IDLE : BitVec 2 := 0#2

def NDF_T_FETCH : BitVec 2 := 1#2

def NDF_T_LOAD : BitVec 2 := 2#2

def NDF_T_STORE : BitVec 2 := 3#2

/-- The memory of the harness: one byte for each 8-bit address. -/
abbrev Bytes := BitVec 8 → BitVec 8

/-- `ndf_server_t`. -/
structure NdfServer where
  phase : BitVec 2
  type : BitVec 2
  beat : Bool
  a : BitVec 2 → BitVec 8
  stAddr : BitVec 2 → BitVec 8
  word : BitVec 32
  mem : Bytes
  prog : Bytes
  desync : BitVec 32
  nFetchLoops : BitVec 32
  nLoadLoops : BitVec 32
  nStoreLoops : BitVec 32
  nIdleLoops : BitVec 32
  nConsumed : BitVec 32

def rd32 (m : Bytes) (a : BitVec 8) : BitVec 32 :=
  (m a).setWidth 32 ||| (m (a + 1#8)).setWidth 32 <<< 8 ||| (m (a + 2#8)).setWidth 32 <<< 16 |||
    (m (a + 3#8)).setWidth 32 <<< 24

/-- The byte of a word that is driven in a phase: `(uint8_t)(word >> (8u * phase))`. -/
def byte (w : BitVec 32) (phase : BitVec 2) : BitVec 8 := (w >>> (8 * phase.toNat)).setWidth 8

def ndfInit : NdfServer where
  phase := 0#2
  type := NDF_T_IDLE
  beat := false
  a _ := 0#8
  stAddr _ := 0#8
  word := 0#32
  mem _ := 0#8
  prog _ := 0#8
  desync := 0#32
  nFetchLoops := 0#32
  nLoadLoops := 0#32
  nStoreLoops := 0#32
  nIdleLoops := 0#32
  nConsumed := 0#32

namespace NdfServer

/-- The counter of the loops of the type just latched. -/
def countLoop (s : NdfServer) : NdfServer :=
  if s.type = NDF_T_FETCH then { s with nFetchLoops := s.nFetchLoops + 1#32 }
  else if s.type = NDF_T_LOAD then { s with nLoadLoops := s.nLoadLoops + 1#32 }
  else if s.type = NDF_T_STORE then { s with nStoreLoops := s.nStoreLoops + 1#32 }
  else { s with nIdleLoops := s.nIdleLoops + 1#32 }

/-- The pins carry the type in phase `0` and must repeat the phase in the others. -/
def readPins (pp : BitVec 8) (s : NdfServer) : NdfServer :=
  if s.phase = 0#2 then countLoop { s with type := pp.setWidth 2 }
  else if pp.setWidth 2 ≠ s.phase then { s with desync := s.desync + 1#32 }
  else s

def takeByte (pout : BitVec 8) (s : NdfServer) : NdfServer :=
  { s with a := update s.a s.phase pout }

/-- The four bytes of a store, at the address of its first loop. -/
def storeBytes (pout : BitVec 8) (s : NdfServer) : Bytes :=
  let base := s.stAddr 0#2
  update (update (update (update s.mem base (s.a 0#2)) (base + 1#8) (s.a 1#2)) (base + 2#8)
    (s.a 2#2)) (base + 3#8) pout

/-- The transaction: the server after it, the byte it drives, and whether the chip uses it. -/
def serve (pout : BitVec 8) (s : NdfServer) : NdfServer × BitVec 8 × Bool :=
  if s.type = NDF_T_FETCH then
    let s := if s.phase = 0#2 then { s with word := rd32 s.prog pout } else s
    (s, byte s.word s.phase, true)
  else if s.type = NDF_T_LOAD then
    if s.beat = false then
      (if s.phase = 3#2 then { s with word := rd32 s.mem (s.a 0#2) } else s, 0#8, false)
    else (s, byte s.word s.phase, true)
  else if s.type = NDF_T_STORE then
    if s.beat = false then ({ s with stAddr := update s.stAddr s.phase pout }, 0#8, false)
    else if s.phase = 3#2 then ({ s with mem := s.storeBytes pout }, 0#8, false)
    else (s, 0#8, false)
  else (s, 0#8, false)

def advance (used : Bool) (s : NdfServer) : NdfServer :=
  { s with
    nConsumed := if used then s.nConsumed + 1#32 else s.nConsumed
    beat :=
      if s.phase = 3#2 then
        if (s.type = NDF_T_LOAD ∨ s.type = NDF_T_STORE) ∧ s.beat = false then true else false
      else s.beat
    phase := s.phase + 1#2 }

end NdfServer

/-- One bus phase: the server after it, the byte that it drives, and `consumed`. -/
def ndfStep (s : NdfServer) (pp pout : BitVec 8) : NdfServer × BitVec 8 × Bool :=
  let r := ((s.readPins pp).takeByte pout).serve pout
  (r.1.advance r.2.2, r.2)

/-! ### What a bus phase does -/

section Step

open NdfServer

variable (s : NdfServer) (pp pout : BitVec 8)

/-- The type of the current loop: latched in phase `0`, and kept. -/
def NdfServer.loopType : BitVec 2 := if s.phase = 0#2 then pp.setWidth 2 else s.type

/-- The pins are checked in the phases after the first. -/
theorem NdfServer.readPins_eq : s.readPins pp = { s with
    type := s.loopType pp
    desync := if s.phase ≠ 0#2 ∧ pp.setWidth 2 ≠ s.phase then s.desync + 1#32 else s.desync
    nFetchLoops := (s.readPins pp).nFetchLoops
    nLoadLoops := (s.readPins pp).nLoadLoops
    nStoreLoops := (s.readPins pp).nStoreLoops
    nIdleLoops := (s.readPins pp).nIdleLoops } := by
  unfold readPins countLoop loopType
  by_cases h0 : s.phase = 0#2
  · simp only [h0, if_true, ne_eq, not_true_eq_false, false_and, if_false]
    split_ifs <;> rfl
  · simp only [h0, if_false, ne_eq, not_false_eq_true, true_and]
    split_ifs <;> rfl

/-- The server when it serves the transaction of a phase. -/
def NdfServer.serving : NdfServer := (s.readPins pp).takeByte pout

theorem NdfServer.serving_eq : s.serving pp pout = { s with
    type := s.loopType pp
    a := update s.a s.phase pout
    desync := if s.phase ≠ 0#2 ∧ pp.setWidth 2 ≠ s.phase then s.desync + 1#32 else s.desync
    nFetchLoops := (s.readPins pp).nFetchLoops
    nLoadLoops := (s.readPins pp).nLoadLoops
    nStoreLoops := (s.readPins pp).nStoreLoops
    nIdleLoops := (s.readPins pp).nIdleLoops } := by
  rw [serving, takeByte, readPins_eq]

/-- Serving a transaction touches the word, the address of a store and the memory only. -/
theorem NdfServer.serve_fst : (s.serve pout).1 = { s with
    word := (s.serve pout).1.word
    stAddr := (s.serve pout).1.stAddr
    mem := (s.serve pout).1.mem } := by
  unfold serve
  split_ifs <;> rfl

/-- What a bus phase does whatever the transaction. -/
theorem ndfStep_common :
    (ndfStep s pp pout).1.phase = s.phase + 1#2 ∧
      (ndfStep s pp pout).1.type = s.loopType pp ∧
      (ndfStep s pp pout).1.a = update s.a s.phase pout ∧
      (ndfStep s pp pout).1.prog = s.prog ∧
      (ndfStep s pp pout).1.desync =
        if s.phase ≠ 0#2 ∧ pp.setWidth 2 ≠ s.phase then s.desync + 1#32 else s.desync := by
  rw [ndfStep, ← serving, serve_fst, serving_eq]
  exact ⟨rfl, rfl, rfl, rfl, rfl⟩

/-- The end of a loop: a load and a store own a second one. -/
theorem ndfStep_beat : (ndfStep s pp pout).1.beat =
    if s.phase = 3#2 then
      if (s.loopType pp = NDF_T_LOAD ∨ s.loopType pp = NDF_T_STORE) ∧ s.beat = false then true
      else false
    else s.beat := by
  rw [ndfStep, ← serving, serve_fst, serving_eq]
  rfl

theorem NdfServer.serving_type : (s.serving pp pout).type = s.loopType pp := by
  rw [serving_eq]

theorem NdfServer.serve_of_load (h : s.type = NDF_T_LOAD) : s.serve pout =
    if s.beat = false then
      (if s.phase = 3#2 then { s with word := rd32 s.mem (s.a 0#2) } else s, 0#8, false)
    else (s, byte s.word s.phase, true) := by
  rw [serve, if_neg (by rw [h]; decide), if_pos h]

theorem NdfServer.serve_of_store (h : s.type = NDF_T_STORE) : s.serve pout =
    if s.beat = false then ({ s with stAddr := update s.stAddr s.phase pout }, 0#8, false)
    else if s.phase = 3#2 then ({ s with mem := s.storeBytes pout }, 0#8, false)
    else (s, 0#8, false) := by
  rw [serve, if_neg (by rw [h]; decide), if_neg (by rw [h]; decide), if_pos h]

variable {s pp}

/-- A fetch loop: the word is looked up in phase `0` and driven in every phase. -/
theorem ndfStep_of_fetch (h : s.loopType pp = NDF_T_FETCH) :
    (ndfStep s pp pout).1.word = (if s.phase = 0#2 then rd32 s.prog pout else s.word) ∧
      (ndfStep s pp pout).1.stAddr = s.stAddr ∧ (ndfStep s pp pout).1.mem = s.mem ∧
      (ndfStep s pp pout).2.1 =
        byte (if s.phase = 0#2 then rd32 s.prog pout else s.word) s.phase := by
  rw [ndfStep, ← serving, serve, if_pos ((serving_type s pp pout).trans h), serving_eq]
  dsimp only [advance]
  split_ifs <;> exact ⟨rfl, rfl, rfl, rfl⟩

/-- The address loop of a load: the word is looked up in its last phase. -/
theorem ndfStep_of_loadAddress (h : s.loopType pp = NDF_T_LOAD) (hb : s.beat = false) :
    (ndfStep s pp pout).1.word =
        (if s.phase = 3#2 then rd32 s.mem (update s.a s.phase pout 0#2) else s.word) ∧
      (ndfStep s pp pout).1.stAddr = s.stAddr ∧ (ndfStep s pp pout).1.mem = s.mem := by
  rw [ndfStep, ← serving, serve_of_load _ _ ((serving_type s pp pout).trans h), serving_eq]
  dsimp only [advance]
  rw [if_pos hb]
  split_ifs <;> exact ⟨rfl, rfl, rfl⟩

/-- The data loop of a load: the word is driven in every phase. -/
theorem ndfStep_of_loadData (h : s.loopType pp = NDF_T_LOAD) (hb : s.beat = true) :
    (ndfStep s pp pout).1.word = s.word ∧
      (ndfStep s pp pout).1.stAddr = s.stAddr ∧ (ndfStep s pp pout).1.mem = s.mem ∧
      (ndfStep s pp pout).2.1 = byte s.word s.phase := by
  rw [ndfStep, ← serving, serve_of_load _ _ ((serving_type s pp pout).trans h), serving_eq]
  dsimp only [advance]
  rw [if_neg (by rw [hb]; decide)]
  exact ⟨rfl, rfl, rfl, rfl⟩

/-- The address loop of a store: the address is kept. -/
theorem ndfStep_of_storeAddress (h : s.loopType pp = NDF_T_STORE) (hb : s.beat = false) :
    (ndfStep s pp pout).1.stAddr = update s.stAddr s.phase pout ∧
      (ndfStep s pp pout).1.mem = s.mem := by
  rw [ndfStep, ← serving, serve_of_store _ _ ((serving_type s pp pout).trans h), serving_eq]
  dsimp only [advance]
  rw [if_pos hb]
  exact ⟨rfl, rfl⟩

/-- The data loop of a store: the four bytes are written in its last phase. -/
theorem ndfStep_of_storeData (h : s.loopType pp = NDF_T_STORE) (hb : s.beat = true) :
    (ndfStep s pp pout).1.stAddr = s.stAddr ∧
      (ndfStep s pp pout).1.mem =
        if s.phase = 3#2 then (s.takeByte pout).storeBytes pout else s.mem := by
  rw [ndfStep, ← serving, serve_of_store _ _ ((serving_type s pp pout).trans h), serving_eq]
  dsimp only [advance]
  rw [if_neg (by rw [hb]; decide)]
  split_ifs <;> exact ⟨rfl, rfl⟩

variable (s)

/-- The bytes of a store: the four that the chip drove, low byte first. -/
theorem NdfServer.storeBytes_byte (h3 : s.phase = 3#2) (p : BitVec 2) :
    (s.takeByte pout).storeBytes pout (s.stAddr 0#2 + p.setWidth 8) =
      update s.a s.phase pout p := by
  rw [h3]
  obtain rfl | rfl | rfl | rfl : p = 0#2 ∨ p = 1#2 ∨ p = 2#2 ∨ p = 3#2 := by
    revert p
    decide
  all_goals simp [storeBytes, takeByte, h3]

/-- A store leaves the other bytes of the memory alone. -/
theorem NdfServer.storeBytes_of_ne {b : BitVec 8}
    (hb : ∀ p : BitVec 2, b ≠ s.stAddr 0#2 + p.setWidth 8) :
    (s.takeByte pout).storeBytes pout b = s.mem b := by
  have h0 : b ≠ s.stAddr 0#2 := fun h => hb 0#2 (h.trans (BitVec.add_zero _).symm)
  have h1 : b ≠ s.stAddr 0#2 + 1#8 := hb 1#2
  have h2 : b ≠ s.stAddr 0#2 + 2#8 := hb 2#2
  have h3 : b ≠ s.stAddr 0#2 + 3#8 := hb 3#2
  simp only [storeBytes, takeByte, Function.update_of_ne h0, Function.update_of_ne h1,
    Function.update_of_ne h2, Function.update_of_ne h3]

end Step

/-! ### Bytes of words -/

theorem getLsbD_byte (w : BitVec 32) (p : BitVec 2) (i : ℕ) :
    (byte w p).getLsbD i = (decide (i < 8) && w.getLsbD (8 * p.toNat + i)) := by
  rw [byte, BitVec.getLsbD_setWidth, BitVec.getLsbD_ushiftRight]

/-- A byte shifted to the place `k` of a word fills that place only. -/
theorem getLsbD_shiftByte (b : BitVec 8) (k : ℕ) {q i : ℕ} (hq : q < 4) (hi : i < 8) :
    (b.setWidth 32 <<< (8 * k)).getLsbD (8 * q + i) = (decide (q = k) && b.getLsbD i) := by
  have hlt : 8 * q + i < 32 := by omega
  rw [BitVec.getLsbD_shiftLeft, BitVec.getLsbD_setWidth, decide_eq_true hlt, Bool.true_and]
  obtain h | rfl | h := lt_trichotomy q k
  · rw [decide_eq_true (show 8 * q + i < 8 * k by omega), decide_eq_false h.ne]
    rfl
  · rw [Nat.add_sub_cancel_left, decide_eq_false (by omega), decide_eq_true (by omega),
      decide_eq_true rfl]
    rfl
  · rw [BitVec.getLsbD_of_ge b _ (by omega), decide_eq_false h.ne']
    simp

theorem getLsbD_rd32 (m : Bytes) (a : BitVec 8) (p : BitVec 2) {i : ℕ} (hi : i < 8) :
    (rd32 m a).getLsbD (8 * p.toNat + i) = (m (a + p.setWidth 8)).getLsbD i := by
  have hword : rd32 m a =
      (m a).setWidth 32 <<< (8 * 0) ||| (m (a + 1#8)).setWidth 32 <<< (8 * 1) |||
      (m (a + 2#8)).setWidth 32 <<< (8 * 2) ||| (m (a + 3#8)).setWidth 32 <<< (8 * 3) := by
    rw [Nat.mul_zero, BitVec.shiftLeft_zero]
    rfl
  rw [hword, BitVec.getLsbD_or, BitVec.getLsbD_or, BitVec.getLsbD_or,
    getLsbD_shiftByte _ _ p.isLt hi, getLsbD_shiftByte _ _ p.isLt hi,
    getLsbD_shiftByte _ _ p.isLt hi, getLsbD_shiftByte _ _ p.isLt hi]
  obtain rfl | rfl | rfl | rfl : p = 0#2 ∨ p = 1#2 ∨ p = 2#2 ∨ p = 3#2 := by
    revert p
    decide
  all_goals simp

/-- The bytes of a word that is read are those of the memory, low byte first. -/
theorem byte_rd32 (m : Bytes) (a : BitVec 8) (p : BitVec 2) :
    byte (rd32 m a) p = m (a + p.setWidth 8) := by
  refine BitVec.eq_of_getLsbD_eq fun i hi => ?_
  rw [getLsbD_byte, getLsbD_rd32 m a p hi, decide_eq_true hi, Bool.true_and]

/-- A word is determined by its four bytes. -/
theorem eq_of_byte_eq {v w : BitVec 32} (h : ∀ p, byte v p = byte w p) : v = w := by
  refine BitVec.eq_of_getLsbD_eq fun i hi => ?_
  have hbit := congrArg (fun b => b.getLsbD (i % 8)) (h (BitVec.ofNat 2 (i / 8)))
  have hplace : 8 * (BitVec.ofNat 2 (i / 8)).toNat + i % 8 = i := by
    rw [BitVec.toNat_ofNat]
    omega
  simp only [getLsbD_byte, hplace, decide_eq_true (Nat.mod_lt i (show 0 < 8 by decide)),
    Bool.true_and] at hbit
  exact hbit

end Saltworks.Firmware
