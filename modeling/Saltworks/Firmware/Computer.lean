import Saltworks.Firmware.ClosedLoop
import Saltworks.Refine.BusRefinement

/-!
# The computer made of the chip and its firmware

The chip executes instructions and has no memory, the firmware has two byte memories and executes
nothing. In closed loop they are a computer: `Computer.step` is one instruction of RV32I with
erratum E on a state that has a memory, with the program read at the low byte of `pc` and the data
read and written at the low byte of the address. Every closed-loop run is a run of this computer,
instruction by instruction.

The loops of the plane and the answers of the server are known (`instruction`, `Agrees`); what is
added is that the memory stands still during an instruction, until its last cycle.

## Main definitions

* `wr32`: four bytes written.
* `Computer`, `Computer.step`, `Computer.run`: the computer.
* `ClosedLoop.rest`: the bytes that the server drives from some cycle on.

## Main results

* `ClosedLoop.step_computes`: one instruction.
* `closedLoop_computes`: any number of instructions.
-/

namespace Saltworks.Firmware

open RTL RTL.Plane32Bus
open Refine (EState Loop Dec decode exec Boundary Serving Emits archOf)
open Function (update)

/-! ### The computer -/

/-- The memory after the bytes of a word are written at an address and after it, low byte
first. -/
def wr32 (m : Bytes) (a : BitVec 8) (w : BitVec 32) : Bytes :=
  update (update (update (update m a (byte w 0#2)) (a + 1#8) (byte w 1#2)) (a + 2#8) (byte w 2#2))
    (a + 3#8) (byte w 3#2)

theorem wr32_byte (m : Bytes) (a : BitVec 8) (w : BitVec 32) (p : BitVec 2) :
    wr32 m a w (a + p.setWidth 8) = byte w p := by
  obtain rfl | rfl | rfl | rfl := BusAdapt8.phase_cases p
  all_goals simp [wr32]

theorem wr32_of_ne (m : Bytes) {a b : BitVec 8} (w : BitVec 32)
    (h : ∀ p : BitVec 2, b ≠ a + p.setWidth 8) : wr32 m a w b = m b := by
  have h0 : b ≠ a := fun hb => h 0#2 (hb.trans (BitVec.add_zero _).symm)
  have h1 : b ≠ a + 1#8 := h 1#2
  have h2 : b ≠ a + 2#8 := h 2#2
  have h3 : b ≠ a + 3#8 := h 3#2
  simp only [wr32, Function.update_of_ne h0, Function.update_of_ne h1, Function.update_of_ne h2,
    Function.update_of_ne h3]

/-- A processor with a byte memory of 256 bytes. -/
structure Computer where
  cpu : EState
  mem : Bytes

namespace Computer

/-- One instruction of the program `prog`, with the loops that it makes on the bus. -/
def step (e : Bool) (prog : Bytes) (m : Computer) : Option (Computer × List Loop) := do
  let d ← decode (rd32 prog (m.cpu.arch.pc.setWidth 8))
  let addr := (m.cpu.arch.get d.rs1 + d.imm).setWidth 8
  let (cpu, ls) ← exec e m.cpu d (rd32 m.mem addr)
  let mem := if d.op = .sw then wr32 m.mem addr (m.cpu.arch.get d.rs2) else m.mem
  pure (⟨cpu, mem⟩, Refine.twoLoopLoad ls)

/-- The first `k` instructions, with all loops in order. -/
def run (e : Bool) (prog : Bytes) (m : Computer) : ℕ → Option (Computer × List Loop)
  | 0 => some (m, [])
  | k + 1 => do
    let (m, ls) ← run e prog m k
    let (m', ls') ← step e prog m
    pure (m', ls ++ ls')

end Computer

/-! ### Instructions and the data port -/

/-- Only a load reads the word of the host. -/
theorem exec_congr {e : Bool} {s : EState} {d : Dec} (h : d.op ≠ .lw) (v w : Word) :
    exec e s d v = exec e s d w := by
  obtain ⟨op, rd, rs1, rs2, imm⟩ := d
  cases op
  case lw => exact absurd rfl h
  all_goals rfl

theorem isLoadW_of_decode {w : Word} {d : Dec} (h : decode w = some d) :
    Core32.isLoadW w = decide (d.op = .lw) := by
  obtain ⟨-, hop, hf3, -⟩ := Refine.decode_eq_some h
  obtain ⟨op, rd, rs1, rs2, imm⟩ := d
  cases op
  case lw => simp [Core32.isLoadW, Core32.isLoad, Core32.isWord, hop, Refine.Op.opcode, hf3 _ rfl]
  all_goals simp [Core32.isLoadW, Core32.isLoad, hop, Refine.Op.opcode]

theorem isStoreW_of_decode {w : Word} {d : Dec} (h : decode w = some d) :
    Core32.isStoreW w = decide (d.op = .sw) := by
  obtain ⟨-, hop, hf3, -⟩ := Refine.decode_eq_some h
  obtain ⟨op, rd, rs1, rs2, imm⟩ := d
  cases op
  case sw => simp [Core32.isStoreW, Core32.isStore, Core32.isWord, hop, Refine.Op.opcode, hf3 _ rfl]
  all_goals simp [Core32.isStoreW, Core32.isStore, hop, Refine.Op.opcode]

/-- The address and the data of a load or a store, as the specification and as the core have
them. -/
theorem ports_of_exec {s : Core32.State} {w v lword : Word} {d : Dec} (hd : decode w = some d)
    {r : EState × List Loop} (hr : exec true ⟨archOf s, v⟩ d lword = some r) :
    (d.op = .lw ∨ d.op = .sw → (archOf s).get d.rs1 + d.imm = Core32.dmemAddr s w) ∧
      (d.op = .sw → (archOf s).get d.rs2 = Core32.dmemWdata s w) := by
  have hload := isLoadW_of_decode hd
  have hstore := isStoreW_of_decode hd
  have hloops := congrArg Prod.snd (Refine.exec_true_core hd hr)
  obtain ⟨op, rd, rs1, rs2, imm⟩ := d
  cases op
  case lw =>
    simp only [exec] at hr
    obtain ⟨-, hr⟩ := Option.ite_none_left_eq_some.1 hr
    obtain rfl := Option.some.inj hr
    simp [Refine.coreStep, Refine.coreLoops, Refine.dataLoops, Core32.dmemReq, Core32.dmemWe,
      hload, hstore] at hloops
    refine ⟨fun _ => ?_, fun h => by simp at h⟩
    rw [Refine.get_archOf]
    exact hloops
  case sw =>
    simp only [exec] at hr
    obtain ⟨-, hr⟩ := Option.ite_none_left_eq_some.1 hr
    obtain rfl := Option.some.inj hr
    simp [Refine.coreStep, Refine.coreLoops, Refine.dataLoops, Core32.dmemReq, Core32.dmemWe,
      hload, hstore] at hloops
    rw [Refine.get_archOf, Refine.get_archOf]
    exact ⟨fun _ => hloops.1, fun _ => hloops.2⟩
  all_goals exact ⟨fun h => by simp at h, fun h => by simp at h⟩

/-! ### The memory during an instruction -/

namespace ClosedLoop

variable (c : ClosedLoop)

/-- The bytes that the server drives from cycle `u` on. -/
def rest (u : ℕ) : ℕ → BitVec 8 := fun t => c.pinIn (u + t)

/-- The run from cycle `u` on. -/
theorem run_rest (u t : ℕ) :
    machine.run (c.plane u) (hostInput (c.rest u)) t = c.plane (u + t) := by
  rw [c.plane_eq_run (u + t), run_add_hostInput, ← c.plane_eq_run]
  rfl

/-- The memory stands still in cycles in which nothing retires. -/
theorem mem_of_no_retire {u v : ℕ} (huv : u ≤ v)
    (hquiet : ∀ t, u ≤ t → t < v → retire (c.plane t) ⟨c.pinIn t, false⟩ = false) :
    (c.server v).mem = (c.server u).mem := by
  induction v, huv using Nat.le_induction with
  | base => rfl
  | succ v huv ih =>
    have hstore : storeRetires (c.plane v) ⟨c.pinIn v, false⟩ = false := by
      rw [storeRetires, hquiet v huv (by omega), Bool.false_and]
    rw [c.server_succ, (c.agrees v).answer_mem (c.arbitrated v) hstore]
    exact ih fun t hut htv => hquiet t hut (by omega)

/-- The memory during an instruction is the one before it. -/
theorem mem_of_emits {u : ℕ} {ls : List Loop} {s' : State}
    (he : Emits (c.plane u) (c.rest u) ls true s') {t : ℕ} (ht : t < 4 * ls.length) :
    (c.server (u + t)).mem = (c.server u).mem := by
  refine c.mem_of_no_retire (by omega) fun v huv hvt => ?_
  obtain ⟨j, rfl⟩ := Nat.exists_eq_add_of_le huv
  have hret := he.retire j (by omega)
  rw [c.run_rest] at hret
  exact hret.trans (by simp; omega)

/-- The word of the program that is fetched at a boundary. -/
theorem fetchedWord {u : ℕ} (hb : Boundary (c.plane u)) :
    hostWord (c.rest u) 0 = rd32 c.prog ((c.plane u).core.pcR.setWidth 8) := by
  have hloop : c.plane (u + 3) = inLoop (c.rest u) (c.plane u) 3 := by
    rw [← c.run_rest, run_inLoop hb.phase _ (by omega)]
  have hc : FetchCompletes (c.plane (u + 3)) := by
    rw [hloop]
    exact ⟨hb.kind, rfl⟩
  have hword := c.assembled_fetch hc
  rw [hloop] at hword
  rw [← assembled_inLoop (c.rest u) (c.plane u)]
  refine hword.trans ?_
  have haddr : Core32.imemAddr (c.plane u).core = (c.plane u).core.pcR :=
    Refine.imemAddr_of_aligned hb.aligned
  rw [← byte_zero, ← haddr]
  rfl

/-- The data loop of a load or a store: its cycles, and the loops of the whole instruction. -/
theorem dataLoop_of_request {u : ℕ} (hb : Boundary (c.plane u))
    (hreq : Core32.dmemReq (hostWord (c.rest u) 0) = true) :
    (∃ l₁ l₂ s', Emits (c.plane u) (c.rest u) [⟨.fetch, (c.plane u).core.pcR⟩, l₁, l₂] true s') ∧
      ∀ j < 4, (c.plane (u + 8 + j)).bus.kind =
          BusAdapt8.dataKind (Core32.dmemWe (hostWord (c.rest u) 0)) ∧
        dataBeat (c.plane (u + 8 + j)).bus = true ∧
        (c.plane (u + 8 + j)).bus.phase = BitVec.ofNat 2 j ∧
        (c.plane (u + 8 + j)).bus.instrR = hostWord (c.rest u) 0 ∧
        (c.plane (u + 8 + j)).core = (c.plane u).core := by
  obtain ⟨s₁, hfetch, hs₁⟩ := Refine.fetchLoop_request hb hreq
  obtain ⟨s₂, haddr, hs₂⟩ := Refine.addressLoop hs₁ fun t => c.rest u (4 + t)
  obtain ⟨s₃, hdata, -⟩ := Refine.dataLoop hs₂ fun t => c.rest u (8 + t)
  have htwo := hfetch.append haddr (by simp)
  refine ⟨⟨_, _, s₃, htwo.append hdata (by simp)⟩, fun j hj => ?_⟩
  have hrun : c.plane (u + 8 + j) = inLoop (fun t => c.rest u (8 + t)) s₂ j := by
    have h8 : c.plane (u + 8) = s₂ := by
      rw [← c.run_rest]
      exact htwo.run
    rw [← run_inLoop hs₂.phase _ hj, ← h8, ← c.run_rest (u + 8)]
    congr 2
    funext t
    exact congrArg c.pinIn (Nat.add_assoc u 8 t)
  rw [hrun]
  exact ⟨hs₂.kind, hs₂.beat, rfl, hs₂.instrR, hs₂.core⟩

/-- The word of a load is the word of the memory at its address. -/
theorem loadWord {u : ℕ} (hb : Boundary (c.plane u))
    (hreq : Core32.dmemReq (hostWord (c.rest u) 0) = true)
    (hwe : Core32.dmemWe (hostWord (c.rest u) 0) = false) :
    hostWord (c.rest u) 8 = rd32 (c.server u).mem
      ((Core32.dmemAddr (c.plane u).core (hostWord (c.rest u) 0)).setWidth 8) := by
  obtain ⟨⟨l₁, l₂, s', he⟩, hcycle⟩ := c.dataLoop_of_request hb hreq
  refine eq_of_byte_eq fun p => ?_
  obtain ⟨hk, hbeat, hp, hi, hcore⟩ := hcycle p.toNat p.isLt
  rw [hwe] at hk
  have hdrive := ((c.agrees _).answer_loadData ⟨c.pinIn (u + 8 + p.toNat), false⟩ hk hbeat).2.2
  have hmem : (c.server (u + 8 + p.toNat)).mem = (c.server u).mem := by
    rw [Nat.add_assoc]
    exact c.mem_of_emits he (by have := p.isLt; simp; omega)
  rw [← c.pinIn_eq, hmem, hp, hi, hcore, BitVec.ofNat_toNat, BitVec.setWidth_eq] at hdrive
  rw [byte_hostWord, ← byte_zero, ← hdrive]
  exact congrArg c.pinIn (Nat.add_assoc u 8 p.toNat).symm

/-- A store writes its word to the memory in its last cycle. -/
theorem mem_of_store {u : ℕ} (hb : Boundary (c.plane u))
    (hreq : Core32.dmemReq (hostWord (c.rest u) 0) = true)
    (hwe : Core32.dmemWe (hostWord (c.rest u) 0) = true) :
    (c.server (u + 12)).mem = wr32 (c.server u).mem
      ((Core32.dmemAddr (c.plane u).core (hostWord (c.rest u) 0)).setWidth 8)
      (Core32.dmemWdata (c.plane u).core (hostWord (c.rest u) 0)) := by
  obtain ⟨⟨l₁, l₂, s', he⟩, hcycle⟩ := c.dataLoop_of_request hb hreq
  obtain ⟨hk, hbeat, hp, hi, hcore⟩ := hcycle 3 (by omega)
  rw [hwe] at hk
  have hmem : (c.server (u + 11)).mem = (c.server u).mem := c.mem_of_emits he (by simp)
  obtain ⟨hbytes, hframe⟩ :=
    ((c.agrees (u + 11)).answer_storeData ⟨c.pinIn (u + 11), false⟩ hk hbeat).2.2 hp
  rw [hi, hcore, byte_zero, ← c.server_succ] at hbytes hframe
  funext b
  by_cases hin : ∃ p : BitVec 2,
      b = (Core32.dmemAddr (c.plane u).core (hostWord (c.rest u) 0)).setWidth 8 + p.setWidth 8
  · obtain ⟨p, rfl⟩ := hin
    rw [wr32_byte]
    exact hbytes p
  · rw [not_exists] at hin
    rw [wr32_of_ne _ _ hin, ← hmem]
    exact hframe b hin

/-- An instruction that ends in a loop that is no store leaves the memory alone. -/
theorem mem_of_not_store {u : ℕ} {ls : List Loop} {s' : State}
    (he : Emits (c.plane u) (c.rest u) ls true s') (hne : ls ≠ [])
    (hk : (c.plane (u + (4 * ls.length - 1))).bus.kind ≠ .store) :
    (c.server (u + 4 * ls.length)).mem = (c.server u).mem := by
  have hpos : 0 < ls.length := List.length_pos_iff.2 hne
  have hlast : u + 4 * ls.length = u + (4 * ls.length - 1) + 1 := by omega
  have ha := c.arbitrated (u + (4 * ls.length - 1))
  have hstore : storeRetires (c.plane (u + (4 * ls.length - 1)))
      ⟨c.pinIn (u + (4 * ls.length - 1)), false⟩ = false := by
    rw [storeRetires_eq ha]
    simp [hk]
  rw [hlast, c.server_succ, (c.agrees _).answer_mem ha hstore, c.mem_of_emits he (by omega)]

/-! ### One instruction -/

/-- **One instruction** of the computer is one instruction of the plane, served by the
firmware. -/
theorem step_computes {u : ℕ} (hb : Boundary (c.plane u)) {m : Computer} {ls : List Loop}
    (hst : Computer.step true c.prog ⟨EState.ofPlane (c.plane u), (c.server u).mem⟩ =
      some (m, ls)) :
    ls ≠ [] ∧ ∃ s', Emits (c.plane u) (c.rest u) ls true s' ∧ Boundary s' ∧
      EState.ofPlane s' = m.cpu ∧ (c.server (u + 4 * ls.length)).mem = m.mem := by
  simp only [Computer.step, Option.bind_eq_bind, Option.bind_eq_some_iff, Option.pure_def,
    Option.some.injEq, Prod.mk.injEq] at hst
  obtain ⟨d, hd, ⟨e', ls₀⟩, hx, rfl, rfl⟩ := hst
  have hpc : (EState.ofPlane (c.plane u)).arch.pc = (c.plane u).core.pcR := rfl
  rw [hpc, ← c.fetchedWord hb] at hd
  obtain ⟨haddr, hwdata⟩ := ports_of_exec hd hx
  have hload := isLoadW_of_decode hd
  have hstore := isStoreW_of_decode hd
  have hne : Refine.twoLoopLoad ls₀ ≠ [] :=
    Refine.twoLoopLoad_ne_nil (Refine.exec_loops_ne_nil hd hx)
  -- the host's word of a load is the one of the memory
  have hx' : exec true (EState.ofPlane (c.plane u)) d (hostWord (c.rest u) 8) =
      some (e', ls₀) := by
    by_cases hop : d.op = .lw
    · have hreq : Core32.dmemReq (hostWord (c.rest u) 0) = true := by
        rw [Core32.dmemReq, hload]
        simp [hop]
      have hwe : Core32.dmemWe (hostWord (c.rest u) 0) = false := by
        rw [Core32.dmemWe, hstore]
        simp [hop]
      rw [c.loadWord hb hreq hwe, ← haddr (.inl hop)]
      exact hx
    · rw [← hx]
      exact exec_congr hop _ _
  obtain ⟨s', hemit, hb', he'⟩ := Refine.instruction hb hd hx'
  refine ⟨hne, s', hemit, hb', he', ?_⟩
  have hloops : ls₀ = Refine.coreLoops (c.plane u).core (hostWord (c.rest u) 0) :=
    congrArg Prod.snd (Refine.exec_true_core hd hx)
  by_cases hop : d.op = .sw
  · have hreq : Core32.dmemReq (hostWord (c.rest u) 0) = true := by
      rw [Core32.dmemReq, hstore]
      simp [hop]
    have hwe : Core32.dmemWe (hostWord (c.rest u) 0) = true := by
      rw [Core32.dmemWe, hstore]
      simp [hop]
    have hlen : (Refine.twoLoopLoad ls₀).length = 3 := by
      rw [hloops]
      simp [Refine.coreLoops, Refine.dataLoops, Refine.twoLoopLoad, hreq, hwe]
    have hget : (EState.ofPlane (c.plane u)).arch = archOf (c.plane u).core := rfl
    rw [hlen, c.mem_of_store hb hreq hwe, if_pos hop, hget, haddr (.inr hop), hwdata hop]
  · have hwe : Core32.dmemWe (hostWord (c.rest u) 0) = false := by
      rw [Core32.dmemWe, hstore]
      simp [hop]
    rw [if_neg hop]
    refine c.mem_of_not_store hemit hne ?_
    cases hreq : Core32.dmemReq (hostWord (c.rest u) 0) with
    | false =>
      have hlen : (Refine.twoLoopLoad ls₀).length = 1 := by
        rw [hloops]
        simp [Refine.coreLoops, Refine.dataLoops, Refine.twoLoopLoad, hreq]
      rw [hlen, ← c.run_rest, run_inLoop hb.phase _ (by omega)]
      exact fun hk => absurd (hb.kind.symm.trans hk) (by decide)
    | true =>
      have hlen : (Refine.twoLoopLoad ls₀).length = 3 := by
        rw [hloops]
        simp [Refine.coreLoops, Refine.dataLoops, Refine.twoLoopLoad, hreq, hwe]
      have hk := ((c.dataLoop_of_request hb hreq).2 3 (by omega)).1
      rw [hlen, show u + (4 * 3 - 1) = u + 8 + 3 by omega, hk, hwe]
      decide

/-! ### Runs -/

/-- What holds after the first `k` instructions. -/
structure Computes (k : ℕ) (m : Computer) (ls : List Loop) : Prop where
  boundary : Boundary (c.plane (4 * ls.length))
  cpu : EState.ofPlane (c.plane (4 * ls.length)) = m.cpu
  mem : (c.server (4 * ls.length)).mem = m.mem
  pins : ∀ t < 4 * ls.length,
    (ls.flatMap Loop.emit)[t]? = some (Refine.pins (c.plane t) ⟨c.pinIn t, false⟩)
  retired : Refine.retiredBefore (c.plane 0) c.pinIn (4 * ls.length) = k

theorem Computes.init : c.Computes 0 ⟨EState.init (c.plane 0).core.regs, c.data⟩ [] := by
  obtain ⟨hpc, hbus⟩ := (isReset_iff _).1 c.isReset
  refine ⟨⟨?_, ?_, c.arbitrated 0, ?_⟩, ?_, ?_, by simp, rfl⟩
  · rw [List.length_nil, hbus]
    rfl
  · rw [List.length_nil, hbus]
    rfl
  · rw [List.length_nil, hpc]
    rfl
  · rw [List.length_nil, EState.ofPlane, EState.init, archOf, hpc, hbus]
    rfl
  · rw [List.length_nil, c.server_zero]

variable {c}

/-- One instruction more. -/
theorem Computes.step {k : ℕ} {m m' : Computer} {ls ls' : List Loop} (h : c.Computes k m ls)
    (hst : Computer.step true c.prog m = some (m', ls')) :
    c.Computes (k + 1) m' (ls ++ ls') := by
  have hm : m = ⟨EState.ofPlane (c.plane (4 * ls.length)), (c.server (4 * ls.length)).mem⟩ := by
    rw [h.cpu, h.mem]
  rw [hm] at hst
  obtain ⟨hne, s', he, hb, hcpu, hmem⟩ := c.step_computes h.boundary hst
  have hlen : 4 * (ls ++ ls').length = 4 * ls.length + 4 * ls'.length := by
    rw [List.length_append, Nat.mul_add]
  have hend : c.plane (4 * ls.length + 4 * ls'.length) = s' := by
    rw [← c.run_rest, he.run]
  refine ⟨?_, ?_, ?_, fun t ht => ?_, ?_⟩
  · rw [hlen, hend]
    exact hb
  · rw [hlen, hend]
    exact hcpu
  · rw [hlen]
    exact hmem
  · rw [List.flatMap_append]
    by_cases hlt : t < 4 * ls.length
    · rw [List.getElem?_append_left (by rwa [Refine.length_flatMap_emit]), h.pins t hlt]
    · obtain ⟨u, rfl⟩ := Nat.exists_eq_add_of_le (Nat.le_of_not_lt hlt)
      rw [List.getElem?_append_right (by rw [Refine.length_flatMap_emit]; omega),
        Refine.length_flatMap_emit, Nat.add_sub_cancel_left, he.pins u (by omega), c.run_rest]
      rfl
  · rw [hlen, Refine.retiredBefore_add, h.retired, ← c.plane_eq_run]
    congr 1
    have hone := Refine.retiredBefore_of_emits he le_rfl (List.length_pos_iff.2 hne)
    rwa [if_pos rfl] at hone

theorem computes_of_run {k : ℕ} {m : Computer} {ls : List Loop}
    (hk : Computer.run true c.prog ⟨EState.init (c.plane 0).core.regs, c.data⟩ k = some (m, ls)) :
    c.Computes k m ls := by
  induction k generalizing m ls with
  | zero =>
    simp only [Computer.run, Option.some.injEq, Prod.mk.injEq] at hk
    obtain ⟨rfl, rfl⟩ := hk
    exact .init c
  | succ k ih =>
    simp only [Computer.run, Option.bind_eq_bind, Option.bind_eq_some_iff, Option.pure_def,
      Option.some.injEq, Prod.mk.injEq] at hk
    obtain ⟨⟨m₁, ls₁⟩, hk₁, ⟨m₂, ls₂⟩, hst, rfl, rfl⟩ := hk
    exact (ih hk₁).step hst

end ClosedLoop

/-- **Chip and firmware are a computer.** In every closed-loop run, for every program, data image,
register file and number `k` of instructions in scope: after the loops of the first `k`
instructions `k` instructions have retired, `pc` and the registers of the chip and the memory of
the firmware are those of the computer, and the pins have been the predicted ones in every
cycle. -/
theorem closedLoop_computes (c : ClosedLoop) {k : ℕ} {m : Computer} {ls : List Loop}
    (hk : Computer.run true c.prog ⟨EState.init (c.plane 0).core.regs, c.data⟩ k =
      some (m, ls)) :
    (archOf (c.plane (4 * ls.length)).core).Agree m.cpu.arch ∧
      (c.server (4 * ls.length)).mem = m.mem ∧
      Refine.retiredBefore (c.plane 0) c.pinIn (4 * ls.length) = k ∧
      ∀ t < 4 * ls.length, (ls.flatMap Loop.emit)[t]? =
        some (Refine.pins (c.plane t) ⟨c.pinIn t, false⟩) := by
  have h := ClosedLoop.computes_of_run hk
  refine ⟨?_, h.mem, h.retired, h.pins⟩
  rw [← h.cpu]
  exact ⟨rfl, fun _ => rfl⟩

/-- The words of the program of the bench: `addi x1, x0, 64`, `sw x1, 0(x1)`, `lw x3, 0(x1)` and
`nop`. -/
def blk : List (BitVec 32) := [0x04000093#32, 0x0010a023#32, 0x0000a183#32, 0x00000013#32]

/-- The program of the bench, repeated through the memory. -/
def benchProg (a : BitVec 8) : BitVec 8 := byte (blk.getD (a.toNat / 4 % 4) 0#32) (a.setWidth 2)

/-- The closed loop with the program of the bench. -/
def benchLoop : ClosedLoop := .ofImages benchProg (fun _ => 0#8) zeroReset isReset_zeroReset

/-- One pass through the program of the bench leaves `64` in the memory. -/
theorem closedLoop_computes_benchLoop : (benchLoop.server 32).mem 64#8 = 64#8 :=
  congrFun (closedLoop_computes benchLoop
    (show Computer.run true benchProg ⟨EState.init zeroReset.core.regs, fun _ => 0#8⟩ 4 =
      some _ from rfl)).2.1 64#8

end Saltworks.Firmware
