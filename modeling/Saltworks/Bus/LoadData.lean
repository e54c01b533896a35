import Saltworks.Bus.ExactlyOnce
import Saltworks.Bus.Loop

/-!
# The word a load writes

A load retires in the last cycle of its data loop. In that same cycle the adapter captures the
word of the loop into `rdata_r`, and the core writes its register from `rdata_r`, that is from
the word of the load before. `loadedWord` names that earlier word in terms of the host's bytes,
and `load_writes_hostWord_iff` says when the two agree.

## Main definitions

* `loadRetires`, `loadedWord`.

## Main results

* `rdataR_eq_loadedWord`: what `rdata_r` holds during a run.
* `load_writes_hostWord_iff`: a load leaves its own word in the register exactly when the load
  before it, or reset, left the same word in `rdata_r`.
-/

namespace Saltworks.RTL.Plane32Bus

open BusAdapt8 (Kind)

/-- A load retires in this cycle. -/
def loadRetires (s : State) (i : Input) : Bool := retire s i && Core32.isLoadW (cInstr s i)

/-- The word of the latest load that retired before cycle `t`: the four bytes that the host drove
in its data loop, low byte first, and zero if no load has retired since reset. -/
def loadedWord (s₀ : State) (h : ℕ → BitVec 8) : ℕ → Word
  | 0 => 0#32
  | t + 1 =>
    if loadRetires (machine.run s₀ (hostInput h) t) (hostInput h t) then hostWord h (t - 3)
    else loadedWord s₀ h t

variable {s₀ : State}

/-- With `sof` low the phase counts the cycles since reset. -/
theorem phase_run (hs : IsReset s₀) (h : ℕ → BitVec 8) (t : ℕ) :
    (machine.run s₀ (hostInput h) t).bus.phase = BitVec.ofNat 2 t := by
  induction t with
  | zero =>
    rw [Synchronous.Machine.run_zero, ((isReset_iff s₀).1 hs).2]
    rfl
  | succ t ih =>
    have hstep : (machine.run s₀ (hostInput h) (t + 1)).bus.phase =
        (machine.run s₀ (hostInput h) t).bus.phase + 1#2 := by
      rw [run_succ]
      simp [posedge, BusAdapt8.posedge, BusAdapt8.nextPhase, hostInput]
    rw [hstep, ih]
    apply BitVec.eq_of_toNat_eq
    simp

/-- A run under a host continues from any cycle under the rest of its bytes. -/
theorem run_add_hostInput (s : State) (h : ℕ → BitVec 8) (c j : ℕ) :
    machine.run s (hostInput h) (c + j) =
      machine.run (machine.run s (hostInput h) c) (hostInput fun k => h (c + k)) j :=
  machine.run_add s (hostInput h) c j

/-- The word assembled in the last phase of a loop is the host's word of the loop. -/
theorem assembled_run {s : State} {h : ℕ → BitVec 8} {c : ℕ}
    (hp : (machine.run s (hostInput h) c).bus.phase = 0#2) :
    BusAdapt8.assembled (machine.run s (hostInput h) (c + 3)).bus (h (c + 3)) = hostWord h c := by
  rw [run_add_hostInput, run_inLoop hp _ (by omega)]
  exact assembled_inLoop (fun k => h (c + k)) _

/-- The last cycle of a loop comes three cycles after its first. -/
theorem exists_loopStart (hs : IsReset s₀) (h : ℕ → BitVec 8) {t : ℕ}
    (hp : (machine.run s₀ (hostInput h) t).bus.phase = 3#2) :
    ∃ c, t = c + 3 ∧ (machine.run s₀ (hostInput h) c).bus.phase = 0#2 := by
  have hmod : t % 4 = 3 := by
    rw [phase_run hs h t] at hp
    simpa using congrArg BitVec.toNat hp
  refine ⟨t - 3, by omega, ?_⟩
  rw [phase_run hs h]
  apply BitVec.eq_of_toNat_eq
  simp
  omega

theorem assembled_of_loopEnd (hs : IsReset s₀) (h : ℕ → BitVec 8) {t : ℕ}
    (hp : (machine.run s₀ (hostInput h) t).bus.phase = 3#2) :
    BusAdapt8.assembled (machine.run s₀ (hostInput h) t).bus (h t) = hostWord h (t - 3) := by
  obtain ⟨c, rfl, hc⟩ := exists_loopStart hs h hp
  exact assembled_run hc

/-- An instruction that retires at the end of its fetch loop is no load and no store. -/
theorem not_request_of_retire {s : State} {i : Input} (hk : s.bus.kind = .fetch)
    (hr : retire s i = true) :
    Core32.isLoadW (cInstr s i) = false ∧ Core32.isStoreW (cInstr s i) = false := by
  have hreq : cDmemReq s i = false := by
    by_contra hreq
    have hstep := step_of_request (fetchCompletes_of_retire hr hk) (by simpa using hreq)
    simp [hstep.1] at hr
  rwa [cDmemReq, Core32.dmemReq, Bool.or_eq_false_iff] at hreq

/-- A load retires exactly in the cycles in which the adapter captures a data word. -/
theorem loadRetires_eq {s : State} {i : Input} (ha : Arbitrated s.bus) :
    loadRetires s i = (s.bus.phase == 3#2 && (s.bus.kind == .load && s.bus.loadBeat)) := by
  by_cases hk : s.bus.kind = .fetch
  · cases hr : retire s i with
    | false => simp [loadRetires, hr, hk]
    | true =>
      obtain ⟨hload, -⟩ := not_request_of_retire hk hr
      simp [loadRetires, hload, hk]
  · obtain ⟨-, hreq, hkind⟩ := decode_of_data (i := i) ha hk
    have hload := Core32.isLoadW_eq_not_dmemWe hreq
    rw [loadRetires, retire, ha.retire_of_data hk, hload, ← cDmemWe]
    rw [hkind]
    cases hwe : cDmemWe s i <;> simp [hkind, hwe, BusAdapt8.dataKind, dataBeat]

/-- `rdata_r` holds the word of the latest load. -/
theorem rdataR_eq_loadedWord (hs : IsReset s₀) (h : ℕ → BitVec 8) (t : ℕ) :
    (machine.run s₀ (hostInput h) t).bus.rdataR = loadedWord s₀ h t := by
  induction t with
  | zero =>
    rw [Synchronous.Machine.run_zero, ((isReset_iff s₀).1 hs).2]
    rfl
  | succ t ih =>
    have ha := Arbitrated.run hs (hostInput h) t
    have hcap : (machine.run s₀ (hostInput h) (t + 1)).bus.rdataR =
        if loadRetires (machine.run s₀ (hostInput h) t) (hostInput h t) then
          BusAdapt8.assembled (machine.run s₀ (hostInput h) t).bus (h t)
        else (machine.run s₀ (hostInput h) t).bus.rdataR := by
      rw [loadRetires_eq ha]
      rfl
    rw [hcap, loadedWord, ih]
    split_ifs with hl
    · have hp : (machine.run s₀ (hostInput h) t).bus.phase = 3#2 := by
        rw [loadRetires_eq ha, Bool.and_eq_true, beq_iff_eq] at hl
        exact hl.1
      exact assembled_of_loopEnd hs h hp
    · rfl

/-- A load that retires leaves the word of the load before it in its register. -/
theorem load_writes_loadedWord (hs : IsReset s₀) (h : ℕ → BitVec 8) {t : ℕ}
    (hl : loadRetires (machine.run s₀ (hostInput h) t) (hostInput h t) = true)
    (hrd : Core32.rd (cInstr (machine.run s₀ (hostInput h) t) (hostInput h t)) ≠ 0#5) :
    (machine.run s₀ (hostInput h) (t + 1)).core.regs
        (Core32.rd (cInstr (machine.run s₀ (hostInput h) t) (hostInput h t))) =
      loadedWord s₀ h t := by
  simp only [loadRetires, Bool.and_eq_true] at hl
  obtain ⟨hr, hload⟩ := hl
  rw [← rdataR_eq_loadedWord hs h t, run_succ]
  simp [posedge, Core32.posedge, Core32.regWe, Core32.writeReg, Core32.wbVal, hr, hload, hrd,
    BusAdapt8.cDmemRdata]

/-- **Which word a load writes.** With `sof` low, for every register file and host, a load with
`rd` other than `x0` that retires in cycle `t` has its data loop in the cycles `t - 3, …, t`, and
leaves the word that the host drove there in `rd` if and only if that word is the one the host
drove in the data loop of the load before it (zero if there was none since reset). -/
theorem load_writes_hostWord_iff (hs : IsReset s₀) (h : ℕ → BitVec 8) (t : ℕ)
    (hl : loadRetires (machine.run s₀ (hostInput h) t) (hostInput h t) = true)
    (hrd : Core32.rd (cInstr (machine.run s₀ (hostInput h) t) (hostInput h t)) ≠ 0#5) :
    (3 ≤ t ∧ ∀ j < 4, (machine.run s₀ (hostInput h) (t - 3 + j)).bus.kind = .load ∧
      (machine.run s₀ (hostInput h) (t - 3 + j)).bus.loadBeat = true ∧
      (machine.run s₀ (hostInput h) (t - 3 + j)).bus.phase = BitVec.ofNat 2 j) ∧
    ((machine.run s₀ (hostInput h) (t + 1)).core.regs
        (Core32.rd (cInstr (machine.run s₀ (hostInput h) t) (hostInput h t))) =
        hostWord h (t - 3) ↔
      hostWord h (t - 3) = loadedWord s₀ h t) := by
  refine ⟨?_, by rw [load_writes_loadedWord hs h hl hrd]; exact eq_comm⟩
  have hat := hl
  rw [loadRetires_eq (Arbitrated.run hs (hostInput h) t)] at hat
  simp only [Bool.and_eq_true, beq_iff_eq] at hat
  obtain ⟨-, hkind, -⟩ := hat
  have hpair := uninterruptedPair_of_retire hs (hostInput h) (r := t)
    (by simp only [loadRetires, Bool.and_eq_true] at hl; exact hl.1) (by simp [hkind])
  rw [hkind] at hpair
  have hle := hpair.le
  refine ⟨by omega, fun j hj => ?_⟩
  have hidx : t - 3 + j = t - 7 + (j + 4) := by omega
  have hbeat := hpair.beat (j + 4) (by omega)
  rw [hidx]
  refine ⟨hpair.kind (j + 4) (by omega), ?_, ?_⟩
  · simpa [dataBeat, hpair.kind (j + 4) (by omega)] using hbeat
  · rw [hpair.phase (j + 4) (by omega)]
    apply BitVec.eq_of_toNat_eq
    simp

/-- A host that answers the first fetch with `lw x1, 0(x0)` and the data loop with the word
`1`. -/
def loadHost (t : ℕ) : BitVec 8 :=
  [0x83#8, 0x20#8, 0x00#8, 0x00#8, 0#8, 0#8, 0#8, 0#8, 1#8, 0#8, 0#8, 0#8].getD t 0#8

/-- The first load after reset writes zero, not the word of its own data loop. -/
theorem not_load_writes_hostWord :
    ¬ ∀ (s₀ : State) (h : ℕ → BitVec 8) (t : ℕ), IsReset s₀ →
      loadRetires (machine.run s₀ (hostInput h) t) (hostInput h t) = true →
      Core32.rd (cInstr (machine.run s₀ (hostInput h) t) (hostInput h t)) ≠ 0#5 →
      (machine.run s₀ (hostInput h) (t + 1)).core.regs
          (Core32.rd (cInstr (machine.run s₀ (hostInput h) t) (hostInput h t))) =
        hostWord h (t - 3) := by
  intro hall
  have hbad := hall zeroReset loadHost 11 isReset_zeroReset (by decide) (by decide)
  revert hbad
  decide

/-- The equivalence at the first load after reset, which loads the word `1`. -/
theorem load_writes_hostWord_iff_loadHost :
    (machine.run zeroReset (hostInput loadHost) 12).core.regs
        (Core32.rd (cInstr (machine.run zeroReset (hostInput loadHost) 11)
          (hostInput loadHost 11))) = hostWord loadHost 8 ↔
      hostWord loadHost 8 = loadedWord zeroReset loadHost 11 :=
  (load_writes_hostWord_iff isReset_zeroReset loadHost 11 (by decide)
    (by decide)).2

end Saltworks.RTL.Plane32Bus
