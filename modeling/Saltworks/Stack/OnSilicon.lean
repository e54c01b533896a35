import Mathlib.Data.Fin.VecNotation
import Saltworks.Compiler.OnSilicon
import Saltworks.Stack.Program

/-!
# Sorting programs on the hardware

On `memplane8` with the program of a network in the memory at its instruction port, and on the chip
with the program in the firmware's program image, which holds networks of at most 12 comparators.
The time is that of the ISA, one cycle an instruction on the memory plane and four on the chip.

## Main results

* `memPlane_emit`: the memory plane, which sorts if and only if the network does.
* `chip_emit`: chip and firmware.
-/

namespace Saltworks.Stack

open ISA Compiler SortingNetwork Synchronous RTL Firmware
open Kernel (Related)

theorem plain_cmpEx (c : Fin 8 × Fin 8) : ∀ i ∈ cmpEx c, plain i = true := by
  simp [cmpEx, plain, skipImm]

theorem plain_emit (net : List (Fin 8 × Fin 8)) : ∀ i ∈ emit net, plain i = true := fun i hi => by
  obtain ⟨c, -, hc⟩ := List.mem_flatMap.1 hi
  exact plain_cmpEx c i hc

variable {image : List Instr} {p : ℕ} {net : List (Fin 8 × Fin 8)} {core : Core32.State} {s : St}

theorem plainAt_emit (hcode : CodeAt image p (emit net)) : PlainAt image p (5 * net.length) := by
  rw [← length_emit]
  exact plainAt_of_codeAt hcode (plain_emit net)

/-- The words on the lines, in the registers of a core. -/
def coreWords (core : Core32.State) (i : Fin 8) : Word :=
  Core32.readPort core (ofReg (dataReg i))

theorem readPort_ofReg (h : CoreRelated core s) (r : Fin 32) :
    Core32.readPort core (ofReg r) = s.get r := by
  rw [h.regs, toReg_ofReg]

theorem coreWords_eq (h : CoreRelated core s) : coreWords core = words s :=
  funext fun i => readPort_ofReg h (dataReg i)

/-! ### The memory plane -/

section MemPlane

variable {rom : Word → Word}

theorem coreRelated_of_related {m : MemPlane8.State} (h : Related m s) : CoreRelated m.core s :=
  ⟨h.pc, h.regs⟩

/-- The plane computes the network in the time of the ISA. -/
theorem leads_romStep (hcode : CodeAt image p (emit net))
    (hfit : 4 * (p + 5 * net.length) < 2 ^ 32) (hrom : Loaded rom image) {m : MemPlane8.State}
    (hpc : m.core.pcR.toNat = 4 * p) :
    ∃ m', Leads (romStep rom) (InBlock (·.core.pcR) p (5 * net.length))
        (duration net (coreWords m.core)) m m' ∧ m'.core.pcR.toNat = 4 * (p + 5 * net.length) ∧
      coreWords m'.core = runNet BitVec.toInt net (coreWords m.core) ∧
      ∀ r, Spare r → Core32.readPort m'.core (ofReg r) = Core32.readPort m.core (ofReg r) := by
  obtain ⟨s, hs⟩ := exists_related m
  obtain ⟨s', hgoes, hpc', hwords, hspare⟩ := goes_emit hcode (by rw [← hs.pc, hpc]) hfit
  obtain ⟨m', hleads, hs'⟩ := hgoes.leads.simulate (R := fun s m => Related m s)
    (S := InBlock (·.core.pcR) p (5 * net.length))
    (fun _ _ h hin => (related_romStep (plainAt_emit hcode) hrom h hin).1)
    (fun _ _ h ⟨j, hj, hpc⟩ => ⟨j, hj, (congrArg BitVec.toNat h.pc).trans hpc⟩) hs
  have hrel := coreRelated_of_related hs
  have hrel' := coreRelated_of_related hs'
  refine ⟨m', ?_, by rw [hs'.pc, hpc'], ?_, fun r hr => ?_⟩
  · rw [coreWords_eq hrel]
    exact hleads
  · rw [coreWords_eq hrel, coreWords_eq hrel', hwords]
  · rw [readPort_ofReg hrel, readPort_ofReg hrel', hspare r hr]

/-- The plane with the words `v` in the registers of the lines. -/
def planeWithWords (v : Fin 8 → Word) (pc : Word) : MemPlane8.State where
  core := ⟨pc, fun r => if h : 1 ≤ r.toNat ∧ r.toNat < 9 then v ⟨r.toNat - 1, by omega⟩ else 0⟩
  mem := fun _ => 0#32

theorem coreWords_planeWithWords (v : Fin 8 → Word) (pc : Word) :
    coreWords (planeWithWords v pc).core = v := by
  funext i
  have hval : (ofReg (dataReg i)).toNat = i.val + 1 := by
    simp only [ofReg, dataReg, BitVec.toNat_ofNat]
    omega
  have hne : ofReg (dataReg i) ≠ 0#5 := fun h => by simp [h] at hval
  have hi : 1 ≤ i.val + 1 ∧ i.val + 1 < 9 := by omega
  rw [coreWords, Core32.readPort_eq, if_neg hne]
  simp [planeWithWords, hval, hi]

/-- **Sorting on `memplane8`.** From every state that is at the program of a network the plane ends
behind it, one cycle for each instruction that the executive takes. On the way its trap is low; the
data memory and the registers that the program does not use are then as they were. The plane sorts
every eight words if and only if the network sorts bits. -/
theorem memPlane_emit (hcode : CodeAt image p (emit net))
    (hfit : 4 * (p + 5 * net.length) < 2 ^ 32) (hrom : Loaded rom image) :
    (∀ m : MemPlane8.State, m.core.pcR.toNat = 4 * p →
      ∃ m', Leads (romStep rom) (InBlock (·.core.pcR) p (5 * net.length))
          (duration net (coreWords m.core)) m m' ∧ m'.core.pcR.toNat = 4 * (p + 5 * net.length) ∧
        (∀ r, Spare r → Core32.readPort m'.core (ofReg r) = Core32.readPort m.core (ofReg r)) ∧
        m'.mem = m.mem ∧ ∀ t < duration net (coreWords m.core),
          MemPlane8.dmemTrap ((romStep rom)^[t] m)
            (rom (Core32.imemAddr ((romStep rom)^[t] m).core)) = false) ∧
    ((∀ m : MemPlane8.State, m.core.pcR.toNat = 4 * p → SortsTo (List.ofFn (coreWords m.core))
      (List.ofFn (coreWords
        ((romStep rom)^[duration net (coreWords m.core)] m).core))) ↔ Sorts net) := by
  have hwords (m : MemPlane8.State) (hpc : m.core.pcR.toNat = 4 * p) :
      coreWords ((romStep rom)^[duration net (coreWords m.core)] m).core =
        runNet BitVec.toInt net (coreWords m.core) := by
    obtain ⟨m', hleads, -, hwords, -⟩ := leads_romStep hcode hfit hrom hpc
    rw [hleads.arrives, hwords]
  refine ⟨fun m hpc => ?_, fun h => sorts_of_sortsTo fun v => ?_, fun hnet m hpc => ?_⟩
  · obtain ⟨m', hleads, hpc', -, hspare⟩ := leads_romStep hcode hfit hrom hpc
    obtain ⟨hmem, htrap⟩ := quiet_of_plainAt (plainAt_emit hcode) hrom hleads.inside
    rw [hleads.arrives] at hmem
    exact ⟨m', hleads, hpc', hspare, hmem, htrap⟩
  · have hpc : (planeWithWords v (BitVec.ofNat 32 (4 * p))).core.pcR.toNat = 4 * p := by
      simp only [planeWithWords, BitVec.toNat_ofNat]
      omega
    have hsorts := h _ hpc
    rw [hwords _ hpc, coreWords_planeWithWords] at hsorts
    exact hsorts
  · rw [hwords m hpc]
    exact sortsTo_runNet hnet _

/-- A memory that holds `batcherSort`. -/
def sortRom (a : Word) : Word := ((fetch batcherSort a).map encode).getD 0#32

theorem loaded_sortRom : Loaded sortRom batcherSort := fun pc i h => by simp [sortRom, h]

/-- `memplane8` sorts eight words in 87 cycles. -/
theorem memPlane_emit_batcherSort : SortsTo [3, -1, 7, 0, -5, 2, 9, -2]
    (List.ofFn (coreWords
      ((romStep sortRom)^[87] (planeWithWords ![3, -1, 7, 0, -5, 2, 9, -2] 0#32)).core)) := by
  have hsorts := (memPlane_emit (p := 0) (CodeAt.self batcherSort) (by decide)
    loaded_sortRom).2.2 sorts_batcher8 (planeWithWords ![3, -1, 7, 0, -5, 2, 9, -2] 0#32) rfl
  have hduration : duration batcher8 ![3, -1, 7, 0, -5, 2, 9, -2] = 87 := by decide
  rwa [coreWords_planeWithWords, hduration] at hsorts

end MemPlane

/-! ### The chip and its firmware -/

section Chip

variable {cl : ClosedLoop}

/-- As long as the instructions are plain chip and firmware take four cycles for each. -/
theorem Between.iterate {n l k : ℕ} (hblock : PlainAt image p n)
    (hload : Loaded (fun a => rd32 cl.prog (a.setWidth 8)) image) (h : Between cl k s)
    (hin : ∀ t < l, Inside p n ((tick image)^[t] s)) : Between cl (k + l) ((tick image)^[l] s) := by
  induction l with
  | zero => exact h
  | succ l ih =>
    rw [Function.iterate_succ_apply', ← Nat.add_assoc]
    exact (ih fun t ht => hin t (by omega)).tick hblock hload (hin l (by omega))

/-- **Sorting on the chip.** With the program of a network of at most 12 comparators in the
firmware's program image chip and firmware compute the network on the words that are in the
registers at reset. It takes four cycles for each instruction that the executive takes; just these
instructions have retired then, `pc` is behind the program, and the firmware's memory and the
registers that the program does not use are as they were. -/
theorem chip_emit (cl : ClosedLoop) (h12 : net.length ≤ 12)
    (hprog : cl.prog = imageBytes (emit net)) :
    let v := coreWords (cl.plane 0).core
    let k := duration net v
    Refine.Boundary (cl.plane (4 * k)) ∧
      (cl.plane (4 * k)).core.pcR = BitVec.ofNat 32 (20 * net.length) ∧
      coreWords (cl.plane (4 * k)).core = runNet BitVec.toInt net v ∧
      (∀ r, Spare r → Core32.readPort (cl.plane (4 * k)).core (ofReg r) =
        Core32.readPort (cl.plane 0).core (ofReg r)) ∧
      (cl.server (4 * k)).mem = cl.data ∧
      Refine.retiredBefore (cl.plane 0) cl.pinIn (4 * k) = k := by
  intro v k
  obtain ⟨s, hs⟩ := exists_between_zero cl
  have hv : v = words s := coreWords_eq hs.core
  have hpc : s.pc.toNat = 4 * 0 := by
    rw [← hs.core.pc, pcR_zero]
    rfl
  obtain ⟨s', hgoes, hpc', hwords, hspare⟩ :=
    goes_emit (CodeAt.self (emit net)) hpc (by omega)
  rw [← hv] at hgoes hwords
  have hload : Loaded (fun a => rd32 cl.prog (a.setWidth 8)) (emit net) := by
    rw [hprog]
    exact loaded_imageBytes (by rw [length_emit]; omega)
  have hend : Between cl k s' := by
    have hiter := Between.iterate (plainAt_emit (.self _)) hload hs hgoes.leads.inside
    rwa [hgoes.leads.arrives, Nat.zero_add] at hiter
  refine ⟨hend.boundary, ?_, by rw [coreWords_eq hend.core, hwords], fun r hr => ?_, hend.mem,
    hend.retired⟩
  · refine BitVec.eq_of_toNat_eq ?_
    rw [hend.core.pc, hpc', BitVec.toNat_ofNat]
    omega
  · rw [readPort_ofReg hend.core, readPort_ofReg hs.core, hspare r hr]

/-- Batcher's network on four lines. -/
def batcher4 : List (Fin 8 × Fin 8) := [(0, 1), (3, 2), (0, 2), (1, 3), (0, 1), (2, 3)]

/-- The chip at reset, with its firmware, and eight words in the registers. -/
def sortLoop : ClosedLoop :=
  .ofImages (imageBytes (emit batcher4)) (fun _ => 0#8)
    ⟨(planeWithWords ![3, -1, 7, 0, -5, 2, 9, -2] 0#32).core, BusAdapt8.resetState⟩
    ((Plane32Bus.isReset_iff _).2 ⟨rfl, rfl⟩)

/-- Chip and firmware sort the words on the first four lines in 84 cycles. -/
theorem chip_emit_batcher4 :
    coreWords (sortLoop.plane 84).core = ![-1, 0, 3, 7, -5, 2, 9, -2] := by
  have hv : coreWords (sortLoop.plane 0).core = ![3, -1, 7, 0, -5, 2, 9, -2] :=
    coreWords_planeWithWords _ _
  have hprog : sortLoop.prog = imageBytes (emit batcher4) := rfl
  have hwords := (chip_emit sortLoop (by decide) hprog).2.2.1
  have hduration : duration batcher4 ![3, -1, 7, 0, -5, 2, 9, -2] = 21 := by decide
  rw [hv, hduration] at hwords
  rw [hwords]
  decide

end Chip

end Saltworks.Stack
