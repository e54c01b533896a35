import Saltworks.Refine.CoreStep

/-!
# The single-cycle core against RV32I

With `en` high, one edge of `core32` is one instruction of RV32I, except that shift-right
arithmetic is logical: the two differ when a negative value is shifted by a nonzero amount into a
register other than `x0`, and then only in that register.

## Main definitions

* `sraAmount`, `LosesSign`: the instructions on which the two differ.

## Main results

* `core_conforms_iff`: when an edge of the core is an instruction of RV32I.
-/

namespace Saltworks.Refine

open RTL

/-- The amount by which a shift-right-arithmetic instruction shifts. -/
def sraAmount (a : Arch) (d : Dec) : Option ℕ :=
  match d.op with
  | .sra => some (shamt (a.get d.rs2))
  | .srai => some (shamt d.imm)
  | _ => none

/-- The instruction shifts a negative value right arithmetically, by a nonzero amount, into a
register other than `x0`. -/
def LosesSign (a : Arch) (d : Dec) : Prop :=
  d.rd ≠ 0#5 ∧ (a.get d.rs1).msb = true ∧ ∃ n, sraAmount a d = some n ∧ n ≠ 0

instance (a : Arch) (d : Dec) : Decidable (LosesSign a d) :=
  decidable_of_iff
    (d.rd ≠ 0#5 ∧ (a.get d.rs1).msb = true ∧ (sraAmount a d).any (· ≠ 0) = true) <| by
    simp [LosesSign, Option.any_eq_true]

theorem shamt_lt (v : Word) : shamt v < 32 := (v.extractLsb' 0 5).isLt

/-- Two writes to one register agree if and only if they write the same value or the register is
`x0`. -/
theorem Arch.agree_set_iff (a : Arch) (pc : Word) (r : BitVec 5) (x y : Word) :
    Arch.Agree { a.set r x with pc := pc } { a.set r y with pc := pc } ↔ r = 0#5 ∨ x = y := by
  by_cases hr : r = 0#5
  · simp [Agree, set, hr]
  · refine ⟨fun h => .inr ?_, ?_⟩
    · simpa [get, set, hr] using h.2 r
    · rintro (h | rfl)
      · exact absurd h hr
      · exact ⟨rfl, fun _ => rfl⟩

/-- Apart from the two shifts, RV32I differs from erratum E only in where a load takes its word
from. -/
theorem exec_false_eq (a : Arch) (l lword : Word) {d : Dec} (hs : d.op ≠ .sra)
    (hi : d.op ≠ .srai) :
    (exec false ⟨a, l⟩ d lword).map (fun r => (r.1.arch, r.2)) =
      (exec true ⟨a, lword⟩ d lword).map fun r => (r.1.arch, r.2) := by
  obtain ⟨op, rd, rs1, rs2, imm⟩ := d
  cases op
  case sra => exact absurd rfl hs
  case srai => exact absurd rfl hi
  case jal | jalr => simp only [exec, Option.map_map, Function.comp_def]
  case beq | bne | blt | bge | bltu | bgeu =>
    simp only [exec, apply_ite (Option.map _), Option.map_map, Function.comp_def, Option.map_some]
  case lw | sw => simp [exec, apply_ite (Option.map _)]
  all_goals rfl

theorem exec_sra (e : Bool) (l lword : Word) {a : Arch} {d : Dec} {n : ℕ}
    (h : sraAmount a d = some n) :
    exec e ⟨a, l⟩ d lword =
      some (⟨{ a.set d.rd (shiftRightA e (a.get d.rs1) n) with pc := a.pc + 4#32 }, l⟩,
        [⟨.fetch, a.pc⟩]) := by
  obtain ⟨op, rd, rs1, rs2, imm⟩ := d
  cases op <;> simp only [sraAmount, reduceCtorEq, Option.some.injEq] at h <;> subst h <;> rfl

theorem sraAmount_lt {a : Arch} {d : Dec} {n : ℕ} (h : sraAmount a d = some n) : n < 32 := by
  obtain ⟨op, rd, rs1, rs2, imm⟩ := d
  cases op <;> simp only [sraAmount, reduceCtorEq, Option.some.injEq] at h <;> subst h <;>
    exact shamt_lt _

theorem sraAmount_eq_none_iff {a : Arch} {d : Dec} :
    sraAmount a d = none ↔ d.op ≠ .sra ∧ d.op ≠ .srai := by
  obtain ⟨op, rd, rs1, rs2, imm⟩ := d
  cases op <;> simp [sraAmount]

/-- **Conformance of the single-cycle core.** For every word that decodes, every state and every
value on `dmem_rdata` for which the instruction is in scope, one edge gives the `pc` and registers
of RV32I and the data port asks for exactly its load or store, unless the instruction shifts a
negative value right arithmetically by a nonzero amount into a register other than `x0`; and then
it does not. -/
theorem core_conforms_iff {s : Core32.State} {w l rdata : Word} {d : Dec} (hd : decode w = some d)
    {r : EState × List Loop} (hr : exec false ⟨archOf s, l⟩ d rdata = some r) :
    ((archOf (Core32.posedge true true w rdata s)).Agree r.1.arch ∧
        r.2 = ⟨.fetch, s.pcR⟩ :: dataLoops (Core32.dmemReq w) (Core32.dmemWe w)
          (Core32.dmemAddr s w) (Core32.dmemWdata s w)) ↔
      ¬LosesSign (archOf s) d := by
  cases hn : sraAmount (archOf s) d with
  | none =>
    obtain ⟨hs, hi⟩ := sraAmount_eq_none_iff.1 hn
    have heq := exec_false_eq (archOf s) l rdata hs hi
    rw [hr, Option.map_some] at heq
    obtain ⟨r', hr', hrr⟩ := Option.map_eq_some_iff.1 heq.symm
    obtain ⟨ha, hl⟩ := Prod.mk.inj hrr
    rw [exec_true_core hd hr'] at ha hl
    rw [← ha, ← hl]
    simp [LosesSign, hn, coreStep, coreLoops, Arch.Agree]
  | some n =>
    have hcore := exec_true_core hd (exec_sra true rdata rdata hn)
    obtain ⟨harch, hloops⟩ := Prod.mk.inj hcore
    rw [exec_sra false l rdata hn] at hr
    obtain rfl := Option.some.inj hr
    have ha := (EState.mk.inj harch).1
    have hshift : (archOf s).get d.rs1 >>> n = ((archOf s).get d.rs1).sshiftRight n ↔
        ((archOf s).get d.rs1).msb = false ∨ n = 0 := by
      rw [eq_comm]
      exact BitVec.sshiftRight_eq_ushiftRight_iff (sraAmount_lt hn)
    refine (and_iff_left hloops).trans ?_
    rw [← ha, Arch.agree_set_iff, shiftRightA, shiftRightA, if_pos rfl, if_neg (by decide), hshift]
    simp only [LosesSign, hn, Option.some.injEq, exists_eq_left']
    by_cases hrd : d.rd = 0#5 <;> by_cases hn0 : n = 0 <;> simp [hrd, hn0]

/-- `sra x3, x1, x2`. -/
def sraWord : Word := 0x4020d1b3#32

/-- A state in which `x1` holds `-16` and `x2` holds `2`. -/
def sraState : Core32.State := ⟨0#32, fun r => if r = 1#5 then -16#32 else 2#32⟩

/-- The core shifts `-16` right by two logically. -/
theorem not_core_conforms :
    ¬ ∀ (s : Core32.State) (w l rdata : Word) (d : Dec) (r : EState × List Loop),
      decode w = some d → exec false ⟨archOf s, l⟩ d rdata = some r →
      (archOf (Core32.posedge true true w rdata s)).Agree r.1.arch := by
  intro hall
  have hbad := (hall sraState sraWord 0#32 0#32 _ _ rfl rfl).2 3#5
  revert hbad
  decide

/-- What RV32I makes of `sra x3, x1, x2` in that state. -/
def sraResult : EState × List Loop :=
  (⟨{ (archOf sraState).set 3#5 ((-16#32).sshiftRight 2) with pc := 0#32 + 4#32 }, 0#32⟩,
    [⟨.fetch, 0#32⟩])

/-- The equivalence for `sra x3, x1, x2` in that state. -/
theorem core_conforms_iff_sraWord :
    ((archOf (Core32.posedge true true sraWord 0#32 sraState)).Agree sraResult.1.arch ∧
        sraResult.2 = ⟨.fetch, sraState.pcR⟩ :: dataLoops (Core32.dmemReq sraWord)
          (Core32.dmemWe sraWord) (Core32.dmemAddr sraState sraWord)
          (Core32.dmemWdata sraState sraWord)) ↔
      ¬LosesSign (archOf sraState) ⟨.sra, 3#5, 1#5, 2#5, 0#32⟩ :=
  core_conforms_iff (by decide)
    (exec_sra false 0#32 0#32
      (show sraAmount (archOf sraState) ⟨.sra, 3#5, 1#5, 2#5, 0#32⟩ = some 2 from rfl))

end Saltworks.Refine
