import Saltworks.Refine.Statement
import Saltworks.Word.Extend

/-!
# Software workarounds for erratum E

On the erratum machine a right shift is logical and a load writes the word of the load before. The
erratum gives instruction sequences around both: an arithmetic shift from a logical one and two
complements, and a load that is issued twice.

## Main definitions

* `regInstr`, `immInstr`: decoded instructions.
* `execAll`: instructions executed one after the other.
* `sraSequence`, `sraiSequence`, `lwSequence`: the workarounds.
* `Scratch`: registers that a workaround may use.

## Main results

* `shiftSequence_eq`: what the shift workarounds leave.
* `workarounds_correct`: the workarounds do what `SRA`, `SRAI` and `LW` do.
-/

namespace Saltworks.Refine

open RTL (Word)

/-! ### Programs -/

/-- An instruction between registers. -/
def regInstr (op : Op) (rd rs1 rs2 : BitVec 5) : Dec := ⟨op, rd, rs1, rs2, 0#32⟩

/-- An instruction with an immediate, whose low bits stand in the place of `rs2`. -/
def immInstr (op : Op) (rd rs1 : BitVec 5) (imm : BitVec 12) : Dec :=
  ⟨op, rd, rs1, imm.extractLsb' 0 5, imm.signExtend 32⟩

example : decode 0x01F0D293#32 = some (immInstr .srli 5#5 1#5 31#12) ∧
    decode 0x405002B3#32 = some (regInstr .sub 5#5 0#5 5#5) := by
  decide

/-- Instructions executed one after the other, each with the word of the host in its load loop; the
result is the last state with the bus loops of all of them. -/
def execAll (e : Bool) : EState → List (Dec × Word) → Option (EState × List Loop)
  | s, [] => some (s, [])
  | s, (d, lword) :: ds => do
    let (s, loops) ← exec e s d lword
    let (s, rest) ← execAll e s ds
    return (s, loops ++ rest)

section ExecAll

variable {e : Bool} {σ σ₁ σ₂ : EState} {d : Dec} {w : Word} {loops : List Loop}

theorem execAll_cons {ds : List (Dec × Word)} {rest : List Loop}
    (h : exec e σ d w = some (σ₁, loops))
    (hds : execAll e σ₁ ds = some (σ₂, rest)) :
    execAll e σ ((d, w) :: ds) = some (σ₂, loops ++ rest) := by
  rw [execAll, h]
  simp only [bind, Option.bind, hds]
  rfl

theorem execAll_cons_eq_some {ds : List (Dec × Word)}
    (h : execAll e σ ((d, w) :: ds) = some (σ₂, loops)) :
    ∃ σ₁ first rest, exec e σ d w = some (σ₁, first) ∧ execAll e σ₁ ds = some (σ₂, rest) ∧
      loops = first ++ rest := by
  rw [execAll] at h
  obtain ⟨⟨σ₁, first⟩, h₁, h⟩ := Option.bind_eq_some_iff.mp h
  obtain ⟨⟨σ₂', rest⟩, h₂, h⟩ := Option.bind_eq_some_iff.mp h
  cases h
  exact ⟨σ₁, first, rest, h₁, h₂, rfl⟩

theorem execAll_append_eq_some {ds ds' : List (Dec × Word)}
    (h : execAll e σ (ds ++ ds') = some (σ₂, loops)) :
    ∃ σ₁ first rest, execAll e σ ds = some (σ₁, first) ∧ execAll e σ₁ ds' = some (σ₂, rest) ∧
      loops = first ++ rest := by
  induction ds generalizing σ loops with
  | nil => exact ⟨σ, [], loops, rfl, h, rfl⟩
  | cons p ds ih =>
    obtain ⟨σ₁, first, rest, h₁, hrest, rfl⟩ := execAll_cons_eq_some h
    obtain ⟨σ', first', rest', hds, hds', rfl⟩ := ih hrest
    exact ⟨σ', first ++ first', rest', execAll_cons h₁ hds, hds', (List.append_assoc ..).symm⟩

end ExecAll

/-- An instruction that makes no load loop. -/
def noLoad (d : Dec) : Dec × Word := (d, 0#32)

/-- The sequence around a logical shift of the register `t`. -/
def shiftSequence (rd x s t : BitVec 5) (shift : Dec) : List Dec :=
  [immInstr .srli s x 31#12, regInstr .sub s 0#5 s, regInstr .xor t x s, shift,
    regInstr .xor rd t s]

/-- The workaround for `SRA rd, x, n`, with the scratch registers `s` and `t`. -/
def sraSequence (rd x n s t : BitVec 5) : List Dec :=
  shiftSequence rd x s t (regInstr .srl t t n)

/-- The workaround for `SRAI rd, x, k`. -/
def sraiSequence (rd x : BitVec 5) (k : BitVec 5) (s t : BitVec 5) : List Dec :=
  shiftSequence rd x s t (immInstr .srli t t (k.setWidth 12))

/-- The workaround for `LW rd, off(rs1)`: the load twice, with instructions in between and the words
of the host. -/
def lwSequence (rd rs1 : BitVec 5) (off : BitVec 12) (between : List (Dec × Word)) (w w' : Word) :
    List (Dec × Word) :=
  (immInstr .lw rd rs1 off, w) :: (between ++ [(immInstr .lw rd rs1 off, w')])

/-- Two registers that a workaround may use beside those that it reads. -/
structure Scratch (reads : List (BitVec 5)) (s t : BitVec 5) : Prop where
  s_ne_zero : s ≠ 0#5
  t_ne_zero : t ≠ 0#5
  ne : s ≠ t
  s_notMem : s ∉ reads
  t_notMem : t ∉ reads

/-- The register that an instruction writes. -/
def Dec.writes (d : Dec) : Option (BitVec 5) :=
  match d.op with
  | .beq | .bne | .blt | .bge | .bltu | .bgeu | .sw => none
  | _ => some d.rd

namespace Arch

/-- The state behind an instruction that writes a register and goes on. -/
def write (a : Arch) (r : BitVec 5) (v : Word) : Arch := { a.set r v with pc := a.pc + 4#32 }

variable (a : Arch) {r r' : BitVec 5} (v : Word)

@[simp] theorem get_write_self (hr : r ≠ 0#5) : (a.write r v).get r = v :=
  get_set_self a v hr

@[simp] theorem get_write_of_ne (h : r' ≠ r) : (a.write r v).get r' = a.get r' := by
  by_cases hr : r = 0#5
  · simp [write, set, get, hr]
  · simp [write, set, get, hr, h]

@[simp] theorem pc_write (r : BitVec 5) : (a.write r v).pc = a.pc + 4#32 := rfl

@[simp] theorem get_zero : a.get 0#5 = 0#32 := if_pos rfl

end Arch

/-! ### Shifts -/

/-- What a shift workaround leaves: the shifted value in `rd`, the scratch registers changed and
`pc` behind the sequence. -/
structure ShiftDone (a a' : Arch) (rd s t : BitVec 5) (v : Word) : Prop where
  value : rd ≠ 0#5 → a'.get rd = v
  frame : ∀ r, r ≠ rd → r ≠ s → r ≠ t → a'.get r = a.get r
  pc : a'.pc = a.pc + 20#32

/-- The five instructions shift right arithmetically by the amount by which the fourth shifts the
register `t` logically. -/
theorem shiftSequence_eq (σ : EState) (rd : BitVec 5) {x s t : BitVec 5} {shift : Dec} {k : ℕ}
    (h : Scratch [x] s t)
    (hshift : ∀ σ' : EState, (∀ r, r ≠ s → r ≠ t → σ'.arch.get r = σ.arch.get r) →
      exec true σ' shift 0#32 =
        some (⟨σ'.arch.write t (σ'.arch.get t >>> k), σ'.lastLoad⟩, [⟨.fetch, σ'.arch.pc⟩])) :
    ∃ a' loops, execAll true σ ((shiftSequence rd x s t shift).map noLoad) =
        some (⟨a', σ.lastLoad⟩, loops) ∧
      ShiftDone σ.arch a' rd s t ((σ.arch.get x).sshiftRight k) := by
  obtain ⟨a, l⟩ := σ
  obtain ⟨hs, ht, hst, hsx, htx⟩ := h
  rw [List.mem_singleton] at hsx htx
  have hxs : x ≠ s := fun h => hsx h.symm
  let a₁ := a.write s (a.get x >>> 31)
  let a₂ := a₁.write s (0#32 - a₁.get s)
  let a₃ := a₂.write t (a₂.get x ^^^ a₂.get s)
  let a₄ := a₃.write t (a₃.get t >>> k)
  let a₅ := a₄.write rd (a₄.get t ^^^ a₄.get s)
  have h₁ : exec true ⟨a, l⟩ (immInstr .srli s x 31#12) 0#32 =
      some (⟨a₁, l⟩, [⟨.fetch, a.pc⟩]) := rfl
  have h₂ : exec true ⟨a₁, l⟩ (regInstr .sub s 0#5 s) 0#32 =
      some (⟨a₂, l⟩, [⟨.fetch, a₁.pc⟩]) := rfl
  have h₃ : exec true ⟨a₂, l⟩ (regInstr .xor t x s) 0#32 = some (⟨a₃, l⟩, [⟨.fetch, a₂.pc⟩]) := rfl
  have h₄ : exec true ⟨a₃, l⟩ shift 0#32 = some (⟨a₄, l⟩, [⟨.fetch, a₃.pc⟩]) :=
    hshift ⟨a₃, l⟩ fun r hrs hrt => by simp [a₃, a₂, a₁, hrs, hrt]
  have h₅ : exec true ⟨a₄, l⟩ (regInstr .xor rd t s) 0#32 = some (⟨a₅, l⟩, [⟨.fetch, a₄.pc⟩]) := rfl
  have hgets : a₄.get s = 0#32 - a.get x >>> 31 := by simp [a₄, a₃, a₂, a₁, hst, hs]
  have hgett : a₄.get t = (a.get x ^^^ (0#32 - a.get x >>> 31)) >>> k := by
    simp [a₄, a₃, a₂, a₁, ht, hs, hxs]
  refine ⟨a₅, _, execAll_cons h₁ (execAll_cons h₂ (execAll_cons h₃ (execAll_cons h₄
    (execAll_cons h₅ rfl)))), ?_, ?_, ?_⟩
  · intro hrd
    rw [Arch.get_write_self a₄ _ hrd, hgets, hgett]
    exact BitVec.xor_ushiftRight_xor_eq_sshiftRight (a.get x) k
  · intro r hrd hrs hrt
    simp [a₅, a₄, a₃, a₂, a₁, hrd, hrs, hrt]
  · simp only [a₅, a₄, a₃, a₂, a₁, Arch.pc_write, BitVec.add_assoc]
    rfl

/-! ### Loads -/

section Exec

variable {e : Bool} {σ σ' : EState} {d : Dec} {w : Word} {loops : List Loop}

/-- What one instruction does to the state: a load keeps the word of the host, and at most the
register that the instruction writes changes. -/
theorem exec_cases (h : exec e σ d w = some (σ', loops)) :
    σ'.lastLoad = (if d.op = .lw then w else σ.lastLoad) ∧
      ∃ pc, σ'.arch = { σ.arch with pc } ∨
        d.writes = some d.rd ∧ ∃ v, σ'.arch = { σ.arch.set d.rd v with pc } := by
  obtain ⟨op, rd, rs1, rs2, imm⟩ := d
  cases op
  case beq | bne | blt | bge | bltu | bgeu =>
    simp only [exec] at h
    split_ifs at h
    · obtain ⟨t, -, h⟩ := Option.map_eq_some_iff.1 h
      cases h
      exact ⟨rfl, t, Or.inl rfl⟩
    · cases h
      exact ⟨rfl, _, Or.inl rfl⟩
  case jal | jalr =>
    obtain ⟨t, -, h⟩ := Option.map_eq_some_iff.1 h
    cases h
    exact ⟨rfl, t, Or.inr ⟨rfl, _, rfl⟩⟩
  case lw =>
    obtain ⟨-, h⟩ := Option.ite_none_left_eq_some.1 h
    cases h
    exact ⟨rfl, _, Or.inr ⟨rfl, _, rfl⟩⟩
  case sw =>
    obtain ⟨-, h⟩ := Option.ite_none_left_eq_some.1 h
    cases h
    exact ⟨rfl, _, Or.inl rfl⟩
  all_goals
    cases h
    exact ⟨rfl, _, Or.inr ⟨rfl, _, rfl⟩⟩

/-- Instructions other than loads keep the word of the latest load. -/
theorem exec_lastLoad (h : exec e σ d w = some (σ', loops)) (hop : d.op ≠ .lw) :
    σ'.lastLoad = σ.lastLoad :=
  (exec_cases h).1.trans (if_neg hop)

/-- An instruction changes the register that it writes and no other. -/
theorem exec_get (h : exec e σ d w = some (σ', loops)) {r : BitVec 5} (hr : d.writes ≠ some r) :
    σ'.arch.get r = σ.arch.get r := by
  obtain ⟨-, pc, harch | ⟨hrd, v, harch⟩⟩ := exec_cases h
  · rw [harch]
    rfl
  · rw [harch]
    exact Arch.get_write_of_ne σ.arch v fun heq => hr (hrd.trans (congrArg some heq.symm))

/-- A load on the erratum machine. -/
theorem exec_lw {rd rs1 : BitVec 5} {off : BitVec 12}
    (h : exec true σ (immInstr .lw rd rs1 off) w = some (σ', loops)) :
    σ' = ⟨σ.arch.write rd σ.lastLoad, w⟩ ∧
      loops = [⟨.fetch, σ.arch.pc⟩, ⟨.load, σ.arch.get rs1 + off.signExtend 32⟩] := by
  obtain ⟨-, h⟩ := Option.ite_none_left_eq_some.1 h
  cases h
  exact ⟨rfl, rfl⟩

/-- Instructions between two loads that write neither `rd` nor `rs1` keep the word of the first load
and the address of the second. -/
theorem execAll_between {ds : List (Dec × Word)} {r : BitVec 5}
    (h : execAll e σ ds = some (σ', loops)) (hop : ∀ p ∈ ds, p.1.op ≠ .lw)
    (hr : ∀ p ∈ ds, p.1.writes ≠ some r) :
    σ'.lastLoad = σ.lastLoad ∧ σ'.arch.get r = σ.arch.get r := by
  induction ds generalizing σ loops with
  | nil =>
    cases h
    exact ⟨rfl, rfl⟩
  | cons p ds ih =>
    obtain ⟨σ₁, first, rest, h₁, h, -⟩ := execAll_cons_eq_some h
    obtain ⟨hop₁, hop⟩ := List.forall_mem_cons.mp hop
    obtain ⟨hr₁, hr⟩ := List.forall_mem_cons.mp hr
    obtain ⟨hload, hget⟩ := ih h hop hr
    exact ⟨hload.trans (exec_lastLoad h₁ hop₁), hget.trans (exec_get h₁ hr₁)⟩

end Exec

/-- A load that is issued twice leaves the word of the host in its first load loop, and both load
loops have the same address. -/
theorem lwSequence_eq {σ σ' : EState} {rd rs1 : BitVec 5} {off : BitVec 12}
    {between : List (Dec × Word)} {w w' : Word} {loops : List Loop} (hrd : rd ≠ 0#5)
    (hne : rd ≠ rs1) (hop : ∀ p ∈ between, p.1.op ≠ .lw)
    (hrs1 : ∀ p ∈ between, p.1.writes ≠ some rs1)
    (h : execAll true σ (lwSequence rd rs1 off between w w') = some (σ', loops)) :
    σ'.arch.get rd = w ∧ ∃ pc middle pc', loops =
      [⟨.fetch, pc⟩, ⟨.load, σ.arch.get rs1 + off.signExtend 32⟩] ++ middle ++
        [⟨.fetch, pc'⟩, ⟨.load, σ.arch.get rs1 + off.signExtend 32⟩] := by
  obtain ⟨σ₁, first, rest, h₁, hrest, rfl⟩ := execAll_cons_eq_some h
  obtain ⟨σ₂, middle, last, h₂, hlast, rfl⟩ := execAll_append_eq_some hrest
  obtain ⟨σ₃, last, rest, h₃, hnil, rfl⟩ := execAll_cons_eq_some hlast
  cases hnil
  obtain ⟨rfl, rfl⟩ := exec_lw h₁
  obtain ⟨rfl, rfl⟩ := exec_lw h₃
  obtain ⟨hload, hget⟩ := execAll_between h₂ hop hrs1
  rw [Arch.get_write_of_ne _ _ hne.symm] at hget
  refine ⟨(Arch.get_write_self _ _ hrd).trans hload, σ.arch.pc, middle, σ₂.arch.pc, ?_⟩
  rw [hget, List.append_nil, List.append_assoc]

/-! ### The workarounds -/

theorem shamt_shift (k : BitVec 5) : shamt ((k.setWidth 12).signExtend 32) = k.toNat := by
  revert k
  decide

/-- **The workarounds on the erratum machine.** From every state the sequences for `SRA` and `SRAI`
leave the arithmetic shift in `rd`, change no register but `rd`, `s` and `t` and go on 20 bytes
behind; a load that is issued twice, with other instructions than loads in between that write
neither `rd` nor `rs1`, leaves the word of the host in its first load loop. -/
theorem workarounds_correct (σ : EState) (rd : BitVec 5) :
    (∀ x n s t, Scratch [x, n] s t → ∃ a' loops,
      execAll true σ ((sraSequence rd x n s t).map noLoad) = some (⟨a', σ.lastLoad⟩, loops) ∧
      ShiftDone σ.arch a' rd s t ((σ.arch.get x).sshiftRight (shamt (σ.arch.get n)))) ∧
    (∀ x k s t, Scratch [x] s t → ∃ a' loops,
      execAll true σ ((sraiSequence rd x k s t).map noLoad) = some (⟨a', σ.lastLoad⟩, loops) ∧
      ShiftDone σ.arch a' rd s t ((σ.arch.get x).sshiftRight k.toNat)) ∧
    ∀ rs1 off between w w' σ' loops, rd ≠ 0#5 → rd ≠ rs1 → (∀ p ∈ between, p.1.op ≠ .lw) →
      (∀ p ∈ between, p.1.writes ≠ some rd ∧ p.1.writes ≠ some rs1) →
      execAll true σ (lwSequence rd rs1 off between w w') = some (σ', loops) →
      σ'.arch.get rd = w ∧ ∃ pc middle pc', loops =
        [⟨.fetch, pc⟩, ⟨.load, σ.arch.get rs1 + off.signExtend 32⟩] ++ middle ++
          [⟨.fetch, pc'⟩, ⟨.load, σ.arch.get rs1 + off.signExtend 32⟩] := by
  refine ⟨fun x n s t h => ?_, fun x k s t h => ?_, ?_⟩
  · obtain ⟨hs, ht, hst, hsr, htr⟩ := h
    simp only [List.mem_cons, List.not_mem_nil, or_false, not_or] at hsr htr
    obtain ⟨hsx, hsn⟩ := hsr
    obtain ⟨htx, htn⟩ := htr
    refine shiftSequence_eq σ rd ⟨hs, ht, hst, ?_, ?_⟩ fun σ' hreads => ?_
    · exact mt List.mem_singleton.mp hsx
    · exact mt List.mem_singleton.mp htx
    · rw [← hreads n (Ne.symm hsn) (Ne.symm htn)]
      rfl
  · refine shiftSequence_eq σ rd h fun σ' _ => ?_
    rw [← shamt_shift k]
    rfl
  · intro rs1 off between w w' σ' loops hrd hne hop hwrites h
    exact lwSequence_eq hrd hne hop (fun p hp => (hwrites p hp).2) h

/-- A state with -16 in `x1` and 2 in the other registers. -/
def minusSixteen : EState := ⟨⟨0#32, fun r => if r = 1#5 then 0xFFFFFFF0#32 else 2#32⟩, 7#32⟩

theorem workarounds_correct_minusSixteen :
    (∃ a' loops, execAll true minusSixteen ((sraSequence 3#5 1#5 2#5 5#5 6#5).map noLoad) =
      some (⟨a', 7#32⟩, loops) ∧ a'.get 3#5 = 0xFFFFFFFC#32) ∧
    (∃ a' loops, execAll true minusSixteen ((sraiSequence 1#5 1#5 3#5 5#5 6#5).map noLoad) =
      some (⟨a', 7#32⟩, loops) ∧ a'.get 1#5 = 0xFFFFFFFE#32) ∧
    ∃ σ' loops, execAll true minusSixteen (lwSequence 4#5 2#5 2#12
      [noLoad (regInstr .add 6#5 1#5 2#5)] 40#32 41#32) = some (σ', loops) ∧
      σ'.arch.get 4#5 = 40#32 := by
  obtain ⟨hsra, -, -⟩ := workarounds_correct minusSixteen 3#5
  obtain ⟨-, hsrai, -⟩ := workarounds_correct minusSixteen 1#5
  obtain ⟨-, -, hlw⟩ := workarounds_correct minusSixteen 4#5
  obtain ⟨a, loops, hrun, hdone⟩ :=
    hsra 1#5 2#5 5#5 6#5 ⟨by decide, by decide, by decide, by decide, by decide⟩
  obtain ⟨a', loops', hrun', hdone'⟩ :=
    hsrai 1#5 3#5 5#5 6#5 ⟨by decide, by decide, by decide, by decide, by decide⟩
  obtain ⟨⟨σ', loops''⟩, hrun''⟩ := Option.isSome_iff_exists.mp
    (show (execAll true minusSixteen (lwSequence 4#5 2#5 2#12
      [noLoad (regInstr .add 6#5 1#5 2#5)] 40#32 41#32)).isSome by rfl)
  exact ⟨⟨a, loops, hrun, hdone.value (by decide)⟩, ⟨a', loops', hrun', hdone'.value (by decide)⟩,
    σ', loops'', hrun'', (hlw _ _ _ _ _ _ _ (by decide) (by decide) (by decide) (by decide)
      hrun'').1⟩

end Saltworks.Refine
