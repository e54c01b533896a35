import Saltworks.Compiler.TinyRust
import Saltworks.HDL.Encoding

/-!
# The code generator

`HDL/CompileE.lean` and `HDL/CompileS.lean` compile expressions and statements to the kernel ISA.
A cell lives in the register that the register map gives its level; an expression is evaluated into
a register `d` above all of these, its right operand into `d + 1`, and then moved. A loop is its
condition, a branch to the end if that is zero, its body, and a branch back. Conditionals are
refused.

Compilation fails where a temporary has no register, a level no place in the pool, a constant no
immediate or a loop is too long for its branches. The lemmas below take a successful compilation
apart.

## Main definitions

* `RegMap`, `regCanonical`, `RegOk`: the register map.
* `regAt`, `fitImm`, `varReg`, `lvlReg`, `whileFits`: the partial steps.
* `binOp`, `compileE`: expressions.
* `whileExit`, `whileBack`, `compileS`: statements.
-/

namespace Saltworks.Compiler

open ISA TinyRust

/-! ### Registers -/

/-- The number of cells that have a register. -/
def poolSize : ℕ := 15

/-- The register of each cell. -/
abbrev RegMap := Fin poolSize → Fin 32

/-- Cell `i` in register `i + 1`. -/
def regCanonical : RegMap := fun i => ⟨i.val + 1, Nat.lt_of_lt_of_le (Nat.succ_lt_succ i.isLt)
  (by decide)⟩

/-- The registers of the cells lie below `d`. -/
def PoolBelow (reg : RegMap) (d : ℕ) : Prop := ∀ i, (reg i).val < d

/-- What the code needs of its register map. -/
structure RegOk (reg : RegMap) (d : ℕ) : Prop where
  inj : Function.Injective reg
  nz : ∀ i, reg i ≠ 0
  below : PoolBelow reg d

theorem regOk_regCanonical : RegOk regCanonical 16 where
  inj i j h := by
    have hval : i.val + 1 = j.val + 1 := congrArg Fin.val h
    exact Fin.ext (by omega)
  nz i h := by simpa [regCanonical] using congrArg Fin.val h
  below i := Nat.succ_lt_succ i.isLt

/-- The registers from `d` on do not include `x0`. -/
theorem PoolBelow.ne_zero {reg : RegMap} {d : ℕ} (h : PoolBelow reg d) {r : Fin 32}
    (hr : d ≤ r.val) : r ≠ 0 := by
  rintro rfl
  exact absurd (h ⟨0, by decide⟩) (by simp at hr; omega)

/-! ### The partial steps -/

/-- A temporary's register. -/
def regAt (n : ℕ) : Option (Fin 32) := if h : n < 32 then some ⟨n, h⟩ else none

/-- The immediate of a constant, if it has twelve bits. -/
def fitImm (n : BitVec 32) : Option (BitVec 12) :=
  if (n.extractLsb' 0 12).signExtend 32 = n then some (n.extractLsb' 0 12) else none

/-- The register of a variable. -/
def varReg (Γ : Ctx) (reg : RegMap) (x : ℕ) : Option (Fin 32) :=
  if h : slotOf Γ x < poolSize then some (reg ⟨slotOf Γ x, h⟩) else none

/-- The register of a level. -/
def lvlReg (reg : RegMap) (l : ℕ) : Option (Fin 32) :=
  if h : l < poolSize then some (reg ⟨l, h⟩) else none

section PartialSteps

variable {Γ : Ctx} {reg : RegMap} {n x l : ℕ} {r : Fin 32}

@[simp] theorem regAt_eq_some : regAt n = some r ↔ r.val = n := by
  rw [regAt]
  split_ifs with h
  · rw [Option.some.injEq, Fin.ext_iff, eq_comm]
  · simp only [false_iff]
    rintro rfl
    exact h r.isLt

@[simp] theorem lvlReg_eq_some : lvlReg reg l = some r ↔ ∃ h : l < poolSize, reg ⟨l, h⟩ = r := by
  rw [lvlReg]
  split_ifs with h <;> simp [h]

theorem varReg_eq_lvlReg : varReg Γ reg x = lvlReg reg (slotOf Γ x) := rfl

theorem fitImm_eq_some {v : BitVec 32} {imm : BitVec 12} (h : fitImm v = some imm) :
    imm.signExtend 32 = v := by
  rw [fitImm] at h
  split_ifs at h with hv
  obtain rfl := Option.some.inj h
  exact hv

end PartialSteps

/-! ### Expressions -/

/-- A binary operation after the code of its operands. -/
def binOp (mk : Fin 32 → Fin 32 → Fin 32 → Instr) (ca cb : List Instr) (d : ℕ) :
    Option (List Instr) :=
  match regAt d, regAt (d + 1) with
  | some rd, some rs => some (ca ++ cb ++ [mk rd rd rs])
  | _, _ => none

/-- Code that leaves the value of an expression in register `d`. -/
def compileE (Γ : Ctx) (reg : RegMap) : Exp → ℕ → Option (List Instr)
  | .var x, d =>
    match regAt d, varReg Γ reg x with
    | some rd, some rs => some [.ADDI rd rs 0]
    | _, _ => none
  | .const n, d =>
    match regAt d, fitImm n with
    | some rd, some imm => some [.ADDI rd x0 imm]
    | _, _ => none
  | .tt, d =>
    match regAt d with
    | some rd => some [.ADDI rd x0 1]
    | none => none
  | .ff, d =>
    match regAt d with
    | some rd => some [.ADDI rd x0 0]
    | none => none
  | .add a b, d =>
    match compileE Γ reg a d, compileE Γ reg b (d + 1) with
    | some ca, some cb => binOp .ADD ca cb d
    | _, _ => none
  | .xor a b, d =>
    match compileE Γ reg a d, compileE Γ reg b (d + 1) with
    | some ca, some cb => binOp .XOR ca cb d
    | _, _ => none
  | .slt a b, d =>
    match compileE Γ reg a d, compileE Γ reg b (d + 1) with
    | some ca, some cb => binOp .SLT ca cb d
    | _, _ => none

section Expressions

variable {Γ : Ctx} {reg : RegMap} {d x : ℕ} {a b : Exp} {c : List Instr}

attribute [local simp] compileE

theorem binOp_eq_some {mk : Fin 32 → Fin 32 → Fin 32 → Instr} {ca cb : List Instr} :
    binOp mk ca cb d = some c ↔ ∃ rd rs : Fin 32, rd.val = d ∧ rs.val = d + 1 ∧
      ca ++ cb ++ [mk rd rd rs] = c := by
  simp only [binOp, ← regAt_eq_some]
  cases regAt d <;> cases regAt (d + 1) <;> simp

theorem compileE_var : compileE Γ reg (.var x) d = some c ↔ ∃ rd rs : Fin 32, rd.val = d ∧
    varReg Γ reg x = some rs ∧ [Instr.ADDI rd rs 0] = c := by
  simp only [compileE, ← regAt_eq_some]
  cases regAt d <;> cases varReg Γ reg x <;> simp

theorem compileE_const {n : BitVec 32} : compileE Γ reg (.const n) d = some c ↔
    ∃ (rd : Fin 32) (imm : BitVec 12), rd.val = d ∧ fitImm n = some imm ∧
      [Instr.ADDI rd x0 imm] = c := by
  simp only [compileE, ← regAt_eq_some]
  cases regAt d <;> cases fitImm n <;> simp

theorem compileE_tt : compileE Γ reg .tt d = some c ↔ ∃ rd : Fin 32, rd.val = d ∧
    [Instr.ADDI rd x0 1] = c := by
  simp only [compileE, ← regAt_eq_some]
  cases regAt d <;> simp

theorem compileE_ff : compileE Γ reg .ff d = some c ↔ ∃ rd : Fin 32, rd.val = d ∧
    [Instr.ADDI rd x0 0] = c := by
  simp only [compileE, ← regAt_eq_some]
  cases regAt d <;> simp

theorem compileE_add : compileE Γ reg (.add a b) d = some c ↔
    ∃ ca cb, compileE Γ reg a d = some ca ∧ compileE Γ reg b (d + 1) = some cb ∧
      binOp .ADD ca cb d = some c := by
  rw [compileE]
  cases compileE Γ reg a d <;> cases compileE Γ reg b (d + 1) <;> simp

theorem compileE_xor : compileE Γ reg (.xor a b) d = some c ↔
    ∃ ca cb, compileE Γ reg a d = some ca ∧ compileE Γ reg b (d + 1) = some cb ∧
      binOp .XOR ca cb d = some c := by
  rw [compileE]
  cases compileE Γ reg a d <;> cases compileE Γ reg b (d + 1) <;> simp

theorem compileE_slt : compileE Γ reg (.slt a b) d = some c ↔
    ∃ ca cb, compileE Γ reg a d = some ca ∧ compileE Γ reg b (d + 1) = some cb ∧
      binOp .SLT ca cb d = some c := by
  rw [compileE]
  cases compileE Γ reg a d <;> cases compileE Γ reg b (d + 1) <;> simp

end Expressions

/-! ### Statements -/

/-- The displacement from the branch behind a condition to the end of the loop. -/
def whileExit (nb : ℕ) : BitVec 12 := BitVec.ofNat 12 (2 * (nb + 2))

/-- The displacement from the end of the body to the start of the loop. -/
def whileBack (nc nb : ℕ) : BitVec 12 := BitVec.ofInt 12 (-(2 * (nc + nb + 1) : ℤ))

/-- Both displacements are representable. -/
def whileFits (nc nb : ℕ) : Bool := 2 * (nb + 2) ≤ 2047 && 2 * (nc + nb + 1) ≤ 2048

/-- Code for a statement, with temporaries from register `d` on. -/
def compileS (reg : RegMap) (d : ℕ) : Ctx → Stmt → Option (List Instr)
  | _, .skip => some []
  | Γ, .assign x e =>
    match compileE Γ reg e d, regAt d, varReg Γ reg x with
    | some ce, some rd, some rx => some (ce ++ [.ADDI rx rd 0])
    | _, _, _ => none
  | Γ, .seq s t =>
    match compileS reg d Γ s, compileS reg d Γ t with
    | some cs, some ct => some (cs ++ ct)
    | _, _ => none
  | Γ, .letmut x ty e body =>
    match compileE Γ reg e d, regAt d, lvlReg reg Γ.length, compileS reg d ((x, ty) :: Γ) body with
    | some ce, some rd, some rl, some cb => some (ce ++ [.ADDI rl rd 0] ++ cb)
    | _, _, _, _ => none
  | _, .ite _ _ _ => none
  | Γ, .while c body =>
    match compileE Γ reg c d, regAt d, compileS reg d Γ body with
    | some cc, some rd, some cb =>
      if whileFits cc.length cb.length then
        some (cc ++ (.BEQ rd x0 (whileExit cb.length)) ::
          (cb ++ [.BEQ x0 x0 (whileBack cc.length cb.length)]))
      else none
    | _, _, _ => none

section Statements

variable {Γ : Ctx} {reg : RegMap} {d x : ℕ} {e : Exp} {c : List Instr} {s t body : Stmt} {ty : Ty}

attribute [local simp] compileS

theorem compileS_assign : compileS reg d Γ (.assign x e) = some c ↔
    ∃ ce, ∃ rd rx : Fin 32, compileE Γ reg e d = some ce ∧ rd.val = d ∧
      varReg Γ reg x = some rx ∧ ce ++ [.ADDI rx rd 0] = c := by
  simp only [compileS, ← regAt_eq_some]
  cases compileE Γ reg e d <;> cases regAt d <;> cases varReg Γ reg x <;> simp

theorem compileS_seq : compileS reg d Γ (.seq s t) = some c ↔
    ∃ cs ct, compileS reg d Γ s = some cs ∧ compileS reg d Γ t = some ct ∧ cs ++ ct = c := by
  rw [compileS]
  cases compileS reg d Γ s <;> cases compileS reg d Γ t <;> simp

theorem compileS_letmut : compileS reg d Γ (.letmut x ty e body) = some c ↔
    ∃ ce, ∃ rd rl : Fin 32, ∃ cb, compileE Γ reg e d = some ce ∧ rd.val = d ∧
      lvlReg reg Γ.length = some rl ∧ compileS reg d ((x, ty) :: Γ) body = some cb ∧
      ce ++ [.ADDI rl rd 0] ++ cb = c := by
  simp only [compileS, ← regAt_eq_some]
  cases compileE Γ reg e d <;> cases regAt d <;> cases lvlReg reg Γ.length <;>
    cases compileS reg d ((x, ty) :: Γ) body <;> simp

theorem compileS_while : compileS reg d Γ (.while e body) = some c ↔
    ∃ cc, ∃ rd : Fin 32, ∃ cb, compileE Γ reg e d = some cc ∧ rd.val = d ∧
      compileS reg d Γ body = some cb ∧ whileFits cc.length cb.length = true ∧
      cc ++ (.BEQ rd x0 (whileExit cb.length)) ::
        (cb ++ [.BEQ x0 x0 (whileBack cc.length cb.length)]) = c := by
  simp only [compileS, ← regAt_eq_some]
  cases compileE Γ reg e d <;> cases regAt d <;> cases compileS reg d Γ body <;> simp

end Statements

end Saltworks.Compiler
