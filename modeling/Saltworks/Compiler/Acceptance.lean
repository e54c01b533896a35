import Saltworks.Compiler.CodeGenerator

/-!
# What the code generator accepts

`HDL/TinyRustN0.lean` measures a program by the bindings that are live at once, `liveMax`, the
temporaries of its expressions, `expMaxNoSwap`, and both together at one point, `poolDemand`. For
well-typed programs these measures decide whether the code generator succeeds: the live bindings
must fit the pool, the temporaries the registers from `d` on, the constants an immediate, the loops
their branches, and there must be no conditional. The lengths of loops are determined by the
source, since the code of a statement has `codeLen` instructions whatever its registers.

A program that fits the pool with bindings and temporaries together, which is what `fitsAndTyped`
asks for, fits these bounds with room to spare.

## Main definitions

* `liveMax`, `expCostNoSwap`, `expMaxNoSwap`, `demandAt`, `poolDemand`, `fitsAndTyped`: the
  measures.
* `immsFit`, `constsFit`, `iteFree`, `lenE`, `codeLen`, `loopsFit`: the other conditions.

## Main results

* `compileE_isSome_iff`: expressions.
* `compileS_of_fitsAndTyped`: programs that fit the pool.
* `compileS_isSome_iff`: what is accepted, and the length of the code.
-/

namespace Saltworks.Compiler

open ISA TinyRust

/-! ### Measures -/

/-- The bindings that are live at once. -/
def liveMax : Stmt → ℕ
  | .skip => 0
  | .letmut _ _ _ body => 1 + liveMax body
  | .assign _ _ => 0
  | .seq s t => max (liveMax s) (liveMax t)
  | .ite _ thn els => max (liveMax thn) (liveMax els)
  | .while _ body => liveMax body

/-- The temporaries of an expression that is evaluated from left to right. -/
def expCostNoSwap : Exp → ℕ
  | .var _ | .const _ | .tt | .ff => 1
  | .add a b | .xor a b | .slt a b => max (expCostNoSwap a) (1 + expCostNoSwap b)

/-- The most temporaries of an expression of a statement. -/
def expMaxNoSwap : Stmt → ℕ
  | .skip => 0
  | .letmut _ _ e body => max (expCostNoSwap e) (expMaxNoSwap body)
  | .assign _ e => expCostNoSwap e
  | .seq s t => max (expMaxNoSwap s) (expMaxNoSwap t)
  | .ite c thn els => max (expCostNoSwap c) (max (expMaxNoSwap thn) (expMaxNoSwap els))
  | .while c body => max (expCostNoSwap c) (expMaxNoSwap body)

/-- Bindings and temporaries that are needed at once, under `depth` bindings. -/
def demandAt (depth : ℕ) : Stmt → ℕ
  | .skip => depth
  | .letmut _ _ e body => max (depth + expCostNoSwap e) (demandAt (depth + 1) body)
  | .assign _ e => depth + expCostNoSwap e
  | .seq s t => max (demandAt depth s) (demandAt depth t)
  | .ite c thn els => max (depth + expCostNoSwap c) (max (demandAt depth thn) (demandAt depth els))
  | .while c body => max (depth + expCostNoSwap c) (demandAt depth body)

def poolDemand (p : Stmt) : ℕ := demandAt 0 p

/-- The program is well-typed and fits a pool of `n` cells. -/
def fitsAndTyped (n : ℕ) (p : Stmt) : Bool := chkS [] p && (poolDemand p ≤ n)

/-- The constants of an expression fit an immediate. -/
def immsFit : Exp → Bool
  | .const n => (fitImm n).isSome
  | .var _ | .tt | .ff => true
  | .add a b | .xor a b | .slt a b => immsFit a && immsFit b

/-- The constants of a statement fit an immediate. -/
def constsFit : Stmt → Bool
  | .skip => true
  | .letmut _ _ e body => immsFit e && constsFit body
  | .assign _ e => immsFit e
  | .seq s t => constsFit s && constsFit t
  | .ite c thn els => immsFit c && constsFit thn && constsFit els
  | .while c body => immsFit c && constsFit body

/-- The statement has no conditional. -/
def iteFree : Stmt → Bool
  | .skip => true
  | .letmut _ _ _ body => iteFree body
  | .assign _ _ => true
  | .seq s t => iteFree s && iteFree t
  | .ite _ _ _ => false
  | .while _ body => iteFree body

/-- The instructions of an expression. -/
def lenE : Exp → ℕ
  | .var _ | .const _ | .tt | .ff => 1
  | .add a b | .xor a b | .slt a b => lenE a + lenE b + 1

/-- The instructions of a statement without conditionals. -/
def codeLen : Stmt → ℕ
  | .skip => 0
  | .letmut _ _ e body => lenE e + 1 + codeLen body
  | .assign _ e => lenE e + 1
  | .seq s t => codeLen s + codeLen t
  | .ite _ _ _ => 0
  | .while c body => lenE c + codeLen body + 2

/-- The loops are short enough for their branches. -/
def loopsFit : Stmt → Bool
  | .skip => true
  | .letmut _ _ _ body => loopsFit body
  | .assign _ _ => true
  | .seq s t => loopsFit s && loopsFit t
  | .ite _ thn els => loopsFit thn && loopsFit els
  | .while c body => whileFits (lenE c) (codeLen body) && loopsFit body

variable {Γ : Ctx} {reg : RegMap} {d : ℕ} {c : List Instr}

theorem expCostNoSwap_pos (e : Exp) : 0 < expCostNoSwap e := by
  cases e <;> simp only [expCostNoSwap] <;> omega

/-! ### Expressions -/

theorem length_binOp {mk : Fin 32 → Fin 32 → Fin 32 → Instr} {ca cb : List Instr}
    (h : binOp mk ca cb d = some c) : c.length = ca.length + cb.length + 1 := by
  obtain ⟨rd, rs, -, -, rfl⟩ := binOp_eq_some.1 h
  simp [Nat.add_assoc]

theorem length_compileE {e : Exp} (hc : compileE Γ reg e d = some c) : c.length = lenE e := by
  induction e generalizing d c with
  | var x =>
    obtain ⟨rd, rs, -, -, rfl⟩ := compileE_var.1 hc
    rfl
  | const n =>
    obtain ⟨rd, imm, -, -, rfl⟩ := compileE_const.1 hc
    rfl
  | tt =>
    obtain ⟨rd, -, rfl⟩ := compileE_tt.1 hc
    rfl
  | ff =>
    obtain ⟨rd, -, rfl⟩ := compileE_ff.1 hc
    rfl
  | add a b iha ihb =>
    obtain ⟨ca, cb, hca, hcb, hbin⟩ := compileE_add.1 hc
    rw [length_binOp hbin, iha hca, ihb hcb, lenE]
  | xor a b iha ihb =>
    obtain ⟨ca, cb, hca, hcb, hbin⟩ := compileE_xor.1 hc
    rw [length_binOp hbin, iha hca, ihb hcb, lenE]
  | slt a b iha ihb =>
    obtain ⟨ca, cb, hca, hcb, hbin⟩ := compileE_slt.1 hc
    rw [length_binOp hbin, iha hca, ihb hcb, lenE]

theorem exists_reg_iff {n : ℕ} : (∃ r : Fin 32, r.val = n) ↔ n < 32 :=
  ⟨fun ⟨r, hr⟩ => hr ▸ r.isLt, fun h => ⟨⟨n, h⟩, rfl⟩⟩

/-- A binary operation compiles if its operands do; its own registers are theirs. -/
theorem exists_binOp_iff {mk : Fin 32 → Fin 32 → Fin 32 → Instr} {a b : Exp}
    {oa ob : Option (List Instr)}
    (ha : (∃ ca, oa = some ca) ↔ immsFit a = true ∧ d + expCostNoSwap a ≤ 32)
    (hb : (∃ cb, ob = some cb) ↔ immsFit b = true ∧ d + 1 + expCostNoSwap b ≤ 32) :
    (∃ c ca cb, oa = some ca ∧ ob = some cb ∧ binOp mk ca cb d = some c) ↔
      (immsFit a && immsFit b) = true ∧ d + max (expCostNoSwap a) (1 + expCostNoSwap b) ≤ 32 := by
  have hpos := expCostNoSwap_pos b
  rw [Bool.and_eq_true]
  constructor
  · rintro ⟨c, ca, cb, hca, hcb, -⟩
    obtain ⟨hia, hda⟩ := ha.1 ⟨ca, hca⟩
    obtain ⟨hib, hdb⟩ := hb.1 ⟨cb, hcb⟩
    exact ⟨⟨hia, hib⟩, by omega⟩
  · rintro ⟨⟨hia, hib⟩, hd⟩
    obtain ⟨ca, hca⟩ := ha.2 ⟨hia, by omega⟩
    obtain ⟨cb, hcb⟩ := hb.2 ⟨hib, by omega⟩
    exact ⟨_, ca, cb, hca, hcb,
      binOp_eq_some.2 ⟨⟨d, by omega⟩, ⟨d + 1, by omega⟩, rfl, rfl, rfl⟩⟩

/-- A well-typed expression compiles if and only if its constants fit an immediate
and its temporaries fit the registers from `d` on. -/
theorem compileE_isSome_iff (reg : RegMap) {e : Exp} {t : Ty} (hΓ : Γ.length ≤ poolSize)
    (hty : inferE Γ e = some t) :
    (∃ c, compileE Γ reg e d = some c) ↔ immsFit e = true ∧ d + expCostNoSwap e ≤ 32 := by
  induction e generalizing d t with
  | var x =>
    have hslot : slotOf Γ x < poolSize := (slotOf_lt_of_look hty).trans_le hΓ
    simp only [compileE_var, varReg_eq_lvlReg, lvlReg_eq_some, immsFit, expCostNoSwap, true_and]
    rw [Nat.succ_le_iff, ← exists_reg_iff]
    constructor
    · rintro ⟨_, rd, rs, hrd, -, -⟩
      exact ⟨rd, hrd⟩
    · rintro ⟨rd, hrd⟩
      exact ⟨_, rd, _, hrd, ⟨hslot, rfl⟩, rfl⟩
  | const n =>
    simp only [compileE_const, immsFit, expCostNoSwap, Option.isSome_iff_exists]
    rw [Nat.succ_le_iff, ← exists_reg_iff]
    constructor
    · rintro ⟨_, rd, imm, hrd, himm, -⟩
      exact ⟨⟨imm, himm⟩, rd, hrd⟩
    · rintro ⟨⟨imm, himm⟩, rd, hrd⟩
      exact ⟨_, rd, imm, hrd, himm, rfl⟩
  | tt | ff =>
    simp only [compileE_tt, compileE_ff, immsFit, expCostNoSwap, true_and]
    rw [Nat.succ_le_iff, ← exists_reg_iff]
    constructor
    · rintro ⟨_, rd, hrd, -⟩
      exact ⟨rd, hrd⟩
    · rintro ⟨rd, hrd⟩
      exact ⟨_, rd, hrd, rfl⟩
  | add a b iha ihb =>
    obtain ⟨hta, htb, -⟩ := inferE_add.1 hty
    simp only [compileE_add, immsFit, expCostNoSwap]
    exact exists_binOp_iff (iha hta) (ihb htb)
  | xor a b iha ihb =>
    obtain ⟨hta, htb, -⟩ := inferE_xor.1 hty
    simp only [compileE_xor, immsFit, expCostNoSwap]
    exact exists_binOp_iff (iha hta) (ihb htb)
  | slt a b iha ihb =>
    obtain ⟨hta, htb, -⟩ := inferE_slt.1 hty
    simp only [compileE_slt, immsFit, expCostNoSwap]
    exact exists_binOp_iff (iha hta) (ihb htb)

/-! ### Statements -/

theorem length_compileS {stm : Stmt} (hc : compileS reg d Γ stm = some c) :
    c.length = codeLen stm := by
  induction stm generalizing Γ c with
  | skip =>
    obtain rfl : [] = c := Option.some.inj hc
    rfl
  | assign x e =>
    obtain ⟨ce, rd, rx, hce, -, -, rfl⟩ := compileS_assign.1 hc
    simp [codeLen, length_compileE hce]
  | letmut x ty e body ih =>
    obtain ⟨ce, rd, rl, cb, hce, -, -, hcb, rfl⟩ := compileS_letmut.1 hc
    simp [codeLen, length_compileE hce, ih hcb]
    omega
  | seq s t ihs iht =>
    obtain ⟨cs, ct, hcs, hct, rfl⟩ := compileS_seq.1 hc
    simp [codeLen, ihs hcs, iht hct]
  | ite => simp [compileS] at hc
  | «while» e body ih =>
    obtain ⟨cc, rd, cb, hcc, -, hcb, -, rfl⟩ := compileS_while.1 hc
    simp [codeLen, length_compileE hcc, ih hcb]
    omega

/-- What the code generator asks of a statement, beyond its type. -/
structure Fits (d depth : ℕ) (stm : Stmt) : Prop where
  iteFree : iteFree stm = true
  consts : constsFit stm = true
  live : depth + liveMax stm ≤ poolSize
  temps : d + expMaxNoSwap stm ≤ 32
  loops : loopsFit stm = true

theorem fits_seq {depth : ℕ} {s t : Stmt} :
    Fits d depth (.seq s t) ↔ Fits d depth s ∧ Fits d depth t := by
  constructor
  · rintro ⟨hi, hc, hl, ht, hw⟩
    simp only [Compiler.iteFree, constsFit, liveMax, expMaxNoSwap, loopsFit, Bool.and_eq_true] at *
    exact ⟨⟨hi.1, hc.1, by omega, by omega, hw.1⟩, ⟨hi.2, hc.2, by omega, by omega, hw.2⟩⟩
  · rintro ⟨⟨hi, hc, hl, ht, hw⟩, ⟨hi', hc', hl', ht', hw'⟩⟩
    refine ⟨?_, ?_, ?_, ?_, ?_⟩
    · rw [Compiler.iteFree, hi, hi']; rfl
    · rw [constsFit, hc, hc']; rfl
    · rw [liveMax]; omega
    · rw [expMaxNoSwap]; omega
    · rw [loopsFit, hw, hw']; rfl

theorem fits_assign {depth x : ℕ} {e : Exp} (hdepth : depth ≤ poolSize) :
    Fits d depth (.assign x e) ↔ immsFit e = true ∧ d + expCostNoSwap e ≤ 32 :=
  ⟨fun h => ⟨h.consts, h.temps⟩, fun ⟨hc, ht⟩ => ⟨rfl, hc, hdepth, ht, rfl⟩⟩

theorem fits_letmut {depth x : ℕ} {ty : Ty} {e : Exp} {body : Stmt} :
    Fits d depth (.letmut x ty e body) ↔
      (immsFit e = true ∧ d + expCostNoSwap e ≤ 32) ∧ Fits d (depth + 1) body := by
  have hpos := expCostNoSwap_pos e
  constructor
  · rintro ⟨hi, hc, hl, ht, hw⟩
    simp only [constsFit, liveMax, expMaxNoSwap, Bool.and_eq_true] at hc hl ht
    exact ⟨⟨hc.1, by omega⟩, ⟨hi, hc.2, by omega, by omega, hw⟩⟩
  · rintro ⟨⟨hc, ht⟩, ⟨hi, hc', hl, ht', hw⟩⟩
    refine ⟨hi, ?_, ?_, ?_, hw⟩
    · rw [constsFit, hc, hc']; rfl
    · rw [liveMax]; omega
    · rw [expMaxNoSwap]; omega

theorem fits_while {depth : ℕ} {e : Exp} {body : Stmt} :
    Fits d depth (.while e body) ↔ (immsFit e = true ∧ d + expCostNoSwap e ≤ 32) ∧
      Fits d depth body ∧ whileFits (lenE e) (codeLen body) = true := by
  constructor
  · rintro ⟨hi, hc, hl, ht, hw⟩
    simp only [constsFit, expMaxNoSwap, loopsFit, Bool.and_eq_true] at hc ht hw
    exact ⟨⟨hc.1, by omega⟩, ⟨hi, hc.2, hl, by omega, hw.2⟩, hw.1⟩
  · rintro ⟨⟨hc, ht⟩, ⟨hi, hc', hl, ht', hw⟩, hfit⟩
    refine ⟨hi, ?_, hl, ?_, ?_⟩
    · rw [constsFit, hc, hc']; rfl
    · rw [expMaxNoSwap]; omega
    · rw [loopsFit, hfit, hw]; rfl

/-- A well-typed statement compiles if and only if it fits. -/
theorem compiles_iff_fits {stm : Stmt} (hΓ : Γ.length ≤ poolSize) (hd : d ≤ 32)
    (hty : chkS Γ stm = true) :
    (∃ c, compileS reg d Γ stm = some c) ↔ Fits d Γ.length stm := by
  induction stm generalizing Γ with
  | skip => exact ⟨fun _ => ⟨rfl, rfl, hΓ, hd, rfl⟩, fun _ => ⟨[], rfl⟩⟩
  | assign x e =>
    obtain ⟨t, hx, he⟩ := chkS_assign.1 hty
    have hslot : slotOf Γ x < poolSize := (slotOf_lt_of_look hx).trans_le hΓ
    rw [fits_assign hΓ, ← compileE_isSome_iff reg hΓ he]
    constructor
    · rintro ⟨c, hc⟩
      obtain ⟨ce, -, -, hce, -⟩ := compileS_assign.1 hc
      exact ⟨ce, hce⟩
    · rintro ⟨ce, hce⟩
      have htemps := ((compileE_isSome_iff reg hΓ he).1 ⟨ce, hce⟩).2
      have hpos := expCostNoSwap_pos e
      exact ⟨_, compileS_assign.2 ⟨ce, ⟨d, by omega⟩, _, hce, rfl,
        lvlReg_eq_some.2 ⟨hslot, rfl⟩, rfl⟩⟩
  | letmut x ty e body ih =>
    obtain ⟨he, hbody⟩ := chkS_letmut.1 hty
    rw [fits_letmut, ← compileE_isSome_iff reg hΓ he]
    constructor
    · rintro ⟨c, hc⟩
      obtain ⟨ce, -, rl, cb, hce, -, hrl, hcb, -⟩ := compileS_letmut.1 hc
      obtain ⟨hlt, -⟩ := lvlReg_eq_some.1 hrl
      exact ⟨⟨ce, hce⟩, (ih (Γ := (x, ty) :: Γ) hlt hbody).1 ⟨cb, hcb⟩⟩
    · rintro ⟨⟨ce, hce⟩, hfits⟩
      have hlive := hfits.live
      have hlt : Γ.length < poolSize := by omega
      obtain ⟨cb, hcb⟩ := (ih (Γ := (x, ty) :: Γ) hlt hbody).2 hfits
      have htemps := ((compileE_isSome_iff reg hΓ he).1 ⟨ce, hce⟩).2
      have hpos := expCostNoSwap_pos e
      exact ⟨_, compileS_letmut.2 ⟨ce, ⟨d, by omega⟩, _, cb, hce, rfl,
        lvlReg_eq_some.2 ⟨hlt, rfl⟩, hcb, rfl⟩⟩
  | seq s t ihs iht =>
    obtain ⟨hs, ht⟩ := chkS_seq.1 hty
    rw [fits_seq, ← ihs hΓ hs, ← iht hΓ ht]
    constructor
    · rintro ⟨c, hc⟩
      obtain ⟨cs, ct, hcs, hct, -⟩ := compileS_seq.1 hc
      exact ⟨⟨cs, hcs⟩, ⟨ct, hct⟩⟩
    · rintro ⟨⟨cs, hcs⟩, ⟨ct, hct⟩⟩
      exact ⟨_, compileS_seq.2 ⟨cs, ct, hcs, hct, rfl⟩⟩
  | ite e thn els =>
    exact ⟨fun ⟨c, hc⟩ => by simp [compileS] at hc, fun h => absurd h.iteFree Bool.false_ne_true⟩
  | «while» e body ih =>
    obtain ⟨he, hbody⟩ := chkS_while.1 hty
    rw [fits_while, ← compileE_isSome_iff reg hΓ he, ← ih hΓ hbody]
    constructor
    · rintro ⟨c, hc⟩
      obtain ⟨cc, -, cb, hcc, -, hcb, hfits, -⟩ := compileS_while.1 hc
      rw [length_compileE hcc, length_compileS hcb] at hfits
      exact ⟨⟨cc, hcc⟩, ⟨cb, hcb⟩, hfits⟩
    · rintro ⟨⟨cc, hcc⟩, ⟨cb, hcb⟩, hfits⟩
      rw [← length_compileE hcc, ← length_compileS hcb] at hfits
      have htemps := ((compileE_isSome_iff reg hΓ he).1 ⟨cc, hcc⟩).2
      have hpos := expCostNoSwap_pos e
      exact ⟨_, compileS_while.2 ⟨cc, ⟨d, by omega⟩, cb, hcc, rfl, hcb, hfits, rfl⟩⟩

/-! ### Programs that fit the pool -/

/-- The demand covers the bindings and the temporaries. -/
theorem le_demandAt (depth : ℕ) (stm : Stmt) :
    depth + liveMax stm ≤ demandAt depth stm ∧ expMaxNoSwap stm ≤ demandAt depth stm := by
  induction stm generalizing depth with
  | skip => simp [liveMax, expMaxNoSwap, demandAt]
  | letmut x ty e body ih =>
    have := ih (depth + 1)
    simp only [liveMax, expMaxNoSwap, demandAt]
    omega
  | assign x e =>
    simp only [liveMax, expMaxNoSwap, demandAt]
    omega
  | seq s t ihs iht =>
    have := ihs depth
    have := iht depth
    simp only [liveMax, expMaxNoSwap, demandAt]
    omega
  | ite e thn els ihthn ihels =>
    have := ihthn depth
    have := ihels depth
    simp only [liveMax, expMaxNoSwap, demandAt]
    omega
  | «while» e body ih =>
    have := ih depth
    simp only [liveMax, expMaxNoSwap, demandAt]
    omega

/-- A program that fits the pool compiles, with temporaries from `x16` on, if it has no
conditional, its constants fit an immediate and its loops their branches. -/
theorem compileS_of_fitsAndTyped {p : Stmt} (h : fitsAndTyped poolSize p = true)
    (hite : iteFree p = true) (hconsts : constsFit p = true) (hloops : loopsFit p = true) :
    ∃ c, compileS regCanonical 16 [] p = some c := by
  obtain ⟨htyped, hdemand⟩ := (Bool.and_eq_true _ _).mp h
  have hpool : demandAt 0 p ≤ poolSize := of_decide_eq_true hdemand
  obtain ⟨hlive, htemps⟩ := le_demandAt 0 p
  have h15 : poolSize = 15 := rfl
  exact (compiles_iff_fits (Nat.zero_le _) (by decide) htyped).2
    ⟨hite, hconsts, hlive.trans hpool, by omega, hloops⟩

/-- **Acceptance.** Under any register map, a well-typed statement compiles if and only if it has
no conditional, its constants fit an immediate, its bindings fit the pool, its temporaries the
registers from `d` on, and its loops their branches; and its code has the length that the source
determines. -/
theorem compileS_isSome_iff {stm : Stmt} (hΓ : Γ.length ≤ poolSize) (hd : d ≤ 32)
    (hty : chkS Γ stm = true) :
    ((compileS reg d Γ stm).isSome = true ↔ Fits d Γ.length stm) ∧
      ∀ c, compileS reg d Γ stm = some c → c.length = codeLen stm := by
  rw [Option.isSome_iff_exists]
  exact ⟨compiles_iff_fits hΓ hd hty, fun c hc => length_compileS hc⟩

/-- The test program of the source compiles. -/
theorem compileS_isSome_acceptProg : (compileS regCanonical 16 [] acceptProg).isSome = true :=
  (compileS_isSome_iff (Nat.zero_le _) (by decide) (by decide)).1.2
    ⟨rfl, by decide, by decide, by decide, by decide⟩

end Saltworks.Compiler
