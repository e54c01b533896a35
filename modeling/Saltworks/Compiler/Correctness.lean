import Saltworks.Compiler.CodeGenerator

/-!
# The code generator is correct

Compiled code at any position of a program, entered with the cells in scope in their registers,
does what the statement does. If the statement ends, the code reaches its own end, with the cells
in scope as the statement leaves them. If it does not end, the code never leaves its block. Neither
memory nor the sticky flag is touched.

The first half is an induction on the derivation of the big step. The second is an induction on
the statement, and in a loop on the number of ticks: within any number of ticks either the code has
ended as some big step does, or it has not left the block. A condition is `0` or `1` because the
statement is well-typed, so a loop is never stuck.

## Main definitions

* `encodeOK`: the registers hold the cells in scope.
* `Placed`: a statement, its code and where it lies; `At`: the state at a position.
* `Goes`: a run inside of a block.
* `Runs`: a machine runs a statement.

## Main results

* `evaluates_compileE`: expressions.
* `goes_of_bigStep`: statements that end.
* `goes_or_stays`: all statements.
* `runForW_compiled`: the executive.
* `runs_of_simulation`: any machine that executes the instructions of the block.
-/

namespace Saltworks.Compiler

open ISA TinyRust Synchronous

/-! ### Runs inside of a block -/

/-- In `k` ticks a run goes from `s` to `s'`, inside of the block of `n` instructions at `p` until
its last tick. -/
structure Goes (image : List Instr) (p n k : ℕ) (s s' : St) : Prop where
  leads : Leads (tick image) (Inside p n) k s s'
  mem : s'.mem = s.mem
  trapped : s'.trapped = s.trapped

variable {image : List Instr} {p n k l : ℕ} {s s₁ s' : St}

theorem Goes.refl (s : St) : Goes image p n 0 s s := ⟨.refl s, rfl, rfl⟩

theorem Goes.trans (h : Goes image p n k s s₁) (h' : Goes image p n l s₁ s') :
    Goes image p n (k + l) s s' :=
  ⟨h.leads.trans h'.leads, h'.mem.trans h.mem, h'.trapped.trans h.trapped⟩

/-- A run inside of a block is one inside of a block around it. -/
theorem Goes.widen {q m : ℕ} (h : Goes image p n k s s') (hq : q ≤ p) (hm : p + n ≤ q + m) :
    Goes image q m k s s' :=
  ⟨h.leads.mono fun _ hin => hin.mono hq hm, h.mem, h.trapped⟩

/-- One instruction. -/
theorem goes_tick {i : Instr} {rest : List Instr} (hcode : CodeAt image p (i :: rest))
    (hpc : s.pc.toNat = 4 * p) (hmem : (step s i).mem = s.mem)
    (htrapped : (step s i).trapped = s.trapped) : Goes image p 1 1 s (step s i) := by
  have hfetch : fetch image s.pc = some i := fetch_of_codeAt (i := 0) hcode hpc (Nat.zero_lt_succ _)
  have hin : Inside p 1 s := ⟨0, Nat.one_pos, hpc⟩
  have hleads := Leads.single (f := tick image) hin
  rw [tick_of_fetch hfetch] at hleads
  exact ⟨hleads, hmem, htrapped⟩

theorem toNat_add_four {pc : BitVec 32} (hpc : pc.toNat = 4 * p) (hb : 4 * (p + 1) < 2 ^ 32) :
    (pc + 4#32).toNat = 4 * (p + 1) := by
  rw [BitVec.toNat_add, hpc]
  exact Nat.mod_eq_of_lt hb

/-- One instruction that writes a register and falls through. -/
theorem goes_write {i : Instr} {rest : List Instr} {rd : Fin 32} {v : BitVec 32}
    (hcode : CodeAt image p (i :: rest)) (hpc : s.pc.toNat = 4 * p) (hb : 4 * (p + 1) < 2 ^ 32)
    (hi : step s i = (s.set rd v).next) :
    ∃ s', Goes image p 1 1 s s' ∧ s'.pc.toNat = 4 * (p + 1) ∧
      ∀ r, r ≠ 0 → s'.get r = if r = rd then v else s.get r := by
  refine ⟨step s i, goes_tick hcode hpc (by simp [hi]) (by simp [hi]), ?_, fun r hr => ?_⟩
  · simpa [hi] using toNat_add_four hpc hb
  · rw [hi, St.get_next, St.get_set, if_neg hr]

/-! ### Expressions -/

/-- The registers hold the cells in scope. -/
def encodeOK (Γ : Ctx) (reg : RegMap) (σ : State) (s : St) : Prop :=
  ∀ i : Fin poolSize, i.val < Γ.length → s.get (reg i) = σ i.val

/-- The code `c` at `p` leaves `v` in register `d` and the registers below `d` alone. -/
def Evaluates (image : List Instr) (p d : ℕ) (c : List Instr) (s : St) (v : BitVec 32) : Prop :=
  ∃ s', Goes image p c.length c.length s s' ∧ s'.pc.toNat = 4 * (p + c.length) ∧
    (∀ r, r.val = d → s'.get r = v) ∧ ∀ r, r.val < d → s'.get r = s.get r

variable {Γ : Ctx} {reg : RegMap} {d : ℕ} {σ σ' : State} {c : List Instr}

theorem encodeOK.of_frame (h : encodeOK Γ reg σ s) (hbelow : PoolBelow reg d)
    (hframe : ∀ r : Fin 32, r.val < d → s'.get r = s.get r) : encodeOK Γ reg σ s' := fun i hi =>
  (hframe _ (hbelow i)).trans (h i hi)

/-- A single instruction that writes register `d`. -/
theorem evaluates_write {i : Instr} {rd : Fin 32} {v : BitVec 32} (hbelow : PoolBelow reg d)
    (hrd : rd.val = d) (hcode : CodeAt image p [i]) (hb : 4 * (p + 1) < 2 ^ 32)
    (hpc : s.pc.toNat = 4 * p) (hi : step s i = (s.set rd v).next) :
    Evaluates image p d [i] s v := by
  obtain ⟨s', hgoes, hpc', hget⟩ := goes_write hcode hpc hb hi
  refine ⟨s', hgoes, hpc', fun r hr => ?_, fun r hr => ?_⟩
  · rw [hget r (hbelow.ne_zero hr.ge), if_pos (Fin.ext (hr.trans hrd.symm))]
  · by_cases hr0 : r = 0
    · rw [hr0, St.get_zero, St.get_zero]
    · rw [hget r hr0, if_neg]
      rintro rfl
      omega

/-- The code of a binary operation, from the code of its operands. -/
theorem evaluates_binOp {mk : Fin 32 → Fin 32 → Fin 32 → Instr}
    {f : BitVec 32 → BitVec 32 → BitVec 32} {ca cb : List Instr} {va vb : BitVec 32}
    (hmk : ∀ (s : St) (x y z : Fin 32),
      step s (mk x y z) = (s.set x (f (s.get y) (s.get z))).next)
    (hbelow : PoolBelow reg d) (hbin : binOp mk ca cb d = some c) (hcode : CodeAt image p c)
    (hb : 4 * (p + c.length) < 2 ^ 32)
    (ha : CodeAt image p ca → 4 * (p + ca.length) < 2 ^ 32 → Evaluates image p d ca s va)
    (hb' : ∀ s₁, CodeAt image (p + ca.length) cb → 4 * (p + ca.length + cb.length) < 2 ^ 32 →
      s₁.pc.toNat = 4 * (p + ca.length) → (∀ r : Fin 32, r.val < d → s₁.get r = s.get r) →
      Evaluates image (p + ca.length) (d + 1) cb s₁ vb) :
    Evaluates image p d c s (f va vb) := by
  obtain ⟨rd, rs, hrd, hrs, rfl⟩ := binOp_eq_some.1 hbin
  simp only [List.length_append, List.length_singleton] at hb
  have hcode₂ := hcode.left.right
  have hcode₃ := hcode.right
  rw [List.length_append, ← Nat.add_assoc] at hcode₃
  obtain ⟨s₁, hgoes₁, hpc₁, hva, hframe₁⟩ := ha hcode.left.left (by omega)
  obtain ⟨s₂, hgoes₂, hpc₂, hvb, hframe₂⟩ := hb' s₁ hcode₂ (by omega) hpc₁ hframe₁
  have hd : rd ≠ 0 := hbelow.ne_zero hrd.ge
  obtain ⟨s₃, hgoes₃, hpc₃, hget⟩ := goes_write hcode₃ hpc₂ (by omega) (hmk s₂ rd rd rs)
  have hvals : f (s₂.get rd) (s₂.get rs) = f va vb := by
    rw [hframe₂ rd (by omega), hva rd hrd, hvb rs hrs]
  refine ⟨s₃, ?_, ?_, fun r hr => ?_, fun r hr => ?_⟩
  · have hfirst := hgoes₁.widen (q := p) (m := ca.length + cb.length + 1) le_rfl (by omega)
    have hsecond := hgoes₂.widen (q := p) (m := ca.length + cb.length + 1) (by omega) (by omega)
    have hthird := hgoes₃.widen (q := p) (m := ca.length + cb.length + 1) (by omega) (by omega)
    simpa [Nat.add_assoc] using (hfirst.trans hsecond).trans hthird
  · simpa [Nat.add_assoc] using hpc₃
  · rw [hget r (hbelow.ne_zero hr.ge), if_pos (Fin.ext (hr.trans hrd.symm)), hvals]
  · by_cases hr0 : r = 0
    · rw [hr0, St.get_zero, St.get_zero]
    · have hne : r ≠ rd := fun h => by rw [h] at hr; omega
      rw [hget r hr0, if_neg hne, hframe₂ r (by omega), hframe₁ r hr]

/-- **Expressions.** The code of a well-typed expression evaluates it. -/
theorem evaluates_compileE {e : Exp} {t : Ty} (hbelow : PoolBelow reg d)
    (hty : inferE Γ e = some t) (hc : compileE Γ reg e d = some c) (hcode : CodeAt image p c)
    (hb : 4 * (p + c.length) < 2 ^ 32) (hpc : s.pc.toNat = 4 * p) (hσ : encodeOK Γ reg σ s) :
    Evaluates image p d c s (evalE Γ σ e) := by
  induction e generalizing d c p s t with
  | var x =>
    obtain ⟨rd, rs, hrd, hrs, rfl⟩ := compileE_var.1 hc
    rw [varReg_eq_lvlReg] at hrs
    obtain ⟨hl, rfl⟩ := lvlReg_eq_some.1 hrs
    have hcell : s.get (reg ⟨slotOf Γ x, hl⟩) = evalE Γ σ (.var x) :=
      hσ _ (slotOf_lt_of_look hty)
    refine evaluates_write hbelow hrd hcode hb hpc ?_
    rw [← hcell]
    exact congrArg (fun v => (s.set rd v).next) (BitVec.add_zero _)
  | const m =>
    obtain ⟨rd, imm, hrd, himm, rfl⟩ := compileE_const.1 hc
    refine evaluates_write hbelow hrd hcode hb hpc ?_
    rw [evalE, ← fitImm_eq_some himm]
    exact congrArg (fun v => (s.set rd v).next) (BitVec.zero_add _)
  | tt =>
    obtain ⟨rd, hrd, rfl⟩ := compileE_tt.1 hc
    exact evaluates_write hbelow hrd hcode hb hpc rfl
  | ff =>
    obtain ⟨rd, hrd, rfl⟩ := compileE_ff.1 hc
    exact evaluates_write hbelow hrd hcode hb hpc rfl
  | add a b iha ihb =>
    obtain ⟨hta, htb, -⟩ := inferE_add.1 hty
    obtain ⟨ca, cb, hca, hcb, hbin⟩ := compileE_add.1 hc
    exact evaluates_binOp (f := (· + ·)) (fun _ _ _ _ => rfl) hbelow hbin hcode hb
      (fun hat hfit => iha hbelow hta hca hat hfit hpc hσ)
      fun s₁ hat hfit hpc₁ hframe => ihb (fun i => (hbelow i).trans (Nat.lt_succ_self d)) htb hcb
        hat hfit hpc₁ (hσ.of_frame hbelow hframe)
  | xor a b iha ihb =>
    obtain ⟨hta, htb, -⟩ := inferE_xor.1 hty
    obtain ⟨ca, cb, hca, hcb, hbin⟩ := compileE_xor.1 hc
    exact evaluates_binOp (f := (· ^^^ ·)) (fun _ _ _ _ => rfl) hbelow hbin hcode hb
      (fun hat hfit => iha hbelow hta hca hat hfit hpc hσ)
      fun s₁ hat hfit hpc₁ hframe => ihb (fun i => (hbelow i).trans (Nat.lt_succ_self d)) htb hcb
        hat hfit hpc₁ (hσ.of_frame hbelow hframe)
  | slt a b iha ihb =>
    obtain ⟨hta, htb, -⟩ := inferE_slt.1 hty
    obtain ⟨ca, cb, hca, hcb, hbin⟩ := compileE_slt.1 hc
    exact evaluates_binOp (f := fun v w => if v.slt w then 1#32 else 0#32) (fun _ _ _ _ => rfl)
      hbelow hbin hcode hb (fun hat hfit => iha hbelow hta hca hat hfit hpc hσ)
      fun s₁ hat hfit hpc₁ hframe => ihb (fun i => (hbelow i).trans (Nat.lt_succ_self d)) htb hcb
        hat hfit hpc₁ (hσ.of_frame hbelow hframe)

/-! ### Branches -/

theorem bOffset_ofInt {z : ℤ} (hlo : -2048 ≤ z) (hhi : z ≤ 2047) :
    bOffset (BitVec.ofInt 12 z) = BitVec.ofInt 32 (2 * z) := by
  have hz : (BitVec.ofInt 12 z).toInt = z := by
    rw [BitVec.toInt_ofInt, Int.bmod_eq_of_le] <;> omega
  have hdouble (v : BitVec 32) : v <<< 1 = v + v := by
    refine BitVec.eq_of_toNat_eq ?_
    rw [BitVec.toNat_shiftLeft, BitVec.toNat_add, Nat.shiftLeft_eq, Nat.pow_one, Nat.mul_two]
  rw [bOffset, BitVec.signExtend, hz, hdouble, ← BitVec.ofInt_add, Int.two_mul]

/-- A displacement that leads to the position `q`. -/
theorem toNat_add_bOffset {pc : BitVec 32} {z : ℤ} {q : ℕ} (hlo : -2048 ≤ z) (hhi : z ≤ 2047)
    (hq : (pc.toNat : ℤ) + 2 * z = q) (hb : q < 2 ^ 32) :
    (pc + bOffset (BitVec.ofInt 12 z)).toNat = q := by
  have hpc := pc.isLt
  rw [bOffset_ofInt hlo hhi, BitVec.toNat_add, BitVec.toNat_ofInt]
  omega

theorem whileExit_eq (nb : ℕ) : whileExit nb = BitVec.ofInt 12 (2 * (nb + 2)) := by
  rw [whileExit, ← BitVec.ofInt_natCast]
  norm_cast

/-- A branch. -/
theorem goes_branch {a b : Fin 32} {imm : BitVec 12} {rest : List Instr} {q : ℕ}
    (hcode : CodeAt image p (.BEQ a b imm :: rest)) (hpc : s.pc.toNat = 4 * p)
    (hb : 4 * (p + 1) < 2 ^ 32)
    (htaken : s.get a = s.get b → (s.pc + bOffset imm).toNat = 4 * q) :
    ∃ s', Goes image p 1 1 s s' ∧
      s'.pc.toNat = 4 * (if s.get a = s.get b then q else p + 1) ∧ s'.get = s.get := by
  by_cases h : s.get a = s.get b
  · have hstep : step s (.BEQ a b imm) = { s with pc := s.pc + bOffset imm } := if_pos h
    refine ⟨_, goes_tick hcode hpc (by rw [hstep]) (by rw [hstep]), ?_, ?_⟩
    · rw [hstep, if_pos h]
      exact htaken h
    · rw [hstep]
      rfl
  · have hstep : step s (.BEQ a b imm) = s.next := if_neg h
    refine ⟨_, goes_tick hcode hpc (by rw [hstep]; rfl) (by rw [hstep]; rfl), ?_, ?_⟩
    · rw [hstep, if_neg h]
      exact toNat_add_four hpc hb
    · rw [hstep]
      rfl

/-! ### Statements -/

/-- The code `c` of the statement `stm` lies at `p`. -/
structure Placed (image : List Instr) (reg : RegMap) (d : ℕ) (Γ : Ctx) (stm : Stmt)
    (c : List Instr) (p : ℕ) : Prop where
  typed : chkS Γ stm = true
  compiled : compileS reg d Γ stm = some c
  code : CodeAt image p c
  fits : 4 * (p + c.length) < 2 ^ 32

/-- The machine is at the position `p` with the cells `σ`. -/
structure At (reg : RegMap) (Γ : Ctx) (σ : State) (p : ℕ) (s : St) : Prop where
  pc : s.pc.toNat = 4 * p
  bools : stateOK Γ σ
  cells : encodeOK Γ reg σ s

/-- A cell is written, in the state of the statement and in its register. -/
theorem encodeOK.upd {Δ : Ctx} {v : BitVec 32} (h : encodeOK Γ reg σ s) (hl : l < poolSize)
    (hset : s'.get (reg ⟨l, hl⟩) = v)
    (hframe : ∀ i : Fin poolSize, i.val ≠ l → s'.get (reg i) = s.get (reg i))
    (hΔ : ∀ i < Δ.length, i ≠ l → i < Γ.length) : encodeOK Δ reg (upd σ l v) s' := by
  intro i hi
  by_cases hil : i.val = l
  · subst hil
    simpa [TinyRust.upd] using hset
  · rw [hframe i hil, TinyRust.upd, if_neg hil]
    exact h i (hΔ i.val hi hil)

/-- An expression is evaluated and its value moved to the register of a level. -/
theorem goes_store {e : Exp} {t : Ty} {ce rest : List Instr} {rd rl : Fin 32} (hreg : RegOk reg d)
    (hty : inferE Γ e = some t) (hc : compileE Γ reg e d = some ce) (hrd : rd.val = d)
    (hl : lvlReg reg l = some rl) (hcode : CodeAt image p (ce ++ .ADDI rl rd 0 :: rest))
    (hb : 4 * (p + ce.length + 1) < 2 ^ 32) (hat : At reg Γ σ p s) :
    ∃ s', Goes image p (ce.length + 1) (ce.length + 1) s s' ∧
      s'.pc.toNat = 4 * (p + (ce.length + 1)) ∧
      ∀ Δ : Ctx, (∀ i < Δ.length, i ≠ l → i < Γ.length) →
        encodeOK Δ reg (upd σ l (evalE Γ σ e)) s' := by
  obtain ⟨hlt, rfl⟩ := lvlReg_eq_some.1 hl
  obtain ⟨s₁, hgoes₁, hpc₁, hval, hframe₁⟩ :=
    evaluates_compileE hreg.below hty hc hcode.left (by omega) hat.pc hat.cells
  have hmove : step s₁ (.ADDI (reg ⟨l, hlt⟩) rd 0) =
      (s₁.set (reg ⟨l, hlt⟩) (evalE Γ σ e)).next := by
    rw [← hval rd hrd]
    exact congrArg (fun v => (s₁.set _ v).next) (BitVec.add_zero _)
  obtain ⟨s₂, hgoes₂, hpc₂, hget⟩ := goes_write hcode.right hpc₁ hb hmove
  refine ⟨s₂, ?_, hpc₂, fun Δ hΔ => hat.cells.upd hlt ?_ (fun i hi => ?_) hΔ⟩
  · exact (hgoes₁.widen le_rfl (by omega)).trans (hgoes₂.widen (by omega) (by omega))
  · rw [hget _ (hreg.nz _), if_pos rfl]
  · have hne : reg i ≠ reg ⟨l, hlt⟩ := fun h => hi (congrArg Fin.val (hreg.inj h))
    rw [hget _ (hreg.nz _), if_neg hne, hframe₁ _ (hreg.below i)]

/-! ### Loops -/

/-- The parts of a loop that lies at `p`. -/
structure LoopAt (image : List Instr) (reg : RegMap) (d : ℕ) (Γ : Ctx) (e : Exp) (body : Stmt)
    (p : ℕ) (cc cb : List Instr) (rd : Fin 32) : Prop where
  condTyped : inferE Γ e = some .bool
  condCompiled : compileE Γ reg e d = some cc
  condReg : rd.val = d
  body : Placed image reg d Γ body cb (p + cc.length + 1)
  whileFits : whileFits cc.length cb.length = true
  test : CodeAt image p (cc ++ .BEQ rd x0 (whileExit cb.length) ::
    (cb ++ [.BEQ x0 x0 (whileBack cc.length cb.length)]))
  fits : 4 * (p + (cc.length + cb.length + 2)) < 2 ^ 32

theorem Placed.loop {e : Exp} {body : Stmt} (h : Placed image reg d Γ (.while e body) c p) :
    ∃ cc cb rd, LoopAt image reg d Γ e body p cc cb rd ∧
      c.length = cc.length + cb.length + 2 := by
  obtain ⟨cc, rd, cb, hcc, hrd, hcb, hfits, rfl⟩ := compileS_while.1 h.compiled
  obtain ⟨hcond, hbody⟩ := chkS_while.1 h.typed
  have hlen : (cc ++ Instr.BEQ rd x0 (whileExit cb.length) ::
      (cb ++ [.BEQ x0 x0 (whileBack cc.length cb.length)])).length =
        cc.length + cb.length + 2 := by
    simp only [List.length_append, List.length_cons, List.length_nil]
    omega
  have hb := h.fits
  rw [hlen] at hb
  have hcb' : CodeAt image (p + cc.length + 1) cb :=
    (CodeAt.right (a := [.BEQ rd x0 (whileExit cb.length)]) h.code.right).left
  exact ⟨cc, cb, rd, ⟨hcond, hcc, hrd, ⟨hbody, hcb, hcb', by omega⟩, hfits, h.code, hb⟩, hlen⟩

namespace LoopAt

variable {e : Exp} {body : Stmt} {cc cb : List Instr} {rd : Fin 32}

/-- The condition and the branch behind it: to the end of the loop, or to its body. -/
theorem goes_test (h : LoopAt image reg d Γ e body p cc cb rd) (hbelow : PoolBelow reg d)
    (hat : At reg Γ σ p s) :
    ∃ s', Goes image p (cc.length + cb.length + 2) (cc.length + 1) s s' ∧
      At reg Γ σ (if evalE Γ σ e = 0 then p + (cc.length + cb.length + 2)
        else p + cc.length + 1) s' := by
  have hfits := h.fits
  have hnb : 2 * (cb.length + 2) ≤ 2047 := by
    have hwhile := h.whileFits
    simp only [Compiler.whileFits, Bool.and_eq_true, decide_eq_true_eq] at hwhile
    exact hwhile.1
  obtain ⟨s₁, hgoes₁, hpc₁, hval, hframe₁⟩ := evaluates_compileE hbelow h.condTyped h.condCompiled
    h.test.left (by omega) hat.pc hat.cells
  have hexit : (s₁.pc + bOffset (whileExit cb.length)).toNat =
      4 * (p + (cc.length + cb.length + 2)) := by
    rw [whileExit_eq]
    exact toNat_add_bOffset (by omega) (by omega) (by omega) (by omega)
  obtain ⟨s₂, hgoes₂, hpc₂, hget⟩ := goes_branch h.test.right hpc₁ (by omega) fun _ => hexit
  rw [hval rd h.condReg, St.get_zero] at hpc₂
  refine ⟨s₂, (hgoes₁.widen le_rfl (by omega)).trans (hgoes₂.widen (by omega) (by omega)),
    hpc₂, hat.bools, hat.cells.of_frame hbelow fun r hr => ?_⟩
  rw [hget, hframe₁ r hr]

/-- The branch behind the body. -/
theorem goes_back (h : LoopAt image reg d Γ e body p cc cb rd)
    (hat : At reg Γ σ (p + cc.length + 1 + cb.length) s) :
    ∃ s', Goes image p (cc.length + cb.length + 2) 1 s s' ∧ At reg Γ σ p s' := by
  have hfits := h.fits
  have hpc := hat.pc
  have hnb : 2 * (cc.length + cb.length + 1) ≤ 2048 := by
    have hwhile := h.whileFits
    simp only [Compiler.whileFits, Bool.and_eq_true, decide_eq_true_eq] at hwhile
    exact hwhile.2
  have hback : (s.pc + bOffset (whileBack cc.length cb.length)).toNat = 4 * p :=
    toNat_add_bOffset (by omega) (by omega) (by omega) (by omega)
  have hcode : CodeAt image (p + cc.length + 1 + cb.length)
      [.BEQ x0 x0 (whileBack cc.length cb.length)] :=
    (CodeAt.right (a := [.BEQ rd x0 (whileExit cb.length)]) h.test.right).right
  obtain ⟨s₁, hgoes, hpc₁, hget⟩ := goes_branch hcode hpc (by omega) fun _ => hback
  rw [if_pos rfl] at hpc₁
  refine ⟨s₁, hgoes.widen (by omega) (by omega), hpc₁, hat.bools, fun i hi => ?_⟩
  rw [hget]
  exact hat.cells i hi

end LoopAt

/-! ### Statements that end -/

theorem Placed.seq {s₁ s₂ : Stmt} (h : Placed image reg d Γ (.seq s₁ s₂) c p) :
    ∃ c₁ c₂, Placed image reg d Γ s₁ c₁ p ∧ Placed image reg d Γ s₂ c₂ (p + c₁.length) ∧
      c.length = c₁.length + c₂.length := by
  obtain ⟨c₁, c₂, hc₁, hc₂, rfl⟩ := compileS_seq.1 h.compiled
  obtain ⟨hs₁, hs₂⟩ := chkS_seq.1 h.typed
  have hb := h.fits
  rw [List.length_append] at hb
  exact ⟨c₁, c₂, ⟨hs₁, hc₁, h.code.left, by omega⟩, ⟨hs₂, hc₂, h.code.right, by omega⟩,
    List.length_append⟩

/-- An assignment. -/
theorem Placed.goes_assign {x : ℕ} {e : Exp} (h : Placed image reg d Γ (.assign x e) c p)
    (hreg : RegOk reg d) (hat : At reg Γ σ p s) :
    ∃ s', Goes image p c.length c.length s s' ∧
      At reg Γ (upd σ (slotOf Γ x) (evalE Γ σ e)) (p + c.length) s' := by
  obtain ⟨ce, rd, rx, hce, hrd, hrx, rfl⟩ := compileS_assign.1 h.compiled
  obtain ⟨t, hx, he⟩ := chkS_assign.1 h.typed
  have hb := h.fits
  rw [List.length_append, List.length_singleton] at hb ⊢
  obtain ⟨s', hgoes, hpc, hcells⟩ := goes_store hreg he hce hrd hrx h.code (by omega) hat
  exact ⟨s', hgoes, hpc, hat.bools.assign hx (evalE_of_infer he hat.bools),
    hcells Γ fun i hi _ => hi⟩

/-- The binding of a `let mut`, and its body behind it. -/
theorem Placed.goes_letmut {x : ℕ} {ty : Ty} {e : Exp} {body : Stmt}
    (h : Placed image reg d Γ (.letmut x ty e body) c p) (hreg : RegOk reg d)
    (hat : At reg Γ σ p s) :
    ∃ (m : ℕ) (cb : List Instr) (s' : St), c.length = m + cb.length ∧ Goes image p m m s s' ∧
      At reg ((x, ty) :: Γ) (upd σ Γ.length (evalE Γ σ e)) (p + m) s' ∧
      Placed image reg d ((x, ty) :: Γ) body cb (p + m) := by
  obtain ⟨ce, rd, rl, cb, hce, hrd, hrl, hcb, rfl⟩ := compileS_letmut.1 h.compiled
  obtain ⟨he, hbody⟩ := chkS_letmut.1 h.typed
  have hb := h.fits
  have hcode := h.code
  rw [List.length_append] at hb ⊢
  have hlen : (ce ++ [Instr.ADDI rl rd 0]).length = ce.length + 1 := by simp
  obtain ⟨s', hgoes, hpc, hcells⟩ := goes_store hreg he hce hrd hrl hcode.left (by omega) hat
  rw [hlen] at hb ⊢
  have hcodeb := hcode.right
  rw [hlen] at hcodeb
  refine ⟨ce.length + 1, cb, s', rfl, hgoes,
    ⟨hpc, hat.bools.bind (evalE_of_infer he hat.bools), hcells _ fun i hi hne => ?_⟩,
    ⟨hbody, hcb, hcodeb, by omega⟩⟩
  rw [List.length_cons] at hi
  omega

/-- The cells of an outer context are among those of the inner one. -/
theorem At.leave {x : ℕ} {ty : Ty} (h : At reg ((x, ty) :: Γ) σ p s) (hok : stateOK Γ σ) :
    At reg Γ σ p s :=
  ⟨h.pc, hok, fun i hi => h.cells i (hi.trans (Nat.lt_succ_self _))⟩

/-- **Statements that end.** If the statement takes `σ` to `σ'`, its code runs to its end, and the
cells there are those of `σ'`. -/
theorem goes_of_bigStep {stm : Stmt} (hreg : RegOk reg d) (h : BigStep Γ stm σ σ')
    (hp : Placed image reg d Γ stm c p) (hat : At reg Γ σ p s) :
    ∃ k s', Goes image p c.length k s s' ∧ At reg Γ σ' (p + c.length) s' := by
  induction h generalizing c p s with
  | skip =>
    obtain rfl : [] = c := Option.some.inj hp.compiled
    exact ⟨0, s, .refl s, hat⟩
  | assign =>
    obtain ⟨s', hgoes, hat'⟩ := hp.goes_assign hreg hat
    exact ⟨c.length, s', hgoes, hat'⟩
  | letmut hbody ih =>
    have hok := (BigStep.letmut hbody).stateOK hp.typed hat.bools
    obtain ⟨m, cb, s₁, hlen, hgoes₁, hat₁, hp₁⟩ := hp.goes_letmut hreg hat
    obtain ⟨k, s', hgoes₂, hat₂⟩ := ih hp₁ hat₁
    rw [hlen]
    refine ⟨m + k, s', ?_, ?_⟩
    · exact (hgoes₁.widen le_rfl (by omega)).trans (hgoes₂.widen (by omega) (by omega))
    · rw [← Nat.add_assoc]
      exact hat₂.leave hok
  | seq _ _ ih₁ ih₂ =>
    obtain ⟨c₁, c₂, hp₁, hp₂, hlen⟩ := hp.seq
    obtain ⟨k₁, s₁, hgoes₁, hat₁⟩ := ih₁ hp₁ hat
    obtain ⟨k₂, s₂, hgoes₂, hat₂⟩ := ih₂ hp₂ hat₁
    rw [hlen, ← Nat.add_assoc]
    exact ⟨k₁ + k₂, s₂, (hgoes₁.widen le_rfl (by omega)).trans
      (hgoes₂.widen (by omega) (by omega)), hat₂⟩
  | iteT | iteF => exact absurd hp.compiled (by simp [compileS])
  | whileF hcond =>
    obtain ⟨cc, cb, rd, hloop, hlen⟩ := hp.loop
    obtain ⟨s', hgoes, hat'⟩ := hloop.goes_test hreg.below hat
    rw [if_pos hcond] at hat'
    rw [hlen]
    exact ⟨_, s', hgoes, hat'⟩
  | whileT hcond _ _ ihbody ihloop =>
    obtain ⟨cc, cb, rd, hloop, hlen⟩ := hp.loop
    obtain ⟨s₁, htest, hat₁⟩ := hloop.goes_test hreg.below hat
    rw [if_neg (by rw [hcond]; decide)] at hat₁
    obtain ⟨k, s₂, hbody, hat₂⟩ := ihbody hloop.body hat₁
    obtain ⟨s₃, hback, hat₃⟩ := hloop.goes_back hat₂
    obtain ⟨m, s₄, hrest, hat₄⟩ := ihloop hp hat₃
    rw [hlen] at hrest hat₄ ⊢
    have hbody' := hbody.widen (q := p) (m := cc.length + cb.length + 2) (by omega) (by omega)
    exact ⟨_, s₄, ((htest.trans hbody').trans hback).trans hrest, hat₄⟩

/-! ### All statements -/

/-- **Statements that may not end.** Within any number `n` of ticks, the code has run to its end as
some big step does, or it has not left its block. -/
theorem goes_or_stays {stm : Stmt} (hreg : RegOk reg d) (hp : Placed image reg d Γ stm c p)
    (hat : At reg Γ σ p s) (n : ℕ) :
    (∃ σ' k s', BigStep Γ stm σ σ' ∧ Goes image p c.length k s s' ∧
        At reg Γ σ' (p + c.length) s') ∨
      Stays (tick image) (Inside p c.length) n s := by
  induction stm generalizing Γ c p s σ n with
  | skip =>
    obtain rfl : [] = c := Option.some.inj hp.compiled
    exact .inl ⟨σ, 0, s, .skip, .refl s, hat⟩
  | assign x e =>
    obtain ⟨s', hgoes, hat'⟩ := hp.goes_assign hreg hat
    exact .inl ⟨_, _, s', .assign, hgoes, hat'⟩
  | letmut x ty e body ih =>
    obtain ⟨m, cb, s₁, hlen, hgoes₁, hat₁, hp₁⟩ := hp.goes_letmut hreg hat
    rw [hlen]
    have hfirst := hgoes₁.widen (q := p) (m := m + cb.length) le_rfl (by omega)
    obtain ⟨σ', k, s', hbig, hgoes₂, hat₂⟩ | hstays := ih hp₁ hat₁ (n - m)
    · have hok := (BigStep.letmut hbig).stateOK hp.typed hat.bools
      refine .inl ⟨σ', m + k, s', .letmut hbig, ?_, ?_⟩
      · exact hfirst.trans (hgoes₂.widen (by omega) (by omega))
      · rw [← Nat.add_assoc]
        exact hat₂.leave hok
    · exact .inr (hfirst.leads.stays fun _ =>
        hstays.mono fun _ hin => hin.mono (by omega) (by omega))
  | seq s₁ s₂ ih₁ ih₂ =>
    obtain ⟨c₁, c₂, hp₁, hp₂, hlen⟩ := hp.seq
    rw [hlen]
    obtain ⟨σ₁, k₁, t₁, hbig₁, hgoes₁, hat₁⟩ | hstays := ih₁ hp₁ hat n
    · have hfirst := hgoes₁.widen (q := p) (m := c₁.length + c₂.length) le_rfl (by omega)
      obtain ⟨σ₂, k₂, t₂, hbig₂, hgoes₂, hat₂⟩ | hstays := ih₂ hp₂ hat₁ (n - k₁)
      · rw [← Nat.add_assoc]
        exact .inl ⟨σ₂, k₁ + k₂, t₂, .seq hbig₁ hbig₂,
          hfirst.trans (hgoes₂.widen (by omega) (by omega)), hat₂⟩
      · exact .inr (hfirst.leads.stays fun _ =>
          hstays.mono fun _ hin => hin.mono (by omega) (by omega))
    · exact .inr (hstays.mono fun _ hin => hin.mono le_rfl (by omega))
  | ite c' thn els => exact absurd hp.compiled (by simp [compileS])
  | «while» e body ih =>
    obtain ⟨cc, cb, rd, hloop, hlen⟩ := hp.loop
    -- each pass through the loop takes at least one tick
    induction n using Nat.strong_induction_on generalizing s σ with
    | _ n ihn =>
      obtain ⟨s₁, htest, hat₁⟩ := hloop.goes_test hreg.below hat
      rw [hlen]
      obtain hcond | hcond := evalE_bool hloop.condTyped hat.bools
      · rw [if_pos hcond] at hat₁
        exact .inl ⟨σ, _, s₁, .whileF hcond, htest, hat₁⟩
      · rw [if_neg (by rw [hcond]; decide)] at hat₁
        obtain ⟨σ₂, k, s₂, hbig, hbody, hat₂⟩ | hstays := ih hloop.body hat₁ (n - (cc.length + 1))
        · have hbody' :=
            hbody.widen (q := p) (m := cc.length + cb.length + 2) (by omega) (by omega)
          obtain ⟨s₃, hback, hat₃⟩ := hloop.goes_back hat₂
          have hpass := (htest.trans hbody').trans hback
          by_cases hn : cc.length + 1 + k + 1 ≤ n
          · obtain ⟨σ', m, s₄, hbig', hrest, hat₄⟩ | hstays :=
              ihn (n - (cc.length + 1 + k + 1)) (by omega) hat₃
            · rw [hlen] at hrest hat₄
              exact .inl ⟨σ', _, s₄, .whileT hcond hbig hbig', hpass.trans hrest, hat₄⟩
            · rw [hlen] at hstays
              exact .inr (hpass.leads.stays fun _ => hstays)
          · exact .inr (hpass.leads.stays fun hle => absurd hle hn)
        · exact .inr (htest.leads.stays fun _ =>
            hstays.mono fun _ hin => hin.mono (by omega) (by omega))

/-! ### The executive -/

/-- **The executive.** The executive runs the words of a compiled statement, and nothing else, from
address `0`. If the statement ends, enough fuel leaves it behind the last word with the cells in
scope as the statement leaves them, and more fuel changes nothing. If not, it is inside of the code
whatever the fuel. -/
theorem runForW_compiled {stm : Stmt} (hreg : RegOk reg d) (hty : chkS Γ stm = true)
    (hc : compileS reg d Γ stm = some c) (hb : 4 * c.length < 2 ^ 32) (hat : At reg Γ σ 0 s) :
    (∀ σ', BigStep Γ stm σ σ' → ∃ n, ∀ m ≥ n, At reg Γ σ' c.length (runForW m (c.map encode) s) ∧
        (runForW m (c.map encode) s).mem = s.mem ∧
        (runForW m (c.map encode) s).trapped = s.trapped) ∧
      ((∀ σ', ¬BigStep Γ stm σ σ') → ∀ m, Inside 0 c.length (runForW m (c.map encode) s)) := by
  have hp : Placed c reg d Γ stm c 0 := ⟨hty, hc, .self c, by omega⟩
  refine ⟨fun σ' hbig => ?_, fun hnone m => ?_⟩
  · obtain ⟨n, s', hgoes, hat'⟩ := goes_of_bigStep hreg hbig hp hat
    rw [Nat.zero_add] at hat'
    have hstop : tick c s' = s' := by
      have hend : fetch c s'.pc = none := by
        have hpc := hat'.pc
        rw [fetch, if_pos (by omega), List.getElem?_eq_none (by omega)]
      rw [tick, hend]
      rfl
    refine ⟨n, fun m hm => ?_⟩
    rw [runForW_map, runFor_eq_iterate, hgoes.leads.iterate_of_le hm, Function.iterate_fixed hstop]
    exact ⟨hat', hgoes.mem, hgoes.trapped⟩
  · rw [runForW_map, runFor_eq_iterate]
    obtain ⟨σ', -, -, hbig, -⟩ | hstays := goes_or_stays hreg hp hat m
    · exact absurd hbig (hnone σ')
    · exact hstays m le_rfl

/-! ### Machines that run a statement -/

section Runs

variable {β : Type*} (g : β → β) (pc : β → BitVec 32) (cell : β → Fin 32 → BitVec 32)

/-- `pc` is the address of one of the `n` instructions from the position `p` on. -/
def InBlock (p n : ℕ) (b : β) : Prop := ∃ i < n, (pc b).toNat = 4 * (p + i)

/-- A machine in the state `b`, with its program counter and its registers, runs the statement in
the block of `n` instructions at `p`: if the statement ends, the machine leaves the block at its
end, with the cells in scope as the statement leaves them; if not, it never leaves the block. -/
structure Runs (reg : RegMap) (Γ : Ctx) (stm : Stmt) (σ : State) (p n : ℕ) (b : β) : Prop where
  ends : ∀ σ', BigStep Γ stm σ σ' → ∃ k b', Leads g (InBlock pc p n) k b b' ∧
    (pc b').toNat = 4 * (p + n) ∧
    ∀ i : Fin poolSize, i.val < Γ.length → cell b' (reg i) = σ' i.val
  diverges : (∀ σ', ¬BigStep Γ stm σ σ') → ∀ m, Stays g (InBlock pc p n) m b

variable {g pc cell} {stm : Stmt} {R : St → β → Prop} {b : β}

/-- A machine that executes the instructions of the block as the ISA does runs the statement. -/
theorem runs_of_simulation (hreg : RegOk reg d) (hp : Placed image reg d Γ stm c p)
    (hat : At reg Γ σ p s)
    (hstep : ∀ s b, R s b → Inside p c.length s → R (tick image s) (g b))
    (hpc : ∀ s b, R s b → pc b = s.pc) (hcell : ∀ s b r, R s b → cell b r = s.get r) (hR : R s b) :
    Runs g pc cell reg Γ stm σ p c.length b := by
  have hin (s : St) (b : β) (h : R s b) (hs : Inside p c.length s) : InBlock pc p c.length b := by
    rw [InBlock, hpc s b h]
    exact hs
  refine ⟨fun σ' hbig => ?_, fun hnone m => ?_⟩
  · obtain ⟨k, s', hgoes, hat'⟩ := goes_of_bigStep hreg hbig hp hat
    obtain ⟨b', hleads, hR'⟩ := hgoes.leads.simulate hstep hin hR
    refine ⟨k, b', hleads, by rw [hpc s' b' hR', hat'.pc], fun i hi => ?_⟩
    rw [hcell s' b' _ hR', hat'.cells i hi]
  · obtain ⟨σ', -, -, hbig, -⟩ | hstays := goes_or_stays hreg hp hat m
    · exact absurd hbig (hnone σ')
    · exact hstays.simulate hstep hin hR

end Runs

end Saltworks.Compiler
