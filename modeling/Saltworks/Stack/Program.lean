import Mathlib.Data.List.FinRange
import Saltworks.Compiler.Correctness
import Saltworks.Network.Sorting

/-!
# Sorting programs

The emitter of `Stack/Program.lean`. A comparator network on eight lines becomes a program of the
kernel ISA: line `i` lives in register `i + 1`, and each comparator is five instructions that
compare the two words as signed numbers and exchange them by three `XOR`s, or branch over the
exchange. The program for Batcher's network, `batcherSort`, has 120 instructions.

The number of instructions that a run takes depends on the words: two for each comparator, and
three more for each exchange.

## Main definitions

* `dataReg`, `tmpReg`, `cmpEx`, `emit`: the emitter.
* `batcher8`, `batcherSort`, `batcherSortWords`: the program for Batcher's network.
* `SortsTo`: the specification; `Sorts`: the network sorts bits.
* `swaps`, `duration`: the number of exchanges and of instructions.

## Main results

* `goes_cmpEx`: one comparator.
* `goes_emit`: the program computes the network.
* `runForW_emit`: the program on the executive, which sorts if and only if the network does.
-/

namespace SortingNetwork

variable {n : ℕ} {β α : Type*} [LinearOrder α]

/-- The number of exchanges that a network makes. -/
def swaps (key : β → α) : List (Fin n × Fin n) → (Fin n → β) → ℕ
  | [], _ => 0
  | c :: cs, v => (if key (v c.2) < key (v c.1) then 1 else 0) + swaps key cs (exchange key c v)

theorem swaps_le (key : β → α) (cs : List (Fin n × Fin n)) (v : Fin n → β) :
    swaps key cs v ≤ cs.length := by
  induction cs generalizing v with
  | nil => exact le_rfl
  | cons c cs ih =>
    have := ih (exchange key c v)
    rw [swaps, List.length_cons]
    split_ifs <;> omega

end SortingNetwork

namespace Saltworks.Stack

open ISA Compiler SortingNetwork

/-! ### The emitter -/

/-- Line `i` of the network lives in register `i + 1`. -/
def dataReg (i : Fin 8) : Fin 32 := ⟨i.val + 1, by omega⟩

/-- The register of the comparison. -/
def tmpReg : Fin 32 := ⟨9, by decide⟩

/-- The immediate that skips the three instructions of an exchange. -/
def skipImm : BitVec 12 := 8#12

/-- Compare and exchange. -/
def cmpEx (c : Fin 8 × Fin 8) : List Instr :=
  let a := dataReg c.1
  let b := dataReg c.2
  [.SLT tmpReg b a, .BEQ tmpReg x0 skipImm, .XOR a a b, .XOR b a b, .XOR a a b]

/-- The program of a network. -/
def emit (net : List (Fin 8 × Fin 8)) : List Instr := net.flatMap cmpEx

/-- Batcher's bitonic network on eight lines. -/
def batcher8 : List (Fin 8 × Fin 8) :=
  [(0, 1), (3, 2), (4, 5), (7, 6), (0, 2), (1, 3), (6, 4), (7, 5),
    (0, 1), (2, 3), (5, 4), (7, 6), (0, 4), (1, 5), (2, 6), (3, 7),
    (0, 2), (1, 3), (4, 6), (5, 7), (0, 1), (2, 3), (4, 5), (6, 7)]

/-- Batcher's network as a program. -/
def batcherSort : List Instr := emit batcher8

/-- The program as words. -/
def batcherSortWords : List (BitVec 32) := batcherSort.map encode

theorem emit_cons (c : Fin 8 × Fin 8) (net : List (Fin 8 × Fin 8)) :
    emit (c :: net) = cmpEx c ++ emit net := rfl

@[simp] theorem length_cmpEx (c : Fin 8 × Fin 8) : (cmpEx c).length = 5 := rfl

@[simp] theorem length_emit (net : List (Fin 8 × Fin 8)) : (emit net).length = 5 * net.length := by
  induction net with
  | nil => rfl
  | cons c net ih =>
    rw [emit_cons, List.length_append, ih, length_cmpEx, List.length_cons]
    omega

theorem dataReg_injective : Function.Injective dataReg := fun _ _ h =>
  Fin.ext (Nat.succ.inj (congrArg Fin.val h))

theorem dataReg_ne_zero (i : Fin 8) : dataReg i ≠ 0 := fun h =>
  Nat.succ_ne_zero _ (congrArg Fin.val h)

theorem dataReg_ne_tmpReg (i : Fin 8) : dataReg i ≠ tmpReg := fun h => by
  have := congrArg Fin.val h
  simp only [dataReg, tmpReg] at this
  omega

/-- A register that the program does not use. -/
def Spare (r : Fin 32) : Prop := r ≠ tmpReg ∧ ∀ i, r ≠ dataReg i

/-! ### One comparator -/

variable {image : List Instr} {p : ℕ} {s : St}

theorem xor_xor_right (x y : BitVec 32) : x ^^^ y ^^^ y = x := by
  rw [BitVec.xor_assoc, BitVec.xor_self, BitVec.xor_zero]

/-- Three `XOR`s exchange two registers. -/
theorem goes_exchange {a b : Fin 32} {rest : List Instr} (ha : a ≠ 0) (hb : b ≠ 0) (hab : a ≠ b)
    (hcode : CodeAt image p (.XOR a a b :: .XOR b a b :: .XOR a a b :: rest))
    (hpc : s.pc.toNat = 4 * p) (hfit : 4 * (p + 3) < 2 ^ 32) :
    ∃ s', Goes image p 3 3 s s' ∧ s'.pc.toNat = 4 * (p + 3) ∧
      ∀ r, s'.get r = s.get (Equiv.swap a b r) := by
  have hcode₂ := CodeAt.right (a := [.XOR a a b]) hcode
  have hcode₃ := CodeAt.right (a := [.XOR b a b]) hcode₂
  obtain ⟨s₁, hgoes₁, hpc₁, hget₁⟩ := goes_write hcode hpc (by omega) rfl
  obtain ⟨s₂, hgoes₂, hpc₂, hget₂⟩ := goes_write hcode₂ hpc₁ (by simp; omega) rfl
  obtain ⟨s₃, hgoes₃, hpc₃, hget₃⟩ := goes_write hcode₃ hpc₂ (by simp; omega) rfl
  have hgoes := ((hgoes₁.widen (q := p) (m := 3) le_rfl (by omega)).trans
    (hgoes₂.widen (q := p) (m := 3) (by simp) (by simp))).trans
      (hgoes₃.widen (q := p) (m := 3) (by simp; omega) (by simp))
  refine ⟨s₃, hgoes, hpc₃, fun r => ?_⟩
  by_cases hr : r = 0
  · rw [hr, Equiv.swap_apply_of_ne_of_ne ha.symm hb.symm, St.get_zero, St.get_zero]
  · have h₁a : s₁.get a = s.get a ^^^ s.get b := by rw [hget₁ a ha, if_pos rfl]
    have h₁b : s₁.get b = s.get b := by rw [hget₁ b hb, if_neg hab.symm]
    have h₂a : s₂.get a = s.get a ^^^ s.get b := by rw [hget₂ a ha, if_neg hab, h₁a]
    have h₂b : s₂.get b = s.get a := by
      rw [hget₂ b hb, if_pos rfl, h₁a, h₁b, xor_xor_right]
    by_cases hra : r = a
    · rw [hra, hget₃ a ha, if_pos rfl, h₂a, h₂b, BitVec.xor_comm (s.get a), xor_xor_right,
        Equiv.swap_apply_left]
    · by_cases hrb : r = b
      · rw [hrb, hget₃ b hb, if_neg hab.symm, h₂b, Equiv.swap_apply_right]
      · rw [hget₃ r hr, if_neg hra, hget₂ r hr, if_neg hrb, hget₁ r hr, if_neg hra,
          Equiv.swap_apply_of_ne_of_ne hra hrb]

/-- The words on the lines. -/
def words (s : St) (i : Fin 8) : BitVec 32 := s.get (dataReg i)

/-- **One comparator.** The words are exchanged if they are out of order, in five instructions, and
else the exchange is skipped, in two. -/
theorem goes_cmpEx {c : Fin 8 × Fin 8} {rest : List Instr}
    (hcode : CodeAt image p (cmpEx c ++ rest)) (hpc : s.pc.toNat = 4 * p)
    (hfit : 4 * (p + 5) < 2 ^ 32) :
    ∃ s', Goes image p 5 (2 + 3 * if (words s c.2).toInt < (words s c.1).toInt then 1 else 0) s s' ∧
      s'.pc.toNat = 4 * (p + 5) ∧ words s' = exchange BitVec.toInt c (words s) ∧
      ∀ r, Spare r → s'.get r = s.get r := by
  have hcode₂ := CodeAt.right (a := [.SLT tmpReg (dataReg c.2) (dataReg c.1)]) hcode
  have hcode₃ := CodeAt.right (a := [.BEQ tmpReg x0 skipImm]) hcode₂
  have htmp : tmpReg ≠ 0 := by decide
  obtain ⟨s₁, hgoes₁, hpc₁, hget₁⟩ := goes_write hcode hpc (by omega) rfl
  have hskip : (s₁.pc + bOffset skipImm).toNat = 4 * (p + 5) := by
    have hoff : (bOffset skipImm).toNat = 16 := by decide
    rw [BitVec.toNat_add, hpc₁, hoff]
    omega
  obtain ⟨s₂, hgoes₂, hpc₂, hget₂⟩ := goes_branch hcode₂ hpc₁ (by simp; omega) fun _ => hskip
  have hgoes := (hgoes₁.widen (q := p) (m := 5) le_rfl (by omega)).trans
    (hgoes₂.widen (q := p) (m := 5) (by simp) (by simp))
  have hlines (i : Fin 8) : s₂.get (dataReg i) = words s i := by
    rw [hget₂, hget₁ _ (dataReg_ne_zero i), if_neg (dataReg_ne_tmpReg i), words]
  have hspare (r : Fin 32) (hr : Spare r) : s₂.get r = s.get r := by
    by_cases hr0 : r = 0
    · rw [hr0, St.get_zero, St.get_zero]
    · rw [hget₂, hget₁ r hr0, if_neg hr.1]
  have hcmp : s₁.get tmpReg = s₁.get x0 ↔ ¬(words s c.2).toInt < (words s c.1).toInt := by
    rw [hget₁ _ htmp, if_pos rfl, St.get_zero, ← BitVec.slt_iff_toInt_lt, words, words]
    split_ifs with h
    · simp [h]
    · simp [h]
  by_cases hlt : (words s c.2).toInt < (words s c.1).toInt
  · -- the exchange
    rw [if_neg fun h => hcmp.1 h hlt] at hpc₂
    have hne : c.1 ≠ c.2 := fun h => by rw [h] at hlt; exact lt_irrefl _ hlt
    obtain ⟨s₃, hgoes₃, hpc₃, hget₃⟩ := goes_exchange (dataReg_ne_zero _) (dataReg_ne_zero _)
      (dataReg_injective.ne hne) hcode₃ hpc₂ (by simp; omega)
    rw [exchange, if_pos hlt, if_pos hlt]
    refine ⟨s₃, hgoes.trans (hgoes₃.widen (by simp; omega) (by simp)), hpc₃, ?_, fun r hr => ?_⟩
    · funext i
      rw [words, hget₃, ← dataReg_injective.map_swap, hlines]
      rfl
    · rw [hget₃, Equiv.swap_apply_of_ne_of_ne (hr.2 _) (hr.2 _), hspare r hr]
  · rw [if_pos (hcmp.2 hlt)] at hpc₂
    rw [exchange, if_neg hlt, if_neg hlt]
    exact ⟨s₂, hgoes, hpc₂, funext hlines, hspare⟩

/-! ### Networks -/

/-- The number of instructions that the program of a network executes. -/
def duration (net : List (Fin 8 × Fin 8)) (v : Fin 8 → BitVec 32) : ℕ :=
  2 * net.length + 3 * swaps BitVec.toInt net v

theorem duration_le (net : List (Fin 8 × Fin 8)) (v : Fin 8 → BitVec 32) :
    duration net v ≤ 5 * net.length := by
  have := swaps_le BitVec.toInt net v
  rw [duration]
  omega

/-- **The program computes the network**, wherever it lies. -/
theorem goes_emit {net : List (Fin 8 × Fin 8)} (hcode : CodeAt image p (emit net))
    (hpc : s.pc.toNat = 4 * p) (hfit : 4 * (p + 5 * net.length) < 2 ^ 32) :
    ∃ s', Goes image p (5 * net.length) (duration net (words s)) s s' ∧
      s'.pc.toNat = 4 * (p + 5 * net.length) ∧
      words s' = runNet BitVec.toInt net (words s) ∧ ∀ r, Spare r → s'.get r = s.get r := by
  induction net generalizing p s with
  | nil => exact ⟨s, .refl s, hpc, rfl, fun _ _ => rfl⟩
  | cons c net ih =>
    rw [List.length_cons] at hfit ⊢
    obtain ⟨s₁, hgoes₁, hpc₁, hwords₁, hspare₁⟩ := goes_cmpEx hcode hpc (by omega)
    obtain ⟨s₂, hgoes₂, hpc₂, hwords₂, hspare₂⟩ :=
      ih (CodeAt.right (a := cmpEx c) hcode) hpc₁ (by rw [length_cmpEx]; omega)
    rw [length_cmpEx] at hgoes₂ hpc₂
    have hk : duration (c :: net) (words s) =
        (2 + 3 * if (words s c.2).toInt < (words s c.1).toInt then 1 else 0) +
          duration net (words s₁) := by
      rw [hwords₁, duration, duration, swaps, List.length_cons]
      omega
    refine ⟨s₂, ?_, by rw [hpc₂]; omega, by rw [hwords₂, hwords₁]; rfl,
      fun r hr => (hspare₂ r hr).trans (hspare₁ r hr)⟩
    rw [hk]
    exact (hgoes₁.widen le_rfl (by omega)).trans (hgoes₂.widen (by omega) (by omega))

/-! ### Sorting -/

/-- The signed order on words. -/
def wle (a b : BitVec 32) : Prop := a.toInt ≤ b.toInt

/-- The output is sorted, as signed numbers, and it is a permutation of the input. -/
def SortsTo (input output : List (BitVec 32)) : Prop := output.Pairwise wle ∧ input.Perm output

/-- The network sorts every vector of bits. -/
def Sorts (net : List (Fin 8 × Fin 8)) : Prop := ∀ v : Fin 8 → Bool, Monotone (runNet id net v)

theorem sorts_batcher8 : Sorts batcher8 :=
  have hbits : SortsBits batcher8 := by decide +kernel
  hbits.monotone

theorem sortsTo_ofFn_iff {v w : Fin 8 → BitVec 32} : SortsTo (List.ofFn v) (List.ofFn w) ↔
    (∀ i j, i ≤ j → (w i).toInt ≤ (w j).toInt) ∧ (List.ofFn v).Perm (List.ofFn w) := by
  refine and_congr_left fun _ => List.pairwise_ofFn.trans ⟨fun h i j hij => ?_, fun h i j hij => ?_⟩
  · obtain rfl | hlt := hij.eq_or_lt
    · exact le_rfl
    · exact h hlt
  · exact h i j hij.le

/-- A network that sorts bits sorts words. -/
theorem sortsTo_runNet {net : List (Fin 8 × Fin 8)} (hnet : Sorts net) (v : Fin 8 → BitVec 32) :
    SortsTo (List.ofFn v) (List.ofFn (runNet BitVec.toInt net v)) := by
  refine sortsTo_ofFn_iff.2 ⟨fun i j hij => zero_one hnet BitVec.toInt v hij, ?_⟩
  obtain ⟨σ, hσ⟩ := runNet_exists_perm BitVec.toInt net v
  rw [hσ]
  exact (Equiv.Perm.ofFn_comp_perm σ v).symm

/-- A network that sorts the words `0` and `1` sorts bits. -/
theorem sorts_of_sortsTo {net : List (Fin 8 × Fin 8)}
    (h : ∀ v, SortsTo (List.ofFn v) (List.ofFn (runNet BitVec.toInt net v))) : Sorts net := by
  intro v
  have hpos : Monotone fun x : ℤ => decide (0 < x) := fun x y hxy hx => by
    simp only [decide_eq_true_eq] at hx ⊢
    omega
  have hv : v = (fun x : ℤ => decide (0 < x)) ∘
      (BitVec.toInt ∘ fun i => bif v i then 1#32 else 0#32) := by
    funext i
    cases hi : v i <;> simp [hi]
  rw [hv, ← monotone_comp_runNet hpos, ← key_comp_runNet]
  exact hpos.comp fun i j hij => (sortsTo_ofFn_iff.1 (h _)).1 i j hij

/-- The state with the words `v` in the registers of the lines. -/
def withWords (v : Fin 8 → BitVec 32) (s : St) : St :=
  { s with regs := .ofFn fun r => if h : 1 ≤ r.val ∧ r.val < 9 then v ⟨r.val - 1, by omega⟩ else 0 }

theorem words_withWords (v : Fin 8 → BitVec 32) (s : St) : words (withWords v s) = v := by
  funext i
  rw [words, St.get, if_neg (dataReg_ne_zero i)]
  have hi : 1 ≤ (dataReg i).val ∧ (dataReg i).val < 9 := by
    simp only [dataReg]
    omega
  simp [withWords, dataReg]

/-- **The executive sorts.** Wherever the program of a network lies, and whatever the registers
hold, the program ends after two instructions for each comparator and three for each exchange; it
uses one register beside its lines, and no memory. Where nothing stands behind the program, the
executive then stands still. It sorts every eight words if and only if the network sorts bits. -/
theorem runForW_emit {net : List (Fin 8 × Fin 8)} (hcode : CodeAt image p (emit net))
    (hfit : 4 * (p + 5 * net.length) < 2 ^ 32) :
    (∀ s : St, s.pc.toNat = 4 * p → ∃ s',
      runForW (duration net (words s)) (image.map encode) s = s' ∧
      (∀ t < duration net (words s), Inside p (5 * net.length) (runForW t (image.map encode) s)) ∧
      s'.pc.toNat = 4 * (p + 5 * net.length) ∧
      (∀ r, Spare r → s'.get r = s.get r) ∧ s'.mem = s.mem ∧ s'.trapped = s.trapped ∧
      (image.length = p + 5 * net.length → ∀ n, duration net (words s) ≤ n →
        runForW n (image.map encode) s = s')) ∧
    ((∀ s : St, s.pc.toNat = 4 * p → SortsTo (List.ofFn (words s))
        (List.ofFn (words (runForW (duration net (words s)) (image.map encode) s)))) ↔
      Sorts net) := by
  have hrun (t : ℕ) (s : St) : runForW t (image.map encode) s = (tick image)^[t] s := by
    rw [runForW_map, runFor_eq_iterate]
  have hwords (s : St) (hpc : s.pc.toNat = 4 * p) :
      words (runForW (duration net (words s)) (image.map encode) s) =
        runNet BitVec.toInt net (words s) := by
    obtain ⟨s', hgoes, -, hwords, -⟩ := goes_emit hcode hpc hfit
    rw [hrun, hgoes.leads.arrives, hwords]
  refine ⟨fun s hpc => ?_, fun h => sorts_of_sortsTo fun v => ?_, fun hnet s hpc => ?_⟩
  · obtain ⟨s', hgoes, hpc', -, hspare⟩ := goes_emit hcode hpc hfit
    refine ⟨s', ?_, fun t ht => ?_, hpc', hspare, hgoes.mem, hgoes.trapped, fun hend n hn => ?_⟩
    · rw [hrun, hgoes.leads.arrives]
    · rw [hrun]
      exact hgoes.leads.inside t ht
    · have hstop : fetch image s'.pc = none := by
        rw [fetch, if_pos (by omega), List.getElem?_eq_none]
        omega
      have hfix : tick image s' = s' := by
        rw [tick, hstop]
        rfl
      rw [hrun, hgoes.leads.iterate_of_le hn, Function.iterate_fixed hfix]
  · -- the state with these words and `pc` at the program
    have hpc : (withWords v ⟨.replicate 32 0#32, BitVec.ofNat 32 (4 * p), .replicate 8 0#32,
        false⟩).pc.toNat = 4 * p := by
      simp only [withWords, BitVec.toNat_ofNat]
      omega
    have hsorts := h _ hpc
    rw [hwords _ hpc, words_withWords] at hsorts
    exact hsorts
  · rw [hwords s hpc]
    exact sortsTo_runNet hnet _

/-- Eight words out of order in `x1` to `x8`. -/
def unsorted : St where
  regs := #v[0, 3, -1, 7, 0, -5, 2, 9, -2, 0, 0, 0, 0, 0, 0, 0, 0, 0, 0, 0, 0, 0, 0, 0, 0, 0, 0, 0,
    0, 0, 0, 0]
  pc := 0#32
  mem := .replicate 8 0#32
  trapped := false

/-- `batcherSort` sorts them in 87 instructions. -/
theorem runForW_emit_batcherSort :
    SortsTo [3, -1, 7, 0, -5, 2, 9, -2]
      (List.ofFn (words (runForW 87 batcherSortWords unsorted))) := by
  have hduration : duration batcher8 (words unsorted) = 87 := by decide
  have hsorts := (runForW_emit (p := 0) (CodeAt.self batcherSort) (by decide)).2.2 sorts_batcher8
    unsorted rfl
  rwa [hduration] at hsorts

end Saltworks.Stack
