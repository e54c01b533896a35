import Mathlib.Data.Fintype.Pi
import Mathlib.Logic.Equiv.Basic
import Mathlib.Order.BooleanAlgebra.Defs
import Mathlib.Order.Fin.Basic
import Mathlib.Order.Monotone.Basic

/-!
# Comparator networks

A comparator `(a, b)` puts the item with the smaller key on line `a` and the other one on line
`b`, and leaves equal keys where they are. A network is a list of comparators.

## Main definitions

* `exchange`, `runNet`: one comparator and a network, on items with keys in a linear order.
* `SortsBits`: the check on vectors of bits, done on numbers.
* `through`, `lanes`: a network of elements with state.

## Main results

* `runNet_exists_perm`: a network permutes its items.
* `key_comp_runNet`: the keys are permuted as they would be on their own.
* `carries_lanes`: a network of elements carries the items that the network makes of its inputs.
* `zero_one`: a network that sorts every vector of bits sorts every vector of items by key.
-/

namespace SortingNetwork

variable {n : ℕ} {β α : Type*} [LinearOrder α]

/-- A comparator. -/
def exchange (key : β → α) (c : Fin n × Fin n) (v : Fin n → β) : Fin n → β :=
  if key (v c.2) < key (v c.1) then v ∘ Equiv.swap c.1 c.2 else v

/-- A network, its comparators from left to right. -/
def runNet (key : β → α) (cs : List (Fin n × Fin n)) (v : Fin n → β) : Fin n → β :=
  cs.foldl (fun v c => exchange key c v) v

@[simp] theorem runNet_nil (key : β → α) (v : Fin n → β) : runNet key [] v = v := rfl

theorem runNet_concat (key : β → α) (cs : List (Fin n × Fin n)) (c : Fin n × Fin n)
    (v : Fin n → β) : runNet key (cs ++ [c]) v = exchange key c (runNet key cs v) := by
  simp [runNet]

/-! ### What a comparator does line by line -/

theorem exchange_fst (key : β → α) (c : Fin n × Fin n) (v : Fin n → β) :
    exchange key c v c.1 = if key (v c.2) < key (v c.1) then v c.2 else v c.1 := by
  rw [exchange]
  split_ifs <;> simp

theorem exchange_snd (key : β → α) (c : Fin n × Fin n) (v : Fin n → β) :
    exchange key c v c.2 = if key (v c.2) < key (v c.1) then v c.1 else v c.2 := by
  rw [exchange]
  split_ifs <;> simp

theorem exchange_of_ne (key : β → α) {c : Fin n × Fin n} (v : Fin n → β) {l : Fin n}
    (h1 : l ≠ c.1) (h2 : l ≠ c.2) : exchange key c v l = v l := by
  rw [exchange]
  split_ifs
  · rw [Function.comp_apply, Equiv.swap_apply_of_ne_of_ne h1 h2]
  · rfl

/-! ### Permutation -/

theorem exchange_exists_perm (key : β → α) (c : Fin n × Fin n) (v : Fin n → β) :
    ∃ σ : Equiv.Perm (Fin n), exchange key c v = v ∘ σ := by
  rw [exchange]
  split_ifs
  · exact ⟨_, rfl⟩
  · exact ⟨Equiv.refl _, rfl⟩

/-- A network permutes its items. -/
theorem runNet_exists_perm (key : β → α) (cs : List (Fin n × Fin n)) (v : Fin n → β) :
    ∃ σ : Equiv.Perm (Fin n), runNet key cs v = v ∘ σ := by
  induction cs using List.reverseRecOn with
  | nil => exact ⟨Equiv.refl _, rfl⟩
  | append_singleton cs c ih =>
    obtain ⟨σ, hσ⟩ := ih
    obtain ⟨τ, hτ⟩ := exchange_exists_perm key c (runNet key cs v)
    rw [runNet_concat, hτ, hσ]
    exact ⟨τ.trans σ, rfl⟩

/-! ### Keys -/

theorem key_comp_exchange (key : β → α) (c : Fin n × Fin n) (v : Fin n → β) :
    key ∘ exchange key c v = exchange id c (key ∘ v) := by
  simp only [exchange, Function.comp_apply, id_eq]
  split_ifs <;> rfl

/-- The keys behind a network are those that it makes of the keys alone. -/
theorem key_comp_runNet (key : β → α) (cs : List (Fin n × Fin n)) (v : Fin n → β) :
    key ∘ runNet key cs v = runNet id cs (key ∘ v) := by
  induction cs using List.reverseRecOn with
  | nil => rfl
  | append_singleton cs c ih => rw [runNet_concat, runNet_concat, key_comp_exchange, ih]

/-- A comparator commutes with a monotone map of the keys. -/
theorem monotone_comp_exchange {α' : Type*} [LinearOrder α'] {g : α → α'} (hg : Monotone g)
    (c : Fin n × Fin n) (w : Fin n → α) : g ∘ exchange id c w = exchange id c (g ∘ w) := by
  funext l
  by_cases h : w c.2 < w c.1
  · by_cases h' : g (w c.2) < g (w c.1)
    · simp only [exchange, id_eq, Function.comp_apply, if_pos h, if_pos h']
    · have heq : g (w c.1) = g (w c.2) := le_antisymm (not_lt.1 h') (hg h.le)
      simp only [exchange, id_eq, Function.comp_apply, if_pos h, if_neg h']
      by_cases h1 : l = c.1
      · rw [h1, Equiv.swap_apply_left, heq]
      · by_cases h2 : l = c.2
        · rw [h2, Equiv.swap_apply_right, heq]
        · rw [Equiv.swap_apply_of_ne_of_ne h1 h2]
  · have h' : ¬g (w c.2) < g (w c.1) := not_lt.2 (hg (not_lt.1 h))
    simp only [exchange, id_eq, Function.comp_apply, if_neg h, if_neg h']

theorem monotone_comp_runNet {α' : Type*} [LinearOrder α'] {g : α → α'} (hg : Monotone g)
    (cs : List (Fin n × Fin n)) (w : Fin n → α) :
    g ∘ runNet id cs w = runNet id cs (g ∘ w) := by
  induction cs using List.reverseRecOn with
  | nil => rfl
  | append_singleton cs c ih => rw [runNet_concat, runNet_concat, monotone_comp_exchange hg, ih]

/-! ### The zero-one principle -/

/-- A network that sorts every vector of bits sorts every vector of items by key. -/
theorem zero_one {cs : List (Fin n × Fin n)}
    (hbits : ∀ w : Fin n → Bool, Monotone (runNet id cs w)) (key : β → α) (v : Fin n → β) :
    Monotone (key ∘ runNet key cs v) := by
  rw [key_comp_runNet]
  intro l m hlm
  by_contra hlt
  have hlt := not_le.1 hlt
  -- the threshold at the greater of the two outputs that are out of order
  have hg : Monotone fun a : α => decide (runNet id cs (key ∘ v) l ≤ a) := fun a b hab h => by
    simp only [decide_eq_true_eq] at h ⊢
    exact h.trans hab
  have hmono := hbits ((fun a => decide (runNet id cs (key ∘ v) l ≤ a)) ∘ (key ∘ v)) hlm
  rw [← monotone_comp_runNet hg] at hmono
  have hl := hmono (by simp)
  simp only [Function.comp_apply, decide_eq_true_eq] at hl
  exact absurd hlt (not_lt.2 hl)

/-! ### Vectors of bits as numbers -/

/-- A comparator on the bits of a number. -/
def exchangeBits (c : Fin n × Fin n) (m : ℕ) : ℕ :=
  if m.testBit c.1 && !m.testBit c.2 then m ^^^ (2 ^ c.1.val ^^^ 2 ^ c.2.val) else m

theorem testBit_exchangeBits {c : Fin n × Fin n} (hc : c.1 ≠ c.2) (m : ℕ) (l : Fin n) :
    (exchangeBits c m).testBit l = exchange id c (fun l => m.testBit l) l := by
  have hval {a b : Fin n} (h : a ≠ b) : a.val ≠ b.val := fun hv => h (Fin.ext hv)
  have hlt : m.testBit c.2 < m.testBit c.1 ↔ (m.testBit c.1 && !m.testBit c.2) = true := by
    cases m.testBit c.1 <;> cases m.testBit c.2 <;> decide
  simp only [exchangeBits, exchange, id_eq, hlt]
  split_ifs with h
  · obtain ⟨ha, hb⟩ : m.testBit c.1 = true ∧ m.testBit c.2 = false := by simpa using h
    rw [Nat.testBit_xor, Nat.testBit_xor, Function.comp_apply]
    by_cases h1 : l = c.1
    · rw [h1, Equiv.swap_apply_left, Nat.testBit_two_pow_self,
        Nat.testBit_two_pow_of_ne (hval hc.symm), ha, hb]
      rfl
    · by_cases h2 : l = c.2
      · rw [h2, Equiv.swap_apply_right, Nat.testBit_two_pow_self,
          Nat.testBit_two_pow_of_ne (hval hc), ha, hb]
        rfl
      · rw [Equiv.swap_apply_of_ne_of_ne h1 h2, Nat.testBit_two_pow_of_ne (hval h1).symm,
          Nat.testBit_two_pow_of_ne (hval h2).symm, Bool.xor_false, Bool.xor_false]
  · rfl

/-- A network sorts the bits of every number of `n` bits. -/
def SortsBits (cs : List (Fin n × Fin n)) : Prop :=
  (∀ c ∈ cs, c.1 ≠ c.2) ∧ ∀ m < 2 ^ n, ∀ l < n - 1,
    (cs.foldl (fun m c => exchangeBits c m) m).testBit l = true →
      (cs.foldl (fun m c => exchangeBits c m) m).testBit (l + 1) = true

instance (cs : List (Fin n × Fin n)) : Decidable (SortsBits cs) :=
  @instDecidableAnd _ _ (List.decidableBAll _ cs) (Nat.decidableBallLT _ _)

theorem testBit_foldl_exchangeBits {cs : List (Fin n × Fin n)} (hcs : ∀ c ∈ cs, c.1 ≠ c.2)
    (m : ℕ) (l : Fin n) : (cs.foldl (fun m c => exchangeBits c m) m).testBit l =
      runNet id cs (fun l => m.testBit l) l := by
  induction cs using List.reverseRecOn generalizing l with
  | nil => rfl
  | append_singleton cs c ih =>
    have hcs' : ∀ c ∈ cs, c.1 ≠ c.2 := fun c hc => hcs c (List.mem_append_left _ hc)
    rw [List.foldl_append, List.foldl_cons, List.foldl_nil, runNet_concat,
      testBit_exchangeBits (hcs c (by simp)), funext (ih hcs')]

/-- The check on numbers decides what the zero-one principle asks for. -/
theorem SortsBits.monotone {cs : List (Fin n × Fin n)} (h : SortsBits cs) (w : Fin n → Bool) :
    Monotone (runNet id cs w) := by
  have hw : w = fun l : Fin n => (Nat.ofBits w).testBit l :=
    funext fun l => (Nat.testBit_ofBits_lt w l l.isLt).symm
  rw [hw]
  rcases n with _ | n
  · exact fun l => l.elim0
  refine Fin.monotone_iff_le_succ.2 fun l hl => ?_
  rw [← testBit_foldl_exchangeBits h.1] at hl ⊢
  exact h.2 _ (Nat.ofBits_lt_two_pow w) l l.isLt hl

/-! ### Networks of elements

An element is a comparator realized by a machine: in cycle `u` element `j` turns what its two
lines carry into what they carry behind it, `out u j`. If each element does to the streams of a
cycle range what a comparator does to the items they stand for, so does the network. -/

section Elements

variable {L : Type*}

/-- The lines behind an element on the lines of a comparator. -/
def through (out : L → L → L × L) (c : Fin n × Fin n) (w : Fin n → L) : Fin n → L := fun l =>
  if l = c.1 then (out (w c.1) (w c.2)).1
  else if l = c.2 then (out (w c.1) (w c.2)).2
  else w l

/-- The lines behind elements `e, e + 1, …` on a list of comparators. -/
def lanes (out : ℕ → L → L → L × L) : ℕ → List (Fin n × Fin n) → (Fin n → L) → Fin n → L
  | _, [], w => w
  | e, c :: cs, w => lanes out (e + 1) cs (through (out e) c w)

theorem through_fst (out : L → L → L × L) (c : Fin n × Fin n) (w : Fin n → L) :
    through out c w c.1 = (out (w c.1) (w c.2)).1 := if_pos rfl

theorem through_snd (out : L → L → L × L) {c : Fin n × Fin n} (hc : c.1 ≠ c.2) (w : Fin n → L) :
    through out c w c.2 = (out (w c.1) (w c.2)).2 := by
  rw [through, if_neg hc.symm, if_pos rfl]

theorem through_of_ne (out : L → L → L × L) {c : Fin n × Fin n} (w : Fin n → L) {l : Fin n}
    (h1 : l ≠ c.1) (h2 : l ≠ c.2) : through out c w l = w l := by
  rw [through, if_neg h1, if_neg h2]

theorem lanes_concat (out : ℕ → L → L → L × L) (e : ℕ) (cs : List (Fin n × Fin n))
    (c : Fin n × Fin n) (w : Fin n → L) :
    lanes out e (cs ++ [c]) w = through (out (e + cs.length)) c (lanes out e cs w) := by
  induction cs generalizing e w with
  | nil => rfl
  | cons c' cs ih =>
    rw [List.cons_append, lanes, ih, lanes, List.length_cons, Nat.add_right_comm, Nat.add_assoc]

variable {out : ℕ → ℕ → L → L → L × L} {w : ℕ → Fin n → L} {cs : List (Fin n × Fin n)}
  {key : β → α} {v : Fin n → β} {Carries : β → (ℕ → L) → Prop}

/-- If the inputs carry items, and every element carries on the items of its lines, exchanged by
key, then the outputs carry the items that the network makes of them. -/
theorem carries_lanes (hcs : ∀ c ∈ cs, c.1 ≠ c.2) (hv : ∀ l, Carries (v l) (fun u => w u l))
    (helem : ∀ pre c post, cs = pre ++ c :: post → ∀ x y,
      Carries x (fun u => lanes (out u) 0 pre (w u) c.1) →
      Carries y (fun u => lanes (out u) 0 pre (w u) c.2) →
      Carries (if key y < key x then y else x)
          (fun u => (out u pre.length (lanes (out u) 0 pre (w u) c.1)
            (lanes (out u) 0 pre (w u) c.2)).1) ∧
        Carries (if key y < key x then x else y)
          (fun u => (out u pre.length (lanes (out u) 0 pre (w u) c.1)
            (lanes (out u) 0 pre (w u) c.2)).2)) (l : Fin n) :
    Carries (runNet key cs v l) (fun u => lanes (out u) 0 cs (w u) l) := by
  induction cs using List.reverseRecOn generalizing l with
  | nil => exact hv l
  | append_singleton cs c ih =>
    have ih := ih (fun c hc => hcs c (List.mem_append_left _ hc)) fun pre c' post h =>
      helem pre c' (post ++ [c]) (by rw [h, List.append_assoc, List.cons_append])
    obtain ⟨h1, h2⟩ := helem cs c [] rfl _ _ (ih c.1) (ih c.2)
    simp only [lanes_concat, runNet_concat, Nat.zero_add]
    by_cases hl1 : l = c.1
    · simpa only [hl1, through_fst, exchange_fst] using h1
    · by_cases hl2 : l = c.2
      · have hc := hcs c (by simp)
        simpa only [hl2, through_snd _ hc, exchange_snd] using h2
      · simpa only [through_of_ne _ _ hl1 hl2, exchange_of_ne _ _ hl1 hl2] using ih l

end Elements

end SortingNetwork
