import Mathlib.Computability.Language
import Mathlib.Data.List.Basic
import Mathlib.Data.List.TakeWhile
import Mathlib.Order.CompletePartialOrder
import Mathlib.Tactic.Common

/-!
# Lexical rules

A lexical rule takes the longest word of a language in front of a text. Words are mostly a first
character and further ones, each of a class, and then the longest word ends where the class does.

* `Longest.unique`: a text begins with one longest word.
* `longest_of_within`, `Longest.head?`: a longest word and the character behind it.
* `takeWhile_eq_iff`: when `takeWhile` takes a word.

## Main definitions

* `Lexical.one`, `Lexical.word`: words by classes of characters.
* `Lexical.Longest`: the longest word in front of a text.
* `Lexical.within`, `Lexical.begins`: words over a class, and words that begin in it.
-/

namespace Lexical

open Computability

variable {α : Type*} {p q first more : α → Prop} {l m : Language α} {w w' rest rest' : List α}

/-! ### Words -/

/-- A single character of a class. -/
def one (p : α → Prop) : Language α := {w | ∃ c, p c ∧ w = [c]}

/-- A first character and any number of further ones. -/
def word (first more : α → Prop) : Language α := one first * (one more)∗

/-- All characters are in the class. -/
def within (p : α → Prop) : Language α := {w | ∀ c ∈ w, p c}

/-- The first character is in the class. -/
def begins (p : α → Prop) : Language α := {w | ∃ c cs, w = c :: cs ∧ p c}

theorem mem_kstar_one : w ∈ (one p)∗ ↔ ∀ c ∈ w, p c := by
  rw [Language.mem_kstar]
  constructor
  · rintro ⟨parts, rfl, hparts⟩ c hc
    obtain ⟨part, hpart, hc⟩ := List.mem_flatten.mp hc
    obtain ⟨d, hd, rfl⟩ := hparts part hpart
    rw [List.mem_singleton.mp hc]
    exact hd
  · intro h
    refine ⟨w.map fun c => [c], ?_, ?_⟩
    · rw [← List.flatMap_def, List.flatMap_singleton']
    · intro part hpart
      obtain ⟨c, hc, rfl⟩ := List.mem_map.mp hpart
      exact ⟨c, h c hc, rfl⟩

theorem mem_word : w ∈ word first more ↔ ∃ c cs, w = c :: cs ∧ first c ∧ ∀ d ∈ cs, more d := by
  rw [word, Language.mem_mul]
  constructor
  · rintro ⟨-, ⟨c, hc, rfl⟩, cs, hcs, rfl⟩
    exact ⟨c, cs, rfl, hc, mem_kstar_one.mp hcs⟩
  · rintro ⟨c, cs, rfl, hc, hcs⟩
    exact ⟨[c], ⟨c, hc, rfl⟩, cs, mem_kstar_one.mpr hcs, rfl⟩

/-! ### Words over a class -/

theorem one_le_within (h : ∀ c, p c → q c) : one p ≤ within q := by
  rintro - ⟨c, hc, rfl⟩ d hd
  rw [List.mem_singleton.mp hd]
  exact h c hc

theorem nil_le_within : 1 ≤ within p := by
  intro w hw
  rw [(Language.mem_one w).mp hw]
  exact fun c hc => absurd hc List.not_mem_nil

theorem mul_le_within (hl : l ≤ within p) (hm : m ≤ within p) : l * m ≤ within p := by
  intro w hw
  obtain ⟨a, ha, b, hb, rfl⟩ := Language.mem_mul.mp hw
  exact List.forall_mem_append.mpr ⟨hl ha, hm hb⟩

theorem add_le_within (hl : l ≤ within p) (hm : m ≤ within p) : l + m ≤ within p := by
  intro w hw
  exact ((Language.mem_add l m w).mp hw).elim (fun h => hl h) fun h => hm h

theorem word_le_within (hfirst : ∀ c, first c → p c) (hmore : ∀ c, more c → p c) :
    word first more ≤ within p := by
  intro w hw
  obtain ⟨c, cs, rfl, hc, hcs⟩ := mem_word.mp hw
  exact List.forall_mem_cons.mpr ⟨hfirst c hc, fun d hd => hmore d (hcs d hd)⟩

/-! ### Words that begin in a class -/

theorem one_le_begins (h : ∀ c, p c → q c) : one p ≤ begins q := by
  rintro - ⟨c, hc, rfl⟩
  exact ⟨c, [], rfl, h c hc⟩

theorem mul_le_begins (hl : l ≤ begins p) : l * m ≤ begins p := by
  intro w hw
  obtain ⟨a, ha, b, -, rfl⟩ := Language.mem_mul.mp hw
  obtain ⟨c, cs, rfl, hc⟩ := hl ha
  exact ⟨c, cs ++ b, rfl, hc⟩

theorem add_le_begins (hl : l ≤ begins p) (hm : m ≤ begins p) : l + m ≤ begins p := by
  intro w hw
  exact ((Language.mem_add l m w).mp hw).elim (fun h => hl h) fun h => hm h

/-! ### Longest words -/

/-- The word is the longest one of the language in front of a text. -/
def Longest (l : Language α) (w rest : List α) : Prop :=
  w ∈ l ∧ ∀ x, x <+: rest → w ++ x ∈ l → x = []

theorem Longest.unique (h : Longest l w rest) (h' : Longest l w' rest')
    (heq : w ++ rest = w' ++ rest') : w = w' := by
  rcases List.append_eq_append_iff.mp heq with ⟨x, rfl, hx⟩ | ⟨x, rfl, hx⟩
  · rw [h.2 x (hx ▸ List.prefix_append x rest') h'.1, List.append_nil]
  · rw [h'.2 x (hx ▸ List.prefix_append x rest) h.1, List.append_nil]

/-- A word is the longest one where its language is over a class that ends behind it. -/
theorem longest_of_within (hw : w ∈ l) (hl : l ≤ within p) (hrest : ∀ c ∈ rest.head?, ¬ p c) :
    Longest l w rest := by
  refine ⟨hw, fun x hx hword => ?_⟩
  cases x with
  | nil => rfl
  | cons c x =>
    obtain ⟨z, rfl⟩ := hx
    exact absurd (hl hword c (List.mem_append_right _ List.mem_cons_self)) (hrest c rfl)

/-- What stands behind a longest word does not continue it. -/
theorem Longest.head? (h : Longest l w rest) (hl : ∀ c, p c → w ++ [c] ∈ l) :
    ∀ c ∈ rest.head?, ¬ p c := by
  intro c hc hp
  obtain ⟨cs, rfl⟩ := List.head?_eq_some_iff.mp hc
  exact absurd (h.2 [c] ⟨cs, rfl⟩ (hl c hp)) (List.cons_ne_nil c [])

/-! ### Words that are taken -/

theorem takeWhile_eq_iff {p : α → Bool} : (w ++ rest).takeWhile p = w ↔
    (∀ c ∈ w, p c) ∧ ∀ c ∈ rest.head?, p c = false := by
  induction w with
  | nil => cases rest <;> simp [List.takeWhile_cons]
  | cons c w ih =>
    rw [List.cons_append, List.takeWhile_cons, List.forall_mem_cons]
    by_cases hc : p c
    · rw [if_pos hc, List.cons_inj_right, ih]
      simp [hc]
    · simp [hc]

/-- What `takeWhile` has taken is taken again in front of a character that ends it. -/
theorem takeWhile_takeWhile_append {p : α → Bool} {c : α} (hc : p c = false) (w rest : List α) :
    (w.takeWhile p ++ c :: rest).takeWhile p = w.takeWhile p := by
  refine takeWhile_eq_iff.mpr ⟨fun d hd => List.mem_takeWhile_imp hd, fun d hd => ?_⟩
  cases hd
  exact hc

/-- What is left where `takeWhile` takes a word. -/
theorem dropWhile_eq {p : α → Bool} (h : (w ++ rest).takeWhile p = w) :
    (w ++ rest).dropWhile p = rest := by
  have happend := List.takeWhile_append_dropWhile (p := p) (l := w ++ rest)
  rw [h] at happend
  exact List.append_cancel_left happend

end Lexical
