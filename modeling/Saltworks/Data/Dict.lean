import Mathlib.Data.List.Nodup
import Mathlib.Tactic.Common

/-!
# Dictionaries

A dictionary keeps its entries in the order in which their keys were first set and holds at most
one entry for a key. Setting a key that is present replaces the value in its old place, as
`d[k] = v` does in Python.

* `Dict.get?_set` says what every key reads after a key has been set.
* `Dict.get?_ofList` says what a dictionary made from a list of settings reads.
* `Dict.mem_items_iff` identifies the entries with the lookups that succeed.

## Main definitions

* `Dict`, `Dict.get?`, `Dict.set`, `Dict.ofList`.
-/

/-- A finite map that remembers the order in which its keys were first set. -/
structure Dict (K V : Type*) where
  items : List (K × V)
  nodup : (items.map Prod.fst).Nodup
  deriving DecidableEq

namespace Dict

variable {K V : Type*} [DecidableEq K]

/-- The value of a key, if it has one. -/
def get? (d : Dict K V) (k : K) : Option V :=
  d.items.lookup k

/-- The dictionary with no entry. -/
def empty : Dict K V := ⟨[], List.nodup_nil⟩

/-- The entries with the value of `k` replaced in place, or with `k` added at the end. -/
def setItems (k : K) (v : V) : List (K × V) → List (K × V)
  | [] => [(k, v)]
  | e :: es => if e.1 = k then (k, v) :: es else e :: setItems k v es

theorem mem_keys_setItems {k : K} {v : V} {es : List (K × V)} {k' : K} :
    k' ∈ (setItems k v es).map Prod.fst ↔ k' = k ∨ k' ∈ es.map Prod.fst := by
  induction es with
  | nil => simp [setItems]
  | cons e es ih =>
    rw [setItems]
    split_ifs with h
    · rw [List.map_cons, List.map_cons, List.mem_cons, List.mem_cons, h]
      tauto
    · rw [List.map_cons, List.map_cons, List.mem_cons, List.mem_cons, ih]
      tauto

theorem nodup_setItems {k : K} {v : V} {es : List (K × V)} (h : (es.map Prod.fst).Nodup) :
    ((setItems k v es).map Prod.fst).Nodup := by
  induction es with
  | nil => exact List.nodup_singleton k
  | cons e es ih =>
    rw [List.map_cons, List.nodup_cons] at h
    rw [setItems]
    split_ifs with hk
    · rw [List.map_cons, List.nodup_cons, ← hk]
      exact h
    · rw [List.map_cons, List.nodup_cons, mem_keys_setItems]
      exact ⟨fun hmem => hmem.elim hk h.1, ih h.2⟩

/-- Give `k` the value `v`. -/
def set (d : Dict K V) (k : K) (v : V) : Dict K V :=
  ⟨setItems k v d.items, nodup_setItems d.nodup⟩

/-- The dictionary of a list of settings, made from left to right. -/
def ofList (es : List (K × V)) : Dict K V :=
  es.foldl (fun d e => d.set e.1 e.2) empty

theorem lookup_setItems (k k' : K) (v : V) (es : List (K × V)) :
    (setItems k v es).lookup k' = if k' = k then some v else es.lookup k' := by
  induction es with
  | nil => grind [setItems]
  | cons e es ih =>
    rw [setItems]
    split_ifs with hk hk' hk' <;> grind

/-- Setting a key changes what that key reads and nothing else. -/
theorem get?_set (d : Dict K V) (k k' : K) (v : V) :
    (d.set k v).get? k' = if k' = k then some v else d.get? k' :=
  lookup_setItems k k' v d.items

@[simp] theorem get?_empty (k : K) : (empty : Dict K V).get? k = none := rfl

theorem mem_of_lookup {es : List (K × V)} {k : K} {v : V} (h : es.lookup k = some v) :
    (k, v) ∈ es := by
  induction es with
  | nil => cases h
  | cons e es ih => grind

theorem lookup_of_mem {es : List (K × V)} (hnd : (es.map Prod.fst).Nodup) {k : K} {v : V}
    (h : (k, v) ∈ es) : es.lookup k = some v := by
  induction es with
  | nil => cases h
  | cons e es ih =>
    rw [List.map_cons, List.nodup_cons] at hnd
    rcases List.mem_cons.mp h with rfl | hmem
    · simp
    · have hne : k ≠ e.1 := fun hk => hnd.1 (hk ▸ List.mem_map_of_mem (f := Prod.fst) hmem)
      rw [List.lookup_cons, beq_eq_false_iff_ne.mpr hne]
      exact ih hnd.2 hmem

/-- Where no key stands twice, the order of the entries does not matter to a lookup. -/
theorem lookup_eq_of_perm {es es' : List (K × V)} (h : es.Perm es')
    (hnd : (es.map Prod.fst).Nodup) (k : K) : es.lookup k = es'.lookup k := by
  have hnd' : (es'.map Prod.fst).Nodup := (h.map Prod.fst).nodup_iff.mp hnd
  ext v
  constructor
  · intro hv
    exact lookup_of_mem hnd' (h.mem_iff.mp (mem_of_lookup hv))
  · intro hv
    exact lookup_of_mem hnd (h.mem_iff.mpr (mem_of_lookup hv))

theorem lookup_eq_none_iff {es : List (K × V)} {k : K} :
    es.lookup k = none ↔ k ∉ es.map Prod.fst := by
  induction es with
  | nil => simp
  | cons e es ih => grind

/-- In a dictionary made from a list of settings every key reads its last setting. -/
theorem get?_ofList (es : List (K × V)) (k : K) : (ofList es).get? k = es.reverse.lookup k := by
  have key (d : Dict K V) : (es.foldl (fun d e => d.set e.1 e.2) d).get? k =
      (es.reverse.lookup k).or (d.get? k) := by
    induction es generalizing d with
    | nil => rfl
    | cons e es ih =>
      rw [List.foldl_cons, ih, get?_set, List.reverse_cons, List.lookup_append]
      split_ifs with hk <;> grind
  rw [ofList, key, get?_empty, Option.or_none]

theorem get?_ofList_eq_some {es : List (K × V)} (hnd : (es.map Prod.fst).Nodup) {k : K} {v : V} :
    (ofList es).get? k = some v ↔ (k, v) ∈ es := by
  rw [get?_ofList, ← List.mem_reverse]
  refine ⟨mem_of_lookup, lookup_of_mem ?_⟩
  rwa [List.map_reverse, List.nodup_reverse]

theorem get?_ofList_eq_none {es : List (K × V)} {k : K} :
    (ofList es).get? k = none ↔ k ∉ es.map Prod.fst := by
  rw [get?_ofList, lookup_eq_none_iff, List.map_reverse, List.mem_reverse]

/-- The entries are the keys that read a value, each with the value it reads. -/
theorem mem_items_iff {d : Dict K V} {k : K} {v : V} : (k, v) ∈ d.items ↔ d.get? k = some v :=
  ⟨lookup_of_mem d.nodup, mem_of_lookup⟩

end Dict
