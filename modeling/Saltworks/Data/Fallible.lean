import Mathlib.Data.List.Basic
import Mathlib.Data.List.Forall2
import Mathlib.Data.List.Perm.Basic
import Mathlib.Data.Nat.Basic
import Mathlib.Tactic.Common

/-!
# Computations that can raise an exception

A computation in `Except ε`, or in `StateT σ (Except ε)` where it also keeps a state, either
raises or returns. These are the rules by which a run that returns is taken apart.

* `Fallible.bind_eq_ok` and `Fallible.run_bind_eq_ok` cut a run at a bind.
* `Fallible.foldlM_invariant` is the induction rule of a loop over a list.
* `Fallible.forall₂_of_mapM` relates a list to the results of a call on each of its members.
* `Fallible.Keeps` and `Fallible.Computes` say what a run that returns has kept and what a run
  with enough depth returns; their rules follow the binds and the loops over a list.
* `Fallible.Follows` says that a computation makes requests in an order, which decide whether it
  returns or how it fails.

## Main definitions

* `Fallible.Keeps`, `Fallible.Computes`, `Fallible.Follows`.
-/

namespace Fallible

universe u v

variable {ε : Type u} {σ α β : Type v}

/-! ### Exceptions -/

theorem bind_eq_ok {m : Except ε α} {f : α → Except ε β} {b : β} (h : (m >>= f) = .ok b) :
    ∃ a, m = .ok a ∧ f a = .ok b := by
  cases m with
  | error e => cases h
  | ok a => exact ⟨a, rfl, h⟩

theorem map_eq_ok {m : Except ε α} {f : α → β} {b : β} (h : f <$> m = .ok b) :
    ∃ a, m = .ok a ∧ f a = b := by
  cases m with
  | error e => cases h
  | ok a => exact ⟨a, rfl, Except.ok.inj h⟩

theorem mapError_eq_ok {ε' : Type*} {f : ε → ε'} {m : Except ε α} {a : α}
    (h : m.mapError f = .ok a) : m = .ok a := by
  cases m with
  | error e => cases h
  | ok b =>
    cases h
    rfl

/-- A property that every iteration of a loop keeps holds after a loop that returns. -/
theorem foldlM_invariant {f : β → α → Except ε β} {P : β → Prop} {as : List α} {b b' : β}
    (hstep : ∀ a ∈ as, ∀ b b', P b → f b a = .ok b' → P b') (hb : P b)
    (h : as.foldlM f b = .ok b') : P b' := by
  induction as generalizing b with
  | nil => cases h; exact hb
  | cons a as ih =>
    rw [List.foldlM_cons] at h
    obtain ⟨b₁, h₁, h⟩ := bind_eq_ok h
    exact ih (fun a ha => hstep a (List.mem_cons_of_mem _ ha))
      (hstep a List.mem_cons_self b b₁ hb h₁) h

/-- A loop that returns has passed every member of its list. -/
theorem exists_foldlM_of_mem {f : β → α → Except ε β} {as : List α} {b b' : β} {a : α}
    (ha : a ∈ as) (h : as.foldlM f b = .ok b') :
    ∃ (b₁ b₂ : β) (rest : List α), f b₁ a = .ok b₂ ∧ rest.foldlM f b₂ = .ok b' := by
  induction as generalizing b with
  | nil => cases ha
  | cons a' as ih =>
    rw [List.foldlM_cons] at h
    obtain ⟨b₁, h₁, hrest⟩ := bind_eq_ok h
    rcases List.mem_cons.mp ha with rfl | ha
    · exact ⟨b, b₁, as, h₁, hrest⟩
    · exact ih ha hrest

/-- The results of a call on each member of a list. -/
theorem forall₂_of_mapM {f : α → Except ε β} {as : List α} {bs : List β}
    (h : as.mapM f = .ok bs) : List.Forall₂ (fun a b => f a = .ok b) as bs := by
  induction as generalizing bs with
  | nil => cases h; exact .nil
  | cons a as ih =>
    rw [List.mapM_cons] at h
    obtain ⟨b, hb, h⟩ := bind_eq_ok h
    obtain ⟨bs', hbs, h⟩ := bind_eq_ok h
    cases h
    exact .cons hb (ih hbs)

theorem mapM_of_forall₂ {f : α → Except ε β} {as : List α} {bs : List β}
    (h : List.Forall₂ (fun a b => f a = .ok b) as bs) : as.mapM f = .ok bs := by
  induction h with
  | nil => rfl
  | cons hab _ ih =>
    rw [List.mapM_cons, hab, ih]
    rfl

/-- Every call of a loop that returns has returned one of the results. -/
theorem exists_mem_of_mapM {f : α → Except ε β} {as : List α} {bs : List β}
    (h : as.mapM f = .ok bs) {a : α} (ha : a ∈ as) : ∃ b ∈ bs, f a = .ok b := by
  induction as generalizing bs with
  | nil => cases ha
  | cons a' as ih =>
    rw [List.mapM_cons] at h
    obtain ⟨b, hb, h⟩ := bind_eq_ok h
    obtain ⟨bs', hbs, h⟩ := bind_eq_ok h
    cases h
    rcases List.mem_cons.mp ha with rfl | ha
    · exact ⟨b, List.mem_cons_self, hb⟩
    · obtain ⟨c, hc, hac⟩ := ih hbs ha
      exact ⟨c, List.mem_cons_of_mem b hc, hac⟩

theorem mapM_congr {m : Type v → Type u} [Monad m] [LawfulMonad m] {f g : α → m β} {as : List α}
    (h : ∀ a ∈ as, f a = g a) : as.mapM f = as.mapM g := by
  induction as with
  | nil => rfl
  | cons a as ih =>
    rw [List.mapM_cons, List.mapM_cons, h a List.mem_cons_self,
      ih fun a ha => h a (List.mem_cons_of_mem _ ha)]

/-- Calls on the members of a list return whatever the order of the members. -/
theorem mapM_perm {f : α → Except ε β} {as as' : List α} {bs : List β} (hperm : as.Perm as')
    (h : as.mapM f = .ok bs) : ∃ bs', as'.mapM f = .ok bs' ∧ bs.Perm bs' := by
  obtain ⟨bs', hbs', hperm'⟩ := List.perm_comp_forall₂ hperm.symm (forall₂_of_mapM h)
  exact ⟨bs', mapM_of_forall₂ hbs', hperm'.symm⟩

/-! ### Exceptions with a state -/

theorem run_bind_eq_ok {m : StateT σ (Except ε) α} {f : α → StateT σ (Except ε) β} {s s' : σ}
    {b : β} (h : (m >>= f) s = .ok (b, s')) :
    ∃ a s₁, m s = .ok (a, s₁) ∧ f a s₁ = .ok (b, s') := by
  obtain ⟨p, hp, h⟩ := bind_eq_ok (m := m s) h
  exact ⟨p.1, p.2, hp, h⟩

theorem run_pure_eq_ok {a b : α} {s s' : σ}
    (h : (pure a : StateT σ (Except ε) α) s = .ok (b, s')) : b = a ∧ s' = s := by
  cases h
  exact ⟨rfl, rfl⟩

theorem run_throw_ne_ok {e : ε} {s : σ} {p : α × σ} :
    (throw e : StateT σ (Except ε) α) s ≠ .ok p := by
  intro h
  cases h

theorem run_get_bind (f : σ → StateT σ (Except ε) α) (s : σ) : (get >>= f) s = f s s := rfl

/-! ### Runs that keep an invariant of the state -/

section Invariant

variable {I : σ → Prop}

/-- Every run from a state that meets the invariant ends, where it returns, in such a state and
with a result in `P`. -/
def Keeps (I : σ → Prop) (m : StateT σ (Except ε) α) (P : α → Prop) : Prop :=
  ∀ s a s', I s → m s = .ok (a, s') → I s' ∧ P a

theorem Keeps.pure {a : α} {P : α → Prop} (h : P a) :
    Keeps I (pure a : StateT σ (Except ε) α) P := by
  intro s b s' hs hrun
  obtain ⟨rfl, rfl⟩ := run_pure_eq_ok hrun
  exact ⟨hs, h⟩

theorem Keeps.throw {e : ε} {P : α → Prop} : Keeps I (throw e : StateT σ (Except ε) α) P := by
  intro s a s' _ hrun
  exact absurd hrun run_throw_ne_ok

theorem Keeps.get : Keeps I (get : StateT σ (Except ε) σ) I := by
  intro s a s' hs hrun
  cases hrun
  exact ⟨hs, hs⟩

theorem Keeps.bind {m : StateT σ (Except ε) α} {f : α → StateT σ (Except ε) β} {P : α → Prop}
    {Q : β → Prop} (hm : Keeps I m P) (hf : ∀ a, P a → Keeps I (f a) Q) :
    Keeps I (m >>= f) Q := by
  intro s b s' hs hrun
  obtain ⟨a, s₁, h₁, h₂⟩ := run_bind_eq_ok hrun
  obtain ⟨hs₁, ha⟩ := hm s a s₁ hs h₁
  exact hf a ha s₁ b s' hs₁ h₂

theorem Keeps.imp {m : StateT σ (Except ε) α} {P Q : α → Prop} (hm : Keeps I m P)
    (hPQ : ∀ a, P a → Q a) : Keeps I m Q :=
  fun s a s' hs hrun => (hm s a s' hs hrun).imp_right (hPQ a)

theorem Keeps.mapM {f : α → StateT σ (Except ε) β} {Q : α → β → Prop} {as : List α}
    (hf : ∀ a ∈ as, Keeps I (f a) (Q a)) : Keeps I (as.mapM f) (List.Forall₂ Q as) := by
  induction as with
  | nil => exact .pure .nil
  | cons a as ih =>
    rw [List.mapM_cons]
    refine (hf a List.mem_cons_self).bind fun b hb => ?_
    refine (ih fun a ha => hf a (List.mem_cons_of_mem _ ha)).bind fun bs hbs => ?_
    exact .pure (.cons hb hbs)

/-- Every run with enough depth from a state that meets the invariant returns `a` in such a
state. -/
def Computes (I : σ → Prop) (m : ℕ → StateT σ (Except ε) α) (a : α) : Prop :=
  ∃ k, ∀ depth ≥ k, ∀ s, I s → ∃ s', I s' ∧ m depth s = .ok (a, s')

theorem Computes.pure (a : α) :
    Computes I (fun _ => (pure a : StateT σ (Except ε) α)) a :=
  ⟨0, fun _ _ s hs => ⟨s, hs, rfl⟩⟩

theorem Computes.bind {m : ℕ → StateT σ (Except ε) α} {f : ℕ → α → StateT σ (Except ε) β} {a : α}
    {b : β} (hm : Computes I m a) (hf : Computes I (fun depth => f depth a) b) :
    Computes I (fun depth => m depth >>= f depth) b := by
  obtain ⟨k, hk⟩ := hm
  obtain ⟨k', hk'⟩ := hf
  refine ⟨max k k', fun depth hdepth s hs => ?_⟩
  obtain ⟨s₁, hs₁, h₁⟩ := hk depth (Nat.le_trans (Nat.le_max_left k k') hdepth) s hs
  obtain ⟨s₂, hs₂, h₂⟩ := hk' depth (Nat.le_trans (Nat.le_max_right k k') hdepth) s₁ hs₁
  refine ⟨s₂, hs₂, ?_⟩
  change (m depth s >>= fun p => f depth p.1 p.2) = _
  rw [h₁]
  exact h₂

/-- A computation that needs one level more than another. -/
theorem Computes.succ {m m' : ℕ → StateT σ (Except ε) α} {a : α} (hm : Computes I m a)
    (hm' : ∀ depth s, I s → (∃ s', I s' ∧ m depth s = .ok (a, s')) →
      ∃ s', I s' ∧ m' (depth + 1) s = .ok (a, s')) : Computes I m' a := by
  obtain ⟨k, hk⟩ := hm
  refine ⟨k + 1, fun depth hdepth s hs => ?_⟩
  obtain ⟨depth, rfl⟩ := Nat.exists_eq_succ_of_ne_zero (by omega : depth ≠ 0)
  exact hm' depth s hs (hk depth (by omega) s hs)

theorem Computes.mapM {f : ℕ → α → StateT σ (Except ε) β} {as : List α} {bs : List β}
    (h : List.Forall₂ (fun a b => Computes I (fun depth => f depth a) b) as bs) :
    Computes I (fun depth => as.mapM (f depth)) bs := by
  induction h with
  | nil => exact .pure []
  | cons hab _ ih =>
    simp only [List.mapM_cons]
    exact hab.bind (ih.bind (.pure _))

end Invariant

/-! ### Requests -/

section Requests

variable {ρ : Type*}

/-- Every run from a state that meets the invariant returns, in such a state and with a result in
`P`. -/
def Succeeds (I : σ → Prop) (m : StateT σ (Except ε) α) (P : α → Prop) : Prop :=
  ∀ s, I s → ∃ a s', m s = .ok (a, s') ∧ I s' ∧ P a

/-- Every run from a state that meets the invariant raises an exception in `E`. -/
def Fails (I : σ → Prop) (m : StateT σ (Except ε) α) (E : ε → Prop) : Prop :=
  ∀ s, I s → ∃ e, m s = .error e ∧ E e

/-- The first request that is not answered is broken. -/
def Breaks (answered broken : ρ → Prop) (xs : List ρ) : Prop :=
  ∃ l x r, xs = l ++ x :: r ∧ (∀ y ∈ l, answered y) ∧ broken x

/-- A computation makes the requests in their order: it returns where all are answered, and fails
where the first that is not answered is broken. -/
structure Follows (I : σ → Prop) (answered broken : ρ → Prop) (E : ε → Prop)
    (m : StateT σ (Except ε) α) (xs : List ρ) (P : α → Prop) : Prop where
  succeeds : (∀ x ∈ xs, answered x) → Succeeds I m P
  fails : Breaks answered broken xs → Fails I m E

variable {I : σ → Prop} {answered broken : ρ → Prop} {E : ε → Prop}
  {m : StateT σ (Except ε) α} {xs ys : List ρ}

theorem breaks_append (h : Breaks answered broken (xs ++ ys)) :
    Breaks answered broken xs ∨ (∀ x ∈ xs, answered x) ∧ Breaks answered broken ys := by
  obtain ⟨l, x, r, heq, hl, hx⟩ := h
  rcases List.append_eq_append_iff.mp heq with ⟨l', rfl, rfl⟩ | ⟨l', rfl, hsplit⟩
  · exact .inr ⟨fun y hy => hl y (List.mem_append_left _ hy), l', x, r, rfl,
      fun y hy => hl y (List.mem_append_right _ hy), hx⟩
  · cases l' with
    | nil =>
      rw [List.nil_append] at hsplit
      refine .inr ⟨fun y hy => hl y ?_, [], x, r, hsplit.symm, nofun, hx⟩
      rwa [List.append_nil] at hy
    | cons x' l' =>
      obtain ⟨rfl, rfl⟩ := List.cons.inj hsplit
      exact .inl ⟨l, x, l', rfl, hl, hx⟩

/-- Requests are all answered, or one of them is the first that is broken. -/
theorem answered_or_breaks (h : ∀ x ∈ xs, answered x ∨ broken x) :
    (∀ x ∈ xs, answered x) ∨ Breaks answered broken xs := by
  induction xs with
  | nil => exact .inl nofun
  | cons x xs ih =>
    obtain ⟨hx, hxs⟩ := List.forall_mem_cons.mp h
    rcases hx with hx | hx
    · rcases ih hxs with hall | ⟨l, y, r, rfl, hl, hy⟩
      · exact .inl (List.forall_mem_cons.mpr ⟨hx, hall⟩)
      · exact .inr ⟨x :: l, y, r, rfl, List.forall_mem_cons.mpr ⟨hx, hl⟩, hy⟩
    · exact .inr ⟨[], x, xs, rfl, nofun, hx⟩

theorem Succeeds.bind {f : α → StateT σ (Except ε) β} {P : α → Prop} {Q : β → Prop}
    (hm : Succeeds I m P) (hf : ∀ a, P a → Succeeds I (f a) Q) : Succeeds I (m >>= f) Q := by
  intro s hs
  obtain ⟨a, s₁, hrun, hs₁, ha⟩ := hm s hs
  obtain ⟨b, s₂, hrun', hs₂, hb⟩ := hf a ha s₁ hs₁
  refine ⟨b, s₂, ?_, hs₂, hb⟩
  change (m s >>= fun p => f p.1 p.2) = _
  rw [hrun]
  exact hrun'

theorem Fails.bind {f : α → StateT σ (Except ε) β} (hm : Fails I m E) : Fails I (m >>= f) E := by
  intro s hs
  obtain ⟨e, hrun, he⟩ := hm s hs
  refine ⟨e, ?_, he⟩
  change (m s >>= fun p => f p.1 p.2) = _
  rw [hrun]
  rfl

/-- What follows a computation that returns may fail. -/
theorem Succeeds.bind_fails {f : α → StateT σ (Except ε) β} {P : α → Prop} (hm : Succeeds I m P)
    (hf : ∀ a, P a → Fails I (f a) E) : Fails I (m >>= f) E := by
  intro s hs
  obtain ⟨a, s₁, hrun, hs₁, ha⟩ := hm s hs
  obtain ⟨e, hrun', he⟩ := hf a ha s₁ hs₁
  refine ⟨e, ?_, he⟩
  change (m s >>= fun p => f p.1 p.2) = _
  rw [hrun]
  exact hrun'

/-- A computation without requests. -/
theorem Follows.of_succeeds {P : α → Prop} (h : Succeeds I m P) :
    Follows I answered broken E m [] P where
  succeeds := fun _ => h
  fails := by
    rintro ⟨l, x, r, heq, -⟩
    cases l <;> cases heq

theorem Follows.pure {a : α} {P : α → Prop} (h : P a) :
    Follows I answered broken E (pure a : StateT σ (Except ε) α) [] P :=
  .of_succeeds fun s hs => ⟨a, s, rfl, hs, h⟩

theorem Follows.imp {P Q : α → Prop} (h : Follows I answered broken E m xs P)
    (hPQ : ∀ a, P a → Q a) : Follows I answered broken E m xs Q where
  succeeds := fun hxs s hs => by
    obtain ⟨a, s', hrun, hs', ha⟩ := h.succeeds hxs s hs
    exact ⟨a, s', hrun, hs', hPQ a ha⟩
  fails := h.fails

theorem Follows.bind {f : α → StateT σ (Except ε) β} {P : α → Prop} {Q : β → Prop}
    (hm : Follows I answered broken E m xs P)
    (hf : ∀ a, P a → Follows I answered broken E (f a) ys Q) :
    Follows I answered broken E (m >>= f) (xs ++ ys) Q where
  succeeds := fun h => (hm.succeeds fun x hx => h x (List.mem_append_left _ hx)).bind fun a ha =>
    (hf a ha).succeeds fun y hy => h y (List.mem_append_right _ hy)
  fails := by
    intro h
    rcases breaks_append h with hxs | ⟨hxs, hys⟩
    · exact (hm.fails hxs).bind
    · exact (hm.succeeds hxs).bind_fails fun a ha => (hf a ha).fails hys

theorem Follows.mapM {γ : Type v} {f : γ → StateT σ (Except ε) α} {g : γ → List ρ} {as : List γ}
    (h : ∀ a ∈ as, Follows I answered broken E (f a) (g a) fun _ => True) :
    Follows I answered broken E (as.mapM f) (as.flatMap g) fun _ => True := by
  induction as with
  | nil => exact .pure trivial
  | cons a as ih =>
    obtain ⟨ha, has⟩ := List.forall_mem_cons.mp h
    rw [List.mapM_cons, List.flatMap_cons]
    refine ha.bind fun b _ => ?_
    have hrest : Follows I answered broken E (do let bs ← as.mapM f; return b :: bs)
        (as.flatMap g ++ []) fun _ => True := (ih has).bind fun bs _ => .pure trivial
    rwa [List.append_nil] at hrest

end Requests

end Fallible
