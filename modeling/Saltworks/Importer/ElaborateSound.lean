import Saltworks.Importer.Drivers
import Saltworks.Importer.Program
import Mathlib.Data.List.Dedup

/-!
# Soundness of the elaboration

The elaboration is followed for any relation `R` between nets and values that is closed under
the rules by which a net is read (`Closed`): the memo, the gates and the indices that it returns
then show values that `R` relates to the nets.

## Main definitions

* `Closed`: a relation is kept by the rules by which a net is read.
* `Good`: the invariant of the elaboration.

## Main results

* `net_sound`, `rootValue_sound`, `stateRoot_sound`: what one call returns.
* `outIdx_sound`: what the output indices show.
* `elaborate_closed`: the datum shows values of every closed relation.
-/

namespace Saltworks.Importer

open Silicon Fallible

/-! ### Closed relations -/

/-- A net that is no primary input, no pinned net and no literal. -/
structure Source.Free (src : Source) (nm : Net) : Prop where
  input : nm ∉ src.inputs
  pinned : src.pinned.lookup nm = none
  literal : isLiteral nm = false

/-- The values of the nets on the pins of an instance. -/
def pinShows (R : Net → Bool → Prop) (conns : Dict Pin Net) (p : Pin) (b : Bool) : Prop :=
  ∃ nm, conns.get? p = some nm ∧ R nm b

/-- A relation between nets and values is kept by the rules by which a net is read, when primary
input `k` has the value `x k`. -/
structure Closed (src : Source) (x : ℕ → Bool) (R : Net → Bool → Prop) : Prop where
  input : ∀ k nm, src.inputs[k]? = some nm → R nm (x k)
  pinned : ∀ nm b, nm ∉ src.inputs → src.pinned.lookup nm = some b → R nm b
  literal : ∀ nm, nm ∉ src.inputs → src.pinned.lookup nm = none → isLiteral nm →
    R nm (literalValue nm)
  assign : ∀ nm r b, src.Free nm → src.assigns.lookup nm = some r → R r b → R nm b
  cell : ∀ nm inst e o b, src.Free nm → src.assigns.lookup nm = none →
    Drives src.insts nm inst e o → Yields (pinShows R inst.conns) e.ops o.2 b → R nm b

/-! ### The invariant -/

section Invariant

variable {src : Source} {x : ℕ → Bool} {R : Net → Bool → Prop}

/-- Index `i` is bound and shows the value `b`. -/
def Shows (x : ℕ → Bool) (s : Build) (i : ℕ) (b : Bool) : Prop :=
  i < s.gates.length ∧ s.gates.value x i = b

/-- The gates are in order behind the input gates, and every memo entry shows a value that is
related to its net. -/
structure Good (src : Source) (x : ℕ → Bool) (R : Net → Bool → Prop) (s : Build) : Prop where
  ordered : s.gates.Ordered
  inputsFirst : s.gates.InputsFirst src.inputs.length
  length_le : src.inputs.length ≤ s.gates.length
  leaf : ∀ nm ∈ src.inputs, s.idx.lookup nm ≠ none
  memo : ∀ nm i, s.idx.lookup nm = some i → ∃ b, Shows x s i b ∧ R nm b

/-- A later good state of an elaboration. -/
structure Grows (src : Source) (x : ℕ → Bool) (R : Net → Bool → Prop) (s s' : Build) : Prop where
  good : Good src x R s'
  gates : s.gates <+: s'.gates

theorem Shows.mono {s s' : Build} {i : ℕ} {b : Bool} (h : Shows x s i b)
    (hs : s.gates <+: s'.gates) : Shows x s' i b :=
  ⟨h.1.trans_le hs.length_le, by rw [Netlist.value_mono x hs h.1, h.2]⟩

theorem Good.grows_refl {s : Build} (h : Good src x R s) : Grows src x R s s :=
  ⟨h, List.prefix_rfl⟩

theorem Grows.trans {s s₁ s₂ : Build} (h₁ : Grows src x R s s₁) (h₂ : Grows src x R s₁ s₂) :
    Grows src x R s s₂ :=
  ⟨h₂.good, h₁.gates.trans h₂.gates⟩

/-- A call that returns the index of a value that `Q` admits. -/
def Returns (src : Source) (x : ℕ → Bool) (R : Net → Bool → Prop) (m : Elab ℕ)
    (Q : Bool → Prop) : Prop :=
  ∀ s i s', Good src x R s → m s = .ok (i, s') →
    Grows src x R s s' ∧ ∃ b, Shows x s' i b ∧ Q b

/-- Emitting a gate over bound indices shows the value of the gate. -/
theorem emit_sound {s s' : Build} {g : Gate} {i : ℕ} (hs : Good src x R s)
    (hops : ∀ a ∈ g.operands, a < s.gates.length) (hinp : ∀ k, g ≠ .inp k)
    (h : emit g s = .ok (i, s')) :
    Grows src x R s s' ∧ Shows x s' i (stepP x (runP x [] s.gates) g) := by
  cases h
  have hpre : s.gates <+: s.gates ++ [g] := List.prefix_append _ _
  refine ⟨⟨⟨Netlist.ordered_snoc hs.ordered hops,
    Netlist.inputsFirst_snoc hs.inputsFirst hs.length_le hinp,
    hs.length_le.trans hpre.length_le, hs.leaf, fun nm i hi => ?_⟩, hpre⟩, ?_⟩
  · obtain ⟨b, hb, hR⟩ := hs.memo nm i hi
    exact ⟨b, hb.mono hpre, hR⟩
  · exact ⟨by simp, Netlist.value_snoc x s.gates g⟩

/-- Binding a net to an index that shows a related value keeps the invariant. -/
theorem bindNet_sound {s s' : Build} {nm : Net} {i j : ℕ} {b : Bool} (hs : Good src x R s)
    (hi : Shows x s i b) (hR : R nm b) (h : bindNet nm i s = .ok (j, s')) :
    Grows src x R s s' ∧ Shows x s' j b := by
  cases h
  refine ⟨⟨⟨hs.ordered, hs.inputsFirst, hs.length_le, fun nm' hnm' => ?_, fun nm' i' hi' => ?_⟩,
    List.prefix_rfl⟩, hi⟩
  · have := hs.leaf nm' hnm'
    grind
  · rw [List.lookup_cons] at hi'
    split at hi'
    · rename_i heq
      rw [eq_of_beq heq, ← Option.some.inj hi']
      exact ⟨b, hi, hR⟩
    · exact hs.memo nm' i' hi'

theorem emit_bindNet_sound {nm : Net} {b : Bool} (hR : R nm b) :
    Returns src x R (do bindNet nm (← emit (.const b))) (R nm) := by
  intro s i s' hs h
  obtain ⟨j, s₁, hemit, hbind⟩ := run_bind_eq_ok h
  obtain ⟨hg₁, hj⟩ := emit_sound hs (by simp [Gate.operands]) (by simp) hemit
  obtain ⟨hg₂, hi⟩ := bindNet_sound hg₁.good hj hR hbind
  exact ⟨hg₁.trans hg₂, b, hi, hR⟩

/-! ### Programs -/

/-- The indices of the results show the values of the results. -/
def LocalsShow (x : ℕ → Bool) (s : Build) (locals : List (String × ℕ))
    (L : List (String × Bool)) : Prop :=
  List.Forall₂ (fun p q => p.1 = q.1 ∧ Shows x s p.2 q.2) locals L

theorem LocalsShow.mono {s s' : Build} {locals : List (String × ℕ)} {L : List (String × Bool)}
    (h : LocalsShow x s locals L) (hs : s.gates <+: s'.gates) : LocalsShow x s' locals L :=
  h.imp fun _ _ hpq => ⟨hpq.1, hpq.2.mono hs⟩

theorem LocalsShow.lookup_some {s : Build} {locals : List (String × ℕ)}
    {L : List (String × Bool)} (h : LocalsShow x s locals L) {a : String} {i : ℕ}
    (hi : locals.lookup a = some i) : ∃ b, L.lookup a = some b ∧ Shows x s i b := by
  induction h with
  | nil => cases hi
  | @cons p q _ _ hpq _ ih =>
    rw [List.lookup_cons] at hi ⊢
    rw [← hpq.1]
    split at hi
    · rename_i heq
      exact ⟨q.2, rfl, Option.some.inj hi ▸ hpq.2⟩
    · exact ih hi

theorem LocalsShow.lookup_none {s : Build} {locals : List (String × ℕ)}
    {L : List (String × Bool)} (h : LocalsShow x s locals L) {a : String}
    (hi : locals.lookup a = none) : L.lookup a = none := by
  induction h with
  | nil => rfl
  | @cons p q _ _ hpq _ ih =>
    rw [List.lookup_cons] at hi ⊢
    rw [← hpq.1]
    split at hi
    · cases hi
    · exact ih hi

section Program

variable {read : Net → Elab ℕ} {conns : Dict Pin Net} {L : List (String × Bool)}
  {locals : List (String × ℕ)}

theorem operand_sound (hread : ∀ nm, Returns src x R (read nm) (R nm)) {a : String}
    {s s' : Build} {i : ℕ} (hs : Good src x R s) (hL : LocalsShow x s locals L)
    (h : operand read conns locals a s = .ok (i, s')) :
    Grows src x R s s' ∧ ∃ b, Shows x s' i b ∧ ArgShows (pinShows R conns) L a b := by
  rw [operand] at h
  cases hj : locals.lookup a with
  | some j =>
    rw [hj] at h
    obtain ⟨rfl, rfl⟩ := run_pure_eq_ok h
    obtain ⟨b, hb, hi⟩ := hL.lookup_some hj
    exact ⟨hs.grows_refl, b, hi, Or.inl hb⟩
  | none =>
    cases hnm : conns.get? a with
    | some nm =>
      simp only [hj, hnm] at h
      obtain ⟨hg, b, hi, hR⟩ := hread nm s i s' hs h
      exact ⟨hg, b, hi, Or.inr ⟨hL.lookup_none hj, nm, hnm, hR⟩⟩
    | none =>
      simp only [hj, hnm] at h
      exact absurd h run_throw_ne_ok

/-- One step of a program shows the value of its result. -/
theorem runOp_sound (hread : ∀ nm, Returns src x R (read nm) (R nm)) {op : Op} {s s' : Build}
    {i : ℕ} (hs : Good src x R s) (hL : LocalsShow x s locals L)
    (h : runOp read conns locals op s = .ok (i, s')) :
    Grows src x R s s' ∧ ∃ b, Shows x s' i b ∧ OpShows (pinShows R conns) L op b := by
  cases op with
  | const t b =>
    obtain ⟨hg, hi⟩ := emit_sound hs (by simp [Gate.operands]) (by simp) h
    exact ⟨hg, b, hi, rfl⟩
  | buf t a => exact operand_sound hread hs hL h
  | not t a =>
    obtain ⟨j, s₁, hj, hemit⟩ := run_bind_eq_ok h
    obtain ⟨hg₁, b, hb, ha⟩ := operand_sound hread hs hL hj
    obtain ⟨hg₂, hi⟩ := emit_sound hg₁.good (by simpa [Gate.operands] using hb.1) (by simp) hemit
    refine ⟨hg₁.trans hg₂, !b, ⟨hi.1, ?_⟩, b, ha, rfl⟩
    rw [hi.2, stepP, ← hb.2]
    rfl
  | bin op t a a' =>
    obtain ⟨j, s₁, hj, h⟩ := run_bind_eq_ok h
    obtain ⟨j', s₂, hj', hemit⟩ := run_bind_eq_ok h
    obtain ⟨hg₁, b, hb, ha⟩ := operand_sound hread hs hL hj
    obtain ⟨hg₂, b', hb', ha'⟩ := operand_sound hread hg₁.good (hL.mono hg₁.gates) hj'
    have hb := hb.mono hg₂.gates
    obtain ⟨hg₃, hi⟩ := emit_sound hg₂.good
      (by cases op <;> simpa [BinOp.gate, Gate.operands] using ⟨hb.1, hb'.1⟩)
      (by cases op <;> simp [BinOp.gate]) hemit
    refine ⟨hg₁.trans (hg₂.trans hg₃), op.apply b b', ⟨hi.1, ?_⟩, b, b', ha, ha', rfl⟩
    rw [hi.2, ← hb.2, ← hb'.2]
    cases op <;> rfl

theorem runOps_sound (hread : ∀ nm, Returns src x R (read nm) (R nm)) {ops : List Op}
    {s s' : Build} {locals' : List (String × ℕ)} (hs : Good src x R s)
    (hL : LocalsShow x s locals L) (h : runOps read conns ops locals s = .ok (locals', s')) :
    Grows src x R s s' ∧
      ∃ L', LocalsShow x s' locals' L' ∧ Runs (pinShows R conns) ops L L' := by
  induction ops generalizing locals L s with
  | nil =>
    obtain ⟨rfl, rfl⟩ := run_pure_eq_ok h
    exact ⟨hs.grows_refl, L, hL, rfl⟩
  | cons op ops ih =>
    obtain ⟨i, s₁, hi, h⟩ := run_bind_eq_ok h
    obtain ⟨hg₁, b, hb, hop⟩ := runOp_sound hread hs hL hi
    obtain ⟨hg₂, L', hL', hrun⟩ := ih hg₁.good
      (.cons (b := (op.tmp, b)) ⟨rfl, hb⟩ (hL.mono hg₁.gates)) h
    exact ⟨hg₁.trans hg₂, L', hL', b, hop, hrun⟩

/-- The named result of a program shows the value that the program yields. -/
theorem result_sound (hread : ∀ nm, Returns src x R (read nm) (R nm)) {ops : List Op}
    {t : String} :
    Returns src x R (do result (← runOps read conns ops []) t)
      (Yields (pinShows R conns) ops t) := by
  intro s i s' hs h
  obtain ⟨locals, s₁, hrun, h⟩ := run_bind_eq_ok h
  obtain ⟨hg, L', hL', hruns⟩ := runOps_sound hread hs .nil hrun
  rw [result] at h
  cases hj : locals.lookup t with
  | some j =>
    rw [hj] at h
    obtain ⟨rfl, rfl⟩ := run_pure_eq_ok h
    obtain ⟨b, hb, hi⟩ := hL'.lookup_some hj
    exact ⟨hg, b, hi, L', hruns, hb⟩
  | none =>
    rw [hj] at h
    exact absurd h run_throw_ne_ok

/-- The index of a driven net shows what its driving cell yields. -/
theorem expandDriver_sound (hread : ∀ nm, Returns src x R (read nm) (R nm)) {inst : Inst}
    {nm : Net} :
    Returns src x R (expandDriver read inst nm) fun b => ∃ e, expansionFor inst.cell = some e ∧
      ∃ o ∈ e.outs, inst.conns.get? o.1 = some nm ∧
        Yields (pinShows R inst.conns) e.ops o.2 b := by
  intro s i s' hs h
  rw [expandDriver] at h
  cases he : expansionFor inst.cell with
  | none =>
    rw [he] at h
    exact absurd h run_throw_ne_ok
  | some e =>
    cases ho : e.outs.find? fun o => inst.conns.get? o.1 = some nm with
    | none =>
      simp only [he, ho] at h
      exact absurd h run_throw_ne_ok
    | some o =>
      simp only [he, ho] at h
      obtain ⟨hg, b, hi, hb⟩ := result_sound hread s i s' hs h
      exact ⟨hg, b, hi, e, rfl, o, List.mem_of_find?_eq_some ho,
        by simpa using List.find?_some ho, hb⟩

end Program

/-! ### Nets and roots -/

section Nets


/-- Every net that is read shows a value that a closed relation gives it. -/
theorem net_sound (hR : Closed src x R) (depth : ℕ)
    (resolving : List Net) (nm : Net) :
    Returns src x R (net src (allDrivers src.insts) depth resolving nm) (R nm) := by
  induction depth generalizing resolving nm with
  | zero =>
    intro s i s' _ h
    exact absurd h run_throw_ne_ok
  | succ depth ih =>
    intro s i s' hs h
    rw [net] at h
    obtain ⟨a, s₁, hget, h⟩ := run_bind_eq_ok h
    cases hget
    cases hidx : s.idx.lookup nm with
    | some j =>
      simp only [hidx] at h
      obtain ⟨rfl, rfl⟩ := run_pure_eq_ok h
      obtain ⟨b, hb, hnm⟩ := hs.memo nm _ hidx
      exact ⟨hs.grows_refl, b, hb, hnm⟩
    | none =>
      have hin : nm ∉ src.inputs := fun hmem => hs.leaf nm hmem hidx
      cases hpin : src.pinned.lookup nm with
      | some b =>
        simp only [hidx, hpin] at h
        exact emit_bindNet_sound (hR.pinned nm b hin hpin) s i s' hs h
      | none =>
        simp only [hidx, hpin] at h
        by_cases hlit : isLiteral nm
        · rw [if_pos hlit] at h
          exact emit_bindNet_sound (hR.literal nm hin hpin hlit) s i s' hs h
        · have hfree : src.Free nm := ⟨hin, hpin, by simpa using hlit⟩
          rw [if_neg hlit] at h
          cases hassign : src.assigns.lookup nm with
          | some r =>
            simp only [hassign] at h
            obtain ⟨hg, b, hi, hr⟩ := ih resolving r s i s' hs h
            exact ⟨hg, b, hi, hR.assign nm r b hfree hassign hr⟩
          | none =>
            cases hinst : (allDrivers src.insts).lookup nm with
            | none =>
              simp only [hassign, hinst] at h
              exact absurd h run_throw_ne_ok
            | some inst =>
              simp only [hassign, hinst] at h
              by_cases hres : nm ∈ resolving
              · rw [if_pos hres] at h
                exact absurd h run_throw_ne_ok
              · rw [if_neg hres] at h
                obtain ⟨j, s₁, hexp, hbind⟩ := run_bind_eq_ok h
                obtain ⟨hg₁, b, hj, e, he, o, ho, hconn, hb⟩ :=
                  expandDriver_sound (ih (nm :: resolving)) s j s₁ hs hexp
                obtain ⟨e', o', hd⟩ := drives_of_lookup hinst
                have hnm : R nm b := hR.cell nm inst e o b hfree hassign
                  ⟨hd.mem, hd.physical, hd.sequential, he, ho, hconn⟩ hb
                obtain ⟨hg₂, hi⟩ := bindNet_sound hg₁.good hj hnm hbind
                exact ⟨hg₁.trans hg₂, b, hi, hnm⟩

/-- The value of the logic that drives a cut net, behind at most one alias. -/
def RootShows (src : Source) (R : Net → Bool → Prop) (nm : Net) (b : Bool) : Prop :=
  ∃ inst e o, Drives src.insts ((src.assigns.lookup nm).getD nm) inst e o ∧
    Yields (pinShows R inst.conns) e.ops o.2 b

theorem rootValue_sound (hR : Closed src x R) (depth : ℕ) (nm : Net) :
    Returns src x R (rootValue src (allDrivers src.insts) depth nm) (RootShows src R nm) := by
  intro s i s' hs h
  rw [rootValue] at h
  cases hinst : (allDrivers src.insts).lookup ((src.assigns.lookup nm).getD nm) with
  | none =>
    simp only [hinst] at h
    exact absurd h run_throw_ne_ok
  | some inst =>
    simp only [hinst] at h
    obtain ⟨hg, b, hi, e, he, o, ho, hconn, hb⟩ :=
      expandDriver_sound (net_sound hR depth []) s i s' hs h
    obtain ⟨e', o', hd⟩ := drives_of_lookup hinst
    exact ⟨hg, b, hi, inst, e, o, ⟨hd.mem, hd.physical, hd.sequential, he, ho, hconn⟩, hb⟩

/-- The next state of a flop, by the net of its data pin or by its program. -/
def NextShows (R : Net → Bool → Prop) (f : Flop) (b : Bool) : Prop :=
  match f.d with
  | some d => R d b
  | none => ∃ last, f.model.next.getLast? = some last ∧
      Yields (pinShows R f.conns) f.model.next last.tmp b

theorem stateRoot_sound (hR : Closed src x R) (depth : ℕ) (f : Flop) :
    Returns src x R (stateRoot src (allDrivers src.insts) depth f) (NextShows R f) := by
  intro s i s' hs h
  rw [stateRoot] at h
  cases hd : f.d with
  | some d =>
    simp only [hd] at h
    simpa only [NextShows, hd] using net_sound hR depth [] d s i s' hs h
  | none =>
    cases hlast : f.model.next.getLast? with
    | none =>
      simp only [hd, hlast] at h
      exact absurd h run_throw_ne_ok
    | some last =>
      simp only [hd, hlast] at h
      obtain ⟨hg, b, hi, hb⟩ := result_sound (net_sound hR depth []) s i s' hs h
      refine ⟨hg, b, hi, ?_⟩
      rw [NextShows, hd]
      exact ⟨last, hlast, hb⟩

/-- A list of calls returns indices that show the values of the calls. -/
theorem mapM_sound {α : Type} {f : α → Elab ℕ} {Q : α → Bool → Prop} {as : List α}
    (hf : ∀ a, Returns src x R (f a) (Q a)) {s s' : Build} {is : List ℕ} (hs : Good src x R s)
    (h : as.mapM f s = .ok (is, s')) :
    Grows src x R s s' ∧ ∃ bs, List.Forall₂ (Shows x s') is bs ∧ List.Forall₂ Q as bs := by
  induction as generalizing s is with
  | nil =>
    obtain ⟨rfl, rfl⟩ := run_pure_eq_ok h
    exact ⟨hs.grows_refl, [], .nil, .nil⟩
  | cons a as ih =>
    rw [List.mapM_cons] at h
    obtain ⟨i, s₁, hi, h⟩ := run_bind_eq_ok h
    obtain ⟨is', s₂, his, h⟩ := run_bind_eq_ok h
    obtain ⟨rfl, rfl⟩ := run_pure_eq_ok h
    obtain ⟨hg₁, b, hb, hq⟩ := hf a s i s₁ hs hi
    obtain ⟨hg₂, bs, hbs, hqs⟩ := ih hg₁.good his
    exact ⟨hg₁.trans hg₂, b :: bs, .cons (hb.mono hg₂.gates) hbs, .cons hq hqs⟩

theorem Shows.forall₂_mono {s s' : Build} {is : List ℕ} {bs : List Bool}
    (h : List.Forall₂ (Shows x s) is bs) (hs : s.gates <+: s'.gates) :
    List.Forall₂ (Shows x s') is bs :=
  h.imp fun _ _ hib => hib.mono hs

theorem Shows.lt_of_forall₂ {s : Build} {is : List ℕ} {bs : List Bool}
    (h : List.Forall₂ (Shows x s) is bs) : ∀ i ∈ is, i < s.gates.length := by
  induction h with
  | nil => simp
  | cons hi _ ih => exact List.forall_mem_cons.mpr ⟨hi.1, ih⟩

theorem Shows.map_value_of_forall₂ {s : Build} {is : List ℕ} {bs : List Bool}
    (h : List.Forall₂ (Shows x s) is bs) : is.map (s.gates.value x) = bs := by
  induction h with
  | nil => rfl
  | cons hi _ ih => rw [List.map_cons, hi.2, ih]

/-- The output indices show the design outputs, the next states and the cut roots. -/
theorem outIdx_sound (hR : Closed src x R) {depth : ℕ}
    {outs : List Net} {auto : List Flop} {cuts : List Net} {s s' : Build} {is : List ℕ}
    (hs : Good src x R s)
    (h : outIdx src (allDrivers src.insts) depth outs auto cuts s = .ok (is, s')) :
    Grows src x R s s' ∧ ∃ os ss cs, List.Forall₂ (Shows x s') is (os ++ ss ++ cs) ∧
      List.Forall₂ R outs os ∧ List.Forall₂ (NextShows R) auto ss ∧
      List.Forall₂ (RootShows src R) cuts cs := by
  obtain ⟨is₁, s₁, h₁, h⟩ := run_bind_eq_ok h
  obtain ⟨is₂, s₂, h₂, h⟩ := run_bind_eq_ok h
  obtain ⟨is₃, s₃, h₃, h⟩ := run_bind_eq_ok h
  obtain ⟨rfl, rfl⟩ := run_pure_eq_ok h
  obtain ⟨hg₁, os, hos, hRos⟩ := mapM_sound (net_sound hR depth []) hs h₁
  obtain ⟨hg₂, ss, hss, hRss⟩ := mapM_sound (stateRoot_sound hR depth) hg₁.good h₂
  obtain ⟨hg₃, cs, hcs, hRcs⟩ := mapM_sound (rootValue_sound hR depth) hg₂.good h₃
  exact ⟨hg₁.trans (hg₂.trans hg₃), os, ss, cs,
    List.rel_append (List.rel_append (Shows.forall₂_mono hos (hg₂.gates.trans hg₃.gates))
      (Shows.forall₂_mono hss hg₃.gates)) hcs, hRos, hRss, hRcs⟩

end Nets

/-! ### The first state -/

/-- The input gates and the bindings of the primary inputs seen so far. -/
structure Seeded (done : List Net) (s : Build) : Prop where
  gates : s.gates = (List.range done.length).map Gate.inp
  idx : ∀ nm i, s.idx.lookup nm = some i ↔ done[i]? = some nm

theorem seedInputs_seeded {done : List Net} {nm : Net} {s : Build} (h : Seeded done s)
    (hnm : nm ∉ done) : Seeded (done ++ [nm]) (seedInputs s nm) := by
  have hlen : s.gates.length = done.length := by rw [h.gates]; simp
  refine ⟨?_, fun nm' i => ?_⟩
  · rw [seedInputs, h.gates]
    simp [List.range_succ]
  · rw [seedInputs, hlen, List.lookup_cons]
    by_cases heq : nm' = nm
    · rw [heq, beq_self_eq_true]
      have hnone : done[i]? ≠ some nm := fun hi => hnm (List.mem_of_getElem? hi)
      grind
    · rw [beq_eq_false_iff_ne.mpr heq, h.idx nm' i]
      grind

theorem foldl_seedInputs_seeded {todo done : List Net} {s : Build} (h : Seeded done s)
    (hnd : (done ++ todo).Nodup) : Seeded (done ++ todo) (todo.foldl seedInputs s) := by
  induction todo generalizing done s with
  | nil => rwa [List.append_nil]
  | cons nm todo ih =>
    rw [List.append_cons] at hnd ⊢
    have hnm : nm ∉ done := by grind
    exact ih (seedInputs_seeded h hnm) hnd

theorem nodup_of_duplicates_eq_nil {names : List Net} (h : duplicates names = []) :
    names.Nodup := by
  rw [List.nodup_iff_count_le_one]
  intro nm
  by_contra hlt
  have hmem : nm ∈ duplicates names := List.mem_filter.mpr
    ⟨List.mem_dedup.mpr (List.count_pos_iff.mp (by omega)), by simpa using hlt⟩
  rw [h] at hmem
  cases hmem

/-- The state in which the first net is read meets the invariant. -/
theorem Seeded.good (hR : Closed src x R) {s : Build} (h : Seeded src.inputs s) :
    Good src x R s := by
  have hget (k : ℕ) (g : Gate) : s.gates[k]? = some g ↔ k < src.inputs.length ∧ g = .inp k := by
    rw [h.gates, List.getElem?_map]
    grind
  refine ⟨fun k g hk => ?_, fun k i => ?_, by simp [h.gates], fun nm hnm => ?_,
    fun nm i hi => ?_⟩
  · rw [((hget k g).mp hk).2]
    simp [Gate.operands]
  · rw [hget, Gate.inp.injEq]
  · obtain ⟨i, hi⟩ := List.mem_iff_getElem?.mp hnm
    rw [(h.idx nm i).mpr hi]
    exact Option.some_ne_none i
  · have hin := (h.idx nm i).mp hi
    have hlt := (List.getElem?_eq_some_iff.mp hin).1
    refine ⟨x i, ⟨by simpa [h.gates] using hlt, ?_⟩, hR.input i nm hin⟩
    rw [Netlist.value_of_getElem? x ((hget i _).mpr ⟨hlt, rfl⟩), stepP]

/-- A build that does not refuse has a driver map and bound its primary inputs. -/
theorem build_eq_ok {drv : List (Net × Inst)} {s : Build} (h : build src = .ok (drv, s)) :
    drv = allDrivers src.insts ∧ Seeded src.inputs s := by
  rw [build] at h
  by_cases hdup : duplicates src.inputs = []
  · rw [if_neg (not_not.mpr hdup)] at h
    obtain ⟨drv', hdrv, h⟩ := bind_eq_ok h
    cases h
    have hempty : Seeded [] ⟨[], []⟩ := ⟨rfl, by simp⟩
    exact ⟨driver_eq_ok hdrv, foldl_seedInputs_seeded hempty (nodup_of_duplicates_eq_nil hdup)⟩
  · rw [if_pos hdup] at h
    cases h

/-- The primary inputs of a build that does not refuse are distinct. -/
theorem build_nodup {p : List (Net × Inst) × Build} (h : build src = .ok p) :
    src.inputs.Nodup := by
  rw [build] at h
  by_cases hdup : duplicates src.inputs = []
  · exact nodup_of_duplicates_eq_nil hdup
  · rw [if_pos hdup] at h
    cases h

theorem elaborate_eq_ok {depth : ℕ} {outs : List Net} {auto : List Flop} {cuts : List Net}
    {datum : Datum} (h : elaborate depth src outs auto cuts = .ok datum) :
    src.inputs.Nodup ∧ ∃ s₀ is s, Seeded src.inputs s₀ ∧
      outIdx src (allDrivers src.insts) depth outs auto cuts s₀ = .ok (is, s) ∧
      datum = ⟨s.gates, is⟩ := by
  rw [elaborate] at h
  obtain ⟨p, hbuild, h⟩ := bind_eq_ok h
  obtain ⟨q, hrun, h⟩ := bind_eq_ok h
  cases h
  obtain ⟨hdrv, hseed⟩ := build_eq_ok hbuild
  exact ⟨build_nodup hbuild, p.2, q.1, q.2, hseed, hdrv ▸ hrun, rfl⟩

/-! ### The whole datum -/

/-- The datum of an elaboration has its input gates in front and its operands in order, and its
outputs show values that a closed relation gives them. -/
theorem elaborate_closed (hR : Closed src x R) {depth : ℕ} {outs : List Net} {auto : List Flop}
    {cuts : List Net} {datum : Datum} (h : elaborate depth src outs auto cuts = .ok datum) :
    datum.gates.InputsFirst src.inputs.length ∧ datum.gates.Ordered ∧
      (∀ i ∈ datum.outs, i < datum.gates.length) ∧
      ∃ os ss cs, datum.outs.map (datum.gates.value x) = os ++ ss ++ cs ∧
        List.Forall₂ R outs os ∧ List.Forall₂ (NextShows R) auto ss ∧
        List.Forall₂ (RootShows src R) cuts cs := by
  obtain ⟨-, s₀, is, s, hseed, hrun, rfl⟩ := elaborate_eq_ok h
  obtain ⟨hg, os, ss, cs, hshow, hos, hss, hcs⟩ :=
    outIdx_sound hR (hseed.good hR) hrun
  exact ⟨hg.good.inputsFirst, hg.good.ordered, Shows.lt_of_forall₂ hshow, os, ss, cs,
    Shows.map_value_of_forall₂ hshow, hos, hss, hcs⟩

end Invariant

end Saltworks.Importer
