import Saltworks.Data.Fallible
import Saltworks.Importer.ElaborateSound
import Mathlib.Data.Finset.Card
import Mathlib.Logic.Relation
import Mathlib.Order.Filter.AtTopBot.Basic
import Mathlib.Order.Filter.Finite

/-!
# When the elaboration ends

The elaboration reads nets in a fixed order. A net is grounded when all that it is made from is. It
is refused where a driver is missing or a cell feeds itself, since the nets that are being resolved
are remembered. A chain of aliases is not remembered, and a pin without a net is not asked for: an
alias that leads back to itself is read without end, and a cell with an open input raises a
`KeyError`.

What the elaboration ends with is what the first net that is not grounded comes to. This is told
for a recursion limit that is large enough.

## Main definitions

* `Grounded`, `Stuck`: how the reading of a net ends.
* `rootReads`: the nets that the roots read, in order.
* `Diverts`: the first read that is not grounded is no refusal.

## Main results

* `grounded_or_stuck`: every net is grounded, is refused, or crashes.
* `Grounded.succeeds`, `Stuck.fails`: what the call does.
* `ends_iff`: the elaboration ends with a datum or a refusal iff it is not diverted.
-/

namespace Saltworks.Importer

open Fallible Filter

/-! ### What is read -/

/-- A request of a program: a net, something that is not there, or a cut without a driver. -/
inductive Read where
  | net (nm : Net)
  | missing
  | undriven
  deriving DecidableEq

/-- The nets on pins, in order. -/
def pinReads (conns : Dict Pin Net) (pins : List Pin) : List Read :=
  pins.map fun p => match conns.get? p with
    | some m => .net m
    | none => .missing

/-- The nets that a driving cell reads. -/
def cellReads (inst : Inst) : List Read :=
  match expansionFor inst.cell with
  | some e => pinReads inst.conns (pinsRead e.ops [])
  | none => []

/-- The nets that a state root reads. -/
def stateReads (f : Flop) : List Read :=
  match f.d with
  | some d => [.net d]
  | none => if f.model.next = [] then [.missing] else pinReads f.conns (pinsRead f.model.next [])

section Source

variable (src : Source)

/-- The nets that the root of a cut reads. -/
def cutReads (nm : Net) : List Read :=
  match (allDrivers src.insts).lookup ((src.assigns.lookup nm).getD nm) with
  | some inst => cellReads inst
  | none => [.undriven]

/-- The nets that the roots read. -/
def rootReads (outs : List Net) (auto : List Flop) (cuts : List Net) : List Read :=
  outs.map .net ++ auto.flatMap stateReads ++ cuts.flatMap (cutReads src)

/-! ### How it ends -/

/-- The aliases of a net lead nowhere but to aliases. -/
def AliasLoop (nm : Net) : Prop :=
  ∃ S : Set Net, nm ∈ S ∧ ∀ m ∈ S, src.Free m ∧ ∃ r ∈ S, src.assigns.lookup m = some r

/-- A net is made from leaves through aliases and connected cells. -/
inductive Grounded : Net → Prop
  | leaf {nm} (h : ¬ src.Free nm) : Grounded nm
  | copy {nm r} (hfree : src.Free nm) (hassign : src.assigns.lookup nm = some r)
      (h : Grounded r) : Grounded nm
  | cell {nm inst} (hfree : src.Free nm) (hnone : src.assigns.lookup nm = none)
      (hdrv : (allDrivers src.insts).lookup nm = some inst)
      (hpins : ∀ x ∈ cellReads inst, ∃ m, x = .net m)
      (h : ∀ m, .net m ∈ cellReads inst → Grounded m) : Grounded nm

/-- The request is a grounded net. -/
def Read.Grounded : Read → Prop
  | .net m => Importer.Grounded src m
  | .missing | .undriven => False

/-- The ways in which a net is not grounded: the importer refuses it, or reading it raises another
exception. -/
inductive Fault where
  | refusal
  | crash
  deriving DecidableEq

/-- A net that is read below the nets being resolved is not grounded. -/
inductive Stuck : Fault → List Net → Net → Prop
  | undriven {R nm} (hfree : src.Free nm) (hnone : src.assigns.lookup nm = none)
      (hdrv : (allDrivers src.insts).lookup nm = none) : Stuck .refusal R nm
  | cycle {R nm inst} (hfree : src.Free nm) (hnone : src.assigns.lookup nm = none)
      (hdrv : (allDrivers src.insts).lookup nm = some inst) (hmem : nm ∈ R) :
      Stuck .refusal R nm
  | loop {R nm} (hloop : AliasLoop src nm) : Stuck .crash R nm
  | copy {k R nm r} (hfree : src.Free nm) (hassign : src.assigns.lookup nm = some r)
      (h : Stuck k R r) : Stuck k R nm
  | missing {R nm inst l r} (hfree : src.Free nm) (hnone : src.assigns.lookup nm = none)
      (hdrv : (allDrivers src.insts).lookup nm = some inst) (hmem : nm ∉ R)
      (hreads : cellReads inst = l ++ .missing :: r) (hl : ∀ x ∈ l, x.Grounded src) :
      Stuck .crash R nm
  | cell {k R nm inst l m r} (hfree : src.Free nm) (hnone : src.assigns.lookup nm = none)
      (hdrv : (allDrivers src.insts).lookup nm = some inst) (hmem : nm ∉ R)
      (hreads : cellReads inst = l ++ .net m :: r) (hl : ∀ x ∈ l, x.Grounded src)
      (h : Stuck k (nm :: R) m) : Stuck k R nm

/-- The request of a root is not grounded. -/
def Read.Stuck (k : Fault) : Read → Prop
  | .net m => Importer.Stuck src k [] m
  | .missing => k = .crash
  | .undriven => k = .refusal

/-- The cell is known, or not a combinational one. -/
def Inst.Known (inst : Inst) : Prop :=
  isPhysical inst.cell || isSequential inst.cell || (expansionFor inst.cell).isSome

instance (inst : Inst) : Decidable inst.Known := inferInstanceAs (Decidable (_ = true))

/-- The build is not refused, and the first request that is not grounded is no refusal. -/
def Diverts (outs : List Net) (auto : List Flop) (cuts : List Net) : Prop :=
  src.inputs.Nodup ∧ (∀ inst ∈ src.insts, inst.Known) ∧
    Breaks (Read.Grounded src) (Read.Stuck src .crash) (rootReads src outs auto cuts)

end Source

/-- A run ends with a result or a refusal. -/
def Ends {α : Type} (result : Except Raised α) : Prop :=
  (∃ a, result = .ok a) ∨ ∃ message, result = .error (.systemExit message)

/-! ### Every net is grounded or stuck -/

section Cases

variable {src : Source} {nm m : Net} {R : List Net} {k : Fault}

theorem undriven_notMem_pinReads {conns : Dict Pin Net} {pins : List Pin} :
    .undriven ∉ pinReads conns pins := by
  intro hmem
  obtain ⟨p, -, hp⟩ := List.mem_map.mp hmem
  split at hp <;> cases hp

theorem undriven_notMem_cellReads {inst : Inst} : .undriven ∉ cellReads inst := by
  rw [cellReads]
  split
  · exact undriven_notMem_pinReads
  · exact List.not_mem_nil

/-- What a net is made from. -/
inductive Dep (src : Source) : Net → Net → Prop
  | copy {nm r} (hfree : src.Free nm) (hassign : src.assigns.lookup nm = some r) : Dep src nm r
  | cell {nm inst m} (hfree : src.Free nm) (hnone : src.assigns.lookup nm = none)
      (hdrv : (allDrivers src.insts).lookup nm = some inst)
      (hmem : .net m ∈ cellReads inst) : Dep src nm m

theorem Grounded.of_dep (h : Grounded src nm) (hdep : Dep src nm m) : Grounded src m := by
  cases hdep with
  | copy hfree hassign =>
    cases h with
    | leaf hleaf => exact absurd hfree hleaf
    | copy _ hassign' hr => exact Option.some.inj (hassign'.symm.trans hassign) ▸ hr
    | cell _ hnone => cases hnone.symm.trans hassign
  | cell hfree hnone hdrv hmem =>
    cases h with
    | leaf hleaf => exact absurd hfree hleaf
    | copy _ hassign' => cases hnone.symm.trans hassign'
    | cell _ _ hdrv' _ hm =>
      cases hdrv.symm.trans hdrv'
      exact hm _ hmem

/-- A grounded net is not made from itself. -/
theorem Grounded.irrefl (h : Grounded src nm) : ¬ Relation.TransGen (Dep src) nm nm := by
  have key {a : Net} (ih : ∀ m, Dep src a m → ¬ Relation.TransGen (Dep src) m m) :
      ¬ Relation.TransGen (Dep src) a a := by
    intro hloop
    obtain ⟨m, hdep, hrest⟩ := Relation.TransGen.head'_iff.mp hloop
    exact ih m hdep (.tail' hrest hdep)
  induction h with
  | leaf hleaf =>
    refine key fun m hdep => absurd ?_ hleaf
    cases hdep <;> assumption
  | copy hfree hassign h ih =>
    refine key fun m hdep => ?_
    cases hdep with
    | copy _ hassign' =>
      cases hassign.symm.trans hassign'
      exact ih
    | cell _ hnone => cases hnone.symm.trans hassign
  | cell hfree hnone hdrv hpins h ih =>
    refine key fun m hdep => ?_
    cases hdep with
    | copy _ hassign => cases hnone.symm.trans hassign
    | cell _ _ hdrv' hmem =>
      cases hdrv.symm.trans hdrv'
      exact ih m hmem

/-- Every net being resolved is made from the net that is read. -/
def Path (src : Source) (R : List Net) (nm : Net) : Prop :=
  ∀ r ∈ R, Relation.TransGen (Dep src) r nm

theorem Path.step (h : Path src R nm) (hdep : Dep src nm m) : Path src R m :=
  fun r hr => (h r hr).tail hdep

theorem Path.cons (h : Path src R nm) (hdep : Dep src nm m) : Path src (nm :: R) m :=
  List.forall_mem_cons.mpr ⟨.single hdep, h.step hdep⟩

theorem Grounded.notMem (h : Grounded src nm) (hpath : Path src R nm) : nm ∉ R :=
  fun hmem => h.irrefl (hpath nm hmem)

theorem Grounded.not_aliasLoop (h : Grounded src nm) : ¬ AliasLoop src nm := by
  rintro ⟨S, hmem, hS⟩
  induction h with
  | leaf hleaf => exact hleaf (hS _ hmem).1
  | copy _ hassign _ ih =>
    obtain ⟨-, r, hr, hassign'⟩ := hS _ hmem
    cases hassign.symm.trans hassign'
    exact ih hr
  | cell _ hnone =>
    obtain ⟨-, r, -, hassign⟩ := hS _ hmem
    cases hnone.symm.trans hassign

/-- A grounded net is not stuck. -/
theorem Grounded.not_stuck (h : Grounded src nm) (hpath : Path src R nm) : ¬ Stuck src k R nm := by
  intro hstuck
  induction hstuck with
  | undriven hfree hnone hdrv =>
    cases h with
    | leaf hleaf => exact hleaf hfree
    | copy _ hassign => cases hnone.symm.trans hassign
    | cell _ _ hdrv' => cases hdrv.symm.trans hdrv'
  | cycle _ _ _ hmem => exact h.notMem hpath hmem
  | loop hloop => exact h.not_aliasLoop hloop
  | copy hfree hassign _ ih =>
    have hdep := Dep.copy hfree hassign
    exact ih (h.of_dep hdep) (hpath.step hdep)
  | missing hfree hnone hdrv _ hreads =>
    cases h with
    | leaf hleaf => exact hleaf hfree
    | copy _ hassign => cases hnone.symm.trans hassign
    | cell _ _ hdrv' hpins =>
      cases hdrv.symm.trans hdrv'
      obtain ⟨m, hm⟩ := hpins .missing (by rw [hreads]; simp)
      cases hm
  | cell hfree hnone hdrv _ hreads _ _ ih =>
    have hdep := Dep.cell hfree hnone hdrv (hreads ▸ List.mem_append_right _ List.mem_cons_self)
    exact ih (h.of_dep hdep) (hpath.cons hdep)

/-- The reading of a net ends in one of the three ways. The nets that are not being resolved become
fewer at every cell, and aliases that never come to an end are a loop. -/
theorem grounded_or_stuck (R : List Net) (nm : Net) :
    Grounded src nm ∨ ∃ k, Stuck src k R nm := by
  let todo (R : List Net) : Finset Net :=
    ((allDrivers src.insts).map Prod.fst).toFinset \ R.toFinset
  induction hcard : (todo R).card using Nat.strong_induction_on generalizing R nm with
  | _ n ih =>
    subst hcard
    by_contra hnot
    refine hnot (.inr ⟨.crash, .loop ⟨{m | ¬(Grounded src m ∨ ∃ k, Stuck src k R m)}, hnot, ?_⟩⟩)
    intro m hm
    have hfree : src.Free m := by
      by_contra hleaf
      exact hm (.inl (.leaf hleaf))
    refine ⟨hfree, ?_⟩
    cases hassign : src.assigns.lookup m with
    | some r =>
      refine ⟨r, fun hr => hm ?_, rfl⟩
      rcases hr with hr | ⟨k, hr⟩
      · exact .inl (.copy hfree hassign hr)
      · exact .inr ⟨k, .copy hfree hassign hr⟩
    | none =>
      refine absurd ?_ hm
      cases hdrv : (allDrivers src.insts).lookup m with
      | none => exact .inr ⟨_, .undriven hfree hassign hdrv⟩
      | some inst =>
        by_cases hmem : m ∈ R
        · exact .inr ⟨_, .cycle hfree hassign hdrv hmem⟩
        have hfewer : (todo (m :: R)).card < (todo R).card := by
          refine Finset.card_lt_card (Finset.ssubset_iff_of_subset ?_ |>.mpr ⟨m, ?_, ?_⟩)
          · exact Finset.sdiff_subset_sdiff subset_rfl fun r hr => by simp_all
          · exact Finset.mem_sdiff.mpr ⟨List.mem_toFinset.mpr
              (List.mem_map_of_mem (Dict.mem_of_lookup hdrv)), by simpa using hmem⟩
          · simp [todo]
        have hread : ∀ x ∈ cellReads inst, x.Grounded src ∨
            (x = .missing ∨ ∃ p k, x = .net p ∧ Stuck src k (m :: R) p) := by
          intro x hx
          cases x with
          | net p =>
            rcases ih _ hfewer (m :: R) p rfl with hp | ⟨k, hp⟩
            · exact .inl hp
            · exact .inr (.inr ⟨p, k, rfl, hp⟩)
          | missing => exact .inr (.inl rfl)
          | undriven => exact absurd hx undriven_notMem_cellReads
        rcases answered_or_breaks hread with hall | ⟨l, x, r, hreads, hl, hx⟩
        · refine .inl (.cell hfree hassign hdrv (fun x hx => ?_) fun p hp => hall _ hp)
          cases x with
          | net p => exact ⟨p, rfl⟩
          | missing | undriven => exact (hall _ hx).elim
        · rcases hx with rfl | ⟨p, k, rfl, hp⟩
          · exact .inr ⟨_, .missing hfree hassign hdrv hmem hreads hl⟩
          · exact .inr ⟨_, .cell hfree hassign hdrv hmem hreads hl hp⟩

end Cases

/-! ### Programs -/

/-- The primary inputs are bound, and every net that is bound is grounded. -/
structure Bound (src : Source) (s : Build) : Prop where
  leaf : ∀ nm ∈ src.inputs, s.idx.lookup nm ≠ none
  grounded : ∀ nm i, s.idx.lookup nm = some i → Grounded src nm

/-- The exceptions of a fault. -/
def Fault.Raises : Fault → Raised → Prop
  | .refusal, e => ∃ message, e = .systemExit message
  | .crash, e => ∀ message, e ≠ .systemExit message

/-- The request is answered. -/
def Read.Answered (src : Source) (read : Net → Elab ℕ) : Read → Prop
  | .net m => Succeeds (Bound src) (read m) fun _ => True
  | .missing | .undriven => False

/-- The request fails in the way of the fault. -/
def Read.Broken (src : Source) (read : Net → Elab ℕ) (k : Fault) : Read → Prop
  | .net m => Fails (Bound src) (read m) k.Raises
  | .missing => k = .crash
  | .undriven => k = .refusal

section Programs

variable {src : Source} {read : Net → Elab ℕ} {k : Fault} {conns : Dict Pin Net} {nm : Net}

/-- A computation makes requests through a call. -/
abbrev Requests (src : Source) (read : Net → Elab ℕ) (k : Fault) {α : Type} (m : Elab α)
    (xs : List Read) (P : α → Prop) : Prop :=
  Follows (Bound src) (Read.Answered src read) (Read.Broken src read k) k.Raises m xs P

theorem emit_requests (g : Silicon.Gate) : Requests src read k (emit g) [] fun _ => True :=
  .of_succeeds fun _ hs => ⟨_, _, rfl, ⟨hs.leaf, hs.grounded⟩, trivial⟩

theorem bindNet_succeeds (hnm : Grounded src nm) (i : ℕ) :
    Succeeds (Bound src) (bindNet nm i) fun _ => True := by
  refine fun s hs => ⟨_, _, rfl, ⟨fun m hm => ?_, fun m j hj => ?_⟩, trivial⟩
  · have hleaf := hs.leaf m hm
    grind
  · rw [List.lookup_cons] at hj
    split at hj
    · rename_i heq
      rwa [eq_of_beq heq]
    · exact hs.grounded m j hj

/-- A call makes the request of its net. -/
theorem read_requests (m : Net) : Requests src read k (read m) [.net m] fun _ => True where
  succeeds := fun h => h _ List.mem_cons_self
  fails := by
    rintro ⟨l, x, r, heq, -, hx⟩
    cases l with
    | nil =>
      cases heq
      exact hx
    | cons y l =>
      cases l <;> cases heq

theorem keyError_requests {α : Type} (p : Pin) {P : α → Prop} :
    Requests src read k (throw (.keyError p) : Elab α) [.missing] P where
  succeeds := fun h => (h _ List.mem_cons_self).elim
  fails := by
    rintro ⟨l, x, r, heq, -, hx⟩ s -
    cases l with
    | nil =>
      cases heq
      obtain rfl : k = .crash := hx
      exact ⟨_, rfl, nofun⟩
    | cons y l =>
      cases l <;> cases heq

theorem operand_requests (locals : List (String × ℕ)) (a : String) :
    Requests src read k (operand read conns locals a)
      (pinReads conns ([a].filter (· ∉ locals.map Prod.fst))) fun _ => True := by
  rw [operand]
  cases hlookup : locals.lookup a with
  | some i =>
    have hmem : a ∈ locals.map Prod.fst := List.mem_map_of_mem (Dict.mem_of_lookup hlookup)
    rw [List.filter_cons_of_neg (by simpa using hmem)]
    exact .pure trivial
  | none =>
    have hnot : a ∉ locals.map Prod.fst := Dict.lookup_eq_none_iff.mp hlookup
    rw [List.filter_cons_of_pos (by simpa using hnot), pinReads]
    cases hpin : conns.get? a with
    | some m =>
      simp only [List.filter_nil, List.map_cons, List.map_nil, hpin]
      exact read_requests m
    | none =>
      simp only [List.filter_nil, List.map_cons, List.map_nil, hpin]
      exact keyError_requests a

theorem pinReads_append (ps qs : List Pin) :
    pinReads conns (ps ++ qs) = pinReads conns ps ++ pinReads conns qs := List.map_append

theorem runOp_requests (locals : List (String × ℕ)) (op : Op) :
    Requests src read k (runOp read conns locals op)
      (pinReads conns (op.args.filter (· ∉ locals.map Prod.fst))) fun _ => True := by
  have hlast {m : Elab ℕ} {xs : List Read} {f : ℕ → Elab ℕ}
      (hm : Requests src read k m xs fun _ => True)
      (hf : ∀ i, Requests src read k (f i) [] fun _ => True) :
      Requests src read k (m >>= f) xs fun _ => True := by
    have hbind := hm.bind fun i _ => hf i
    rwa [List.append_nil] at hbind
  cases op with
  | const t b => exact emit_requests _
  | buf t a => exact operand_requests locals a
  | not t a => exact hlast (operand_requests locals a) fun i => emit_requests _
  | bin op t a b =>
    have hargs : ([a, b].filter (· ∉ locals.map Prod.fst)) =
        [a].filter (· ∉ locals.map Prod.fst) ++ [b].filter (· ∉ locals.map Prod.fst) := by
      rw [← List.filter_append]
      rfl
    rw [Op.args, hargs, pinReads_append]
    exact (operand_requests locals a).bind fun i _ =>
      hlast (operand_requests locals b) fun j => emit_requests _

/-- A program makes the requests of the pins that it reads. -/
theorem runOps_requests (ops : List Op) (locals : List (String × ℕ)) :
    Requests src read k (runOps read conns ops locals)
      (pinReads conns (pinsRead ops (locals.map Prod.fst)))
      fun L => ∀ t, t ∈ ops.map Op.tmp ∨ t ∈ locals.map Prod.fst → t ∈ L.map Prod.fst := by
  induction ops generalizing locals with
  | nil => exact .pure fun t ht => ht.resolve_left List.not_mem_nil
  | cons op ops ih =>
    rw [pinsRead, pinReads_append]
    refine (runOp_requests locals op).bind fun i _ => ?_
    refine (ih ((op.tmp, i) :: locals)).imp fun L hL t ht => hL t ?_
    rcases ht with ht | ht
    · rcases List.mem_cons.mp ht with rfl | ht
      · exact .inr List.mem_cons_self
      · exact .inl ht
    · exact .inr (List.mem_cons_of_mem _ ht)

theorem result_requests {L : List (String × ℕ)} {t : String} (ht : t ∈ L.map Prod.fst) :
    Requests src read k (result L t) [] fun _ => True := by
  rw [result]
  cases hlookup : L.lookup t with
  | some i => exact .pure trivial
  | none => exact absurd ht (Dict.lookup_eq_none_iff.mp hlookup)

/-- The expansion of a driver makes the requests of its cell. -/
theorem expandDriver_requests {inst : Inst} (hdrv : (allDrivers src.insts).lookup nm = some inst) :
    Requests src read k (expandDriver read inst nm) (cellReads inst) fun _ => True := by
  obtain ⟨e, o, hd⟩ := drives_of_lookup hdrv
  rw [expandDriver, cellReads, hd.expansion]
  cases hfind : e.outs.find? fun o => inst.conns.get? o.1 = some nm with
  | none => exact absurd hd.conn (by simpa using List.find?_eq_none.mp hfind o hd.out)
  | some o' =>
    have htmp := out_mem_tmps hd.expansion (List.mem_of_find?_eq_some hfind)
    have hops : Requests src read k (runOps read inst.conns e.ops []) _ _ :=
      runOps_requests e.ops []
    have hbind := hops.bind fun L hL => result_requests (hL o'.2 (.inl htmp))
    rw [List.append_nil] at hbind
    simp only [hfind]
    exact hbind

end Programs

/-! ### Calls -/

section Calls

variable {src : Source} {nm : Net} {R : List Net} {k : Fault} {depth : ℕ} {s : Build}

/-- What holds of every large limit holds of every large limit one level up. -/
theorem eventually_succ {P Q : ℕ → Prop} (h : ∀ᶠ depth in atTop, P depth)
    (hPQ : ∀ depth, P depth → Q (depth + 1)) : ∀ᶠ depth in atTop, Q depth := by
  obtain ⟨b, hb⟩ := eventually_atTop.mp h
  refine eventually_atTop.mpr ⟨b + 1, fun depth hdepth => ?_⟩
  obtain ⟨depth, rfl⟩ := Nat.exists_eq_succ_of_ne_zero (by omega : depth ≠ 0)
  exact hPQ depth (hb depth (by omega))

theorem net_bound {i : ℕ} (hidx : s.idx.lookup nm = some i) :
    net src (allDrivers src.insts) (depth + 1) R nm s = .ok (i, s) := by
  rw [net, run_get_bind, hidx]
  rfl

/-- The call for a net that is neither bound nor a leaf. -/
theorem net_free (hfree : src.Free nm) (hidx : s.idx.lookup nm = none) :
    net src (allDrivers src.insts) (depth + 1) R nm s =
      (match src.assigns.lookup nm with
        | some r => net src (allDrivers src.insts) depth R r
        | none => match (allDrivers src.insts).lookup nm with
          | none => throw (Raised.systemExit ("importer: net '" ++ nm ++
              "' has no driver and is not an input"))
          | some inst =>
            if nm ∈ R then
              throw (Raised.systemExit ("importer: combinational cycle at '" ++ nm ++ "'"))
            else do
              bindNet nm (← expandDriver (net src (allDrivers src.insts) depth (nm :: R)) inst nm))
        s := by
  rw [net, run_get_bind, hidx, hfree.pinned, hfree.literal]
  rfl

theorem net_leaf (hs : Bound src s) (hleaf : ¬ src.Free nm) (hidx : s.idx.lookup nm = none) :
    ∃ b, net src (allDrivers src.insts) (depth + 1) R nm s =
      (do bindNet nm (← emit (.const b))) s := by
  have hin : nm ∉ src.inputs := fun hmem => hs.leaf nm hmem hidx
  rw [net, run_get_bind, hidx]
  cases hpin : src.pinned.lookup nm with
  | some b => exact ⟨b, rfl⟩
  | none =>
    have hlit : isLiteral nm := by
      by_contra hlit
      exact hleaf ⟨hin, hpin, by simpa using hlit⟩
    exact ⟨literalValue nm, by simp only [hlit, if_true]⟩

/-- A call for a grounded net returns, if the call for an unbound one does. -/
theorem net_succeeds {m : Build → Elab ℕ}
    (hm : ∀ s, Succeeds (Bound src) (m s) fun _ => True)
    (hnet : ∀ s, Bound src s → s.idx.lookup nm = none →
      net src (allDrivers src.insts) (depth + 1) R nm s = m s s) :
    Succeeds (Bound src) (net src (allDrivers src.insts) (depth + 1) R nm) fun _ => True := by
  intro s hs
  cases hidx : s.idx.lookup nm with
  | some i => exact ⟨i, s, net_bound hidx, hs, trivial⟩
  | none =>
    rw [hnet s hs hidx]
    exact hm s s hs

/-- With a limit that is large enough, a grounded net is read. -/
theorem Grounded.succeeds (h : Grounded src nm) : ∀ᶠ depth in atTop, ∀ R, Path src R nm →
    Succeeds (Bound src) (net src (allDrivers src.insts) depth R nm) fun _ => True := by
  induction h with
  | @leaf nm hleaf =>
    refine eventually_succ (.of_forall fun _ => trivial) fun depth _ R _ s hs => ?_
    cases hidx : s.idx.lookup nm with
    | some i => exact ⟨i, s, net_bound hidx, hs, trivial⟩
    | none =>
      obtain ⟨b, hb⟩ : ∃ b, net src (allDrivers src.insts) (depth + 1) R nm s = _ :=
        net_leaf hs hleaf hidx
      rw [hb]
      have hemit : Succeeds (Bound src) (emit (.const b)) fun _ => True :=
        fun s hs => ⟨_, _, rfl, ⟨hs.leaf, hs.grounded⟩, trivial⟩
      exact hemit.bind (fun i _ => bindNet_succeeds (.leaf hleaf) i) s hs
  | @copy nm r hfree hassign _ ih =>
    refine eventually_succ ih fun depth ih R hpath => ?_
    refine net_succeeds (fun _ => ih R (hpath.step (.copy hfree hassign))) fun s _ hidx => ?_
    rw [net_free hfree hidx]
    simp only [hassign]
  | @cell nm inst hfree hnone hdrv hpins hm ih =>
    have hnm : Grounded src nm := .cell hfree hnone hdrv hpins hm
    have hall : ∀ᶠ depth in atTop, ∀ m ∈ {m | Read.net m ∈ cellReads inst}, ∀ R, Path src R m →
        Succeeds (Bound src) (net src (allDrivers src.insts) depth R m) fun _ => True := by
      refine (eventually_all_finite ?_).mpr fun m hmem => ih m hmem
      exact (List.finite_toSet (cellReads inst)).preimage fun a _ b _ h => Read.net.inj h
    refine eventually_succ hall fun depth hall R hpath => ?_
    have hrequests : Requests src (net src (allDrivers src.insts) depth (nm :: R)) .crash
        (expandDriver _ inst nm) _ _ := expandDriver_requests hdrv
    have hexpand := hrequests.succeeds fun x hx => by
        obtain ⟨m, rfl⟩ := hpins x hx
        exact hall m hx (nm :: R) (hpath.cons (.cell hfree hnone hdrv hx))
    refine net_succeeds (fun _ => hexpand.bind fun i _ => bindNet_succeeds hnm i) fun s _ hidx => ?_
    rw [net_free hfree hidx]
    simp only [hnone, hdrv, if_neg (hnm.notMem hpath)]

/-- A net that is stuck is not bound. -/
theorem Stuck.not_bound (h : Stuck src k R nm) (hpath : Path src R nm) (hs : Bound src s) :
    s.idx.lookup nm = none := by
  by_contra hidx
  obtain ⟨i, hi⟩ := Option.ne_none_iff_exists'.mp hidx
  exact (hs.grounded nm i hi).not_stuck hpath h

/-- A loop of aliases is followed until the limit is reached. -/
theorem AliasLoop.fails (h : AliasLoop src nm) (depth : ℕ) (R : List Net) :
    Fails (Bound src) (net src (allDrivers src.insts) depth R nm) Fault.crash.Raises := by
  obtain ⟨S, hmem, hS⟩ := h
  induction depth generalizing nm with
  | zero => exact fun s _ => ⟨_, rfl, nofun⟩
  | succ depth ih =>
    intro s hs
    obtain ⟨hfree, r, hr, hassign⟩ := hS nm hmem
    have hidx : s.idx.lookup nm = none := by
      by_contra hidx
      obtain ⟨i, hi⟩ := Option.ne_none_iff_exists'.mp hidx
      exact (hs.grounded nm i hi).not_aliasLoop ⟨S, hmem, hS⟩
    rw [net_free hfree hidx]
    simp only [hassign]
    exact ih hr s hs

/-- With a limit that is large enough, a net that is stuck fails in the way of its fault. -/
theorem Stuck.fails (h : Stuck src k R nm) (hpath : Path src R nm) : ∀ᶠ depth in atTop,
    Fails (Bound src) (net src (allDrivers src.insts) depth R nm) k.Raises := by
  -- the first read of a cell that is not grounded
  have hcell {k : Fault} {R : List Net} {nm : Net} {inst : Inst} {l r : List Read} {x : Read}
      (hstuck : Stuck src k R nm) (hpath : Path src R nm) (hfree : src.Free nm)
      (hnone : src.assigns.lookup nm = none)
      (hdrv : (allDrivers src.insts).lookup nm = some inst) (hmem : nm ∉ R)
      (hreads : cellReads inst = l ++ x :: r) (hl : ∀ y ∈ l, y.Grounded src)
      (hx : ∀ᶠ depth in atTop,
        x.Broken src (net src (allDrivers src.insts) depth (nm :: R)) k) :
      ∀ᶠ depth in atTop,
        Fails (Bound src) (net src (allDrivers src.insts) depth R nm) k.Raises := by
    have hall : ∀ᶠ depth in atTop, ∀ m ∈ {m | Read.net m ∈ l}, ∀ R, Path src R m →
        Succeeds (Bound src) (net src (allDrivers src.insts) depth R m) fun _ => True := by
      refine (eventually_all_finite ?_).mpr fun m hmem => (hl _ hmem).succeeds
      exact (List.finite_toSet l).preimage fun a _ b _ h => Read.net.inj h
    refine eventually_succ (hall.and hx) fun depth ⟨hall, hx⟩ s hs => ?_
    rw [net_free hfree (hstuck.not_bound hpath hs)]
    simp only [hnone, hdrv, if_neg hmem]
    refine ((expandDriver_requests hdrv).fails ⟨l, x, r, hreads, fun y hy => ?_, hx⟩).bind s hs
    cases y with
    | net m =>
      have hdep := Dep.cell hfree hnone hdrv (hreads ▸ List.mem_append_left _ hy)
      exact hall m hy (nm :: R) (hpath.cons hdep)
    | missing | undriven => exact hl _ hy
  have hstuck := h
  induction h with
  | undriven hfree hnone hdrv =>
    refine eventually_succ (.of_forall fun _ => trivial) fun depth _ s hs => ?_
    rw [net_free hfree (hstuck.not_bound hpath hs)]
    simp only [hnone, hdrv]
    exact ⟨_, rfl, _, rfl⟩
  | cycle hfree hnone hdrv hmem =>
    refine eventually_succ (.of_forall fun _ => trivial) fun depth _ s hs => ?_
    rw [net_free hfree (hstuck.not_bound hpath hs)]
    simp only [hnone, hdrv, if_pos hmem]
    exact ⟨_, rfl, _, rfl⟩
  | loop hloop => exact .of_forall fun depth => hloop.fails depth _
  | copy hfree hassign hr ih =>
    have hdep := Dep.copy hfree hassign
    refine eventually_succ (ih (hpath.step hdep) hr) fun depth ih s hs => ?_
    rw [net_free hfree (hstuck.not_bound hpath hs)]
    simp only [hassign]
    exact ih s hs
  | missing hfree hnone hdrv hmem hreads hl =>
    exact hcell hstuck hpath hfree hnone hdrv hmem hreads hl (.of_forall fun _ => rfl)
  | cell hfree hnone hdrv hmem hreads hl hm ih =>
    have hdep := Dep.cell hfree hnone hdrv (hreads ▸ List.mem_append_right _ List.mem_cons_self)
    exact hcell hstuck hpath hfree hnone hdrv hmem hreads hl (ih (hpath.cons hdep) hm)

end Calls

/-! ### Roots -/

section Roots

variable {src : Source} {outs : List Net} {auto : List Flop} {cuts : List Net} {k : Fault}

theorem throw_requests {read : Net → Elab ℕ} {x : Read} {e : Raised}
    (hanswered : ¬ x.Answered src read) (hbroken : x.Broken src read k → k.Raises e) :
    Requests src read k (throw e : Elab ℕ) [x] fun _ => True where
  succeeds := fun h => absurd (h x List.mem_cons_self) hanswered
  fails := by
    rintro ⟨l, y, r, heq, -, hy⟩ s -
    cases l with
    | nil =>
      cases heq
      exact ⟨e, rfl, hbroken hy⟩
    | cons z l =>
      cases l <;> cases heq

theorem stateRoot_requests (depth : ℕ) (f : Flop) :
    Requests src (net src (allDrivers src.insts) depth []) k
      (stateRoot src (allDrivers src.insts) depth f) (stateReads f) fun _ => True := by
  rw [stateRoot, stateReads]
  cases f.d with
  | some d => exact read_requests d
  | none =>
    cases hlast : f.model.next.getLast? with
    | none =>
      have hnil : f.model.next = [] := List.getLast?_eq_none_iff.mp hlast
      simp only [hnil, if_true]
      refine throw_requests id fun hk => ?_
      obtain rfl : k = .crash := hk
      intro message hmessage
      cases hmessage
    | some last =>
      have hnext : f.model.next ≠ [] := by
        rintro hnil
        rw [hnil] at hlast
        cases hlast
      have htmp : last.tmp ∈ f.model.next.map Op.tmp :=
        List.mem_map_of_mem (List.mem_of_getLast? hlast)
      have hops : Requests src (net src (allDrivers src.insts) depth []) k
          (runOps _ f.conns f.model.next []) _ _ := runOps_requests f.model.next []
      have hbind := hops.bind fun L hL => result_requests (hL last.tmp (.inl htmp))
      rw [List.append_nil] at hbind
      simp only [if_neg hnext]
      exact hbind

theorem rootValue_requests (depth : ℕ) (nm : Net) :
    Requests src (net src (allDrivers src.insts) depth []) k
      (rootValue src (allDrivers src.insts) depth nm) (cutReads src nm) fun _ => True := by
  rw [rootValue, cutReads]
  cases hdrv : (allDrivers src.insts).lookup ((src.assigns.lookup nm).getD nm) with
  | none =>
    simp only
    refine throw_requests id fun hk => ?_
    obtain rfl : k = .refusal := hk
    exact ⟨_, rfl⟩
  | some inst =>
    simp only
    exact expandDriver_requests hdrv

/-- The roots make their requests in order. -/
theorem outIdx_requests (depth : ℕ) : Requests src (net src (allDrivers src.insts) depth []) k
    (outIdx src (allDrivers src.insts) depth outs auto cuts) (rootReads src outs auto cuts)
    fun _ => True := by
  rw [outIdx, rootReads, List.map_eq_flatMap, List.append_assoc]
  refine (Follows.mapM fun nm _ => read_requests nm).bind fun designs _ => ?_
  refine (Follows.mapM fun f _ => stateRoot_requests depth f).bind fun states _ => ?_
  have hroots : Requests src (net src (allDrivers src.insts) depth []) k
      (cuts.mapM (rootValue src (allDrivers src.insts) depth)) (cuts.flatMap (cutReads src))
      fun _ => True := Follows.mapM fun nm _ => rootValue_requests depth nm
  rw [← List.append_nil (cuts.flatMap (cutReads src))]
  exact hroots.bind fun roots _ => .pure trivial

/-- With a limit that is large enough, a grounded request is answered. -/
theorem answered_of_grounded {x : Read} (h : x.Grounded src) : ∀ᶠ depth in atTop,
    x.Answered src (net src (allDrivers src.insts) depth []) := by
  cases x with
  | net m => exact (Grounded.succeeds h).mono fun depth hdepth => hdepth [] nofun
  | missing | undriven => exact h.elim

theorem broken_of_stuck {x : Read} (h : x.Stuck src k) : ∀ᶠ depth in atTop,
    x.Broken src (net src (allDrivers src.insts) depth []) k := by
  cases x with
  | net m => exact Stuck.fails h nofun
  | missing | undriven => exact .of_forall fun _ => h

theorem eventually_answered {xs : List Read} (h : ∀ x ∈ xs, x.Grounded src) :
    ∀ᶠ depth in atTop, ∀ x ∈ xs, x.Answered src (net src (allDrivers src.insts) depth []) :=
  (eventually_all_finite (List.finite_toSet xs)).mpr fun x hx => answered_of_grounded (h x hx)

/-- Roots whose requests are grounded are elaborated. -/
theorem outIdx_succeeds (h : ∀ x ∈ rootReads src outs auto cuts, x.Grounded src) :
    ∀ᶠ depth in atTop, Succeeds (Bound src)
      (outIdx src (allDrivers src.insts) depth outs auto cuts) fun _ => True :=
  (eventually_answered h).mono fun depth hall =>
    (outIdx_requests (k := .crash) depth).succeeds hall

/-- Roots fail in the way of the first request that is not grounded. -/
theorem outIdx_fails
    (h : Breaks (Read.Grounded src) (Read.Stuck src k) (rootReads src outs auto cuts)) :
    ∀ᶠ depth in atTop, Fails (Bound src)
      (outIdx src (allDrivers src.insts) depth outs auto cuts) k.Raises := by
  obtain ⟨l, x, r, hreads, hl, hx⟩ := h
  refine ((eventually_answered hl).and (broken_of_stuck hx)).mono fun depth ⟨hl, hx⟩ => ?_
  exact (outIdx_requests depth).fails ⟨l, x, r, hreads, hl, hx⟩

/-! ### The elaboration -/

theorem Seeded.bound {s : Build} (h : Seeded src.inputs s) : Bound src s where
  leaf := by
    intro nm hnm
    obtain ⟨i, hi⟩ := List.mem_iff_getElem?.mp hnm
    rw [(h.idx nm i).mpr hi]
    exact Option.some_ne_none i
  grounded := fun nm i hi => .leaf fun hfree =>
    hfree.input (List.mem_of_getElem? ((h.idx nm i).mp hi))

theorem addDrivers_cases (drv : List (Net × Inst)) (inst : Inst) :
    (inst.Known ∧ ∃ drv', addDrivers drv inst = .ok drv') ∨
      ¬ inst.Known ∧ ∃ message, addDrivers drv inst = .error (.systemExit message) := by
  rw [addDrivers, Inst.Known]
  by_cases hcell : isPhysical inst.cell || isSequential inst.cell
  · exact .inl ⟨by simp [hcell], _, if_pos hcell⟩
  · rw [if_neg hcell]
    cases hexp : expansionFor inst.cell with
    | none => exact .inr ⟨by simpa using hcell, _, rfl⟩
    | some e => exact .inl ⟨by simp, _, rfl⟩

theorem driver_cases (insts : List Inst) :
    ((∀ inst ∈ insts, inst.Known) ∧ driver insts = .ok (allDrivers insts)) ∨
      ¬ (∀ inst ∈ insts, inst.Known) ∧ ∃ message, driver insts = .error (.systemExit message) := by
  have key (drv : List (Net × Inst)) :
      ((∀ inst ∈ insts, inst.Known) ∧ ∃ drv', insts.foldlM addDrivers drv = .ok drv') ∨
        ¬ (∀ inst ∈ insts, inst.Known) ∧
          ∃ message, insts.foldlM addDrivers drv = .error (.systemExit message) := by
    induction insts generalizing drv with
    | nil => exact .inl ⟨nofun, drv, rfl⟩
    | cons inst insts ih =>
      rw [List.foldlM_cons, List.forall_mem_cons]
      rcases addDrivers_cases drv inst with ⟨hknown, drv', hdrv⟩ | ⟨hknown, message, hdrv⟩
      · rw [hdrv]
        rcases ih drv' with ⟨hall, hok⟩ | ⟨hall, herror⟩
        · exact .inl ⟨⟨hknown, hall⟩, hok⟩
        · exact .inr ⟨fun h => hall h.2, herror⟩
      · rw [hdrv]
        exact .inr ⟨fun h => hknown h.1, message, rfl⟩
  rcases key [] with ⟨hall, drv', hok⟩ | h
  · exact .inl ⟨hall, (driver_eq_ok hok) ▸ hok⟩
  · exact .inr h

/-- A build is refused for a repeated input or an unknown cell, and for nothing else. -/
theorem build_cases (src : Source) :
    (src.inputs.Nodup ∧ (∀ inst ∈ src.insts, inst.Known) ∧
      ∃ s, build src = .ok (allDrivers src.insts, s) ∧ Bound src s) ∨
    ¬ (src.inputs.Nodup ∧ ∀ inst ∈ src.insts, inst.Known) ∧
      ∃ message, build src = .error (.systemExit message) := by
  by_cases hdup : duplicates src.inputs = []
  · have hbuild : build src = (do return (← driver src.insts,
        src.inputs.foldl seedInputs ⟨[], []⟩)) := by
      rw [build, if_neg (not_not.mpr hdup)]
    have hnodup := nodup_of_duplicates_eq_nil hdup
    rcases driver_cases src.insts with ⟨hknown, hdrv⟩ | ⟨hknown, message, hdrv⟩
    · rw [hdrv] at hbuild
      exact .inl ⟨hnodup, hknown, _, hbuild, (build_eq_ok hbuild).2.bound⟩
    · rw [hdrv] at hbuild
      exact .inr ⟨fun h => hknown h.2, message, hbuild⟩
  · refine .inr ⟨fun h => hdup ?_, _, by rw [build, if_pos hdup]⟩
    refine List.filter_eq_nil_iff.mpr fun nm _ => ?_
    have hcount := List.nodup_iff_count_le_one.mp h.1 nm
    simpa using hcount

theorem elaborate_of_build {s : Build} (hbuild : build src = .ok (allDrivers src.insts, s))
    (depth : ℕ) : elaborate depth src outs auto cuts = (do
      let (idx, s) ← (outIdx src (allDrivers src.insts) depth outs auto cuts).run s
      return ⟨s.gates, idx⟩) := by
  rw [elaborate, hbuild]
  rfl

/-- An elaboration that is diverted crashes, however large the limit is. -/
theorem Diverts.crashes (h : Diverts src outs auto cuts) :
    ∀ᶠ depth in atTop, ¬ Ends (elaborate depth src outs auto cuts) := by
  obtain ⟨hnodup, hknown, hbreaks⟩ := h
  rcases build_cases src with ⟨-, -, s, hbuild, hs⟩ | ⟨hnot, -⟩
  · refine (outIdx_fails hbreaks).mono fun depth hfails => ?_
    obtain ⟨e, hrun, he⟩ := hfails s hs
    rw [elaborate_of_build hbuild, StateT.run, hrun]
    rintro (⟨a, ⟨⟩⟩ | ⟨message, hmessage⟩)
    cases hmessage
    exact he message rfl
  · exact absurd ⟨hnodup, hknown⟩ hnot

/-- The elaboration ends with a datum or a refusal, for every limit from some bound on, iff it is
not diverted. -/
theorem ends_iff (src : Source) (outs : List Net) (auto : List Flop) (cuts : List Net) :
    (∃ bound, ∀ depth ≥ bound, Ends (elaborate depth src outs auto cuts)) ↔
      ¬ Diverts src outs auto cuts := by
  rw [← eventually_atTop]
  constructor
  · intro hends hdiverts
    obtain ⟨depth, hdepth, hnot⟩ := (hends.and hdiverts.crashes).exists
    exact hnot hdepth
  · intro hnot
    rcases build_cases src with ⟨hnodup, hknown, s, hbuild, hs⟩ | ⟨-, message, hbuild⟩
    · have hreads : ∀ x ∈ rootReads src outs auto cuts,
          x.Grounded src ∨ ∃ k, x.Stuck src k := by
        intro x _
        cases x with
        | net m => exact grounded_or_stuck [] m
        | missing => exact .inr ⟨.crash, rfl⟩
        | undriven => exact .inr ⟨.refusal, rfl⟩
      rcases answered_or_breaks hreads with hall | ⟨l, x, r, hsplit, hl, k, hx⟩
      · refine (outIdx_succeeds hall).mono fun depth hsucceeds => .inl ?_
        obtain ⟨idx, s', hrun, -⟩ := hsucceeds s hs
        rw [elaborate_of_build hbuild, StateT.run, hrun]
        exact ⟨_, rfl⟩
      · cases k with
        | crash => exact absurd ⟨hnodup, hknown, l, x, r, hsplit, hl, hx⟩ hnot
        | refusal =>
          refine (outIdx_fails ⟨l, x, r, hsplit, hl, hx⟩).mono fun depth hfails => .inr ?_
          obtain ⟨e, hrun, message, rfl⟩ := hfails s hs
          rw [elaborate_of_build hbuild, StateT.run, hrun]
          exact ⟨message, rfl⟩
    · refine .of_forall fun depth => .inr ⟨message, ?_⟩
      rw [elaborate, hbuild]
      rfl

/-- Two nets that are aliases of each other. -/
def mutualAliases : Source where
  insts := []
  assigns := [("a", "b"), ("b", "a")]
  inputs := []
  pinned := []

/-- An inverter with nothing on its input pin. -/
def openInverter : Source where
  insts := [⟨"inv_1", "_0_", .ofList [("Y", "y")]⟩]
  assigns := []
  inputs := []
  pinned := []

theorem diverts_mutualAliases : Diverts mutualAliases ["a"] [] [] := by
  have hfree : ∀ m ∈ ["a", "b"], mutualAliases.Free m := fun m hm =>
    ⟨List.not_mem_nil, rfl, (by decide : ∀ m ∈ ["a", "b"], isLiteral m = false) m hm⟩
  refine ⟨.nil, nofun, [], .net "a", [], rfl, nofun, .loop ⟨{m | m ∈ ["a", "b"]}, by simp, ?_⟩⟩
  intro m hm
  refine ⟨hfree m hm, ?_⟩
  rcases List.mem_pair.mp hm with rfl | rfl
  · exact ⟨"b", by simp, rfl⟩
  · exact ⟨"a", by simp, rfl⟩

theorem diverts_openInverter : Diverts openInverter ["y"] [] [] := by
  have hdrv : (allDrivers openInverter.insts).lookup "y" =
      some ⟨"inv_1", "_0_", .ofList [("Y", "y")]⟩ := by decide
  have hreads : cellReads ⟨"inv_1", "_0_", .ofList [("Y", "y")]⟩ = [] ++ .missing :: [] := by
    decide
  refine ⟨.nil, by decide, [], .net "y", [], rfl, nofun, ?_⟩
  exact .missing ⟨List.not_mem_nil, rfl, by decide⟩ rfl hdrv List.not_mem_nil hreads nofun

/-- An alias that leads back to itself is read without end, and an open pin raises a `KeyError`. -/
theorem not_ends :
    (¬ ∃ bound, ∀ depth ≥ bound, Ends (elaborate depth mutualAliases ["a"] [] [])) ∧
    ¬ ∃ bound, ∀ depth ≥ bound, Ends (elaborate depth openInverter ["y"] [] []) := by
  have hnot {src : Source} {outs : List Net} (h : Diverts src outs [] []) :
      ¬ ∃ bound, ∀ depth ≥ bound, Ends (elaborate depth src outs [] []) := by
    rw [← eventually_atTop]
    intro hends
    obtain ⟨depth, hdepth, hcrash⟩ := (hends.and h.crashes).exists
    exact hcrash hdepth
  exact ⟨hnot diverts_mutualAliases, hnot diverts_openInverter⟩

end Roots

end Saltworks.Importer
