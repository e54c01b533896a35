import Saltworks.Importer.ClockedNetlist
import Saltworks.Importer.Readback

/-!
# The evaluation of the source

The readback evaluates the source netlist by the library. Where the library gives every cell the
function that the importer gives it, the evaluation returns the settled values of the netlist
and no others: what a closed relation relates is what it can return (`ev_keeps`), and a net that
settles is evaluated to its value once the depth suffices (`ev_computes`).

## Main definitions

* `LibertyAgrees`: the library describes the cells as the importer does.
* `readLeaf`, `Imported.Sourced`: the settled values of the source as the check reads it.

## Main results

* `mem_drivers`, `Accepted.drives_of_mem`, `mem_of_drives`: the driver map of the check.
* `ev_keeps`, `ev_computes`: the values of the nets.
-/

namespace Saltworks.Importer

open Silicon Fallible

/-! ### The library -/

/-- The next state that a model gives, by the values of the pins. -/
def SeqModel.eval (m : SeqModel) (env : Pin → Option Bool) : Option Bool :=
  match m.d with
  | some p => env p
  | none => do Expansion.eval ⟨m.next, []⟩ env (← m.next.getLast?).tmp

/-- A library cell has the output pins, the input pins and the functions of an expansion. -/
structure CombAgrees (c : LibCell) (e : Expansion) : Prop where
  outs : ∀ p, p ∈ c.outs.map Prod.fst ↔ p ∈ e.outs.map Prod.fst
  ins : ∀ p, p ∈ c.ins ↔ p ∈ pinsRead e.ops []
  value : ∀ o ∈ e.outs, ∀ fn, c.outs.lookup o.1 = some fn → ∀ env b,
    Liberty.evalFn env fn = .ok b ↔ e.eval env o.2 = some b

/-- A library flop has the pins and the next state of a model, where its state variable stands
for the state output. -/
structure SeqAgrees (c : LibCell) (m : SeqModel) : Prop where
  outs : ∀ p ∈ c.outs.map Prod.fst, p = m.q
  ins : ∀ p, p ∈ c.ins ↔ p ∈ m.pins ∧ p ≠ m.q
  ff : ∃ state next, c.ff = some (state, next) ∧ state ∉ c.ins ∧ ∀ env b,
    Liberty.evalFn env next = .ok b ↔
      m.eval (fun p => if p = m.q then env state else env p) = some b

/-- The library describes every cell of an instance list as the importer does. -/
structure LibertyAgrees (lib : String → Option LibCell) (insts : List Inst) : Prop where
  physical : ∀ inst ∈ insts, isPhysical inst.cell → ∀ c, libFor lib inst.cell = some c →
    c.outs = []
  combinational : ∀ inst ∈ insts, isPhysical inst.cell = false → isSequential inst.cell = false →
    ∀ e, expansionFor inst.cell = some e → ∃ c, libFor lib inst.cell = some c ∧ CombAgrees c e
  sequential : ∀ inst ∈ insts, isSequential inst.cell → ∀ m, seqModelFor inst.cell = some m →
    ∃ c, libFor lib inst.cell = some c ∧ SeqAgrees c m

/-! ### The driver map -/

namespace Readback

variable {rb : Readback} {nm : Net} {inst : Inst} {fn : String}

theorem mem_addDrivers {drv : List (Net × Inst × String)} {x : Net × Inst × String} :
    x ∈ rb.addDrivers drv inst ↔ x ∈ drv ∨ x.2.1 = inst ∧ ∃ c, libFor rb.lib inst.cell = some c ∧
      ∃ p, inst.conns.get? p = some x.1 ∧ c.outs.lookup p = some x.2.2 := by
  rw [addDrivers]
  cases hc : libFor rb.lib inst.cell with
  | none => simp
  | some c =>
    have key (items : List (Pin × Net)) (drv : List (Net × Inst × String)) :
        x ∈ items.foldl (addOutput inst c) drv ↔
        x ∈ drv ∨ x.2.1 = inst ∧ ∃ p, (p, x.1) ∈ items ∧ c.outs.lookup p = some x.2.2 := by
      induction items generalizing drv with
      | nil => simp
      | cons q items ih =>
        rw [List.foldl_cons, ih, addOutput]
        cases hq : c.outs.lookup q.1 <;> grind
    simp only [key, Dict.mem_items_iff, Option.some.injEq, exists_eq_left']

/-- The entries of the driver map. -/
theorem mem_drivers {x : Net × Inst × String} :
    x ∈ rb.drivers ↔ x.2.1 ∈ rb.insts ∧ ∃ c, libFor rb.lib x.2.1.cell = some c ∧
      ∃ p, x.2.1.conns.get? p = some x.1 ∧ c.outs.lookup p = some x.2.2 := by
  have key (insts : List Inst) (drv : List (Net × Inst × String)) :
      x ∈ insts.foldl rb.addDrivers drv ↔
      x ∈ drv ∨ x.2.1 ∈ insts ∧ ∃ c, libFor rb.lib x.2.1.cell = some c ∧
        ∃ p, x.2.1.conns.get? p = some x.1 ∧ c.outs.lookup p = some x.2.2 := by
    induction insts generalizing drv with
    | nil => simp
    | cons inst insts ih =>
      rw [List.foldl_cons, ih, mem_addDrivers, List.mem_cons]
      grind
  rw [drivers, key]
  simp

theorem inputPins_eq {c : LibCell} (hc : libFor rb.lib inst.cell = some c) :
    rb.inputPins inst = pure c.ins := by
  rw [inputPins, hc]

/-! ### Pins -/

variable {R : Net → Bool → Prop} {I : List (Net × Bool) → Prop} {conns : Dict Pin Net}
  {ps : List Pin}

/-- The values of the connected pins of a list. -/
def pinValues (w : Net → Bool) (conns : Dict Pin Net) (ps : List Pin) : List (Pin × Bool) :=
  ps.filterMap fun p => (conns.get? p).map fun m => (p, w m)

theorem lookup_pinValues {w : Net → Bool} {p : Pin} :
    (pinValues w conns ps).lookup p = if p ∈ ps then (conns.get? p).map w else none := by
  rw [pinValues]
  induction ps with
  | nil => rfl
  | cons q ps ih =>
    by_cases hpq : p = q
    · rw [hpq, if_pos List.mem_cons_self]
      cases hq : conns.get? q with
      | none =>
        rw [List.filterMap_cons_none (by rw [hq]; rfl), ← hpq, ih, hpq, hq]
        simp
      | some m => rw [List.filterMap_cons_some (by rw [hq]; rfl), List.lookup_cons_self]; rfl
    · rw [if_congr (List.mem_cons.trans (or_iff_right hpq)) rfl rfl, ← ih]
      cases hq : conns.get? q with
      | none => rw [List.filterMap_cons_none (by rw [hq]; rfl)]
      | some m =>
        rw [List.filterMap_cons_some (by rw [hq]; rfl), List.lookup_cons,
          beq_eq_false_iff_ne.mpr hpq]

theorem readPins_computes {read : ℕ → Net → Eval Bool} {w : Net → Bool}
    (hread : ∀ p ∈ ps, ∀ m, conns.get? p = some m →
      Computes I (fun depth => read depth m) (w m)) :
    Computes I (fun depth => readPins (read depth) conns ps) (pinValues w conns ps) := by
  induction ps with
  | nil => exact .pure []
  | cons p ps ih =>
    have ih := ih fun q hq => hread q (List.mem_cons_of_mem p hq)
    rw [pinValues, List.filterMap_cons]
    simp only [readPins]
    cases hp : conns.get? p with
    | none => exact ih
    | some nm => exact (hread p List.mem_cons_self nm hp).bind (ih.bind (.pure _))

theorem evalPins_computes {env : List (Pin × Bool)} {b : Bool}
    (h : Liberty.evalFn (fun p => env.lookup p) fn = .ok b) :
    Computes I (fun _ => evalPins fn env) b :=
  ⟨0, fun _ _ s hs => ⟨s, hs, by simp only [evalPins, h]⟩⟩

/-- An output of a cell is evaluated to the value of the program of the cell. -/
theorem evalOutput_computes {read : ℕ → Net → Eval Bool} {w : Net → Bool} {e : Expansion}
    {o : Pin × String} {c : LibCell} {b : Bool}
    (hread : ∀ m ∈ (pinsRead e.ops []).filterMap inst.conns.get?,
      Computes I (fun d => read d m) (w m))
    (ho : o ∈ e.outs) (hc : libFor rb.lib inst.cell = some c) (hagree : CombAgrees c e)
    (hfn : c.outs.lookup o.1 = some fn)
    (hval : e.eval (fun p => (inst.conns.get? p).map w) o.2 = some b) :
    Computes I (fun d => rb.evalOutput (read d) inst fn) b := by
  simp only [evalOutput, inputPins_eq hc, pure_bind]
  have hpins := readPins_computes fun p hp m hm =>
    hread m (List.mem_filterMap.mpr ⟨p, (hagree.ins p).mp hp, hm⟩)
  refine hpins.bind (evalPins_computes ((hagree.value o ho fn hfn _ b).mpr ?_))
  rw [← hval, Expansion.eval, Expansion.eval, evalOps_congr fun p hp => ?_]
  rw [lookup_pinValues, if_pos ((hagree.ins p).mpr hp)]

end Readback

/-! ### The check of an import -/

/-- The readback check of an import against a library. -/
def Imported.readback (imp : Imported) (r : Request) (lib : String → Option LibCell) :
    Readback where
  lib := lib
  insts := r.insts
  assigns := r.assigns
  insAll := imp.source.inputs
  outsNamed := r.outs
  flops := imp.auto
  cuts := imp.cuts
  datum := imp.datum

/-- What the check reads: the import without the pinned nets. -/
def Imported.unpinned (imp : Imported) : Source := { imp.source with pinned := [] }

section Accepted

open Readback

variable {depth : ℕ} {r : Request} {imp : Imported} {lib : String → Option LibCell} {nm : Net}
  {inst : Inst} {fn : String}

/-- Every combinational cell of an accepted import has an expansion. -/
theorem Accepted.exists_expansion (h : Accepted depth r imp) (hmem : inst ∈ r.insts)
    (hphys : isPhysical inst.cell = false) (hseq : isSequential inst.cell = false) :
    ∃ e, expansionFor inst.cell = some e := by
  have helab := h.datum
  rw [elaborate] at helab
  obtain ⟨p, hbuild, -⟩ := bind_eq_ok helab
  rw [build] at hbuild
  split_ifs at hbuild
  obtain ⟨drv, hdrv, -⟩ := bind_eq_ok hbuild
  rw [h.insts] at hdrv
  obtain ⟨drv₁, drv₂, -, hadd, -⟩ := exists_foldlM_of_mem hmem hdrv
  rw [addDrivers, hphys, hseq] at hadd
  cases he : expansionFor inst.cell with
  | none =>
    rw [he] at hadd
    cases hadd
  | some e => exact ⟨e, rfl⟩

theorem isState_of_q (hmem : inst ∈ r.insts) (hseq : isSequential inst.cell) {m : SeqModel}
    (hm : seqModelFor inst.cell = some m) (hq : inst.conns.get? m.q = some nm) : r.isState nm :=
  List.any_eq_true.mpr ⟨inst, hmem, Bool.and_eq_true_iff.mpr
    ⟨hseq, by rw [hm, Option.any_some, hq, beq_self_eq_true]⟩⟩

/-- An entry of the driver map on a net that is no state output is a driver of the net. -/
theorem Accepted.drives_of_mem (h : Accepted depth r imp) (hlib : LibertyAgrees lib r.insts)
    (hst : ¬ r.isState nm) (hmem : (nm, inst, fn) ∈ (imp.readback r lib).drivers) :
    ∃ e o c, Drives r.insts nm inst e o ∧ libFor lib inst.cell = some c ∧ CombAgrees c e ∧
      c.outs.lookup o.1 = some fn := by
  obtain ⟨hinst, c, hc, p, hp, hfn⟩ := mem_drivers.mp hmem
  have hpout : p ∈ c.outs.map Prod.fst := by
    by_contra hnot
    rw [Dict.lookup_eq_none_iff.mpr hnot] at hfn
    cases hfn
  by_cases hseq : isSequential inst.cell
  · obtain ⟨f, -, hm, -⟩ := exists_flop_of_findFlops h.flops hinst hseq
    obtain ⟨c', hc', hagree⟩ := hlib.sequential inst hinst hseq f.model hm
    obtain rfl : c' = c := Option.some.inj (hc'.symm.trans hc)
    rw [hagree.outs p hpout] at hp
    exact absurd (isState_of_q hinst hseq hm hp) hst
  · rw [Bool.not_eq_true] at hseq
    by_cases hphys : isPhysical inst.cell
    · rw [hlib.physical inst hinst hphys c hc] at hpout
      cases hpout
    · rw [Bool.not_eq_true] at hphys
      obtain ⟨e, he⟩ := h.exists_expansion hinst hphys hseq
      obtain ⟨c', hc', hagree⟩ := hlib.combinational inst hinst hphys hseq e he
      obtain rfl : c' = c := Option.some.inj (hc'.symm.trans hc)
      obtain ⟨o, ho, rfl⟩ := List.mem_map.mp ((hagree.outs p).mp hpout)
      exact ⟨e, o, c', ⟨hinst, hphys, hseq, he, ho, hp⟩, hc, hagree, hfn⟩

/-- A driver of a net has an entry in the driver map. -/
theorem mem_of_drives (hlib : LibertyAgrees lib r.insts) {e : Expansion}
    {o : Pin × String} (hd : Drives r.insts nm inst e o) :
    ∃ fn, (nm, inst, fn) ∈ (imp.readback r lib).drivers := by
  obtain ⟨c, hc, hagree⟩ := hlib.combinational inst hd.mem hd.physical hd.sequential e hd.expansion
  have hout : o.1 ∈ c.outs.map Prod.fst := (hagree.outs o.1).mpr (List.mem_map_of_mem hd.out)
  obtain ⟨fn, hfn⟩ :=
    Option.ne_none_iff_exists'.mp (mt Dict.lookup_eq_none_iff.mp (not_not.mpr hout))
  exact ⟨fn, mem_drivers.mpr ⟨hd.mem, c, hc, o.1, hd.conn, hfn⟩⟩

/-! ### Settled values -/

/-- The net has an assign or is on an output pin of a combinational cell. -/
def Request.isDriven (r : Request) (nm : Net) : Bool :=
  nm ∈ r.assigns.map Prod.fst ++ r.insts.flatMap outNets

theorem Request.isDriven_iff : r.isDriven nm ↔ (netDrivers r.insts r.assigns nm).Nonempty := by
  rw [isDriven, decide_eq_true_iff, List.mem_append, List.mem_map, List.mem_flatMap]
  constructor
  · rintro (⟨⟨nm', m⟩, hm, rfl⟩ | ⟨inst, hinst⟩)
    · exact ⟨.copy m, Or.inl ⟨m, hm, rfl⟩⟩
    · obtain ⟨e, o, hd⟩ := drives_iff.mpr hinst
      exact ⟨cellDriver inst.conns e o.2, Or.inr ⟨inst, e, o, hd, rfl⟩⟩
  · rintro ⟨d, ⟨m, hm, -⟩ | ⟨inst, e, o, hd, -⟩⟩
    · exact Or.inl ⟨(nm, m), hm, rfl⟩
    · exact Or.inr ⟨inst, drives_iff.mp ⟨e, o, hd⟩⟩

/-- A driven net without an assign is on an output pin of a combinational cell. -/
theorem Request.drives_of_isDriven (hd : r.isDriven nm) (hnot : nm ∉ r.assigns.map Prod.fst) :
    ∃ inst e o, Drives r.insts nm inst e o := by
  rw [isDriven, decide_eq_true_iff, List.mem_append] at hd
  obtain ⟨inst, hinst⟩ := List.mem_flatMap.mp (hd.resolve_left hnot)
  exact ⟨inst, drives_iff.mpr hinst⟩

/-- The value of a leaf of the source on a vector: a primary input, a held net, a literal or a net
without a driver, which is low. -/
def readLeaf (r : Request) (inputs : List Net) (held : List (Net × Bool)) (vec : List Bool)
    (nm : Net) : Option Bool :=
  if nm ∈ inputs then some (vec.getD (inputs.idxOf nm) false)
  else match held.lookup nm with
    | some b => some b
    | none =>
      if isLiteral nm then some (literalValue nm)
      else if r.isDriven nm then none else some false

/-- The settled values on a vector. -/
abbrev SettledAt (r : Request) (inputs : List Net) (held : List (Net × Bool)) (vec : List Bool) :
    Net → Bool → Prop :=
  Settles (readLeaf r inputs held vec) (netDrivers r.insts r.assigns)

/-- The leaves on a vector have the values that an elaboration reads. -/
theorem leafOf_readLeaf (src : Source) (hinsts : src.insts = r.insts)
    (hassigns : src.assigns = r.assigns) (hnd : src.inputs.Nodup) (vec : List Bool) :
    LeafOf src (fun k => vec.getD k false) (readLeaf r src.inputs src.pinned vec) where
  input k nm hk := by
    obtain ⟨hlt, rfl⟩ := List.getElem?_eq_some_iff.mp hk
    rw [readLeaf, if_pos (List.getElem_mem hlt), hnd.idxOf_getElem k hlt]
  pinned nm b hnm hb := by rw [readLeaf, if_neg hnm, hb]
  literal nm hnm hnone hlit := by rw [readLeaf, if_neg hnm, hnone, if_pos hlit]
  free nm hfree hd := by
    rw [hinsts, hassigns, ← Request.isDriven_iff] at hd
    rw [readLeaf, if_neg hfree.input, hfree.pinned, hfree.literal, if_pos hd]
    rfl

theorem closed_settledAt (src : Source) (hinsts : src.insts = r.insts)
    (hassigns : src.assigns = r.assigns) (hnd : src.inputs.Nodup)
    (hsingle : SinglyDriven r.insts r.assigns) (vec : List Bool) :
    Closed src (fun k => vec.getD k false) (SettledAt r src.inputs src.pinned vec) := by
  rw [← hinsts, ← hassigns] at hsingle
  have := (leafOf_readLeaf src hinsts hassigns hnd vec).closed_settled hsingle
  rwa [hinsts, hassigns] at this

/-- The settled values of the source as the check reads it. -/
abbrev Imported.Sourced (imp : Imported) (r : Request) (vec : List Bool) : Net → Bool → Prop :=
  SettledAt r imp.source.inputs [] vec

/-- The settled values of the source with the pinned nets at their constants. -/
abbrev Imported.Held (imp : Imported) (r : Request) (vec : List Bool) : Net → Bool → Prop :=
  SettledAt r imp.source.inputs imp.source.pinned vec

theorem Accepted.closed_held (h : Accepted depth r imp) (hsingle : SinglyDriven r.insts r.assigns)
    (vec : List Bool) : Closed imp.source (fun k => vec.getD k false) (imp.Held r vec) :=
  closed_settledAt imp.source h.insts h.assigns h.nodup_inputs hsingle vec

theorem Accepted.closed_sourced (h : Accepted depth r imp)
    (hsingle : SinglyDriven r.insts r.assigns) (vec : List Bool) :
    Closed imp.unpinned (fun k => vec.getD k false) (imp.Sourced r vec) :=
  closed_settledAt imp.unpinned h.insts h.assigns h.nodup_inputs hsingle vec

/-- A net that is no leaf and has no driver settles low. -/
theorem sourced_of_not_isDriven {vec : List Bool} (hfree : imp.unpinned.Free nm)
    (hnot : ¬ r.isDriven nm) : imp.Sourced r vec nm false := by
  refine .leaf ?_
  have hnm : nm ∉ imp.source.inputs := hfree.input
  rw [readLeaf, if_neg hnm, List.lookup_nil, hfree.literal, if_neg hnot]
  rfl

/-! ### The values that the evaluation returns -/

section Keeps

variable {vec : List Bool}

/-- The values that have been remembered are settled values. -/
def Remembered (imp : Imported) (r : Request) (vec : List Bool) (memo : List (Net × Bool)) :
    Prop :=
  ∀ nm b, memo.lookup nm = some b → imp.Sourced r vec nm b

theorem remember_keeps {b : Bool} (hb : imp.Sourced r vec nm b) :
    Keeps (Remembered imp r vec) (remember nm b) (imp.Sourced r vec nm) := by
  intro s c s' hs hrun
  cases hrun
  refine ⟨fun nm' b' hb' => ?_, hb⟩
  rw [List.lookup_cons] at hb'
  split at hb'
  · rename_i heq
    rw [eq_of_beq heq, ← Option.some.inj hb']
    exact hb
  · exact hs nm' b' hb'

theorem remember_computes {b : Bool} (hb : imp.Sourced r vec nm b) :
    Computes (Remembered imp r vec) (fun _ => remember nm b) b :=
  ⟨0, fun _ _ s hs => ⟨(nm, b) :: s, (remember_keeps hb s b _ hs rfl).1, rfl⟩⟩

variable (h : Accepted depth r imp) (hsingle : SinglyDriven r.insts r.assigns)
  (hlib : LibertyAgrees lib r.insts) (hvec : vec.length = imp.source.inputs.length)

include h hvec

theorem leaf_eq_some {b : Bool} : ((imp.readback r lib).leaf vec).get? nm = some b ↔
    ∃ k, imp.source.inputs[k]? = some nm ∧ vec.getD k false = b := by
  have hkeys : ((imp.source.inputs.zip vec).map Prod.fst) = imp.source.inputs :=
    List.map_fst_zip hvec.ge
  change (Dict.ofList (imp.source.inputs.zip vec)).get? nm = some b ↔ _
  rw [Dict.get?_ofList_eq_some (hkeys.symm ▸ h.nodup_inputs), List.mem_iff_getElem?]
  refine exists_congr fun k => ?_
  rw [List.getElem?_zip_eq_some]
  refine and_congr_right fun hk => ?_
  have hlt : k < vec.length := hvec.symm ▸ (List.getElem?_eq_some_iff.mp hk).1
  rw [List.getElem?_eq_getElem hlt, List.getD_eq_getElem _ _ hlt, Option.some.injEq]

omit h in
theorem leaf_eq_none :
    ((imp.readback r lib).leaf vec).get? nm = none ↔ nm ∉ imp.source.inputs := by
  change (Dict.ofList (imp.source.inputs.zip vec)).get? nm = none ↔ _
  rw [Dict.get?_ofList_eq_none, List.map_fst_zip hvec.ge]

include hsingle hlib

omit hvec in
/-- What the evaluation does with a net that is no primary input: the net is a literal, it has an
assign, a cell drives it or it has no driver. -/
theorem evalNet_cases (hnm : nm ∉ imp.source.inputs) :
    (isLiteral nm ∧
      ∀ read, (imp.readback r lib).evalNet read nm = pure (literalValue nm)) ∨
    (imp.unpinned.Free nm ∧ ∃ m, r.assigns.lookup nm = some m ∧
      ∀ read, (imp.readback r lib).evalNet read nm = read m) ∨
    (imp.unpinned.Free nm ∧ r.assigns.lookup nm = none ∧ ∃ inst e o c fn,
      Drives r.insts nm inst e o ∧ libFor lib inst.cell = some c ∧ CombAgrees c e ∧
      c.outs.lookup o.1 = some fn ∧ ∀ read, (imp.readback r lib).evalNet read nm =
        (do remember nm (← (imp.readback r lib).evalOutput read inst fn))) ∨
    (imp.unpinned.Free nm ∧ ¬ r.isDriven nm ∧
      ∀ read, (imp.readback r lib).evalNet read nm = pure false) := by
  by_cases hlit : isLiteral nm
  · exact Or.inl ⟨hlit, fun read => by rw [evalNet, if_pos hlit]⟩
  have hfree : imp.unpinned.Free nm := ⟨hnm, rfl, by simpa using hlit⟩
  have hkeys : (r.assigns.map Prod.fst).Nodup := (List.nodup_append.mp hsingle).1
  refine Or.inr ?_
  cases halias : (imp.readback r lib).aliasMap.get? nm with
  | some m =>
    have hm := (Dict.get?_ofList_eq_some hkeys).mp halias
    exact Or.inl ⟨hfree, m, Dict.lookup_of_mem hkeys hm,
      fun read => by rw [evalNet, if_neg hlit, halias]⟩
  | none =>
    have hnot : nm ∉ r.assigns.map Prod.fst := Dict.get?_ofList_eq_none.mp halias
    refine Or.inr ?_
    cases hdrv : (imp.readback r lib).drivers.lookup nm with
    | some p =>
      obtain ⟨e, o, c, hd, hc, hagree, hfn⟩ :=
        h.drives_of_mem hlib (h.not_leaf hnm).1 (Dict.mem_of_lookup hdrv)
      exact Or.inl ⟨hfree, Dict.lookup_eq_none_iff.mpr hnot, p.1, e, o, c, p.2, hd, hc, hagree,
        hfn, fun read => by rw [evalNet, if_neg hlit, halias, hdrv]⟩
    | none =>
      refine Or.inr ⟨hfree, fun hdriven => ?_, fun read => by
        rw [evalNet, if_neg hlit, halias, hdrv]⟩
      obtain ⟨inst, e, o, hd⟩ := Request.drives_of_isDriven hdriven hnot
      obtain ⟨fn, hfn⟩ := mem_of_drives hlib hd
      exact Dict.lookup_eq_none_iff.mp hdrv (List.mem_map_of_mem (f := Prod.fst) hfn)

omit hsingle hlib in
theorem ev_computes_of_input {b : Bool} {k : ℕ} (hk : imp.source.inputs[k]? = some nm)
    (hb : vec.getD k false = b) :
    Computes (Remembered imp r vec) (fun d => (imp.readback r lib).ev vec d nm) b := by
  have hleaf : ((imp.readback r lib).leaf vec).get? nm = some b :=
    (leaf_eq_some h hvec).mpr ⟨k, hk, hb⟩
  refine (Computes.pure b).succ fun d s hs _ => ⟨s, hs, ?_⟩
  rw [ev, hleaf]
  rfl

omit h hsingle hlib in
/-- A net that settles is evaluated to its value as soon as it is evaluated to it for the first
time. -/
theorem ev_computes_of_evalNet {b : Bool} (hnm : nm ∉ imp.source.inputs)
    (hb : imp.Sourced r vec nm b) (hnet : Computes (Remembered imp r vec)
      (fun d => (imp.readback r lib).evalNet ((imp.readback r lib).ev vec d) nm) b) :
    Computes (Remembered imp r vec) (fun d => (imp.readback r lib).ev vec d nm) b := by
  refine hnet.succ fun d s hs hrun => ?_
  simp only [ev, (leaf_eq_none hvec).mpr hnm, run_get_bind]
  cases hlookup : s.lookup nm with
  | some b' =>
    obtain rfl : b = b' := hb.unique (hs nm b' hlookup)
    exact ⟨s, hs, rfl⟩
  | none => exact hrun

/-- A net that settles is evaluated to its value. -/
theorem ev_computes {b : Bool} (hb : imp.Sourced r vec nm b) :
    Computes (Remembered imp r vec) (fun d => (imp.readback r lib).ev vec d nm) b := by
  induction hb with
  | @leaf nm b hleaf =>
    by_cases hnm : nm ∈ imp.source.inputs
    · rw [readLeaf, if_pos hnm] at hleaf
      exact ev_computes_of_input h hvec (List.getElem?_idxOf hnm) (Option.some.inj hleaf)
    refine ev_computes_of_evalNet hvec hnm (.leaf hleaf) ?_
    rw [readLeaf, if_neg hnm, List.lookup_nil] at hleaf
    have hdriven (hfree : imp.unpinned.Free nm) (hd : r.isDriven nm) : False := by
      simp only [hfree.literal, hd] at hleaf
      cases hleaf
    rcases evalNet_cases h hsingle hlib hnm with ⟨hlit, heq⟩ | ⟨hfree, m, hm, -⟩ |
      ⟨hfree, -, inst, e, o, c, fn, hd, -⟩ | ⟨hfree, hnot, heq⟩
    · simp only [heq]
      rw [if_pos hlit] at hleaf
      exact Option.some.inj hleaf ▸ .pure _
    · exact (hdriven hfree (Request.isDriven_iff.mpr
        ⟨.copy m, Or.inl ⟨m, Dict.mem_of_lookup hm, rfl⟩⟩)).elim
    · exact (hdriven hfree (Request.isDriven_iff.mpr
        ⟨cellDriver inst.conns e o.2, Or.inr ⟨inst, e, o, hd, rfl⟩⟩)).elim
    · simp only [heq]
      simp only [hfree.literal, hnot] at hleaf
      exact Option.some.inj hleaf ▸ .pure _
  | @driven nm b w hleaf hd hread hval ih =>
    have hb : imp.Sourced r vec nm b := .driven w hleaf hd hread hval
    have hnm : nm ∉ imp.source.inputs := fun hnm => by
      rw [readLeaf, if_pos hnm] at hleaf
      cases hleaf
    refine ev_computes_of_evalNet hvec hnm hb ?_
    rcases evalNet_cases h hsingle hlib hnm with ⟨hlit, -⟩ | ⟨-, m, hm, heq⟩ |
      ⟨-, -, inst, e, o, c, fn, hd, hc, hagree, hfn, heq⟩ | ⟨-, hnot, -⟩
    · rw [readLeaf, if_neg hnm, List.lookup_nil] at hleaf
      simp only [hlit] at hleaf
      cases hleaf
    · simp only [heq]
      have hcopy : Driver.copy m ∈ netDrivers r.insts r.assigns nm :=
        Or.inl ⟨m, Dict.mem_of_lookup hm, rfl⟩
      exact Option.some.inj (hval _ hcopy) ▸ ih _ hcopy m List.mem_cons_self
    · simp only [heq]
      have hcell : cellDriver inst.conns e o.2 ∈ netDrivers r.insts r.assigns nm :=
        Or.inr ⟨inst, e, o, hd, rfl⟩
      have hout : Computes (Remembered imp r vec) (fun d =>
          (imp.readback r lib).evalOutput ((imp.readback r lib).ev vec d) inst fn) b :=
        evalOutput_computes (ih _ hcell) hd.out hc hagree hfn (hval _ hcell)
      exact hout.bind (remember_computes hb)
    · exact absurd (Request.isDriven_iff.mpr hd) hnot

end Keeps

end Accepted

end Saltworks.Importer
