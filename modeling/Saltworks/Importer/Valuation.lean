import Saltworks.Importer.ElaborateSound

/-!
# Consistent valuations

A valuation of the net names is consistent with a netlist when it solves the equations of its
cells and assigns and gives the pinned nets their constants. The elaboration reads a name of the
form `1'b…` as a literal even where a cell drives a net of that name, so it computes the values
of the consistent valuations that also give these names the values of the literals.

## Main definitions

* `Consistent`: a valuation solves the equations of a netlist.
* `Literals`: a valuation gives the literal names their values.
* `nextValue`: the next state of a flop.

## Main results

* `elaborate_sound`: the datum computes the values of every such valuation.
* `not_elaborate_sound`: without the literals it does not.
-/

namespace Saltworks.Importer

open Silicon

/-- A valuation of the net names solves the equations of a netlist. -/
structure Consistent (src : Source) (v : Net → Bool) : Prop where
  cell : ∀ inst ∈ src.insts, isPhysical inst.cell = false → isSequential inst.cell = false →
    ∀ e ∈ expansionFor inst.cell, ∀ o ∈ e.outs, ∀ nm ∈ inst.conns.get? o.1,
      ∀ b ∈ e.eval (fun p => (inst.conns.get? p).map v) o.2, v nm = b
  assign : ∀ a ∈ src.assigns, v a.1 = v a.2
  pinned : ∀ a ∈ src.pinned, v a.1 = a.2

instance (src : Source) (v : Net → Bool) : Decidable (Consistent src v) :=
  decidable_of_iff
    ((∀ inst ∈ src.insts, isPhysical inst.cell = false → isSequential inst.cell = false →
      ∀ e ∈ expansionFor inst.cell, ∀ o ∈ e.outs, ∀ nm ∈ inst.conns.get? o.1,
        ∀ b ∈ e.eval (fun p => (inst.conns.get? p).map v) o.2, v nm = b) ∧
      (∀ a ∈ src.assigns, v a.1 = v a.2) ∧ ∀ a ∈ src.pinned, v a.1 = a.2)
    ⟨fun h => ⟨h.1, h.2.1, h.2.2⟩, fun h => ⟨h.cell, h.assign, h.pinned⟩⟩

/-- The names of literals that are no primary inputs and not pinned have the literals' values. -/
def Literals (src : Source) (v : Net → Bool) : Prop :=
  ∀ nm, nm ∉ src.inputs → src.pinned.lookup nm = none → isLiteral nm → v nm = literalValue nm

/-- The net on a pin of a flop. -/
def Flop.pin (f : Flop) (p : Pin) : Net := (f.conns.get? p).getD ""

/-- The next state of a flop: the net of `D`, or of an enable flop `D` where `DE` is high and the
state where it is low. -/
def nextValue (v : Net → Bool) (f : Flop) : Bool :=
  match f.d with
  | some d => v d
  | none => if v (f.pin "DE") then v (f.pin "D") else v (f.pin "Q")

/-- Primary input `k` has the value of its net. -/
def inputValue (src : Source) (v : Net → Bool) (k : ℕ) : Bool := v (src.inputs.getD k "")

/-! ### A consistent valuation is closed -/

section Closed

variable {src : Source} {v : Net → Bool}

theorem Consistent.eq_of_drives (hv : Consistent src v) {nm : Net} {inst : Inst} {e : Expansion}
    {o : Pin × String} (hd : Drives src.insts nm inst e o) {b : Bool}
    (hb : Yields (pinShows (fun nm b => v nm = b) inst.conns) e.ops o.2 b) : v nm = b := by
  refine hv.cell inst hd.mem hd.physical hd.sequential e hd.expansion o hd.out nm hd.conn b
    (eval_of_yields hb ?_)
  rintro p _ c ⟨m, hm, rfl⟩
  rw [hm, Option.map_some]

theorem Consistent.closed (hv : Consistent src v) (hlit : Literals src v) :
    Closed src (inputValue src v) fun nm b => v nm = b where
  input k nm hk := by rw [inputValue, List.getD_eq_getElem?_getD, hk, Option.getD_some]
  pinned nm b _ hb := hv.pinned (nm, b) (Dict.mem_of_lookup hb)
  literal := hlit
  assign nm r b _ hr hb := (hv.assign (nm, r) (Dict.mem_of_lookup hr)).trans hb
  cell nm inst e o b _ _ hd hb := hv.eq_of_drives hd hb

/-- The logic behind a cut net has the value of the cut net. -/
theorem Consistent.eq_of_rootShows (hv : Consistent src v) {nm : Net} {b : Bool}
    (h : RootShows src (fun nm b => v nm = b) nm b) : v nm = b := by
  obtain ⟨inst, e, o, hd, hb⟩ := h
  have hval := hv.eq_of_drives hd hb
  cases hr : src.assigns.lookup nm with
  | none => rwa [hr, Option.getD_none] at hval
  | some r =>
    rw [hr, Option.getD_some] at hval
    exact (hv.assign (nm, r) (Dict.mem_of_lookup hr)).trans hval

/-- A flop whose model has no data pin is an enable flop with all of its pins. -/
theorem Flop.Found.enable {insts : List Inst} {f : Flop} (hf : f.Found insts) (hd : f.d = none) :
    f.model = edfxtp ∧ ∀ p ∈ ["D", "DE", "Q"], f.conns.get? p = some (f.pin p) := by
  have hpin (p : Pin) (hp : p ∈ f.model.pins) : f.conns.get? p = some (f.pin p) := by
    rw [Flop.pin]
    exact (Option.some_get (hf.pins p hp)).symm.trans (by rw [Option.get_eq_getD])
  have hdata {m : SeqModel} (hm : f.model = m) {p : Pin} (hp : m.d = some p) (hmem : p ∈ m.pins) :
      False := by
    have := hf.d
    rw [hd, hm, hp, Option.bind_some, hpin p (hm ▸ hmem)] at this
    cases this
  rcases seqModelFor_cases hf.model with hm | hm | hm
  · exact (hdata hm rfl (by simp [dfxtp])).elim
  · refine ⟨hm, fun p hp => hpin p ?_⟩
    rw [hm]
    revert p
    decide
  · exact (hdata hm rfl (by simp [dfrtp])).elim

/-- The program of the enable flop takes `D` where `DE` is high and the state where it is low. -/
theorem eval_edfxtp {env : Pin → Option Bool} {d de q : Bool} (hd : env "D" = some d)
    (hde : env "DE" = some de) (hq : env "Q" = some q) :
    (Expansion.mk edfxtp.next []).eval env "t" = some (if de then d else q) := by
  have hread : pinsRead edfxtp.next [] = ["DE", "DE", "D", "Q"] := by decide
  have hpins : [("D", d), ("DE", de), ("Q", q)].lookup "D" = some d ∧
      [("D", d), ("DE", de), ("Q", q)].lookup "DE" = some de ∧
      [("D", d), ("DE", de), ("Q", q)].lookup "Q" = some q := ⟨rfl, rfl, rfl⟩
  have henv : ∀ p ∈ pinsRead edfxtp.next [],
      env p = [("D", d), ("DE", de), ("Q", q)].lookup p := by
    rw [hread]
    simp [hd, hde, hq, hpins]
  rw [Expansion.eval, evalOps_congr henv]
  clear hd hde hq henv hpins
  revert d de q
  decide

theorem eq_of_nextShows {insts : List Inst} {f : Flop} (hf : f.Found insts) {b : Bool}
    (h : NextShows (fun nm b => v nm = b) f b) : nextValue v f = b := by
  rw [NextShows] at h
  rw [nextValue]
  cases hd : f.d with
  | some d => simpa only [hd] using h
  | none =>
    simp only [hd] at h ⊢
    obtain ⟨hm, hpins⟩ := hf.enable hd
    obtain ⟨last, hlast, hb⟩ := h
    rw [hm] at hlast hb
    obtain rfl : Op.or "t" "a" "b" = last := Option.some.inj hlast
    let env : Pin → Option Bool := fun p => (f.conns.get? p).map v
    have hval : (Expansion.mk edfxtp.next []).eval env "t" = some b := eval_of_yields hb
      (by
      rintro p _ c ⟨m, hm, rfl⟩
      rw [show env p = (f.conns.get? p).map v from rfl, hm, Option.map_some])
    have hpin (p : Pin) (hp : p ∈ ["D", "DE", "Q"]) : env p = some (v (f.pin p)) := by
      rw [show env p = (f.conns.get? p).map v from rfl, hpins p hp, Option.map_some]
    rw [eval_edfxtp (hpin "D" (by simp)) (hpin "DE" (by simp)) (hpin "Q" (by simp))] at hval
    exact Option.some.inj hval

end Closed

/-! ### Soundness -/

theorem map_eq_of_forall₂ {α : Type*} {f : α → Bool} {as : List α} {bs : List Bool}
    (h : List.Forall₂ (fun a b => f a = b) as bs) : as.map f = bs := by
  induction h with
  | nil => rfl
  | cons hab _ ih => rw [List.map_cons, hab, ih]

theorem forall₂_imp_of_mem {α β : Type*} {P Q : α → β → Prop} {as : List α} {bs : List β}
    (hPQ : ∀ a ∈ as, ∀ b, P a b → Q a b) (h : List.Forall₂ P as bs) : List.Forall₂ Q as bs := by
  induction h with
  | nil => exact .nil
  | cons hab _ ih =>
    exact .cons (hPQ _ List.mem_cons_self _ hab)
      (ih fun a ha => hPQ a (List.mem_cons_of_mem _ ha))

/-- The datum has exactly its input gates in front and its operands in order, and on the inputs
of a consistent valuation its outputs are the design outputs, next states and cut nets. -/
theorem elaborate_sound {depth : ℕ} {src : Source} {pinReset : Option Net} {flops auto : List Flop}
    {outs cuts : List Net} {datum : Datum} (hflops : findFlops src.insts pinReset = .ok flops)
    (hauto : auto ⊆ flops) (h : elaborate depth src outs auto cuts = .ok datum) {v : Net → Bool}
    (hv : Consistent src v) (hlit : Literals src v) :
    datum.gates.InputsFirst src.inputs.length ∧ datum.gates.Ordered ∧
      (∀ i ∈ datum.outs, i < datum.gates.length) ∧
      datum.outs.map (datum.gates.value (inputValue src v)) =
        outs.map v ++ auto.map (nextValue v) ++ cuts.map v := by
  obtain ⟨hinp, hord, hlt, os, ss, cs, hval, hos, hss, hcs⟩ :=
    elaborate_closed (hv.closed hlit) h
  refine ⟨hinp, hord, hlt, ?_⟩
  have hfound := findFlops_found hflops
  have hnext : List.Forall₂ (fun f b => nextValue v f = b) auto ss :=
    forall₂_imp_of_mem (fun f hf _ hb => eq_of_nextShows (hfound f (hauto hf)) hb) hss
  have hroot : List.Forall₂ (fun nm b => v nm = b) cuts cs :=
    hcs.imp fun _ _ hb => hv.eq_of_rootShows hb
  rw [hval, map_eq_of_forall₂ hos, map_eq_of_forall₂ hnext, map_eq_of_forall₂ hroot]

/-- An enable flop that takes the exclusive or of its state and an input. -/
def toggleNet : Source where
  insts := [
    ⟨"edfxtp_1", "ff", .ofList [("CLK", "clk"), ("D", "d"), ("DE", "en"), ("Q", "q")]⟩,
    ⟨"xor2_1", "g0", .ofList [("A", "q"), ("B", "x"), ("X", "d")]⟩,
    ⟨"and2_2", "g1", .ofList [("A", "y"), ("B", "1'b1"), ("X", "z")]⟩]
  assigns := [("y", "q")]
  inputs := ["x", "en", "q", "z"]
  pinned := []

/-- The flop of `toggleNet`. -/
def toggleFlop : Flop where
  cell := "edfxtp_1"
  iname := "ff"
  model := edfxtp
  conns := .ofList [("CLK", "clk"), ("D", "d"), ("DE", "en"), ("Q", "q")]
  q := "q"
  clk := "clk"
  d := none
  reset := none

/-- The elaboration of `toggleNet` down to `y`, its flop and the cut `z`. -/
def toggleDatum : Datum where
  gates := [.inp 0, .inp 1, .inp 2, .inp 3, .not 1, .xor 2 0, .and 1 5, .and 4 2, .or 6 7,
    .const true, .and 2 9]
  outs := [2, 8, 10]

/-- The input, the enable and the state are high, so the exclusive or is low. -/
def toggleValuation (nm : Net) : Bool :=
  if isLiteral nm then literalValue nm else nm != "d"

theorem elaborate_sound_toggleNet :
    toggleDatum.gates.InputsFirst 4 ∧ toggleDatum.gates.Ordered ∧
      (∀ i ∈ toggleDatum.outs, i < toggleDatum.gates.length) ∧
      toggleDatum.outs.map (toggleDatum.gates.value (inputValue toggleNet toggleValuation)) =
        [true, false, true] := by
  have hflops : findFlops toggleNet.insts none = .ok [toggleFlop] := by decide
  have hdatum : elaborate 10 toggleNet ["y"] [toggleFlop] ["z"] = .ok toggleDatum := by
    decide
  have hv : Consistent toggleNet toggleValuation := by decide
  have hlit : Literals toggleNet toggleValuation := by
    intro nm _ _ hnm
    rw [toggleValuation, if_pos hnm]
  have h := elaborate_sound hflops (List.Subset.refl _) hdatum hv hlit
  exact ⟨h.1, h.2.1, h.2.2.1, h.2.2.2.trans (by decide)⟩

/-! ### A net with the name of a literal -/

/-- A net named `1'b0` that an inverter drives high. -/
def literalNet : Source where
  insts := [⟨"inv_1", "g0", .ofList [("A", "a"), ("Y", "1'b0")]⟩,
    ⟨"buf_1", "g1", .ofList [("A", "1'b0"), ("X", "y")]⟩]
  assigns := []
  inputs := ["a"]
  pinned := []

/-- The elaboration of `literalNet` down to `y`. -/
def literalDatum : Datum where
  gates := [.inp 0, .const false]
  outs := [1]

/-- A consistent valuation that does not give `1'b0` the value of the literal is not computed. -/
theorem not_elaborate_sound : ¬ ∀ (depth : ℕ) (src : Source) (pinReset : Option Net)
    (flops auto : List Flop) (outs cuts : List Net) (datum : Datum),
    findFlops src.insts pinReset = .ok flops → auto ⊆ flops →
    elaborate depth src outs auto cuts = .ok datum → ∀ v, Consistent src v →
      datum.outs.map (datum.gates.value (inputValue src v)) =
        outs.map v ++ auto.map (nextValue v) ++ cuts.map v := by
  intro h
  have hv : Consistent literalNet fun nm => nm != "a" := by decide
  have hout := h 10 literalNet none [] [] ["y"] [] literalDatum (by decide)
    (List.Subset.refl _) (by decide) _ hv
  revert hout
  decide

end Saltworks.Importer
