import Saltworks.Importer.Accepted
import Saltworks.Importer.SettledNetlist
import Saltworks.Importer.Valuation
import Saltworks.Machine.Synchronous

/-!
# The clocked netlist and the iterated datum

A clocked netlist settles in every cycle, with the contents of its flops, the design inputs and
the held nets as leaves, and at the edge every flop takes the next state of its model. What the
importer makes of the netlist is a combinational datum, which is iterated by feeding its next-state
outputs back into its state inputs by position.

A flop that is cut by hand has its state net among the design inputs, so no position of the
state pairing carries it: the trace has to feed its contents back (`HandCutFed`).

## Main definitions

* `leafValue`, `Settled`: the settled values of a netlist in one cycle.
* `Clocks`: one clock cycle of the netlist.
* `HandCutFed`: the design inputs carry the contents of the flops that are cut by hand.
* `Imported.design`, `Imported.machine`: the iterated datum.

## Main results

* `design_eq_of_clocks`, `next_eq_of_clocks`: one cycle of the datum and of the netlist.
* `exists_clocks`: a netlist without a net that two drivers drive does settle.
* `datum_tracks_netlist`: every run of the netlist is the run of the iterated datum.
* `not_datum_tracks_netlist`: a trace that does not feed back a hand-cut flop leads them apart.
-/

namespace Saltworks.Importer

open Silicon Fallible

/-! ### The clocked netlist -/

/-- The net is the state output of a flop. -/
def Request.isState (r : Request) (nm : Net) : Bool :=
  r.insts.any fun inst => isSequential inst.cell &&
    (seqModelFor inst.cell).any fun m => inst.conns.get? m.q == some nm

/-- The value of a leaf of the netlist: the contents of a flop, a design input, a held net or a
literal. -/
def leafValue (r : Request) (held : List (Net × Bool)) (σ : Net → Bool) (x : ℕ → Bool)
    (nm : Net) : Option Bool :=
  if r.isState nm then some (σ nm)
  else if nm ∈ r.ins then some (x (r.ins.idxOf nm))
  else match held.lookup nm with
    | some b => some b
    | none => if isLiteral nm then some (literalValue nm) else none

/-- The settled values of a cycle. -/
abbrev Settled (r : Request) (held : List (Net × Bool)) (σ : Net → Bool) (x : ℕ → Bool) :
    Net → Bool → Prop :=
  Settles (leafValue r held σ x) (netDrivers r.insts r.assigns)

/-- One clock cycle of the netlist: from the contents `σ` and the inputs `x` it shows the outputs
`o`, and at the edge every flop takes its next state in `σ'`. -/
structure Clocks (r : Request) (held : List (Net × Bool)) (σ : Net → Bool) (x : ℕ → Bool)
    (o : List Bool) (σ' : Net → Bool) : Prop where
  outs : List.Forall₂ (Settled r held σ x) r.outs o
  next : ∀ inst ∈ r.insts, isSequential inst.cell → ∀ m, seqModelFor inst.cell = some m →
    ∀ q, inst.conns.get? m.q = some q → ModelNext (Settled r held σ x) m inst.conns (σ' q)

/-- Where a design input is the state net of a flop, it carries the contents of the flop. -/
def HandCutFed (r : Request) (σ : Net → Bool) (x : ℕ → Bool) : Prop :=
  ∀ k nm, r.ins[k]? = some nm → r.isState nm → x k = σ nm

/-! ### The iterated datum -/

namespace Imported

variable (imp : Imported)

/-- The inputs of the datum: the design inputs, then the state. -/
def inputs (st : List Bool) (x : ℕ → Bool) (k : ℕ) : Bool :=
  if k < imp.ndesignIn then x k else st.getD (k - imp.ndesignIn) false

/-- The outputs of the datum. -/
def values (st : List Bool) (x : ℕ → Bool) : List Bool :=
  imp.datum.outs.map (imp.datum.gates.value (imp.inputs st x))

/-- The design outputs. -/
def design (st : List Bool) (x : ℕ → Bool) : List Bool :=
  (imp.values st x).take imp.ndesignOut

/-- Output `ndesignOut + i` of a cycle is input `ndesignIn + i` of the next. -/
def machine : Synchronous.Machine (List Bool) (ℕ → Bool) where
  step st x := (imp.values st x).drop imp.ndesignOut

end Imported

/-! ### Leaves of an accepted import -/

section Accepted

variable {depth : ℕ} {r : Request} {imp : Imported} {held : List (Net × Bool)} {σ : Net → Bool}
  {x : ℕ → Bool} {nm : Net}

theorem Accepted.isState_iff (h : Accepted depth r imp) :
    r.isState nm ↔ ∃ f ∈ imp.flops, f.q = nm := by
  constructor
  · intro hst
    obtain ⟨inst, hmem, hst⟩ := List.any_eq_true.mp hst
    obtain ⟨hseq, hq⟩ := Bool.and_eq_true_iff.mp hst
    obtain ⟨f, hf, hmodel, hconns⟩ := exists_flop_of_findFlops h.flops hmem hseq
    have hfq := (h.found f hf).q
    rw [hmodel, Option.any_some, beq_iff_eq, ← hconns, hfq] at hq
    exact ⟨f, hf, Option.some.inj hq⟩
  · rintro ⟨f, hf, rfl⟩
    obtain ⟨⟨inst, hmem, hseq, hcell, hconns⟩, hmodel, -, hq, -, -, -⟩ := h.found f hf
    refine List.any_eq_true.mpr ⟨inst, hmem, Bool.and_eq_true_iff.mpr ⟨hseq, ?_⟩⟩
    rw [hcell, hmodel, Option.any_some, beq_iff_eq, hconns, hq]

theorem Accepted.isState_of_auto (h : Accepted depth r imp) {f : Flop} (hf : f ∈ imp.auto) :
    r.isState f.q :=
  h.isState_iff.mpr ⟨f, ((treatFlops_treated h.treat).mem_auto f).mp hf |>.1, rfl⟩

/-- A net that is no primary input of the datum is no leaf but a held net or a literal. -/
theorem Accepted.not_leaf (h : Accepted depth r imp) (hnm : nm ∉ imp.source.inputs) :
    ¬ r.isState nm ∧ nm ∉ r.ins := by
  rw [h.inputs, List.mem_append, List.mem_append, not_or, not_or] at hnm
  obtain ⟨⟨hins, hauto⟩, -⟩ := hnm
  refine ⟨fun hst => ?_, hins⟩
  obtain ⟨f, hf, rfl⟩ := h.isState_iff.mp hst
  exact hauto (List.mem_map_of_mem (((treatFlops_treated h.treat).mem_auto f).mpr ⟨hf, hins⟩))

/-- Every primary input of the datum is a leaf with the value that the datum is fed. -/
theorem Accepted.leaf_of_input (h : Accepted depth r imp) (hcuts : imp.cuts = [])
    (hfed : HandCutFed r σ x) {k : ℕ} (hk : imp.source.inputs[k]? = some nm) :
    leafValue r held σ x nm = some (imp.inputs (imp.auto.map fun f => σ f.q) x k) := by
  have hnd := h.nodup_inputs
  rw [h.inputs, hcuts, List.append_nil] at hk hnd
  rw [Imported.inputs, h.ndesignIn]
  by_cases hlt : k < r.ins.length
  · rw [List.getElem?_append_left hlt] at hk
    rw [if_pos hlt, leafValue]
    by_cases hst : r.isState nm
    · rw [if_pos hst, hfed k nm hk hst]
    · have hmem : nm ∈ r.ins := List.mem_of_getElem? hk
      have hidx : r.ins.idxOf nm = k := by
        obtain ⟨hlt', rfl⟩ := List.getElem?_eq_some_iff.mp hk
        exact (List.nodup_append.mp hnd).1.idxOf_getElem k hlt'
      rw [if_neg hst, if_pos hmem, hidx]
  · rw [List.getElem?_append_right (Nat.le_of_not_lt hlt), List.getElem?_map] at hk
    obtain ⟨f, hf, rfl⟩ := Option.map_eq_some_iff.mp hk
    rw [if_neg hlt, leafValue, if_pos (h.isState_of_auto (List.mem_of_getElem? hf)),
      List.getD_eq_getElem?_getD, List.getElem?_map, hf]
    rfl

/-- The leaf value of a net that is read by its constant, through an assign or by its cell. -/
theorem Accepted.leaf_of_not_input (h : Accepted depth r imp) (hnm : nm ∉ imp.source.inputs) :
    leafValue r held σ x nm = match held.lookup nm with
      | some b => some b
      | none => if isLiteral nm then some (literalValue nm) else none := by
  obtain ⟨hst, hins⟩ := h.not_leaf hnm
  rw [leafValue, if_neg hst, if_neg hins]

variable (hcuts : imp.cuts = []) (hfed : HandCutFed r σ x)

include hcuts hfed in
/-- The leaves of a cycle have the values that the elaboration reads. -/
theorem Accepted.leafOf (h : Accepted depth r imp) :
    LeafOf imp.source (imp.inputs (imp.auto.map fun f => σ f.q) x)
      (leafValue r imp.source.pinned σ x) where
  input k nm hk := h.leaf_of_input hcuts hfed hk
  pinned nm b hnm hb := by rw [h.leaf_of_not_input hnm, hb]
  literal nm hnm hnone hlit := by rw [h.leaf_of_not_input hnm, hnone, if_pos hlit]
  free nm hfree _ := by
    rw [h.leaf_of_not_input hfree.input, hfree.pinned, hfree.literal]
    rfl

include hcuts hfed in
/-- The only value that a net can settle to is the one that the datum shows. -/
theorem Accepted.closed_agree (h : Accepted depth r imp) :
    Closed imp.source (imp.inputs (imp.auto.map fun f => σ f.q) x) fun nm b =>
      ∀ b', Settled r imp.source.pinned σ x nm b' → b' = b := by
  have := (h.leafOf hcuts hfed).closed_agree
  rwa [h.insts, h.assigns] at this

include hcuts hfed in
/-- Where no net has two drivers, the nets settle to what the datum shows. -/
theorem Accepted.closed_settled (h : Accepted depth r imp)
    (hsingle : SinglyDriven r.insts r.assigns) :
    Closed imp.source (imp.inputs (imp.auto.map fun f => σ f.q) x)
      (Settled r imp.source.pinned σ x) := by
  rw [← h.insts, ← h.assigns] at hsingle
  have := (h.leafOf hcuts hfed).closed_settled hsingle
  rwa [h.insts, h.assigns] at this

/-! ### One cycle -/

variable {o : List Bool} {σ' : Net → Bool}

include hcuts in
/-- The outputs of the datum, for any closed relation. -/
theorem Accepted.values_of_closed (h : Accepted depth r imp) {st : List Bool}
    {R : Net → Bool → Prop} (hR : Closed imp.source (imp.inputs st x) R) :
    ∃ os ss, imp.design st x = os ∧ imp.machine.step st x = ss ∧ List.Forall₂ R r.outs os ∧
      List.Forall₂ (NextShows R) imp.auto ss := by
  obtain ⟨-, -, -, os, ss, cs, hval, hos, hss, hcs⟩ := elaborate_closed hR h.datum
  rw [hcuts] at hcs
  cases hcs
  rw [List.append_nil] at hval
  have hlen : imp.ndesignOut = os.length := h.ndesignOut.trans hos.length_eq
  refine ⟨os, ss, ?_, ?_, hos, hss⟩
  · rw [Imported.design, Imported.values, hval, hlen, List.take_left]
  · change (imp.values st x).drop imp.ndesignOut = ss
    rw [Imported.values, hval, hlen, List.drop_left]

theorem eq_of_forall₂_agree {α : Type*} {P : α → Bool → Prop} {as : List α} {bs bs' : List Bool}
    (h : List.Forall₂ (fun a b => ∀ b', P a b' → b' = b) as bs) (h' : List.Forall₂ P as bs') :
    bs = bs' := by
  induction h generalizing bs' with
  | nil => cases h'; rfl
  | cons hab _ ih =>
    cases h' with
    | cons hab' h' => rw [ih h', hab _ hab']

include hcuts hfed in
/-- In a cycle of the netlist the datum shows the design outputs of the netlist. -/
theorem design_eq_of_clocks (h : Accepted depth r imp)
    (hclk : Clocks r imp.source.pinned σ x o σ') :
    imp.design (imp.auto.map fun f => σ f.q) x = o := by
  obtain ⟨os, ss, hdesign, -, hos, -⟩ := h.values_of_closed hcuts (h.closed_agree hcuts hfed)
  rw [hdesign]
  exact eq_of_forall₂_agree hos hclk.outs

/-- The model of a found flop gives its next state in a cycle of the netlist. -/
theorem Clocks.modelNext (hclk : Clocks r held σ x o σ') {f : Flop} (hf : f.Found r.insts) :
    ModelNext (Settled r held σ x) f.model f.conns (σ' f.q) := by
  obtain ⟨⟨inst, hmem, hseq, hcell, hconns⟩, hmodel, -, hq, -, -, -⟩ := hf
  rw [← hconns] at hq ⊢
  exact hclk.next inst hmem hseq f.model (hcell ▸ hmodel) f.q hq

include hcuts hfed in
/-- In a cycle of the netlist the next-state outputs of the datum are the next contents of the
flops that the treatment cuts, by position. -/
theorem next_eq_of_clocks (h : Accepted depth r imp)
    (hclk : Clocks r imp.source.pinned σ x o σ') :
    imp.machine.step (imp.auto.map fun f => σ f.q) x = imp.auto.map fun f => σ' f.q := by
  obtain ⟨os, ss, -, hstep, -, hss⟩ := h.values_of_closed hcuts (h.closed_agree hcuts hfed)
  rw [hstep]
  refine (map_eq_of_forall₂ (forall₂_imp_of_mem (fun f hf b hb => ?_) hss)).symm
  have hfound := h.found f (((treatFlops_treated h.treat).mem_auto f).mp hf).1
  exact eq_of_modelNext (fun nm b b' hb hb' => hb' b hb) (hclk.modelNext hfound)
    (hfound.nextShows_iff.mp hb)

theorem exists_of_forall₂ {α β : Type*} {P : α → β → Prop} {as : List α} {bs : List β}
    (h : List.Forall₂ P as bs) {a : α} (ha : a ∈ as) : ∃ b, P a b := by
  induction h with
  | nil => cases ha
  | cons hab _ ih =>
    rcases List.mem_cons.mp ha with rfl | ha
    · exact ⟨_, hab⟩
    · exact ih ha

include hcuts hfed in
/-- A netlist in which no net has two drivers settles in every cycle. -/
theorem exists_clocks (h : Accepted depth r imp) (hsingle : SinglyDriven r.insts r.assigns) :
    ∃ o σ', Clocks r imp.source.pinned σ x o σ' := by
  classical
  obtain ⟨os, ss, -, -, hos, hss⟩ :=
    h.values_of_closed hcuts (h.closed_settled hcuts hfed hsingle)
  have htreated := treatFlops_treated h.treat
  have hnext : ∀ f ∈ imp.flops, ∃ b, NextShows (Settled r imp.source.pinned σ x) f b := by
    intro f hf
    by_cases hq : f.q ∈ r.ins
    · obtain ⟨d, hd, hout⟩ := htreated.handCut f hf hq
      obtain ⟨b, hb⟩ := exists_of_forall₂ hos hout
      exact ⟨b, by rwa [NextShows, hd]⟩
    · exact exists_of_forall₂ hss ((htreated.mem_auto f).mpr ⟨hf, hq⟩)
  choose! b hb using hnext
  refine ⟨os, fun nm => decide (∃ f ∈ imp.flops, f.q = nm ∧ b f = true), hos, ?_⟩
  intro inst hmem hseq m hm q hq
  obtain ⟨f, hf, hmodel, hconns⟩ := exists_flop_of_findFlops h.flops hmem hseq
  obtain rfl : m = f.model := Option.some.inj (hm.symm.trans hmodel)
  have hfound := h.found f hf
  rw [← hconns] at hq ⊢
  obtain rfl : f.q = q := Option.some.inj (hfound.q.symm.trans hq)
  have hval : decide (∃ f' ∈ imp.flops, f'.q = f.q ∧ b f' = true) = b f := by
    rw [Bool.eq_iff_iff, decide_eq_true_iff]
    constructor
    · rintro ⟨f', hf', hq', hb'⟩
      rwa [← List.inj_on_of_nodup_map h.nodup hf' hf hq']
    · intro hbf
      exact ⟨f, hf, rfl, hbf⟩
  rw [hval]
  exact hfound.nextShows_iff.mp (hb f hf)

end Accepted

/-! ### Runs -/

/-- Along every run of an accepted netlist whose hand-cut flops are fed back, the iterated datum
holds the contents of the flops that the treatment cuts and shows the design outputs. A netlist
in which no net has two drivers has such runs from every state. -/
theorem datum_tracks_netlist {depth seqInText : ℕ} {r : Request} {imp : Imported}
    (h : importNetlist depth r seqInText = .ok imp) (hcut : r.cut = none) :
    (∀ (x : ℕ → ℕ → Bool) (σ : ℕ → Net → Bool) (o : ℕ → List Bool) (n : ℕ),
      (∀ t < n, Clocks r imp.source.pinned (σ t) (x t) (o t) (σ (t + 1))) →
      (∀ t < n, HandCutFed r (σ t) (x t)) →
      (∀ t ≤ n, imp.machine.run (imp.auto.map fun f => σ 0 f.q) x t =
        imp.auto.map fun f => σ t f.q) ∧
      ∀ t < n, imp.design (imp.machine.run (imp.auto.map fun f => σ 0 f.q) x t) (x t) = o t) ∧
    (SinglyDriven r.insts r.assigns → ∀ σ x, HandCutFed r σ x →
      ∃ o σ', Clocks r imp.source.pinned σ x o σ') := by
  have hacc := importNetlist_accepted h
  have hcuts : imp.cuts = [] := by
    have := hacc.cuts
    rw [cutNets, hcut] at this
    exact (Except.ok.inj this).symm
  refine ⟨fun x σ o n hclk hfed => ?_,
    fun hsingle σ x hfed => exists_clocks hcuts hfed hacc hsingle⟩
  have hstate : ∀ t ≤ n, imp.machine.run (imp.auto.map fun f => σ 0 f.q) x t =
      imp.auto.map fun f => σ t f.q := by
    intro t ht
    induction t with
    | zero => rfl
    | succ t ih =>
      rw [Synchronous.Machine.run_succ, ih (by omega)]
      exact next_eq_of_clocks hcuts (hfed t (by omega)) hacc (hclk t (by omega))
  refine ⟨hstate, fun t ht => ?_⟩
  rw [hstate t ht.le]
  exact design_eq_of_clocks hcuts (hfed t ht) hacc (hclk t ht)

/-- An enable flop in front of an output, and a flop with a reset that is cut by hand. -/
def pairRequest : Request where
  insts := [
    ⟨"edfxtp_1", "ff0", .ofList [("CLK", "clk"), ("D", "d"), ("DE", "en"), ("Q", "q")]⟩,
    ⟨"dfrtp_2", "ff1", .ofList [("CLK", "clk"), ("D", "n"), ("Q", "h"), ("RESET_B", "rst_n")]⟩,
    ⟨"xor2_1", "g0", .ofList [("A", "q"), ("B", "x"), ("X", "d")]⟩,
    ⟨"inv_1", "g1", .ofList [("A", "h"), ("Y", "n")]⟩]
  assigns := [("y", "q")]
  ins := ["x", "en", "h"]
  outs := ["y", "n"]
  pinReset := some "rst_n"
  cut := none

/-- The enable flop of `pairRequest`. -/
def pairEnable : Flop where
  cell := "edfxtp_1"
  iname := "ff0"
  model := edfxtp
  conns := .ofList [("CLK", "clk"), ("D", "d"), ("DE", "en"), ("Q", "q")]
  q := "q"
  clk := "clk"
  d := none
  reset := none

/-- The hand-cut flop of `pairRequest`. -/
def pairHandCut : Flop where
  cell := "dfrtp_2"
  iname := "ff1"
  model := dfrtp
  conns := .ofList [("CLK", "clk"), ("D", "n"), ("Q", "h"), ("RESET_B", "rst_n")]
  q := "h"
  clk := "clk"
  d := some "n"
  reset := some ("rst_n", true)

/-- The import of `pairRequest`. -/
def pairImport : Imported where
  datum := {
    gates := [.inp 0, .inp 1, .inp 2, .inp 3, .not 2, .not 1, .xor 3 0, .and 1 6, .and 5 3,
      .or 7 8]
    outs := [3, 4, 9] }
  source := {
    insts := pairRequest.insts
    assigns := pairRequest.assigns
    inputs := ["x", "en", "h", "q"]
    pinned := [("rst_n", true)] }
  flops := [pairEnable, pairHandCut]
  auto := [pairEnable]
  cuts := []
  ndesignIn := 3
  ndesignOut := 2

theorem importNetlist_pairRequest : importNetlist 10 pairRequest 2 = .ok pairImport := by
  decide +kernel

theorem singlyDriven_pairRequest : SinglyDriven pairRequest.insts pairRequest.assigns := by
  decide

/-- Both flops hold false. -/
def pairState : Net → Bool := fun _ => false

/-- `x` and `en` are high and `h` carries the contents of the hand-cut flop. -/
def pairInputs (k : ℕ) : Bool := k < 2

theorem handCutFed_pair : HandCutFed pairRequest pairState pairInputs := by
  intro k nm hk hst
  rcases k with _ | _ | _ | k
  · obtain rfl : "x" = nm := Option.some.inj hk
    exact absurd hst (by decide)
  · obtain rfl : "en" = nm := Option.some.inj hk
    exact absurd hst (by decide)
  · rfl
  · cases hk

/-- The states before and after one cycle. -/
def twoStates (σ σ' : Net → Bool) : ℕ → Net → Bool
  | 0 => σ
  | _ + 1 => σ'

theorem datum_tracks_netlist_pair : ∃ o σ₁, Clocks pairRequest [("rst_n", true)] pairState
    pairInputs o σ₁ ∧ o = [false, true] ∧ σ₁ "q" = true := by
  have h := datum_tracks_netlist importNetlist_pairRequest rfl
  obtain ⟨o, σ₁, hclk⟩ := h.2 singlyDriven_pairRequest pairState pairInputs handCutFed_pair
  have hrun := h.1 (fun _ => pairInputs) (twoStates pairState σ₁) (fun _ => o) 1
    (fun t ht => by rw [Nat.lt_one_iff.mp ht]; exact hclk)
    (fun t ht => by rw [Nat.lt_one_iff.mp ht]; exact handCutFed_pair)
  have hdesign : pairImport.design [false] pairInputs = o := hrun.2 0 Nat.one_pos
  have hnext : pairImport.machine.step [false] pairInputs = [σ₁ "q"] := hrun.1 1 le_rfl
  have hvalue : pairImport.design [false] pairInputs = [false, true] ∧
      pairImport.machine.step [false] pairInputs = [true] := by decide
  exact ⟨o, σ₁, hclk, hdesign.symm.trans hvalue.1,
    List.singleton_injective (hnext.symm.trans hvalue.2)⟩

/-! ### A hand-cut flop that is not fed back -/

/-- A cycle of the netlist does not read the design inputs that are state nets. -/
theorem Clocks.congr_inputs {r : Request} {held : List (Net × Bool)} {σ : Net → Bool}
    {x x' : ℕ → Bool} {o : List Bool} {σ' : Net → Bool}
    (hx : ∀ k nm, r.ins[k]? = some nm → ¬ r.isState nm → x k = x' k)
    (h : Clocks r held σ x o σ') : Clocks r held σ x' o σ' := by
  have hleaf : leafValue r held σ x = leafValue r held σ x' := by
    funext nm
    rw [leafValue, leafValue]
    by_cases hst : r.isState nm
    · rw [if_pos hst, if_pos hst]
    · rw [if_neg hst, if_neg hst]
      by_cases hmem : nm ∈ r.ins
      · rw [if_pos hmem, if_pos hmem, hx _ nm (List.getElem?_idxOf hmem) hst]
      · rw [if_neg hmem, if_neg hmem]
  have hsettled : Settled r held σ x = Settled r held σ x' := by rw [Settled, Settled, hleaf]
  exact ⟨hsettled ▸ h.outs, hsettled ▸ h.next⟩

/-- A trace that drives the state net of a hand-cut flop with another value than the contents of
the flop leads the datum and the netlist apart. -/
theorem not_datum_tracks_netlist : ¬ ∀ (depth seqInText : ℕ) (r : Request) (imp : Imported),
    importNetlist depth r seqInText = .ok imp → r.cut = none →
    ∀ (x : ℕ → ℕ → Bool) (σ : ℕ → Net → Bool) (o : ℕ → List Bool) (n : ℕ),
      (∀ t < n, Clocks r imp.source.pinned (σ t) (x t) (o t) (σ (t + 1))) →
      (∀ t ≤ n, imp.machine.run (imp.auto.map fun f => σ 0 f.q) x t =
        imp.auto.map fun f => σ t f.q) ∧
      ∀ t < n, imp.design (imp.machine.run (imp.auto.map fun f => σ 0 f.q) x t) (x t) = o t := by
  intro h
  obtain ⟨o, σ', hclk⟩ := exists_clocks rfl handCutFed_pair
    (importNetlist_accepted importNetlist_pairRequest) singlyDriven_pairRequest
  have hunfed : Clocks pairRequest pairImport.source.pinned pairState (fun k => k < 3) o σ' := by
    refine hclk.congr_inputs fun k nm hk hst => ?_
    rcases k with _ | _ | _ | k
    · rfl
    · rfl
    · obtain rfl : "h" = nm := Option.some.inj hk
      exact absurd (by decide) hst
    · cases hk
  have hrun := h 10 2 pairRequest pairImport importNetlist_pairRequest rfl (fun _ k => k < 3)
    (twoStates pairState σ') (fun _ => o) 1 (fun t ht => by rw [Nat.lt_one_iff.mp ht]; exact hunfed)
  have hout : pairImport.design [false] pairInputs = o := design_eq_of_clocks rfl handCutFed_pair
    (importNetlist_accepted importNetlist_pairRequest) hclk
  have hout' : pairImport.design [false] (fun k => k < 3) = o := hrun.2 0 Nat.one_pos
  have hdiffer : pairImport.design [false] pairInputs ≠
      pairImport.design [false] (fun k => k < 3) := by
    decide
  exact hdiffer (hout.trans hout'.symm)

end Saltworks.Importer
