import Saltworks.Data.Fallible
import Saltworks.Importer.Elaborate

/-!
# The flop treatment

A netlist with flops is imported by cutting every flop: its state output becomes a primary input
and its next state an output, paired by position in the order of the state nets. The importer
refuses a flop that it has no model for, a clock that is not common to all flops and a reset
that it cannot hold at a constant.

## Main definitions

* `findFlops`: the flops of an instance list.
* `allDrivers`, `clockRoot`, `checkClockDomain`: the trace of the clock back to its source.
* `checkPinnedReset`: the conditions under which a reset net is held at a constant.
* `Request`, `pinnedNets`, `autoFlops`, `treatFlops`: the flops that the treatment cuts.
* `Imported`, `importNetlist`: the import of a parsed netlist.
-/

namespace Saltworks.Importer

open Silicon Fallible

/-! ### Finding the flops -/

/-- The power pins, which no model accounts for. -/
def powerPins : List Pin := ["VPWR", "VGND", "VPB", "VNB"]

/-- `", ".join(sorted(names))`. -/
def listing (names : List String) : String :=
  ", ".intercalate (names.mergeSort (· ≤ ·))

/-- The names with their counts, as a counter prints them. -/
def countListing (names : List String) : String :=
  ", ".intercalate ((names.dedup.mergeSort (· ≤ ·)).map fun c =>
    c ++ " x" ++ toString (names.count c))

/-- The net on a pin that the model requires. -/
def pinNet (conns : Dict Pin Net) (p : Pin) : Except Raised Net :=
  match conns.get? p with
  | some nm => .ok nm
  | none => .error (.keyError p)

/-- The net of the data pin, in a model that has one. -/
def dataNet (conns : Dict Pin Net) : Option Pin → Except Raised (Option Net)
  | none => .ok none
  | some p => some <$> pinNet conns p

/-- The net and the inactive value of the reset, in a model that has one. -/
def resetNet (conns : Dict Pin Net) : Option (Pin × Bool) → Except Raised (Option (Net × Bool))
  | none => .ok none
  | some (p, inactive) => (fun nm => some (nm, inactive)) <$> pinNet conns p

/-- The record of a flop that imports. -/
def flopOf (inst : Inst) (m : SeqModel) : Except Raised Flop := do
  let q ← pinNet inst.conns m.q
  let clk ← pinNet inst.conns m.clk
  let d ← dataNet inst.conns m.d
  let reset ← resetNet inst.conns m.reset
  return { cell := inst.cell, iname := inst.iname, model := m, conns := inst.conns, q, clk, d
           reset }

/-- The flops found so far and the cells that will be refused. -/
structure FlopScan where
  flops : List Flop
  unmodelled : List String
  gated : List String

/-- One instance of the scan. -/
def scanFlop (pinReset : Option Net) (acc : FlopScan) (inst : Inst) : Except Raised FlopScan :=
  if ¬ isSequential inst.cell then .ok acc
  else match seqModelFor inst.cell with
    | none => .ok { acc with unmodelled := acc.unmodelled ++ [inst.cell] }
    | some m =>
      let missing := m.pins.filter fun p => (inst.conns.get? p).isNone
      let extra := (inst.conns.items.map Prod.fst).filter fun p => p ∉ powerPins ∧ p ∉ m.pins
      if missing ≠ [] then
        .error (.systemExit ("importer: flop " ++ inst.iname ++ " (" ++ inst.cell ++
          ") has no connection on " ++ listing missing ++ " — the model requires all of " ++
          listing m.pins))
      else if extra ≠ [] then
        .error (.systemExit ("importer: flop " ++ inst.iname ++ " (" ++ inst.cell ++
          ") has connected pin(s) " ++ listing extra ++ " that SEQ_MODELS['" ++
          baseOf inst.cell ++ "'] does not model. Dropping them would silently change the " ++
          "machine; extend the model deliberately instead."))
      else if m.reset.isSome ∧ pinReset = none then
        .ok { acc with gated := acc.gated ++ [inst.cell] }
      else do
        let f ← flopOf inst m
        return { acc with flops := acc.flops ++ [f] }

/-- The reset pins of gated cells, sorted. -/
def resetPins (cells : List String) : List Pin :=
  (cells.filterMap fun c => do (← (← seqModelFor c).reset).1).dedup.mergeSort (· ≤ ·)

/-- One record for each sequential instance. -/
def findFlops (insts : List Inst) (pinReset : Option Net) : Except Raised (List Flop) := do
  let acc ← insts.foldlM (scanFlop pinReset) ⟨[], [], []⟩
  if acc.gated ≠ [] then
    throw (.systemExit ("importer: sequential cell(s) with an ASYNCHRONOUS reset: " ++
      countListing acc.gated ++ ". Their " ++ "/".intercalate (resetPins acc.gated) ++
      " is not a next-state function of the flop's inputs — the vendor Liberty puts it in " ++
      "`clear`, a SEPARATE FIELD from `next_state`, and `next_state` is plain \"D\". " ++
      "Importing them requires --pin-reset NET, which holds the reset INACTIVE and restricts " ++
      "the datum to traces where it stays so. Refusing rather than importing a machine whose " ++
      "reset behaviour the datum cannot express. " ++
      "See docs/silicon-dfrtp-async-reset-prereg-0812.md."))
  else if acc.unmodelled ≠ [] then
    throw (.systemExit ("importer: unmodelled sequential cell(s): " ++
      countListing acc.unmodelled ++ ". Skipping a flop loses a STATE BIT, not a gate — add " ++
      "it to SEQ_MODELS only with a justified next-state model (see the note on `dfrtp` there)."))
  else return acc.flops

/-- A flop record describes a sequential instance that its model accounts for. -/
structure Flop.Found (insts : List Inst) (f : Flop) : Prop where
  inst : ∃ inst ∈ insts, isSequential inst.cell ∧ inst.cell = f.cell ∧ inst.conns = f.conns
  model : seqModelFor f.cell = some f.model
  pins : ∀ p ∈ f.model.pins, (f.conns.get? p).isSome
  q : f.conns.get? f.model.q = some f.q
  clk : f.conns.get? f.model.clk = some f.clk
  d : f.d = f.model.d.bind f.conns.get?
  reset : f.reset = f.model.reset.bind fun r => (f.conns.get? r.1).map fun nm => (nm, r.2)

theorem pinNet_eq_ok {conns : Dict Pin Net} {p : Pin} {nm : Net} :
    pinNet conns p = .ok nm ↔ conns.get? p = some nm := by
  rw [pinNet]
  cases conns.get? p <;> simp

theorem dataNet_eq_ok {conns : Dict Pin Net} {p : Option Pin} {d : Option Net}
    (h : dataNet conns p = .ok d) : d = p.bind conns.get? := by
  cases p with
  | none => cases h; rfl
  | some p =>
    obtain ⟨nm, hnm, rfl⟩ := map_eq_ok h
    exact (pinNet_eq_ok.mp hnm).symm

theorem resetNet_eq_ok {conns : Dict Pin Net} {r : Option (Pin × Bool)}
    {reset : Option (Net × Bool)} (h : resetNet conns r = .ok reset) :
    reset = r.bind fun r => (conns.get? r.1).map fun nm => (nm, r.2) := by
  cases r with
  | none => cases h; rfl
  | some r =>
    obtain ⟨nm, hnm, rfl⟩ := map_eq_ok h
    rw [Option.bind_some, pinNet_eq_ok.mp hnm]
    rfl

theorem flopOf_model {inst : Inst} {m : SeqModel} {f : Flop} (h : flopOf inst m = .ok f) :
    f.model = m ∧ f.conns = inst.conns := by
  rw [flopOf] at h
  obtain ⟨q, -, h⟩ := bind_eq_ok h
  obtain ⟨clk, -, h⟩ := bind_eq_ok h
  obtain ⟨d, -, h⟩ := bind_eq_ok h
  obtain ⟨reset, -, h⟩ := bind_eq_ok h
  cases h
  exact ⟨rfl, rfl⟩

theorem flopOf_found {insts : List Inst} {inst : Inst} {m : SeqModel} {f : Flop}
    (hmem : inst ∈ insts) (hseq : isSequential inst.cell) (hm : seqModelFor inst.cell = some m)
    (hpins : ∀ p ∈ m.pins, (inst.conns.get? p).isSome) (h : flopOf inst m = .ok f) :
    f.Found insts := by
  rw [flopOf] at h
  obtain ⟨q, hq, h⟩ := bind_eq_ok h
  obtain ⟨clk, hclk, h⟩ := bind_eq_ok h
  obtain ⟨d, hd, h⟩ := bind_eq_ok h
  obtain ⟨reset, hreset, h⟩ := bind_eq_ok h
  cases h
  exact ⟨⟨inst, hmem, hseq, rfl, rfl⟩, hm, hpins, pinNet_eq_ok.mp hq, pinNet_eq_ok.mp hclk,
    dataNet_eq_ok hd, resetNet_eq_ok hreset⟩

/-- What one instance adds to a scan that goes on. -/
theorem scanFlop_cases {pinReset : Option Net} {acc acc' : FlopScan} {inst : Inst}
    (h : scanFlop pinReset acc inst = .ok acc') :
    (¬ isSequential inst.cell ∧ acc' = acc) ∨
    acc' = { acc with unmodelled := acc.unmodelled ++ [inst.cell] } ∨
    acc' = { acc with gated := acc.gated ++ [inst.cell] } ∨
    ∃ m f, isSequential inst.cell ∧ seqModelFor inst.cell = some m ∧
      (∀ p ∈ m.pins, (inst.conns.get? p).isSome) ∧ (pinReset = none → m.reset = none) ∧
      flopOf inst m = .ok f ∧ acc' = { acc with flops := acc.flops ++ [f] } := by
  rw [scanFlop] at h
  by_cases hseq : isSequential inst.cell
  · rw [if_neg (not_not.mpr hseq)] at h
    cases hm : seqModelFor inst.cell with
    | none =>
      rw [hm] at h
      exact Or.inr (Or.inl (Except.ok.inj h).symm)
    | some m =>
      simp only [hm] at h
      split_ifs at h with hmissing hextra hgated
      · exact Or.inr (Or.inr (Or.inl (Except.ok.inj h).symm))
      · obtain ⟨f, hf, h⟩ := bind_eq_ok h
        rw [not_not, List.filter_eq_nil_iff] at hmissing
        refine Or.inr (Or.inr (Or.inr ⟨m, f, hseq, rfl, fun p hp => ?_, fun hnone => ?_, hf,
          (Except.ok.inj h).symm⟩))
        · simpa [Option.isSome_iff_ne_none] using hmissing p hp
        · simpa [hnone] using hgated
  · rw [if_pos hseq] at h
    exact Or.inl ⟨hseq, (Except.ok.inj h).symm⟩

theorem scanFlop_found {insts : List Inst} {pinReset : Option Net} {acc acc' : FlopScan}
    {inst : Inst} (hacc : ∀ f ∈ acc.flops, f.Found insts) (hmem : inst ∈ insts)
    (h : scanFlop pinReset acc inst = .ok acc') : ∀ f ∈ acc'.flops, f.Found insts := by
  rcases scanFlop_cases h with ⟨-, rfl⟩ | rfl | rfl | ⟨m, f, hseq, hm, hpins, -, hf, rfl⟩
  · exact hacc
  · exact hacc
  · exact hacc
  · exact List.forall_mem_append.mpr
      ⟨hacc, List.forall_mem_singleton.mpr (flopOf_found hmem hseq hm hpins hf)⟩

/-- What a scan has found and what it will refuse only grow. -/
structure FlopScan.Le (acc acc' : FlopScan) : Prop where
  flops : acc.flops ⊆ acc'.flops
  unmodelled : acc'.unmodelled = [] → acc.unmodelled = []
  gated : acc'.gated = [] → acc.gated = []

theorem FlopScan.Le.refl (acc : FlopScan) : acc.Le acc :=
  ⟨List.Subset.refl _, id, id⟩

theorem FlopScan.Le.trans {acc acc₁ acc₂ : FlopScan} (h : acc.Le acc₁) (h' : acc₁.Le acc₂) :
    acc.Le acc₂ :=
  ⟨List.Subset.trans h.flops h'.flops, fun hnil => h.unmodelled (h'.unmodelled hnil),
    fun hnil => h.gated (h'.gated hnil)⟩

theorem scanFlop_le {pinReset : Option Net} {acc acc' : FlopScan} {inst : Inst}
    (h : scanFlop pinReset acc inst = .ok acc') : acc.Le acc' := by
  rcases scanFlop_cases h with ⟨-, rfl⟩ | rfl | rfl | ⟨m, f, -, -, -, -, -, rfl⟩
  · exact .refl _
  · exact ⟨List.Subset.refl _, fun hnil => (List.append_eq_nil_iff.mp hnil).1, id⟩
  · exact ⟨List.Subset.refl _, id, fun hnil => (List.append_eq_nil_iff.mp hnil).1⟩
  · exact ⟨List.subset_append_left _ _, id, id⟩

theorem findFlops_eq_ok {insts : List Inst} {pinReset : Option Net} {flops : List Flop}
    (h : findFlops insts pinReset = .ok flops) :
    insts.foldlM (scanFlop pinReset) ⟨[], [], []⟩ = .ok ⟨flops, [], []⟩ := by
  obtain ⟨acc, hacc, h⟩ := bind_eq_ok h
  split_ifs at h with hgated hunmodelled
  obtain ⟨flops', unmodelled, gated⟩ := acc
  cases h
  obtain rfl : gated = [] := not_not.mp hgated
  obtain rfl : unmodelled = [] := not_not.mp hunmodelled
  exact hacc

/-- Every flop that is found stands in the instance list with all pins of its model. -/
theorem findFlops_found {insts : List Inst} {pinReset : Option Net} {flops : List Flop}
    (h : findFlops insts pinReset = .ok flops) : ∀ f ∈ flops, f.Found insts := by
  exact foldlM_invariant (P := fun acc => ∀ f ∈ acc.flops, f.Found insts)
    (fun inst hmem _ _ hP hstep => scanFlop_found hP hmem hstep) (by simp) (findFlops_eq_ok h)

/-- Without `--pin-reset` no flop that is found has a reset. -/
theorem findFlops_no_reset {insts : List Inst} {flops : List Flop}
    (h : findFlops insts none = .ok flops) : ∀ f ∈ flops, f.model.reset = none := by
  refine foldlM_invariant (P := fun acc => ∀ f ∈ acc.flops, f.model.reset = none)
    (fun inst _ acc acc' hP hstep => ?_) (by simp) (findFlops_eq_ok h)
  rcases scanFlop_cases hstep with ⟨-, rfl⟩ | rfl | rfl | ⟨m, f, -, -, -, hreset, hf, rfl⟩
  · exact hP
  · exact hP
  · exact hP
  · refine List.forall_mem_append.mpr ⟨hP, List.forall_mem_singleton.mpr ?_⟩
    rw [(flopOf_model hf).1]
    exact hreset rfl

/-- Every sequential instance is found. -/
theorem exists_flop_of_findFlops {insts : List Inst} {pinReset : Option Net} {flops : List Flop}
    (h : findFlops insts pinReset = .ok flops) {inst : Inst} (hmem : inst ∈ insts)
    (hseq : isSequential inst.cell) :
    ∃ f ∈ flops, seqModelFor inst.cell = some f.model ∧ f.conns = inst.conns := by
  obtain ⟨acc, acc', rest, hstep, hrest⟩ := exists_foldlM_of_mem hmem (findFlops_eq_ok h)
  have hle : acc'.Le ⟨flops, [], []⟩ := foldlM_invariant (P := acc'.Le)
    (fun _ _ _ _ hP h => hP.trans (scanFlop_le h)) (.refl acc') hrest
  rcases scanFlop_cases hstep with ⟨hnot, -⟩ | rfl | rfl | ⟨m, f, -, hm, hpins, -, hf, rfl⟩
  · exact absurd hseq hnot
  · exact absurd (hle.unmodelled rfl) (by simp)
  · exact absurd (hle.gated rfl) (by simp)
  · obtain ⟨hmodel, hconns⟩ := flopOf_model hf
    exact ⟨f, hle.flops (List.mem_append_right _ (List.mem_singleton_self f)), hmodel ▸ hm, hconns⟩

/-! ### The clock -/

/-- Add the nets that an instance drives, skipping the cells that have no expansion. -/
def addKnownDrivers (drv : List (Net × Inst)) (inst : Inst) : List (Net × Inst) :=
  match addDrivers drv inst with
  | .ok drv => drv
  | .error _ => drv

/-- The driving instance of each net, over the expandable combinational cells. -/
def allDrivers (insts : List Inst) : List (Net × Inst) :=
  insts.foldl addKnownDrivers []

/-- Trace a clock net back to its source through aliases, buffers and inverters. -/
def clockRoot (drv : List (Net × Inst)) (assigns : List (Net × Net)) (inputs : List Net) :
    ℕ → Net → Option (Net × Bool)
  | 0, _ => none
  | depth + 1, nm =>
    match assigns.lookup nm with
    | some r => clockRoot drv assigns inputs depth r
    | none =>
      if nm ∈ inputs then some (nm, false)
      else match drv.lookup nm with
        | none => some (nm, false)
        | some inst => match (expansionFor inst.cell).map Expansion.ops with
          | some [.buf _ a] => do clockRoot drv assigns inputs depth (← inst.conns.get? a)
          | some [.not _ a] => do
            let (root, parity) ← clockRoot drv assigns inputs depth (← inst.conns.get? a)
            return (root, parity ^^ true)
          | _ => none

/-- The depth beyond which the trace of a clock gives up. -/
def clockDepth : ℕ := 257

/-- The order in which clock domains are listed. -/
def domainLe (r s : Net × Bool) : Bool :=
  r.1 < s.1 || r.1 == s.1 && r.2.toNat ≤ s.2.toNat

/-- All flops must latch on the same event; the result is the common root and parity with the
number of clock nets. -/
def checkClockDomain (flops : List Flop) (drv : List (Net × Inst)) (assigns : List (Net × Net))
    (inputs : List Net) : Except Raised (Net × Bool × ℕ) := do
  let roots ← flops.mapM fun f => match clockRoot drv assigns inputs clockDepth f.clk with
    | some r => .ok r
    | none => .error (.systemExit ("importer: flop " ++ f.iname ++ " has a GATED clock — net '" ++
        f.clk ++ "' traces back through combinational logic, so it does not latch on a common " ++
        "event and 'next state' is not well defined for this netlist."))
  match roots.dedup with
  | [(root, parity)] => return (root, parity, (flops.map Flop.clk).dedup.length)
  | domains => throw (.systemExit ("importer: flops span " ++ toString domains.length ++
      " clock domains — " ++ "; ".intercalate ((domains.mergeSort domainLe).map fun r =>
        r.1 ++ " (parity " ++ toString r.2.toNat ++ "): " ++ toString (roots.count r) ++
        " flops") ++ ". The paired state vectors assume every flop latches together."))

/-! ### The pinned reset -/

/-- The conditions on a pinned reset that block an import; the result is the number of flops
that it serves. -/
def checkPinnedReset (flops : List Flop) (pinReset : Net) (drv : List (Net × Inst))
    (inputs : List Net) : Except Raised ℕ :=
  let nets := flops.filterMap fun f => f.reset.map Prod.fst
  match nets.dedup.mergeSort (· ≤ ·) with
  | [] => .error (.systemExit ("importer: --pin-reset '" ++ pinReset ++
      "' was given but no imported cell has an asynchronous reset to pin. A flag that " ++
      "restricts the datum must not be a no-op: it would advertise a restriction nothing " ++
      "applied."))
  | [nm] =>
    if nm ≠ pinReset then
      .error (.systemExit ("importer: --pin-reset names '" ++ pinReset ++
        "' but every gated flop's reset pin is on '" ++ nm ++
        "'. Refusing rather than pinning a net the flops do not use."))
    else match drv.lookup pinReset with
      | some inst => .error (.systemExit ("importer: --pin-reset '" ++ pinReset ++
          "' is DRIVEN by " ++ inst.iname ++ " (" ++ inst.cell ++ "), so it is a derived " ++
          "reset, not a primary input or a constant. Holding a driven wire inactive asserts " ++
          "nothing about the logic driving it, and the restriction would be unverifiable. " ++
          "Refusing."))
      | none =>
        if pinReset ∈ inputs then
          .error (.systemExit ("importer: --pin-reset '" ++ pinReset ++
            "' is ALSO listed in --inputs. A pinned net is held at a CONSTANT, so it is not " ++
            "an input of the resulting datum — leaving it in --inputs would let a theorem " ++
            "drive the very net the restriction fixes, which is precisely the trace class " ++
            "this datum does not model. Remove it from --inputs."))
        else .ok nets.length
  | nets => .error (.systemExit ("importer: gated flops' reset pins span " ++
      toString nets.length ++ " nets (" ++ ", ".intercalate (nets.take 4) ++
      "). --pin-reset holds ONE net inactive; pinning one of several would leave the others " ++
      "live and unmodelled."))

/-! ### The import -/

/-- A parsed netlist with the command line of an import: the design inputs and outputs in order,
the net of `--pin-reset` and the expression of `--cut` with the nets that it matches. -/
structure Request where
  insts : List Inst
  assigns : List (Net × Net)
  ins : List Net
  outs : List Net
  pinReset : Option Net
  cut : Option (String × (Net → Bool))

/-- Which sides of a flop the port lists name. -/
def halfCut (r : Request) (f : Flop) : String :=
  f.iname ++ ": Q '" ++ f.q ++ "' " ++ (if f.q ∈ r.ins then "listed" else "absent") ++
    ", D '" ++ f.d.getD "" ++ "' " ++
    (if ∃ d ∈ f.d, d ∈ r.outs then "listed" else "absent")

/-- The net of `--pin-reset`, unless it is the empty text. -/
def Request.resetGiven (r : Request) : Option Net := r.pinReset.filter (· ≠ "")

/-- The nets held at a constant: the pinned reset at its inactive value. -/
def pinnedNets (r : Request) (flops : List Flop) : Except Raised (List (Net × Bool)) :=
  match r.resetGiven with
  | none => .ok []
  | some nm => do
    let _ ← checkPinnedReset flops nm (allDrivers r.insts) r.ins
    match (flops.filterMap fun f => f.reset.map Prod.snd).dedup with
    | [inactive] => .ok [(nm, inactive)]
    | values => .error (.systemExit ("importer: gated flops declare " ++
        toString values.length ++
        " different inactive reset values; they cannot share one pin."))

/-- The flops that are not cut by hand, in the order of their state nets. A flop is cut by hand
where its state net is an input, and then its data net must be an output. -/
def autoFlops (r : Request) (flops : List Flop) : Except Raised (List Flop) :=
  match flops.filter fun f => f.d = none ∧ f.q ∈ r.ins with
  | f :: _ => .error (.systemExit ("importer: flop " ++ f.iname ++ " (" ++ f.cell ++
      ") has its Q '" ++ f.q ++ "' listed in --inputs, but its next state is an EXPRESSION " ++
      "over its pins, not a net, so there is nothing to list in --outputs. Let the " ++
      "treatment cut it: remove it from --inputs."))
  | [] => match flops.filter fun f => ∃ d ∈ f.d, ¬(f.q ∈ r.ins ↔ d ∈ r.outs) with
    | f :: fs => .error (.systemExit ("importer: " ++ toString (f :: fs).length ++
        " flop(s) are cut by hand on ONE side only — " ++
        "; ".intercalate (((f :: fs).take 4).map (halfCut r)) ++ ". A half-cut flop pairs " ++
        "a state input with the wrong next-state output. List both sides or neither."))
    | [] => .ok ((flops.filter fun f => f.q ∉ r.ins).mergeSort (·.q ≤ ·.q))

/-- The flops that the treatment cuts and the pinned nets. -/
def treatFlops (r : Request) (flops : List Flop) :
    Except Raised (List Flop × List (Net × Bool)) :=
  if flops = [] then
    match r.resetGiven with
    | some nm => .error (.systemExit ("importer: --pin-reset '" ++ nm ++
        "' was given but this netlist has no flops at all. A flag that restricts the datum " ++
        "must not be a silent no-op."))
    | none => .ok ([], [])
  else do
    let _ ← checkClockDomain flops (allDrivers r.insts) r.assigns r.ins
    let pinned ← pinnedNets r flops
    let auto ← autoFlops r flops
    return (auto, pinned)

/-- The nets on the output pins of the expandable combinational cells. -/
def drivenNets (insts : List Inst) : List Net :=
  (allDrivers insts).map Prod.fst

/-- The driven nets that the expression of `--cut` matches, sorted. -/
def cutNets (r : Request) (inputs : List Net) : Except Raised (List Net) :=
  match r.cut with
  | none => .ok []
  | some (text, rx) =>
    let cuts := ((drivenNets r.insts).filter fun nm => nm ≠ "" ∧ rx nm).dedup.mergeSort (· ≤ ·)
    if cuts = [] then
      .error (.systemExit ("importer: --cut '" ++ text ++ "' matched no DRIVEN net. A " ++
        "boundary that the flow dissolved does not exist to be cut at, and a census that " ++
        "silently found nothing would report the untreated numbers as though they were " ++
        "treated."))
    else match cuts.filter fun nm => nm ∈ inputs with
      | [] => .ok cuts
      | clash => .error (.systemExit ("importer: --cut matches net(s) already primary inputs: " ++
          ", ".intercalate clash))

/-- An accepted import: the datum with the tables that stand beside it. -/
structure Imported where
  datum : Datum
  source : Source
  flops : List Flop
  auto : List Flop
  cuts : List Net
  ndesignIn : ℕ
  ndesignOut : ℕ
  deriving DecidableEq

/-- Import a parsed netlist whose text shows `seqInText` sequential instances. -/
def importNetlist (depth : ℕ) (r : Request) (seqInText : ℕ) : Except Raised Imported := do
  let flops ← findFlops r.insts r.pinReset
  let (auto, pinned) ← treatFlops r flops
  let cuts ← cutNets r (r.ins ++ auto.map Flop.q)
  let source : Source :=
    { insts := r.insts, assigns := r.assigns, inputs := r.ins ++ auto.map Flop.q ++ cuts, pinned }
  let datum ← elaborate depth source r.outs auto cuts
  if seqInText = flops.length ∧ (flops.map Flop.q).Nodup then
    return { datum, source, flops, auto, cuts, ndesignIn := r.ins.length
             ndesignOut := r.outs.length }
  else
    throw (.systemExit ("importer: state-bit conservation FAILED — an independent text scan of " ++
      "the netlist and the parsed instance list disagree on how many sequential cells there " ++
      "are. Skipping a flop loses a STATE BIT, not a gate."))

end Saltworks.Importer
