import Saltworks.Data.Fallible
import Saltworks.Importer.ToLean
import Saltworks.Importer.TopModule
import Mathlib.Logic.Function.Basic

/-!
# A run of the importer

The importer reads the netlist, prepares the datum, writes it, and only then counts the sequential
instances in the text and reads the datum back. A refusal of the last two comes too late for the
file.

The readback check is any function of the files and of what has been imported. Files are named by
their resolved paths, and every write succeeds.

## Main definitions

* `draft`: what is ready to be written.
* `run`: a run of the importer.
* `LateRefusal`: a refusal behind the write.

## Main results

* `run_frame`: no other file is written.
* `importText_of_run`: an accepted run has imported the text of the netlist.
* `unchanged_iff`: a refusal leaves the file unchanged iff it is not late or the file was the same
  already; whatever the file was before iff it is not late.
-/

namespace Saltworks.Importer

open Sim Silicon

/-! ### The draft -/

/-- The modes of `--check`. -/
inductive CheckMode where
  | auto | require | off
  deriving Repr, DecidableEq

/-- The command line with the paths, the names and the mode of the check. -/
structure Options extends CommandLine where
  netlist : String
  out : String
  ns : String
  name : String
  check : CheckMode

/-- The import up to the elaboration, without the count of the sequential instances. -/
def importDraft (depth : ℕ) (r : Request) : Except Raised Imported := do
  let flops ← findFlops r.insts r.pinReset
  let (auto, pinned) ← treatFlops r flops
  let cuts ← cutNets r (r.ins ++ auto.map Flop.q)
  let source : Source :=
    { insts := r.insts, assigns := r.assigns, inputs := r.ins ++ auto.map Flop.q ++ cuts, pinned }
  let datum ← elaborate depth source r.outs auto cuts
  return {
    datum, source, flops, auto, cuts, ndesignIn := r.ins.length, ndesignOut := r.outs.length }

/-- Every sequential instance that the text shows has been parsed, and no two flops share a state
net. -/
def Conserved (seqInText : ℕ) (imp : Imported) : Prop :=
  seqInText = imp.flops.length ∧ (imp.flops.map Flop.q).Nodup

instance (seqInText : ℕ) (imp : Imported) : Decidable (Conserved seqInText imp) :=
  inferInstanceAs (Decidable (_ ∧ _))

/-- The refusal of a datum that loses a state bit. -/
def conservationRefusal : Raised :=
  .systemExit ("importer: state-bit conservation FAILED — an independent text scan of " ++
    "the netlist and the parsed instance list disagree on how many sequential cells there " ++
    "are. Skipping a flop loses a STATE BIT, not a gate.")

/-- The common clock of the flops, with the number of clock nets. -/
def clockInfo (r : Request) (flops : List Flop) : Except Raised (Option (Net × Bool × ℕ)) :=
  if flops = [] then .ok none
  else some <$> checkClockDomain flops (allDrivers r.insts) r.assigns r.ins

/-- The bits of the declared outputs that are not requested. -/
def omittedOuts (p : Parsed) (outs : List Net) : List Net :=
  let bits (nm : Net) : List Net := match p.vectorPorts.get? nm with
    | some (hi, lo) => (List.range' (min hi lo) (max hi lo + 1 - min hi lo)).map fun k =>
        selectText nm (toString k)
    | none => [nm]
  (((p.declared .output).flatMap bits).dedup.filter fun nm => nm ∉ outs).mergeSort (· ≤ ·)

/-- The last part of a path. -/
def basename (path : String) : String :=
  String.ofList (path.toList.reverse.takeWhile (· ≠ '/')).reverse

/-- The namespace of a datum names the nets that are pinned. -/
def restrictedNs (ns : String) (pinned : List (Net × Bool)) : String :=
  let plain (text : String) : String :=
    String.ofList (text.toList.map fun c => if c.isAlphanum then c else '_')
  if pinned = [] then ns
  else ns ++ "." ++ "Restricted_" ++ "_".intercalate ((pinned.mergeSort domainLe).map fun p =>
    plain (p.1 ++ "_eq_" ++ bit p.2))

/-- What is written. -/
def emission (notice : List String) (opts : Options) (p : Parsed) (imp : Imported)
    (clock : Option (Net × Bool × ℕ)) : Emission where
  notice := notice
  source := basename opts.netlist
  pinned := imp.source.pinned
  ns := restrictedNs opts.ns imp.source.pinned
  name := opts.name
  gates := imp.datum.gates
  ninputs := imp.source.inputs.length
  outs := imp.datum.outs
  outNames := opts.outs
  omitted := omittedOuts p opts.outs
  inNames := opts.ins
  ndesignIn := some imp.ndesignIn
  ndesignOut := some imp.ndesignOut
  state := imp.auto
  clock := clock.getD ("", false, 0)
  cuts := imp.cuts

/-- What is ready to be written, with the netlist that it has been made from. -/
structure Draft where
  parsed : Parsed
  imported : Imported
  text : String

/-! ### The run -/

/-- The contents of the files by their paths. -/
abbrev Files := String → Option String

/-- What a run stops with: an exception of the import, the refusal by a mismatch, a file that is
not there, or another exception of the readback check. -/
inductive Stop where
  | raised (e : Raised)
  | exit
  | fileNotFound (path : String)
  | exception (name : String)
  deriving Repr, DecidableEq

/-- A refusal is a `SystemExit`. -/
def Stop.IsRefusal : Stop → Prop
  | .raised (.systemExit _) | .exit => True
  | _ => False

/-- What a run is made on: the character classes, the recursion limit, the licence lines, and the
readback check, which tells whether the datum agrees with the netlist, unless it could not run. -/
structure Platform where
  cls : CharClass
  isspace : Char → Bool
  depth : ℕ
  notice : List String
  readback : Files → Options → List Token → Draft → Except String (Option Bool)

variable (pf : Platform) (opts : Options) (files : Files)

/-- The contents of a file. -/
def readFile (path : String) : Except Stop String :=
  match files path with
  | some text => .ok text
  | none => .error (.fileNotFound path)

/-- The datum that the text of the netlist gives. -/
def draft (src : String) : Except Raised Draft := do
  let p ← parse pf.cls src
  checkPorts pf.cls opts.toCommandLine p
  let imp ← importDraft pf.depth (opts.request p)
  let clock ← clockInfo (opts.request p) imp.flops
  return ⟨p, imp, toLean (emission pf.notice opts p imp clock)⟩

/-- The run up to the write. -/
def beforeWrite : Except Stop Draft := do
  let src ← readFile files opts.netlist
  (draft pf opts src).mapError .raised

/-- The count of the sequential instances in the text of the netlist. -/
def conservation (d : Draft) : Except Stop Unit := do
  let src ← readFile files opts.netlist
  if Conserved (seqInText pf.cls pf.isspace src) d.imported then return
  else throw (.raised conservationRefusal)

/-- What the importer makes of the answer of the readback check. -/
def verdict (mode : CheckMode) : Option Bool → Except Stop Unit
  | some true => .ok ()
  | some false => .error .exit
  | none =>
    if mode = .require then
      .error (.raised (.systemExit "importer: --check=require but the check could not run"))
    else .ok ()

/-- The readback check. -/
def readback (d : Draft) : Except Stop Unit := do
  if opts.check = .off then return
  else
    let src ← readFile files opts.netlist
    let toks ← (tokenize pf.cls src).mapError .raised
    verdict opts.check (← (pf.readback files opts toks d).mapError .exception)

/-- The run behind the write. -/
def afterWrite (d : Draft) : Except Stop Unit := do
  conservation pf opts files d
  readback pf opts files d

/-- The file is written. -/
def writeOut (text : String) : Files := Function.update files opts.out (some text)

/-- A run of the importer: the files that it leaves, and what it stops with. -/
def run : Files × Except Stop Unit :=
  match beforeWrite pf opts files with
  | .error s => (files, .error s)
  | .ok d => (writeOut opts files d.text, afterWrite pf opts (writeOut opts files d.text) d)

/-- A refusal behind the write: a sequential instance of the text has not been parsed, the datum
disagrees with the netlist, or a required check could not run. -/
inductive LateRefusal (d : Draft) : Prop
  | conservation (src : String) (hsrc : files opts.netlist = some src)
      (hseq : ¬ Conserved (seqInText pf.cls pf.isspace src) d.imported)
  | readback (src : String) (toks : List Token) (hsrc : files opts.netlist = some src)
      (hseq : Conserved (seqInText pf.cls pf.isspace src) d.imported)
      (htoks : tokenize pf.cls src = .ok toks) (hcheck : opts.check ≠ .off)
      (answer : Option Bool) (hanswer : pf.readback files opts toks d = .ok answer)
      (hbad : answer = some false ∨ opts.check = .require ∧ answer = none)

/-! ### What a run leaves -/

section Run

variable {pf : Platform} {opts : Options} {files : Files} {d : Draft} {s : Stop}

/-- No file but that of the datum is written. -/
theorem run_frame {path : String} (hpath : path ≠ opts.out) :
    (run pf opts files).1 path = files path := by
  rw [run]
  cases beforeWrite pf opts files with
  | error s => rfl
  | ok d => exact Function.update_of_ne hpath _ _

theorem readFile_eq_ok {path src : String} (h : readFile files path = .ok src) :
    files path = some src := by
  rw [readFile] at h
  split at h
  · cases h
    assumption
  · cases h

/-- The tokens of a text are not refused. -/
theorem tokenizeFrom_ne_systemExit {cls : CharClass} {n : ℕ} {cs : List Char} {e : Raised}
    (h : tokenizeFrom cls n cs = .error e) : ∀ message, e ≠ .systemExit message := by
  induction n generalizing cs with
  | zero =>
    cases cs with
    | nil => cases h
    | cons c cs =>
      cases h
      nofun
  | succ n ih =>
    cases cs with
    | nil => cases h
    | cons c cs =>
      have hcons {t : Token} {cs : List Char}
          (h : (do return t :: (← tokenizeFrom cls n cs)) = Except.error e) :
          ∀ message, e ≠ .systemExit message := by
        cases hcs : tokenizeFrom cls n cs with
        | error e' =>
          rw [hcs] at h
          cases h
          exact ih hcs
        | ok ts =>
          rw [hcs] at h
          cases h
      rw [tokenizeFrom] at h
      repeat' split at h
      all_goals first
        | exact ih h
        | exact hcons h
        | (cases h; nofun)

theorem conservation_of_conserved {src : String} (hsrc : files opts.netlist = some src)
    (hseq : Conserved (seqInText pf.cls pf.isspace src) d.imported) :
    conservation pf opts files d = .ok () := by
  rw [conservation, readFile, hsrc]
  exact if_pos hseq

theorem conservation_of_not {src : String} (hsrc : files opts.netlist = some src)
    (hseq : ¬ Conserved (seqInText pf.cls pf.isspace src) d.imported) :
    conservation pf opts files d = .error (.raised conservationRefusal) := by
  rw [conservation, readFile, hsrc]
  exact if_neg hseq

theorem verdict_refuses_iff {mode : CheckMode} {answer : Option Bool} :
    (∃ s, verdict mode answer = .error s ∧ s.IsRefusal) ↔
      answer = some false ∨ mode = .require ∧ answer = none := by
  rcases answer with - | - | -
  · cases mode <;> simp [verdict, Stop.IsRefusal]
  · simp [verdict, Stop.IsRefusal]
  · simp [verdict]

/-- The readback check refuses where its answer is not good enough. -/
theorem readback_refuses_iff {src : String} (hsrc : files opts.netlist = some src) :
    (∃ s, readback pf opts files d = .error s ∧ s.IsRefusal) ↔
      opts.check ≠ .off ∧ ∃ toks answer, tokenize pf.cls src = .ok toks ∧
        pf.readback files opts toks d = .ok answer ∧
          (answer = some false ∨ opts.check = .require ∧ answer = none) := by
  by_cases hcheck : opts.check = .off
  · refine iff_of_false ?_ fun h => h.1 hcheck
    rw [readback, if_pos hcheck]
    rintro ⟨s, ⟨⟩, -⟩
  · have hread : readback pf opts files d = (do
        let toks ← (tokenize pf.cls src).mapError .raised
        verdict opts.check (← (pf.readback files opts toks d).mapError .exception)) := by
      rw [readback, if_neg hcheck, readFile, hsrc]
      rfl
    rw [hread]
    cases htoks : tokenize pf.cls src with
    | error e =>
      have hnot : ¬ (Stop.raised e).IsRefusal := by
        cases e with
        | systemExit message => exact absurd rfl (tokenizeFrom_ne_systemExit htoks message)
        | _ => exact id
      refine iff_of_false ?_ ?_
      · rintro ⟨s, ⟨⟩, hs⟩
        exact hnot hs
      · rintro ⟨-, toks, answer, ⟨⟩, -⟩
    | ok toks =>
      cases hanswer : pf.readback files opts toks d with
      | error name =>
        refine iff_of_false ?_ ?_
        · rintro ⟨s, hs, hrefusal⟩
          simp only [Except.mapError, bind, Except.bind, hanswer] at hs
          cases hs
          exact hrefusal
        · rintro ⟨-, toks', answer, ⟨⟩, hanswer', -⟩
          cases hanswer.symm.trans hanswer'
      | ok answer =>
        have hverdict : (do
            let toks ← (Except.ok toks : Except Raised (List Token)).mapError Stop.raised
            verdict opts.check (← (pf.readback files opts toks d).mapError .exception)) =
            verdict opts.check answer := by
          simp only [Except.mapError, bind, Except.bind, hanswer]
        rw [hverdict, verdict_refuses_iff]
        constructor
        · exact fun hbad => ⟨hcheck, toks, answer, rfl, hanswer, hbad⟩
        · rintro ⟨-, toks', answer', ⟨⟩, hanswer', hbad⟩
          cases hanswer.symm.trans hanswer'
          exact hbad

/-- What the refusals behind the write are. -/
theorem afterWrite_refuses_iff : (∃ s, afterWrite pf opts files d = .error s ∧ s.IsRefusal) ↔
    LateRefusal pf opts files d := by
  cases hsrc : files opts.netlist with
  | none =>
    refine iff_of_false ?_ ?_
    · rintro ⟨s, hs, hrefusal⟩
      rw [afterWrite, conservation, readFile, hsrc] at hs
      cases hs
      exact hrefusal
    · rintro (⟨src, hsome, -⟩ | ⟨src, -, hsome, -⟩) <;> cases hsrc.symm.trans hsome
  | some src =>
    by_cases hseq : Conserved (seqInText pf.cls pf.isspace src) d.imported
    · have hafter : afterWrite pf opts files d = readback pf opts files d := by
        rw [afterWrite, conservation_of_conserved hsrc hseq]
        rfl
      rw [hafter, readback_refuses_iff hsrc]
      constructor
      · rintro ⟨hcheck, toks, answer, htoks, hanswer, hbad⟩
        exact .readback src toks hsrc hseq htoks hcheck answer hanswer hbad
      · rintro (⟨src', hsrc', hnot⟩ |
          ⟨src', toks, hsrc', -, htoks, hcheck, answer, hanswer, hbad⟩)
        · cases hsrc.symm.trans hsrc'
          exact absurd hseq hnot
        · cases hsrc.symm.trans hsrc'
          exact ⟨hcheck, toks, answer, htoks, hanswer, hbad⟩
    · refine iff_of_true ⟨.raised conservationRefusal, ?_, trivial⟩ (.conservation src hsrc hseq)
      rw [afterWrite, conservation_of_not hsrc hseq]
      rfl

/-- The import of a netlist is its draft with the count of the sequential instances. -/
theorem importNetlist_eq (depth : ℕ) (r : Request) (seqInText : ℕ) :
    importNetlist depth r seqInText = (do
      let imp ← importDraft depth r
      if Conserved seqInText imp then return imp else throw conservationRefusal) := by
  simp only [importNetlist, importDraft, bind_assoc, pure_bind]
  rfl

/-- An accepted run that does not write over the netlist has imported it, and leaves the datum. -/
theorem importText_of_run (h : (run pf opts files).2 = .ok ()) (hpath : opts.netlist ≠ opts.out) :
    ∃ src d, files opts.netlist = some src ∧ draft pf opts src = .ok d ∧
      importText pf.cls pf.isspace pf.depth opts.toCommandLine src = .ok d.imported ∧
      (run pf opts files).1 opts.out = some d.text := by
  rw [run] at h ⊢
  cases hbefore : beforeWrite pf opts files with
  | error s =>
    rw [hbefore] at h
    cases h
  | ok d =>
    rw [hbefore] at h
    obtain ⟨src, hsrc, hdraft⟩ := Fallible.bind_eq_ok hbefore
    have hsrc := readFile_eq_ok hsrc
    have hdraft := Fallible.mapError_eq_ok hdraft
    have hread : writeOut opts files d.text opts.netlist = some src :=
      (Function.update_of_ne hpath _ _).trans hsrc
    obtain ⟨u, hcount, -⟩ := Fallible.bind_eq_ok h
    have hseq : Conserved (seqInText pf.cls pf.isspace src) d.imported := by
      by_contra hseq
      rw [conservation_of_not hread hseq] at hcount
      cases hcount
    obtain ⟨p, hp, hdraft'⟩ := Fallible.bind_eq_ok hdraft
    obtain ⟨u, hports, hdraft'⟩ := Fallible.bind_eq_ok hdraft'
    obtain ⟨imp, himp, hdraft'⟩ := Fallible.bind_eq_ok hdraft'
    obtain ⟨clock, -, hd⟩ := Fallible.bind_eq_ok hdraft'
    cases hd
    refine ⟨src, _, hsrc, hdraft, ?_, Function.update_self _ _ _⟩
    rw [importText, hp]
    simp only [bind, Except.bind, hports]
    rw [importNetlist_eq, himp]
    exact if_pos hseq

/-- What a run that has written the datum leaves and stops with. -/
theorem run_of_beforeWrite (h : beforeWrite pf opts files = .ok d) : run pf opts files =
    (writeOut opts files d.text, afterWrite pf opts (writeOut opts files d.text) d) := by
  rw [run, h]

/-- A refusal leaves the file as it was iff it is raised in front of the write, or the file has held
the very datum before. -/
theorem kept_iff : (∀ s, (run pf opts files).2 = .error s → s.IsRefusal →
      (run pf opts files).1 opts.out = files opts.out) ↔
    ∀ d, beforeWrite pf opts files = .ok d →
      LateRefusal pf opts (writeOut opts files d.text) d → files opts.out = some d.text := by
  cases hbefore : beforeWrite pf opts files with
  | error s =>
    refine iff_of_true (fun s' _ _ => ?_) nofun
    rw [run, hbefore]
  | ok d =>
    have hout : writeOut opts files d.text opts.out = some d.text := Function.update_self _ _ _
    simp only [run_of_beforeWrite hbefore, hout]
    constructor
    · rintro h d' ⟨⟩ hlate
      obtain ⟨s, hs, hrefusal⟩ := afterWrite_refuses_iff.mpr hlate
      exact (h s hs hrefusal).symm
    · intro h s hs hrefusal
      exact (h d rfl (afterWrite_refuses_iff.mp ⟨s, hs, hrefusal⟩)).symm

/-- What is written does not depend on the earlier contents of its file. -/
theorem beforeWrite_update (hpath : opts.netlist ≠ opts.out) (before : Option String) :
    beforeWrite pf opts (Function.update files opts.out before) = beforeWrite pf opts files := by
  rw [beforeWrite, readFile, Function.update_of_ne hpath]
  rfl

theorem writeOut_update (before : Option String) (text : String) :
    writeOut opts (Function.update files opts.out before) text = writeOut opts files text :=
  Function.update_idem _ _ _

/-- A refusal leaves the file as it was iff it is raised in front of the write, or the file has held
the very datum before. It leaves the file as it was whatever the file has held iff it is raised in
front of the write, unless the file is the netlist itself. -/
theorem unchanged_iff (pf : Platform) (opts : Options) (files : Files) :
    ((∀ s, (run pf opts files).2 = .error s → s.IsRefusal →
        (run pf opts files).1 opts.out = files opts.out) ↔
      ∀ d, beforeWrite pf opts files = .ok d →
        LateRefusal pf opts (writeOut opts files d.text) d → files opts.out = some d.text) ∧
    (opts.netlist ≠ opts.out →
      ((∀ before s, (run pf opts (Function.update files opts.out before)).2 = .error s →
          s.IsRefusal →
          (run pf opts (Function.update files opts.out before)).1 opts.out = before) ↔
        ∀ d, beforeWrite pf opts files = .ok d →
          ¬ LateRefusal pf opts (writeOut opts files d.text) d)) := by
  refine ⟨kept_iff, fun hpath => ?_⟩
  have hkept (before : Option String) :
      (∀ s, (run pf opts (Function.update files opts.out before)).2 = .error s → s.IsRefusal →
        (run pf opts (Function.update files opts.out before)).1 opts.out = before) ↔
      ∀ d, beforeWrite pf opts files = .ok d →
        LateRefusal pf opts (writeOut opts files d.text) d → before = some d.text := by
    rw [← beforeWrite_update hpath before]
    simpa only [writeOut_update, Function.update_self] using
      @kept_iff pf opts (Function.update files opts.out before)
  constructor
  · intro h d hd hlate
    -- A file that was not there is there afterwards.
    cases (hkept none).mp (h none) d hd hlate
  · intro h before
    exact (hkept before).mpr fun d hd hlate => absurd hlate (h d hd)

/-- The options for the inverter. -/
def inverterOptions (check : CheckMode) : Options where
  toCommandLine := inverterCommand
  netlist := "inverter.v"
  out := "Inverter.lean"
  ns := "SaltWorks.Silicon.Imported"
  name := "inverterNL"
  check := check

/-- A platform on which the readback check cannot run. -/
def withoutLibrary : Platform where
  cls := .ascii
  isspace := Char.isWhitespace
  depth := 10
  notice := []
  readback := fun _ _ _ _ => .ok none

/-- Nothing but the netlist. -/
def netlistOnly (text : String) : Files :=
  fun path => if path = "inverter.v" then some text else none

/-- The netlist of the inverter with a flop in a comment. -/
def commentedText : String := inverterText ++ "// sky130_fd_sc_hd__dfxtp_1 f ("

/-- A flop in a comment is counted behind the write, and a required check that cannot run is refused
behind it: both times a file is left that was not there. -/
theorem not_unchanged :
    ((run withoutLibrary (inverterOptions .auto) (netlistOnly commentedText)).2 =
        .error (.raised conservationRefusal) ∧
      netlistOnly commentedText "Inverter.lean" = none ∧
      ((run withoutLibrary (inverterOptions .auto) (netlistOnly commentedText)).1
        "Inverter.lean").isSome) ∧
    (run withoutLibrary (inverterOptions .require) (netlistOnly inverterText)).2 =
        .error (.raised (.systemExit "importer: --check=require but the check could not run")) ∧
      netlistOnly inverterText "Inverter.lean" = none ∧
      ((run withoutLibrary (inverterOptions .require) (netlistOnly inverterText)).1
        "Inverter.lean").isSome := by
  decide +kernel

end Run

end Saltworks.Importer
