import Saltworks.Importer.Isolation
import Saltworks.Importer.PortLists
import Saltworks.Importer.ScanPasses

/-!
# The top module

The netlists that the importer is made for are flat: one module with all instances. The option
`--top` names it, but nothing reads the option, and the scan of the tokens does not see where a
module begins or ends. So the statements of all modules of a file are read as those of one module,
and the import depends on them and not on the names, the headers and the ends of the modules.

What is left of an isolation is that of other modules which hold no flop and drive no net that a
module reads: they do not change what is imported.

## Main definitions

* `Module.Orderly`, `Module.scan`: the scan of a module.
* `fileTokens`, `fileItems`, `Module.Plain`: files with several modules.
* `seqInText`, `importText`: the import of a text.
* `CommandLine.requestOf`, `otherModules`: a module alone, and the modules around it.

## Main results

* `scanItems_module`: the scan of a module.
* `scan_fileTokens`: the scan of a file reads the statements of its modules.
* `sameImport_of_apart`: two files with the same module and with others that are apart from it.
* `importText_fileTokens`: what the import of a file depends on.
-/

namespace Saltworks.Sim

open Importer Fallible

/-! ### Files with several modules -/

/-- All instances are cells of the process library by names that are not escaped, and the names of
the module and of its header are no keywords and no such cells. -/
structure Module.Plain (m : Module) : Prop where
  top : m.top.Skipped
  header : ∀ nm ∈ m.header, nm.1.Skipped
  items : ∀ it ∈ m.items, it.Sky130

/-- The tokens of a file with several modules. -/
def fileTokens (ms : List Module) : List Token := ms.flatMap Module.tokens

/-- The statements of all modules of a file. -/
def fileItems (ms : List Module) : List Item := ms.flatMap Module.items

/-- The tokens in front of the statements of a module. -/
def Module.headTokens (m : Module) : List Token :=
  [.id "module", m.top.token, .lparen] ++ headerTokens m.header ++ [.rparen, .semi]

/-- The names in front of the statements of a module. -/
def Module.headNames (m : Module) : List (Name × Option Index) :=
  (m.top, none) :: m.header.map fun p => (p.1, none)

/-- No instance begins in the header, nor among the names of an instance that is passed over. -/
structure Module.Orderly (m : Module) : Prop where
  head : Quiet m.headNames
  items : ∀ it ∈ m.items, it.Orderly

/-- What the scan does with a module. -/
def Module.scan (m : Module) (p : Parsed) : Except Raised Parsed := do
  m.items.foldlM Item.scan (← passNames p m.headNames)

theorem stretch_header (header : List (Name × Bool)) :
    Stretch (headerTokens header) (header.map fun p => (p.1, none)) := by
  induction header with
  | nil => exact .nil
  | cons p header ih => exact .name p.1 ((Stretch.comma p.2).append ih)

theorem skipped_module : ∀ t ∈ [Token.id "module"], t.Skipped := by
  refine List.forall_mem_singleton.mpr ⟨?_, ?_, ?_⟩ <;> decide

theorem skipped_endmodule : ∀ t ∈ [Token.id "endmodule"], t.Skipped := by
  refine List.forall_mem_singleton.mpr ⟨?_, ?_, ?_⟩ <;> decide

/-- The scan of a header. -/
theorem scanItems_head {m : Module} (hm : Quiet m.headNames) {n : ℕ} {ts : List Token}
    (hn : (m.headTokens ++ ts).length ≤ n) : ∃ n', ts.length ≤ n' ∧
      ∀ p, scanItems n p (m.headTokens ++ ts) =
        passNames p m.headNames >>= fun p => scanItems n' p ts := by
  have hstretch : Stretch (m.top.token :: .lparen :: (headerTokens m.header ++ [.rparen]))
      m.headNames := by
    have h := (stretch_header m.header).append (.mark (t := .rparen) trivial .nil)
    rw [List.append_nil] at h
    exact .name m.top (.mark trivial h)
  have htokens : m.headTokens ++ ts = [Token.id "module"] ++
      (m.top.token :: .lparen :: (headerTokens m.header ++ [.rparen]) ++ .semi :: ts) := by
    simp [Module.headTokens]
  rw [htokens] at hn ⊢
  obtain ⟨n₁, hn₁, hmodule⟩ := scanItems_skip skipped_module hn
  obtain ⟨n₂, hn₂, hnames⟩ := scanItems_stretch hstretch hm hn₁
  exact ⟨n₂, hn₂, fun p => (hmodule p).trans (hnames p)⟩

/-- The scan of a module. -/
theorem scanItems_module {m : Module} (hhead : Quiet m.headNames) (hitems : OneByOne m.items)
    {n : ℕ} {ts : List Token} (hn : (m.tokens ++ ts).length ≤ n) : ∃ n', ts.length ≤ n' ∧
      ∀ p, scanItems n p (m.tokens ++ ts) = m.scan p >>= fun p => scanItems n' p ts := by
  have htokens : m.tokens ++ ts = m.headTokens ++
      (m.items.flatMap Item.tokens ++ ([Token.id "endmodule"] ++ ts)) := by
    simp [Module.tokens, Module.headTokens]
  rw [htokens] at hn ⊢
  obtain ⟨n₁, hn₁, hhead⟩ := scanItems_head hhead hn
  obtain ⟨n₂, hn₂, hitems⟩ := hitems n₁ _ hn₁
  obtain ⟨n₃, hn₃, hend⟩ := scanItems_skip skipped_endmodule hn₂
  refine ⟨n₃, hn₃, fun p => ?_⟩
  rw [hhead, Module.scan, bind_assoc]
  refine bind_congr fun p => ?_
  rw [hitems]
  exact bind_congr hend

/-- Names that are all skipped leave nothing. -/
theorem passNames_of_skipped {ls : List (Name × Option Index)} (hls : ∀ l ∈ ls, l.1.Skipped)
    (p : Parsed) : passNames p ls = .ok p := by
  induction ls with
  | nil => rfl
  | cons l ls ih =>
    obtain ⟨hl, hls⟩ := List.forall_mem_cons.mp hls
    rw [passNames_skipped hl, ih hls]

theorem Module.Plain.headNames {m : Module} (h : m.Plain) : ∀ l ∈ m.headNames, l.1.Skipped := by
  refine List.forall_mem_cons.mpr ⟨h.top, fun l hl => ?_⟩
  obtain ⟨p, hp, rfl⟩ := List.mem_map.mp hl
  exact h.header p hp

theorem Module.Plain.orderly {m : Module} (h : m.Plain) : m.Orderly where
  head := by
    have hnone : m.headNames.find? (fun l => ¬ l.1.Skipped) = none :=
      List.find?_eq_none.mpr fun l hl => by simpa using h.headNames l hl
    rw [Quiet, hnone]
    intro l hl
    cases hl
  items it hit := by
    have hsky := h.items it hit
    cases it with
    | inst cell iname ports => exact Or.inl hsky
    | _ => exact trivial

/-- The scan of a module reads its statements and nothing else. -/
theorem Module.Plain.scan_eq {m : Module} (h : m.Plain) (p : Parsed) :
    m.scan p = m.items.foldlM Item.scan p := by
  rw [Module.scan, passNames_of_skipped h.headNames]
  rfl

theorem scanItems_fileTokens {ms : List Module} (hms : ∀ m ∈ ms, m.Plain) {n : ℕ}
    (hn : (fileTokens ms).length ≤ n) (p : Parsed) :
    scanItems n p (fileTokens ms) = (fileItems ms).foldlM Item.scan p := by
  induction ms generalizing n p with
  | nil => cases n <;> rfl
  | cons m ms ih =>
    obtain ⟨hm, hms⟩ := List.forall_mem_cons.mp hms
    rw [fileTokens, List.flatMap_cons] at hn ⊢
    obtain ⟨n', hn', hscan⟩ :=
      scanItems_module hm.orderly.head (oneByOne_of_orderly hm.orderly.items) hn
    rw [hscan, hm.scan_eq, fileItems, List.flatMap_cons, List.foldlM_append]
    exact bind_congr fun p => ih hms hn' p

/-- The scan of a file reads the statements of all its modules as those of one module. -/
theorem scan_fileTokens {ms : List Module} (hms : ∀ m ∈ ms, m.Plain) :
    scan (fileTokens ms) = (fileItems ms).foldlM Item.scan ⟨[], [], [], .empty⟩ :=
  scanItems_fileTokens hms le_rfl _

end Saltworks.Sim

namespace Saltworks.Importer

open Sim Fallible

/-! ### The count of the sequential instances -/

section Count

variable (cls : CharClass) (isspace : Char → Bool)

/-- The text behind a prefix. -/
def afterPrefix (text : List Char) (cs : List Char) : Option (List Char) :=
  if text.isPrefixOf cs then some (cs.drop text.length) else none

/-- A character of a name in a regular expression, `\w`. -/
def isWord (c : Char) : Bool := cls.isalnum c || c == '_'

/-- The text behind the last opening parenthesis. -/
def afterLastParen (cs : List Char) : Option (List Char) :=
  if '(' ∈ cs then some (cs.reverse.takeWhile (· ≠ '(')).reverse else none

/-- The text behind a sequential instance that begins here: the cell, a gap, a name and an opening
parenthesis behind the name or inside it. -/
def afterSequential (cs : List Char) : Option (List Char) := do
  let stem ← afterPrefix "sky130_fd_sc_hd__".toList cs
  let rest ← seqPrefix.findSome? fun p => afterPrefix p.toList stem
  let rest := rest.dropWhile (isWord cls)
  let iname := (rest.dropWhile isspace).takeWhile fun c => !isspace c
  let behind := (rest.dropWhile isspace).dropWhile fun c => !isspace c
  if rest.takeWhile isspace = [] ∨ iname = [] then none
  else match behind.dropWhile isspace with
    | '(' :: cs => some cs
    | _ => (afterLastParen iname.tail).map (· ++ behind)

/-- The number of sequential instances from here on, with a bound on the length of the text. -/
def seqFrom : ℕ → List Char → ℕ
  | 0, _ => 0
  | _, [] => 0
  | n + 1, c :: cs => match afterSequential cls isspace (c :: cs) with
    | some rest => seqFrom n rest + 1
    | none => seqFrom n cs

/-- The number of sequential instances that the text shows, comments included. -/
def seqInText (src : String) : ℕ := seqFrom cls isspace src.toList.length src.toList

end Count

example : seqInText .ascii Char.isWhitespace
    "sky130_fd_sc_hd__dfxtp_1 ff0 (.D(d)); // sky130_fd_sc_hd__dfrtp_2 \\r[0] (" = 2 := by
  decide

/-! ### The import of a text -/

/-- Import the text of a netlist. -/
def importText (cls : CharClass) (isspace : Char → Bool) (depth : ℕ) (cmd : CommandLine)
    (src : String) : Except Raised Imported := do
  let p ← parse cls src
  checkPorts cls cmd p
  importNetlist depth (cmd.request p) (seqInText cls isspace src)

/-- What the parser makes of a file is what it makes of the statements of its modules. -/
theorem parse_fileTokens {cls : CharClass} {src : String} {ms : List Module}
    (hms : ∀ m ∈ ms, m.Plain) (hsrc : tokenize cls src = .ok (fileTokens ms)) :
    parse cls src = (fileItems ms).foldlM Item.scan ⟨[], [], [], .empty⟩ := by
  rw [parse, hsrc]
  exact scan_fileTokens hms

/-! ### One module among others -/

/-- The instances of statements, as the scan reads them. -/
def instsRead (its : List Item) : List Inst := (cellInsts its).map readInst

/-- The assigns of statements, as the scan reads them where it returns. -/
def assignsRead (its : List Item) : List (Net × Net) :=
  (assignsOf its).flatMap fun a => match readAssign a with
    | .ok as => as
    | .error _ => []

/-- The command line with the statements of a module alone. -/
def CommandLine.requestOf (cmd : CommandLine) (m : Module) : Request where
  insts := instsRead m.items
  assigns := assignsRead m.items
  ins := cmd.ins
  outs := cmd.outs
  pinReset := cmd.pinReset
  cut := cmd.cut

/-- The statements of the modules in front of a module and behind it. -/
def otherModules (before after : List Module) : Surroundings where
  instsBefore := instsRead (fileItems before)
  instsAfter := instsRead (fileItems after)
  assignsBefore := assignsRead (fileItems before)
  assignsAfter := assignsRead (fileItems after)

theorem instsRead_append (its its' : List Item) :
    instsRead (its ++ its') = instsRead its ++ instsRead its' := by
  simp [instsRead, cellInsts, instsOf, List.filterMap_append]

theorem assignsRead_append (its its' : List Item) :
    assignsRead (its ++ its') = assignsRead its ++ assignsRead its' := by
  simp [assignsRead, assignsOf, List.filterMap_append]

theorem fileItems_split (before after : List Module) (m : Module) :
    fileItems (before ++ m :: after) = fileItems before ++ m.items ++ fileItems after := by
  simp [fileItems]

/-- Statements that are read leave their instances and their assigns. -/
theorem foldlM_scan_eq {its : List Item} {p p' : Parsed} (h : its.foldlM Item.scan p = .ok p') :
    p'.insts = p.insts ++ instsRead its ∧ p'.assigns = p.assigns ++ assignsRead its := by
  obtain ⟨as, has, hinsts, hassigns⟩ := foldlM_scan_ok h
  refine ⟨hinsts, hassigns.trans ?_⟩
  rw [assignsRead]
  congr 1
  have hread := forall₂_of_mapM has
  clear h has hassigns
  generalize assignsOf its = qs at hread ⊢
  induction hread with
  | nil => rfl
  | cons ha _ ih => rw [List.flatten_cons, List.flatMap_cons, ha, ih]

/-- An import that returns has imported the request of its netlist. -/
theorem importText_eq_ok {cls : CharClass} {isspace : Char → Bool} {depth : ℕ} {cmd : CommandLine}
    {src : String} {imp : Imported} (h : importText cls isspace depth cmd src = .ok imp) :
    ∃ p, parse cls src = .ok p ∧
      importNetlist depth (cmd.request p) (seqInText cls isspace src) = .ok imp := by
  obtain ⟨p, hp, h⟩ := bind_eq_ok h
  obtain ⟨_, -, h⟩ := bind_eq_ok h
  exact ⟨p, hp, h⟩

/-- The import of a file is that of a module among the other modules. -/
theorem importNetlist_of_file {cls : CharClass} {isspace : Char → Bool} {depth : ℕ}
    {cmd : CommandLine} {src : String} {before after : List Module} {m : Module}
    (hms : ∀ m' ∈ before ++ m :: after, m'.Plain)
    (hsrc : tokenize cls src = .ok (fileTokens (before ++ m :: after))) {imp : Imported}
    (h : importText cls isspace depth cmd src = .ok imp) :
    importNetlist depth ((cmd.requestOf m).within (otherModules before after))
      (seqInText cls isspace src) = .ok imp := by
  obtain ⟨p, hp, h⟩ := importText_eq_ok h
  rw [parse_fileTokens hms hsrc] at hp
  obtain ⟨hinsts, hassigns⟩ := foldlM_scan_eq hp
  have hrequest : cmd.request p = (cmd.requestOf m).within (otherModules before after) := by
    rw [CommandLine.request, hinsts, hassigns, List.nil_append, List.nil_append, fileItems_split,
      instsRead_append, instsRead_append, assignsRead_append, assignsRead_append]
    rfl
  rwa [hrequest] at h

theorem Imported.sameImport_within (imp : Imported) (s s' : Surroundings) :
    SameImport (imp.within s) (imp.within s') :=
  ⟨rfl, rfl, rfl, rfl, rfl, rfl, rfl⟩

/-- Two files with the same module import the same where the other modules are apart from it. -/
theorem sameImport_of_apart {cls : CharClass} {isspace : Char → Bool} {depth : ℕ}
    {cmd : CommandLine} {m : Module} {src src' : String} {before after before' after' : List Module}
    (hms : ∀ m' ∈ before ++ m :: after, m'.Plain) (hms' : ∀ m' ∈ before' ++ m :: after', m'.Plain)
    (hsrc : tokenize cls src = .ok (fileTokens (before ++ m :: after)))
    (hsrc' : tokenize cls src' = .ok (fileTokens (before' ++ m :: after')))
    (hapart : Apart (cmd.requestOf m) (otherModules before after))
    (hapart' : Apart (cmd.requestOf m) (otherModules before' after')) {imp imp' : Imported}
    (h : importText cls isspace depth cmd src = .ok imp)
    (h' : importText cls isspace depth cmd src' = .ok imp') : SameImport imp imp' := by
  obtain ⟨-, alone, halone, rfl⟩ :=
    (importNetlist_within hapart).mp (importNetlist_of_file hms hsrc h)
  obtain ⟨-, alone', halone', rfl⟩ :=
    (importNetlist_within hapart').mp (importNetlist_of_file hms' hsrc' h')
  obtain rfl : alone = alone' := importNetlist_unique halone halone'
  exact alone.sameImport_within _ _

/-- The import of a file depends on the statements of all its modules, in the order of the file,
and on no name, header or end of a module. Two files that have a module in common import the same
where their other modules hold no flop and drive no net that the module reads. Neither depends on
`--top`. -/
theorem importText_fileTokens {cls : CharClass} {isspace : Char → Bool} {depth : ℕ}
    {cmd : CommandLine} {src src' : String} {ms ms' : List Module} (hms : ∀ m ∈ ms, m.Plain)
    (hms' : ∀ m ∈ ms', m.Plain) (hsrc : tokenize cls src = .ok (fileTokens ms))
    (hsrc' : tokenize cls src' = .ok (fileTokens ms')) (top : String) :
    (fileItems ms' = fileItems ms → seqInText cls isspace src' = seqInText cls isspace src →
      importText cls isspace depth { cmd with top } src' =
        importText cls isspace depth cmd src) ∧
    ∀ m before after before' after', ms = before ++ m :: after → ms' = before' ++ m :: after' →
      Apart (cmd.requestOf m) (otherModules before after) →
      Apart (cmd.requestOf m) (otherModules before' after') → ∀ imp imp',
      importText cls isspace depth cmd src = .ok imp →
      importText cls isspace depth { cmd with top } src' = .ok imp' → SameImport imp imp' := by
  constructor
  · intro hitems hseq
    rw [importText, importText, parse_fileTokens hms hsrc, parse_fileTokens hms' hsrc', hitems,
      hseq]
    rfl
  · rintro m before after before' after' rfl rfl hapart hapart' imp imp' h h'
    exact sameImport_of_apart hms hms' hsrc hsrc' hapart hapart' h h'

/-! ### An inverter and another module -/

/-- A name that is not escaped. -/
def plainName (text : String) : Name := ⟨false, text⟩

/-- A module with a cell between the net `i` and the net `o`. -/
def oneCell (top cell iname : String) (pin : Pin) (i o : Net) : Module where
  top := plainName top
  header := [(plainName i, true), (plainName o, false)]
  items := [
    .decl .input none (plainName i) [], .decl .output none (plainName o) [],
    .inst (plainName cell) (plainName iname) [
      ⟨plainName "A", some (.leaf (plainName i) none), true⟩,
      ⟨plainName pin, some (.leaf (plainName o) none), false⟩]]

/-- The module with the inverter. -/
def inverter : Module := oneCell "t" "sky130_fd_sc_hd__inv_1" "_0_" "Y" "a" "y"

/-- A module with a buffer on other nets. -/
def buffer : Module := oneCell "u" "sky130_fd_sc_hd__buf_1" "_1_" "X" "b" "z"

/-- A module with a buffer that drives a net of the name of the output of the inverter. -/
def rival : Module := oneCell "u" "sky130_fd_sc_hd__buf_1" "_1_" "X" "a" "y"

def inverterText : String :=
  "module t(a, y); input a; output y; sky130_fd_sc_hd__inv_1 _0_ (.A(a), .Y(y)); endmodule "

def bufferText : String :=
  "module u(b, z); input b; output z; sky130_fd_sc_hd__buf_1 _1_ (.A(b), .X(z)); endmodule "

def rivalText : String :=
  "module u(a, y); input a; output y; sky130_fd_sc_hd__buf_1 _1_ (.A(a), .X(y)); endmodule "

/-- The command line for the inverter. -/
def inverterCommand : CommandLine where
  top := "t"
  inputs := "a"
  outputs := "y"
  pinReset := none
  cut := none

theorem plain_oneCell {top cell iname : String} {pin : Pin} {i o : Net}
    (htop : (plainName top).Skipped) (hi : (plainName i).Skipped) (ho : (plainName o).Skipped)
    (hcell : isSky130 cell) : (oneCell top cell iname pin i o).Plain where
  top := htop
  header := by
    intro nm hnm
    simp only [oneCell, List.mem_cons, List.not_mem_nil, or_false] at hnm
    rcases hnm with rfl | rfl
    · exact hi
    · exact ho
  items := by
    intro it hit
    simp only [oneCell, List.mem_cons, List.not_mem_nil, or_false] at hit
    rcases hit with rfl | rfl | rfl
    · exact trivial
    · exact trivial
    · exact ⟨rfl, hcell⟩

theorem plain_inverter : inverter.Plain :=
  plain_oneCell (by decide) (by decide) (by decide) (by decide)

theorem plain_buffer : buffer.Plain :=
  plain_oneCell (by decide) (by decide) (by decide) (by decide)

theorem plain_rival : rival.Plain :=
  plain_oneCell (by decide) (by decide) (by decide) (by decide)

theorem tokenize_inverterText : tokenize .ascii inverterText = .ok (fileTokens [inverter]) := by
  decide

theorem tokenize_two : tokenize .ascii (inverterText ++ bufferText) =
    .ok (fileTokens [inverter, buffer]) := by
  decide +kernel

theorem tokenize_rivals : tokenize .ascii (inverterText ++ rivalText) =
    .ok (fileTokens [inverter, rival]) := by
  decide +kernel

section Inverter

/-- The datum of the import of a text for the inverter. -/
def inverterDatum (top src : String) : Except Raised Datum :=
  Imported.datum <$> importText .ascii Char.isWhitespace 10 { inverterCommand with top } src

theorem inverterDatum_eq {top src : String} {ts : List Token}
    (hsrc : tokenize .ascii src = .ok ts) (hseq : seqInText .ascii Char.isWhitespace src = 0) :
    inverterDatum top src = Imported.datum <$> (do
      let p ← scan ts
      checkPorts .ascii inverterCommand p
      importNetlist 10 (inverterCommand.request p) 0) := by
  rw [inverterDatum, importText, parse, hsrc, hseq]
  rfl

theorem inverterDatum_alone (top : String) :
    inverterDatum top inverterText = .ok ⟨[.inp 0, .not 0], [1]⟩ := by
  rw [inverterDatum_eq tokenize_inverterText (by decide)]
  decide

theorem inverterDatum_two : inverterDatum "u" (inverterText ++ bufferText) =
    .ok ⟨[.inp 0, .not 0], [1]⟩ := by
  rw [inverterDatum_eq tokenize_two (by decide +kernel)]
  decide

theorem inverterDatum_rivals : inverterDatum "t" (inverterText ++ rivalText) =
    .ok ⟨[.inp 0], [0]⟩ := by
  rw [inverterDatum_eq tokenize_rivals (by decide +kernel)]
  decide

theorem apart_nothing : Apart (inverterCommand.requestOf inverter) (otherModules [] []) where
  sequential := nofun
  driven := by
    intro nm _
    exact nofun
  cut := nofun

theorem apart_buffer : Apart (inverterCommand.requestOf inverter) (otherModules [] [buffer]) where
  sequential := by decide
  driven := by decide
  cut := nofun

/-- The inverter imports the same alone and in front of a buffer that is named as the top. -/
theorem importText_fileTokens_inverter :
    ∃ imp imp', importText .ascii Char.isWhitespace 10 inverterCommand inverterText = .ok imp ∧
      importText .ascii Char.isWhitespace 10 { inverterCommand with top := "u" }
        (inverterText ++ bufferText) = .ok imp' ∧
      imp.datum = ⟨[.inp 0, .not 0], [1]⟩ ∧ SameImport imp imp' := by
  obtain ⟨imp, himp, hdatum⟩ := map_eq_ok (inverterDatum_alone "t")
  obtain ⟨imp', himp', -⟩ := map_eq_ok inverterDatum_two
  refine ⟨imp, imp', himp, himp', hdatum, ?_⟩
  have hone : ∀ m ∈ [inverter], m.Plain := List.forall_mem_singleton.mpr plain_inverter
  have htwo : ∀ m ∈ [inverter, buffer], m.Plain :=
    List.forall_mem_cons.mpr ⟨plain_inverter, List.forall_mem_singleton.mpr plain_buffer⟩
  exact (importText_fileTokens hone htwo tokenize_inverterText tokenize_two "u").2 inverter [] []
    [] [buffer] rfl rfl apart_nothing apart_buffer imp imp' himp himp'

/-- A second module changes the datum of the inverter, and the text imports for a top module that
it does not have. -/
theorem not_isolated :
    inverterDatum "t" inverterText ≠ inverterDatum "t" (inverterText ++ rivalText) ∧
    tokenize .ascii inverterText = .ok (fileTokens [inverter]) ∧
    tokenize .ascii (inverterText ++ rivalText) = .ok (fileTokens [inverter, rival]) ∧
    (∀ m ∈ [inverter, rival], m.Plain) ∧ inverter.top.text = "t" ∧ rival.top.text ≠ "t" ∧
    ∃ d, inverterDatum "absent" inverterText = .ok d ∧ inverter.top.text ≠ "absent" := by
  refine ⟨?_, tokenize_inverterText, tokenize_rivals, ?_, rfl, ?_, _, inverterDatum_alone _, ?_⟩
  · rw [inverterDatum_alone, inverterDatum_rivals]
    decide
  · exact List.forall_mem_cons.mpr ⟨plain_inverter, List.forall_mem_singleton.mpr plain_rival⟩
  · decide
  · decide

end Inverter

end Saltworks.Importer
