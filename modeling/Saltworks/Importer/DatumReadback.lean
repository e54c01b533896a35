import Saltworks.Importer.DatumLines

/-!
# Written and read

What is written is read back. A definition is found at its head only, a datum in chunks is read
chunk by chunk, and the outputs are read at their own definition. This holds of names that do not
show what the reader looks for. A name in French quotes may show it.

## Main results

* `Emission.Legible.datumBody_flat`, `Emission.Legible.datumBody_chunked`: the lines of the gates.
* `readDatum_toLean`: the gates and the outputs are read back.
* `not_readDatum_toLean`: the outputs that a name shows are read instead.
-/

namespace Saltworks.Importer

open Silicon Text

/-! ### Chunks -/

section Chunks

variable {α : Type*} {n : ℕ}

/-- The chunks of a list make up the list. -/
theorem flatten_chunks (hn : 0 < n) (l : List α) : (chunks n l).flatten = l := by
  have htake (k : ℕ) : ((List.range k).map fun j => (l.drop (n * j)).take n).flatten =
      l.take (n * k) := by
    induction k with
    | zero => rw [Nat.mul_zero, List.take_zero]; rfl
    | succ k ih =>
      rw [List.range_succ, List.map_append, List.flatten_append, ih, Nat.mul_succ, List.take_add]
      simp
  rw [chunks, htake, List.take_of_length_le]
  have hdiv := Nat.div_add_mod (l.length + n - 1) n
  have hmod := Nat.mod_lt (l.length + n - 1) hn
  omega

/-- No chunk is empty. -/
theorem chunks_ne_nil (hn : 0 < n) (l : List α) : ∀ x ∈ chunks n l, x ≠ [] := by
  refine List.forall_mem_map.mpr fun k hk hnil => ?_
  have hk' := (Nat.le_div_iff_mul_le hn).mp (Nat.succ_le_of_lt (List.mem_range.mp hk))
  have hlength := congrArg List.length hnil
  rw [List.length_take, List.length_drop, List.length_nil, Nat.min_eq_zero_iff] at hlength
  rw [Nat.succ_mul, Nat.mul_comm] at hk'
  omega

/-- The chunks of a mapped list are those of the list, mapped. -/
theorem chunks_map {β : Type*} (f : α → β) (l : List α) :
    chunks n (l.map f) = (chunks n l).map (List.map f) := by
  rw [chunks, chunks, List.map_map, List.length_map]
  exact List.map_congr_left fun k _ => by rw [← List.map_drop, ← List.map_take]; rfl

end Chunks

section Literal

variable {gs : Netlist} {m : List Char → Option (List Char)} {c : Char}

theorem notMem_literalText (halnum : c.isAlphanum = false) (hc : c ∉ [' ', '.', ',', '\n']) :
    c ∉ (literalText (gs.map gateLine)).toList := by
  simp only [List.mem_cons, List.not_mem_nil, or_false, not_or] at hc
  obtain ⟨hblank, hdot, hcomma, hline⟩ := hc
  rw [literalText_toList]
  intro hmem
  rcases mem_intercalate hmem with hmem | ⟨x, hx, hmem⟩
  · rcases List.mem_cons.mp hmem with rfl | hmem
    · exact hcomma rfl
    · exact hline (List.mem_singleton.mp hmem)
  · obtain ⟨g, -, rfl⟩ := List.mem_map.mp hx
    rcases List.mem_append.mp hmem with hmem | hmem
    · rcases List.mem_cons.mp hmem with rfl | hmem
      · exact hblank rfl
      · exact hblank (List.mem_singleton.mp hmem)
    · exact notMem_gateText halnum hdot hblank hmem

/-- The lines of gates are passed over where a definition is looked for. -/
theorem passes_literalText (hm : ∀ cs, ¬ "def".toList <+: cs → m cs = none) :
    Passes m (literalText (gs.map gateLine)).toList := by
  have hline (y : List Char) (hy : '\n' ∉ y) (g : Gate) :
      Passes m ("  ".toList ++ gateText g ++ y) := by
    refine passes_line ?_ fun rest => hm _ fun h => ?_
    · rw [List.mem_append, List.mem_append, not_or, not_or]
      exact ⟨⟨by decide, notMem_gateText (by decide) (by decide) (by decide)⟩, hy⟩
    · exact absurd (List.cons_prefix_cons.mp h).1 (by decide)
  rw [literalText_toList]
  induction gs with
  | nil => exact passes_line List.not_mem_nil fun rest => hm _ fun h =>
      absurd (List.cons_prefix_cons.mp h).1 (by decide)
  | cons g gs ih =>
    cases gs with
    | nil => simpa using hline [] List.not_mem_nil g
    | cons g' gs =>
      have hcons : ",\n".toList.intercalate
          ((g :: g' :: gs).map fun g => "  ".toList ++ gateText g) =
          ("  ".toList ++ gateText g ++ [',']) ++ '\n' :: ",\n".toList.intercalate
            ((g' :: gs).map fun g => "  ".toList ++ gateText g) := by
        rw [List.map_cons, List.map_cons, List.intercalate_cons_cons]
        simp
      rw [hcons]
      exact (hline [','] (by decide) g).append ih

end Literal

section Entries

variable {nm : String} {x rest : List Char}

theorem defLine_eq_none (h : ¬ "def".toList <+: x) : defLine nm.toList x = none := by
  rw [defLine, afterDef_of_not_prefix h]
  rfl

theorem defLiteral_eq_none (h : ¬ "def".toList <+: x) : defLiteral nm.toList x = none := by
  rw [defLiteral, afterDef_of_not_prefix h]
  rfl

theorem firstLine_eq_some {β : Type*} {m : List Char → Option β} {b : β} (h : m x = some b) :
    firstLine m x = some b := by
  cases x with
  | nil => exact h
  | cons c x =>
    rw [firstLine, firstLineFrom, if_pos rfl, h]
    rfl

/-- The rest of the line of a definition. -/
theorem firstLine_defHead (hnm : Unindented nm.toList) (hx : '\n' ∉ x) (hhead : Unindented x) :
    firstLine (defLine nm.toList) ((defHead nm).toList ++ (x ++ '\n' :: rest)) = some x := by
  refine firstLine_eq_some ?_
  have htake : (x ++ '\n' :: rest).takeWhile (· ≠ '\n') = x := by
    rw [List.takeWhile_append_of_pos, List.takeWhile_cons_of_neg (by simp), List.append_nil]
    intro c hc
    exact decide_eq_true fun h => hx (h ▸ hc)
  rw [defLine, afterDef_defHead hnm]
  · simp only [bind, Option.bind]
    rw [if_neg (hhead.append _).ne_nil, htake]
  · exact (hhead.append _).head?

/-- A literal ends where the bracket stands at the beginning of a line. -/
theorem literal_append (hx : ']' ∉ x) : literal (x ++ '\n' :: ']' :: rest) = x := by
  have hsplit := splitFirst_append (p := "\n]".toList) (x := x) (by decide) (by
    have hlast : (x ++ "\n]".toList).dropLast = x ++ ['\n'] := by
      rw [List.dropLast_append_of_ne_nil (by decide)]
      rfl
    rw [hlast]
    refine free_of_notMem (a := ']') (by decide) ?_
    exact List.mem_append.not.mpr (not_or.mpr ⟨hx, by decide⟩)) rest
  rw [literal]
  change splitFirst "\n]".toList (x ++ '\n' :: ']' :: rest) = _ at hsplit
  rw [hsplit]

end Entries

section Flat

variable {nm : String} {xs : List String} {rest : List Char}

theorem firstLine_defLine_quiet (hxs : ∀ x ∈ xs, Quiet x) (rest : List Char) :
    firstLine (defLine nm.toList) (unlines (xs.map String.toList) ++ rest) =
      firstLine (defLine nm.toList) rest :=
  firstLine_unlines (List.forall_mem_map.mpr fun x hx => (passes_quiet (hxs x hx) _).1) rest

theorem firstLine_defLiteral_quiet (hxs : ∀ x ∈ xs, Quiet x) (rest : List Char) :
    firstLine (defLiteral nm.toList) (unlines (xs.map String.toList) ++ rest) =
      firstLine (defLiteral nm.toList) rest :=
  firstLine_unlines (List.forall_mem_map.mpr fun x hx => (passes_quiet (hxs x hx) _).2) rest

/-- The first literal of the file begins behind the head of its definition. -/
theorem behind_literalStart (hnm : Inner nm) (rest : List Char) :
    behind literalStart ((defHead nm).toList ++ ('[' :: rest)) = some rest := by
  have hsplit := splitFirst_append (p := literalStart)
    (x := "def ".toList ++ nm.toList ++ " : SaltWorks.Silicon.".toList) (by decide) (by
      have hlast : ("def ".toList ++ nm.toList ++ " : SaltWorks.Silicon.".toList ++
          literalStart).dropLast =
          "def ".toList ++ nm.toList ++ " : SaltWorks.Silicon.Netlist := ".toList := by
        rw [List.dropLast_append_of_ne_nil (by decide), List.append_assoc _ _ (List.dropLast _)]
        rfl
      rw [hlast]
      exact (Free.const (by decide) hnm.literal).last (by decide) (by decide)) rest
  have htext : (defHead nm).toList ++ ('[' :: rest) =
      "def ".toList ++ nm.toList ++ " : SaltWorks.Silicon.".toList ++ (literalStart ++ rest) := by
    rw [defHead_toList]
    simp only [List.append_assoc]
    rfl
  rw [behind, htext, hsplit]
  rfl

end Flat

namespace Emission

variable (e : Emission)

/-- The characters of the file. -/
def chars : List Char := toLean e |>.toList

/-- What is written behind the datum. -/
def tables : List Char := ['\n'].intercalate (e.tableEntries.map String.toList)

theorem chars_eq : e.chars = unlines (e.header.map String.toList) ++
    (unlines (e.datumEntries.map String.toList) ++ e.tables) := by
  have hne : e.tableEntries.map String.toList ≠ [] := by
    rw [tableEntries, List.map_append]
    exact List.append_ne_nil_of_right_ne_nil _ (List.cons_ne_nil _ _)
  rw [chars, toLean, String.toList_intercalate, List.map_append, List.map_append]
  exact (intercalate_lines _ hne).trans (by rw [unlines_append, List.append_assoc]; rfl)

variable {e} (h : e.Legible)

include h

/-- The first literal is read where the datum is written as one. -/
theorem Legible.datumBody_flat (hflat : e.body.length ≤ threshold) :
    datumBody e.chars e.name.toList = .ok ('\n' :: (literalText e.body).toList) := by
  have hbracket : ']' ∉ (literalText e.body).toList := notMem_literalText (by decide) (by decide)
  have hentries : unlines (e.datumEntries.map String.toList) ++ e.tables =
      unlines ([e.doc].map String.toList) ++ ((defHead e.name).toList ++ ('[' ::
        (('\n' :: (literalText e.body).toList) ++ '\n' :: ']' :: '\n' :: e.tables))) := by
    rw [datumEntries, if_pos hflat]
    simp [unlines]
  have hdoc : ∀ x ∈ [e.doc], Quiet x := List.forall_mem_singleton.mpr h.quiet_doc
  have hline : firstLine (defLine e.name.toList) e.chars = some ['['] := by
    rw [chars_eq, firstLine_defLine_quiet h.quiet_header, hentries,
      firstLine_defLine_quiet hdoc]
    exact firstLine_defHead (x := ['[']) h.head (by decide) (by decide)
  have hbehind : behind literalStart e.chars =
      some (('\n' :: (literalText e.body).toList) ++ '\n' :: ']' :: '\n' :: e.tables) := by
    rw [chars_eq, behind_unlines (by decide) (by decide), hentries,
      behind_unlines (by decide) (by decide), behind_literalStart h.name]
    · exact List.forall_mem_map.mpr fun x hx => (hdoc x hx).literal
    · exact List.forall_mem_map.mpr fun x hx => (h.quiet_header x hx).literal
  have hnone : (some ['[']).filter (fun line => "++".toList <:+: line) = none := by decide
  rw [datumBody, hline, hnone, hbehind]
  simp only
  rw [literal_append (List.not_mem_cons_of_ne_of_not_mem (by decide) hbracket)]

end Emission

section Names

variable {nm : String} {j k : ℕ}

theorem chunkName_toList (nm : String) (k : ℕ) :
    (chunkName nm k).toList = nm.toList ++ ("__c".toList ++ (toString k).toList) := by
  rw [chunkName, String.toList_append, String.toList_append, List.append_assoc]

theorem unindented_chunkName (hnm : Unindented nm.toList) (k : ℕ) :
    Unindented (chunkName nm k).toList := by
  rw [chunkName_toList]
  exact hnm.append _

theorem chunkName_getLast? (nm : String) (k : ℕ) :
    ∀ c ∈ (chunkName nm k).toList.getLast?, isSpace c = false := by
  rw [chunkName_toList, ← List.append_assoc, List.getLast?_append_of_ne_nil _ (toString_ne_nil k)]
  exact fun c hc => isSpace_toString (List.mem_of_getLast? hc)

theorem inner_chunkName (hnm : Inner nm) (k : ℕ) : Inner (chunkName nm k) :=
  hnm.insert (by decide) (inner_number k)

theorem toString_injective (h : (toString j).toList = (toString k).toList) : j = k := by
  have hnum := intOf_toString j
  rw [String.toList_injective h, intOf_toString] at hnum
  exact (Option.some.inj hnum).symm

/-- No chunk is taken for the datum. -/
theorem defLine_chunk (hnm : Unindented nm.toList) (k : ℕ) (rest : List Char) :
    defLine nm.toList ((defHead (chunkName nm k)).toList ++ rest) = none := by
  have hspace : ∀ c ∈ "__c".toList ++ (toString k).toList, isSpace c = false :=
    List.forall_mem_append.mpr ⟨by decide, fun c hc => isSpace_toString hc⟩
  have hcolon : ':' ∉ "__c".toList ++ (toString k).toList :=
    List.mem_append.not.mpr (not_or.mpr ⟨by decide, notMem_toString (by decide)⟩)
  have hnone : afterDef (nm.toList ++ []) ((defHead (chunkName nm k)).toList ++ rest) = none :=
    afterDef_eq_none (unindented_chunkName hnm k) (chunkName_toList nm k) hspace hcolon
      List.not_mem_nil (List.cons_ne_nil _ _).symm
  rw [List.append_nil] at hnone
  rw [defLine, hnone]
  rfl

/-- No chunk is taken for another one. -/
theorem defLiteral_chunk (hnm : Unindented nm.toList) (hne : j ≠ k) (rest : List Char) :
    defLiteral (chunkName nm j).toList ((defHead (chunkName nm k)).toList ++ rest) = none := by
  have hname : (chunkName nm k).toList = (nm.toList ++ "__c".toList) ++ (toString k).toList :=
    (chunkName_toList nm k).trans (List.append_assoc _ _ _).symm
  have hnone : afterDef ((nm.toList ++ "__c".toList) ++ (toString j).toList)
      ((defHead (chunkName nm k)).toList ++ rest) = none :=
    afterDef_eq_none (unindented_chunkName hnm k) hname (fun c hc => isSpace_toString hc)
      (notMem_toString (by decide)) (notMem_toString (by decide))
      fun h => hne (toString_injective h)
  rw [List.append_assoc, ← chunkName_toList] at hnone
  rw [defLiteral, hnone]
  rfl

end Names

/-- Names that have been joined by `++` between blanks come apart into them. -/
theorem pieces_joined {ns : List (List Char)} (hns : ∀ n ∈ ns, Unindented n ∧
      (∀ c ∈ n.getLast?, isSpace c = false) ∧ Free "++".toList n) (hne : ns ≠ []) :
    (pieces "++".toList (" ++ ".toList.intercalate ns)).map strip = ns := by
  have hfree {front n : List Char} (hfront : front = [] ∨ front = [' '])
      (hn : Free "++".toList n) : Free "++".toList (front ++ n) := by
    rcases hfront with rfl | rfl
    · exact hn
    · exact Free.split (x := []) (by decide) (by decide) hn
  have key (front : List Char) (hfront : front = [] ∨ front = [' ']) :
      (pieces "++".toList (front ++ " ++ ".toList.intercalate ns)).map strip = ns := by
    induction ns generalizing front with
    | nil => exact absurd rfl hne
    | cons n ns ih =>
      obtain ⟨⟨hhead, hlast, hn⟩, hns⟩ := List.forall_mem_cons.mp hns
      have hspace : ∀ c ∈ front, isSpace c := by rcases hfront with rfl | rfl <;> decide
      cases ns with
      | nil =>
        rw [List.intercalate_singleton, pieces_eq (by decide),
          splitFirst_eq_none (by decide) (hfree hfront hn)]
        simp only [List.map_cons, strip_append hspace hhead.head? hlast hhead.ne_nil, List.map_nil]
      | cons n' ns =>
        have htext : front ++ " ++ ".toList.intercalate (n :: n' :: ns) =
            (front ++ (n ++ [' '])) ++ ("++".toList ++
              ([' '] ++ " ++ ".toList.intercalate (n' :: ns))) := by
          rw [List.intercalate_cons_cons]
          simp
        have hcut : (front ++ (n ++ [' ']) ++ "++".toList).dropLast =
            front ++ n ++ ' ' :: ['+'] := by
          rw [List.dropLast_append_of_ne_nil (by decide)]
          simp
        have hsplit := splitFirst_append (p := "++".toList) (x := front ++ (n ++ [' ']))
          (by decide) (hcut ▸ Free.split (by decide) (hfree hfront hn) (by decide))
        rw [htext, pieces_eq (by decide), hsplit]
        simp only [List.map_cons]
        rw [strip_eq hspace (by decide) hhead.head? hlast hhead.ne_nil,
          ih hns (List.cons_ne_nil _ _) [' '] (.inr rfl)]
  exact key [] (.inl rfl)

section Chunk

variable {e : Emission} {m : List Char → Option (List Char)} {part : List String} {k : ℕ}

/-- The definition of a chunk is passed over where another definition is looked for. -/
theorem passes_chunkEntries (hnm : '\n' ∉ e.name.toList)
    (hm : ∀ cs, ¬ "def".toList <+: cs → m cs = none)
    (hdef : ∀ rest, m ((defHead (chunkName e.name k)).toList ++ rest) = none)
    (hpart : ∃ gs : Netlist, part = gs.map gateLine) :
    ∀ x ∈ e.chunkEntries k part, Passes m x.toList := by
  obtain ⟨gs, rfl⟩ := hpart
  have hnum : '\n' ∉ (toString k).toList := notMem_toString (by decide)
  have hfixed (x : String) (hline : '\n' ∉ x.toList) (hhead : ¬ "def".toList <+: x.toList) :
      Passes m x.toList :=
    passes_line hline fun rest => hm _ fun h => hhead (prefix_of_notMem (by decide) h)
  refine List.forall_mem_cons.mpr ⟨passes_line ?_ fun rest => ?_, List.forall_mem_cons.mpr
    ⟨passes_literalText hm, List.forall_mem_cons.mpr ⟨hfixed _ (by decide) (by decide),
      List.forall_mem_singleton.mpr (hfixed _ (by decide) (by decide))⟩⟩⟩
  · rw [String.toList_append, defHead_toList, chunkName_toList]
    simp only [List.mem_append, not_or]
    exact ⟨⟨by decide, ⟨hnm, by decide, hnum⟩, by decide⟩, by decide⟩
  · rw [String.toList_append, List.append_assoc]
    exact hdef _

/-- The parts of a datum are lines of gates. -/
theorem exists_gates_of_mem_parts (hpart : part ∈ e.parts) :
    ∃ gs : Netlist, part = gs.map gateLine := by
  rw [Emission.parts, Emission.body, chunks_map] at hpart
  obtain ⟨gs, -, rfl⟩ := List.mem_map.mp hpart
  exact ⟨gs, rfl⟩

end Chunk

namespace Emission

variable {e : Emission}

/-- The definitions of chunks. -/
def chunkDefs (e : Emission) (ps : List (List String × ℕ)) : List Char :=
  unlines ((ps.flatMap fun p => e.chunkEntries p.2 p.1).map String.toList)

theorem chunkDefs_append (ps qs : List (List String × ℕ)) :
    e.chunkDefs (ps ++ qs) = e.chunkDefs ps ++ e.chunkDefs qs := by
  rw [chunkDefs, List.flatMap_append, List.map_append, unlines_append]
  rfl

theorem firstLine_chunkDefs {m : List Char → Option (List Char)} (hnm : '\n' ∉ e.name.toList)
    (hm : ∀ cs, ¬ "def".toList <+: cs → m cs = none) {ps : List (List String × ℕ)}
    (hdef : ∀ p ∈ ps, ∀ rest, m ((defHead (chunkName e.name p.2)).toList ++ rest) = none)
    (hps : ∀ p ∈ ps, p.1 ∈ e.parts) (rest : List Char) :
    firstLine m (e.chunkDefs ps ++ rest) = firstLine m rest := by
  refine firstLine_unlines (List.forall_mem_map.mpr fun x hx => ?_) rest
  obtain ⟨p, hp, hx⟩ := List.mem_flatMap.mp hx
  exact passes_chunkEntries hnm hm (hdef p hp) (exists_gates_of_mem_parts (hps p hp)) x hx

/-- The file of a datum in chunks. -/
theorem chars_chunked (hlong : ¬ e.body.length ≤ threshold) : e.chars =
    unlines ((e.header ++ e.chunkRemark).map String.toList) ++ (e.chunkDefs e.parts.zipIdx ++
      (unlines ([e.doc].map String.toList) ++
        ((defHead e.name).toList ++ (e.joined.toList ++ '\n' :: e.tables)))) := by
  rw [chars_eq, datumEntries, if_neg hlong, chunkDefs]
  simp [unlines]

variable (h : e.Legible) (hlong : ¬ e.body.length ≤ threshold)

include h hlong

theorem Legible.chunkNames : ∀ n ∈ (List.range e.parts.length).map fun k =>
    (chunkName e.name k).toList, Unindented n ∧ (∀ c ∈ n.getLast?, isSpace c = false) ∧
      Free "++".toList n := by
  refine List.forall_mem_map.mpr fun k _ =>
    ⟨unindented_chunkName h.head k, chunkName_getLast? e.name k, ?_⟩
  have hjoins := h.joins (by rw [body, List.length_map] at hlong; omega)
  rw [chunkName_toList]
  have hnum : '+' ∉ (toString k).toList := notMem_toString (by decide)
  exact hjoins.insert (by decide) (free_of_notMem (a := '+') (by decide) hnum)

omit h in
/-- A long datum has more than one part. -/
theorem two_le_length_parts : 2 ≤ e.parts.length := by
  rw [parts, chunks, List.length_map, List.length_range]
  rw [threshold] at hlong
  rw [chunkSize]
  omega

omit h hlong in
theorem joined_toList : e.joined.toList = " ++ ".toList.intercalate
    ((List.range e.parts.length).map fun k => (chunkName e.name k).toList) := by
  rw [joined, String.toList_intercalate, List.map_map]
  rfl

/-- A chunk is read at its own definition. -/
theorem Legible.chunkBody_eq {l r : List (List String)} {part : List String}
    (hparts : e.parts = l ++ part :: r) :
    chunkBody e.chars (chunkName e.name l.length).toList =
      .ok (literalText part).toList := by
  have hpart : ∀ p ∈ e.parts.zipIdx, p.1 ∈ e.parts := fun p hp => List.fst_mem_of_mem_zipIdx hp
  have hquiet : ∀ x ∈ e.header ++ e.chunkRemark, Quiet x :=
    List.forall_mem_append.mpr ⟨h.quiet_header, h.quiet_chunkRemark⟩
  have hzip : e.parts.zipIdx = l.zipIdx ++ (part, l.length) :: r.zipIdx (l.length + 1) := by
    rw [hparts, List.zipIdx_append, List.zipIdx_cons, Nat.zero_add]
  -- the chunk that is looked for
  have hown : e.chunkDefs ((part, l.length) :: r.zipIdx (l.length + 1)) =
      (defHead (chunkName e.name l.length)).toList ++ ("[\n".toList ++
        ((literalText part).toList ++ '\n' :: ']' :: '\n' :: '\n' ::
          e.chunkDefs (r.zipIdx (l.length + 1)))) := by
    rw [chunkDefs, chunkDefs, List.flatMap_cons, chunkEntries]
    simp [unlines]
  -- the chunks in front of it
  have hfront (rest : List Char) :
      firstLine (defLiteral (chunkName e.name l.length).toList) (e.chunkDefs l.zipIdx ++ rest) =
        firstLine (defLiteral (chunkName e.name l.length).toList) rest := by
    refine firstLine_chunkDefs h.name.line
      (fun cs => defLiteral_eq_none) (fun p hp rest => ?_) (fun p hp => ?_) rest
    · have hlt := List.snd_lt_of_mem_zipIdx hp
      exact defLiteral_chunk h.head (by omega) rest
    · rw [hparts]
      exact List.mem_append_left _ (List.fst_mem_of_mem_zipIdx hp)
  have hbracket : ']' ∉ (literalText part).toList := by
    obtain ⟨gs, rfl⟩ := exists_gates_of_mem_parts
      (hparts ▸ List.mem_append_right _ List.mem_cons_self)
    exact notMem_literalText (by decide) (by decide)
  have hblock (rest : List Char) : firstLine (defLiteral (chunkName e.name l.length).toList)
      ((defHead (chunkName e.name l.length)).toList ++ ("[\n".toList ++ rest)) = some rest := by
    refine firstLine_eq_some ?_
    rw [defLiteral, afterDef_defHead (unindented_chunkName h.head _) (by rintro c ⟨⟩; decide)]
    simp only [bind, Option.bind, afterPrefix_append]
  rw [chunkBody, chars_chunked hlong, firstLine_defLiteral_quiet hquiet, hzip, chunkDefs_append,
    List.append_assoc, hfront, hown]
  simp only [List.append_assoc]
  rw [hblock]
  simp only [List.cons_append]
  rw [literal_append hbracket]

omit hlong in
theorem Legible.notMem_joined : '\n' ∉ e.joined.toList := by
  intro hc
  rw [joined_toList] at hc
  rcases mem_intercalate hc with hc | ⟨x, hx, hc⟩
  · exact absurd hc (by decide)
  · obtain ⟨k, -, rfl⟩ := List.mem_map.mp hx
    exact (inner_chunkName h.name k).line hc

/-- The definition of the datum is found behind those of the chunks. -/
theorem Legible.firstLine_joined :
    firstLine (defLine e.name.toList) e.chars = some e.joined.toList := by
  have hquiet : ∀ x ∈ e.header ++ e.chunkRemark, Quiet x :=
    List.forall_mem_append.mpr ⟨h.quiet_header, h.quiet_chunkRemark⟩
  have hhead : Unindented e.joined.toList := by
    have hfirst := unindented_chunkName h.head 0
    obtain ⟨n, hn⟩ := Nat.exists_eq_add_of_le' (two_le_length_parts hlong)
    rw [joined_toList, hn, List.range_succ_eq_map, List.map_cons, Unindented,
      head?_intercalate hfirst.ne_nil]
    exact hfirst
  rw [chars_chunked hlong, firstLine_defLine_quiet hquiet,
    firstLine_chunkDefs h.name.line (fun cs => defLine_eq_none)
      (fun p _ => defLine_chunk h.head p.2) (fun p hp => List.fst_mem_of_mem_zipIdx hp),
    firstLine_defLine_quiet (List.forall_mem_singleton.mpr h.quiet_doc)]
  exact firstLine_defHead h.head h.notMem_joined hhead

/-- Each chunk is read. -/
theorem Legible.forall₂_chunkBody {l r : List (List String)} (hparts : e.parts = l ++ r) :
    List.Forall₂ (fun n x => chunkBody e.chars n = .ok x)
      ((List.range' l.length r.length).map fun k => (chunkName e.name k).toList)
      (r.map fun part => (literalText part).toList) := by
  induction r generalizing l with
  | nil => exact .nil
  | cons part r ih =>
    refine .cons (h.chunkBody_eq hlong hparts) ?_
    have hih := ih (l := l ++ [part]) (by rw [hparts, List.append_assoc]; rfl)
    rwa [List.length_append] at hih

/-- The chunks are read in their order. -/
theorem Legible.datumBody_chunked :
    datumBody e.chars e.name.toList = .ok (literalText e.body).toList := by
  have hshows : "++".toList <:+: e.joined.toList := by
    obtain ⟨n, hn⟩ := Nat.exists_eq_add_of_le' (two_le_length_parts hlong)
    rw [joined_toList, hn, List.range_succ_eq_map, List.range_succ_eq_map]
    simp only [List.map_cons, List.intercalate_cons_cons]
    exact ⟨(chunkName e.name 0).toList ++ [' '], _, by
      simp only [List.append_assoc, List.singleton_append]
      rfl⟩
  have hpieces : (pieces "++".toList e.joined.toList).map strip =
      (List.range e.parts.length).map fun k => (chunkName e.name k).toList := by
    rw [joined_toList]
    refine pieces_joined (h.chunkNames hlong) fun hnil => ?_
    have htwo := two_le_length_parts hlong
    rw [List.map_eq_nil_iff, List.range_eq_nil] at hnil
    omega
  have hbodies : ((List.range e.parts.length).map fun k => (chunkName e.name k).toList).mapM
      (chunkBody e.chars) = .ok (e.parts.map fun part => (literalText part).toList) := by
    refine Fallible.mapM_of_forall₂ ?_
    rw [List.range_eq_range']
    exact h.forall₂_chunkBody hlong (l := []) rfl
  have hjoin : ",\n".toList.intercalate (e.parts.map fun part => (literalText part).toList) =
      (literalText e.body).toList := by
    have hmap : e.parts.map (fun part => (literalText part).toList) =
        (e.parts.map (List.map String.toList)).map ",\n".toList.intercalate := by
      rw [List.map_map]
      exact List.map_congr_left fun part _ => String.toList_intercalate
    rw [hmap, intercalate_map_intercalate, ← List.map_flatten, parts,
      flatten_chunks (by decide), literalText, String.toList_intercalate]
    exact List.forall_mem_map.mpr fun part hpart =>
      List.map_eq_nil_iff.not.mpr (chunks_ne_nil (by decide) _ part hpart)
  rw [datumBody, h.firstLine_joined hlong, Option.filter_some_pos (by simpa using hshows)]
  simp only [bind, Except.bind, hpieces, hbodies, hjoin]
  rfl

end Emission

/-! ### Outputs -/

section Outs

variable {e : Emission} {nm : String} {gs : Netlist}

theorem free_literalText (gs : Netlist) :
    Free outsStart (literalText (gs.map gateLine)).toList :=
  free_of_notMem (a := '_') (by decide) (notMem_literalText (by decide) (by decide))

/-- A definition of gates does not look like the outputs. -/
theorem free_defHead (hnm : Inner nm) {x : List Char} (hx : Free outsStart x) :
    Free outsStart ((defHead nm).toList ++ x) := by
  rw [defHead_toList, List.append_assoc, List.append_assoc]
  exact Free.const (by decide) (hnm.outs.insert (by decide) hx)

namespace Emission.Legible

variable (h : e.Legible)

include h

/-- The outputs do not show in front of their definition. -/
theorem free_datumEntries : ∀ x ∈ e.datumEntries, Free outsStart x.toList := by
  have hfixed : ∀ x ∈ ["[", "]", ""], Free outsStart x.toList := by decide
  have hdef {nm : String} (hnm : Inner nm) : Free outsStart (defHead nm ++ "[").toList := by
    rw [String.toList_append]
    exact free_defHead hnm (hfixed _ (by decide))
  have hbody : Free outsStart (literalText e.body).toList := free_literalText e.gates
  by_cases hflat : e.body.length ≤ threshold
  · rw [datumEntries, if_pos hflat]
    simp only [List.forall_mem_cons, List.not_mem_nil, false_imp_iff, implies_true, and_true]
    exact ⟨h.quiet_doc.outs, hdef h.name, hbody, hfixed _ (by decide)⟩
  · have hjoined : Free outsStart (defHead e.name ++ e.joined).toList := by
      rw [String.toList_append, joined_toList]
      exact free_defHead h.name (Free.intercalate (by decide) (by decide)
        (List.forall_mem_map.mpr fun k _ => (inner_chunkName h.name k).outs))
    rw [datumEntries, if_neg hflat]
    simp only [List.forall_mem_append, List.forall_mem_cons, List.not_mem_nil, false_imp_iff,
      implies_true, and_true]
    refine ⟨⟨fun x hx => (h.quiet_chunkRemark x hx).outs, fun x hx => ?_⟩, h.quiet_doc.outs,
      hjoined⟩
    obtain ⟨p, hp, hx⟩ := List.mem_flatMap.mp hx
    obtain ⟨gs, hgs⟩ := exists_gates_of_mem_parts (List.fst_mem_of_mem_zipIdx hp)
    rw [chunkEntries, hgs] at hx
    simp only [List.mem_cons, List.not_mem_nil, or_false] at hx
    rcases hx with rfl | rfl | rfl | rfl
    · exact hdef (inner_chunkName h.name p.2)
    · exact free_literalText gs
    · exact hfixed _ (by decide)
    · exact hfixed _ (by decide)

omit h in
/-- The outputs stand behind a remark. -/
theorem tableEntries_eq (e : Emission) : ∃ remark more : List String,
    (∀ x ∈ remark, Free outsStart x.toList) ∧ more ≠ [] ∧ e.tableEntries =
      remark ++ ["def " ++ e.name ++ "_outs : List Nat := " ++ numberList e.outs] ++ more := by
  refine ⟨["", "/-- Output net indices, in the CALLER'S `--outputs` order (then state,",
    "then cuts). NOT declaration order — this importer discards that. -/"], e.tableEntries.drop 4,
    by decide +kernel, ?_, rfl⟩
  rw [tableEntries, portEntries]
  simp

/-- The text behind the head of the outputs. -/
theorem behind_outsStart : ∃ rest, behind outsStart e.chars =
    some ((", ".intercalate (e.outs.map toString)).toList ++ ']' :: rest) := by
  obtain ⟨remark, more, hremark, hmore, htables⟩ := tableEntries_eq e
  have htext : e.tables = unlines (remark.map String.toList) ++ ("def ".toList ++ e.name.toList ++
      (outsStart ++ ((", ".intercalate (e.outs.map toString)).toList ++ ']' ::
        '\n' :: ['\n'].intercalate (more.map String.toList)))) := by
    have hstart : outsStart = "_outs : List Nat := ".toList ++ "[".toList := by decide
    have hend : "]".toList = [']'] := by decide
    rw [tables, htables, List.map_append, intercalate_lines _ (List.map_eq_nil_iff.not.mpr hmore),
      List.map_append, unlines_append, List.append_assoc, numberList, hstart]
    simp only [unlines, List.map_cons, List.map_nil, List.flatMap_cons, List.flatMap_nil,
      String.toList_append, hend, List.append_assoc, List.nil_append, List.cons_append]
  have hsplit := splitFirst_append (p := outsStart) (x := "def ".toList ++ e.name.toList)
    (by decide) (by
      rw [List.dropLast_append_of_ne_nil (by decide), List.append_assoc]
      exact Free.const (by decide)
        (h.name.outs.last (by decide) (by decide)))
  refine ⟨'\n' :: ['\n'].intercalate (more.map String.toList), ?_⟩
  rw [chars_eq, behind_unlines (by decide) (by decide), behind_unlines (by decide) (by decide),
    htext, behind_unlines (by decide) (by decide), behind, hsplit]
  · rfl
  · exact List.forall_mem_map.mpr hremark
  · exact List.forall_mem_map.mpr h.free_datumEntries
  · exact List.forall_mem_map.mpr fun x hx => (h.quiet_header x hx).outs

/-- The outputs are read back. -/
theorem readOuts_eq : readOuts e.chars = .ok e.outs := by
  obtain ⟨rest, hbehind⟩ := h.behind_outsStart
  let inside := ", ".toList.intercalate (e.outs.map fun n => (toString n).toList)
  have hinside : (", ".intercalate (e.outs.map toString)).toList = inside := by
    rw [String.toList_intercalate, List.map_map]
    rfl
  have hbracket : ']' ∉ inside := by
    intro hc
    rcases mem_intercalate hc with hc | ⟨x, hx, hc⟩
    · exact absurd hc (by decide)
    · obtain ⟨n, -, rfl⟩ := List.mem_map.mp hx
      exact notMem_toString (by decide) hc
  have htake : (inside ++ ']' :: rest).takeWhile (· ≠ ']') = inside := by
    rw [List.takeWhile_append_of_pos, List.takeWhile_cons_of_neg (by simp), List.append_nil]
    intro c hc
    exact decide_eq_true fun h => hbracket (h ▸ hc)
  rw [readOuts, hbehind, hinside]
  simp only [htake, List.mem_append, List.mem_cons, true_or, or_true, not_true_eq_false, if_false]
  by_cases hnil : e.outs = []
  · have hempty : inside = [] := by simp only [inside, hnil]; rfl
    rw [if_pos hempty, hnil]
  · have hne : inside ≠ [] := by
      obtain ⟨n, ns, hns⟩ := List.exists_cons_of_ne_nil hnil
      have hhead : inside.head? = (toString n).toList.head? := by
        simp only [inside, hns, List.map_cons]
        exact head?_intercalate (toString_ne_nil n)
      intro hempty
      rw [hempty] at hhead
      exact toString_ne_nil n (List.head?_eq_none_iff.mp hhead.symm)
    have hpieces : pieces ", ".toList inside = e.outs.map fun n => (toString n).toList := by
      refine pieces_intercalate (by decide) (List.map_eq_nil_iff.not.mpr hnil)
        (List.forall_mem_map.mpr fun n _ => ?_)
      rw [List.dropLast_append_of_ne_nil (by decide)]
      refine free_of_notMem (a := ' ') (by decide) (List.mem_append.not.mpr (not_or.mpr ?_))
      exact ⟨notMem_toString (by decide), by decide⟩
    rw [if_neg hne, hpieces]
    refine Fallible.mapM_of_forall₂ ?_
    rw [List.forall₂_map_left_iff, List.forall₂_same]
    exact fun n _ => readNumber_toString n

end Emission.Legible

end Outs

/-! ### The datum -/

theorem readDatum_chars (e : Emission) (nm : String) : (readDatum nm <| toLean e) = (do
    let gates ← readGates (← datumBody e.chars nm.toList)
    return ⟨gates, ← readOuts e.chars⟩) := rfl

/-- The gates and the outputs of a non-empty datum are read back from the file, whatever its size
and its tables are. -/
theorem readDatum_toLean (e : Emission) (h : e.Legible) (hgates : e.gates ≠ []) :
    (readDatum e.name <| toLean e) = .ok ⟨e.gates, e.outs⟩ := by
  have hbody : ∃ front, (∀ c ∈ front, isSpace c) ∧ datumBody e.chars e.name.toList =
      .ok (front ++ (literalText e.body).toList) := by
    by_cases hflat : e.body.length ≤ threshold
    · exact ⟨['\n'], by decide, h.datumBody_flat hflat⟩
    · exact ⟨[], nofun, h.datumBody_chunked hflat⟩
  obtain ⟨front, hfront, hbody⟩ := hbody
  have hread : readGates (front ++ (literalText e.body).toList) = .ok e.gates :=
    readGates_literalText hgates hfront
  rw [readDatum_chars, hbody]
  simp only [bind, Except.bind, hread, h.readOuts_eq]
  rfl

/-- The conjunction of two inputs. -/
def conjunction (name source : String) : Emission where
  notice := []
  source := source
  pinned := []
  ns := "SaltWorks.Silicon.Generated"
  name := name
  gates := [.inp 0, .inp 1, .and 0 1]
  ninputs := 2
  outs := [2]
  outNames := ["y"]
  omitted := []
  inNames := ["a", "b"]
  ndesignIn := none
  ndesignOut := none
  state := []
  clock := ("", false, 0)
  cuts := []

theorem readDatum_toLean_conjunction : (conjunction "cone" "cone.v").Legible ∧
    (readDatum "cone" <| toLean (conjunction "cone" "cone.v")) =
      .ok ⟨[.inp 0, .inp 1, .and 0 1], [2]⟩ := by
  have hlegible : (conjunction "cone" "cone.v").Legible :=
    { name := ⟨by decide, by decide, by decide⟩
      head := by decide
      joins := by decide
      notice := nofun
      source := ⟨by decide, by decide, by decide⟩
      ns := ⟨by decide, by decide, by decide⟩
      pinned := nofun }
  exact ⟨hlegible, readDatum_toLean _ hlegible (by decide)⟩

/-- A name in French quotes that shows the pattern of the outputs is read for them, and so is a file
name. -/
theorem not_readDatum_toLean :
    (readDatum "«_outs : List Nat := [7]»" <|
        toLean (conjunction "«_outs : List Nat := [7]»" "a.v")) =
      .ok ⟨[.inp 0, .inp 1, .and 0 1], [7]⟩ ∧
    (readDatum "cone" <| toLean (conjunction "cone" "_outs : List Nat := [7].v")) =
      .ok ⟨[.inp 0, .inp 1, .and 0 1], [7]⟩ := by
  rw [readDatum_chars, readDatum_chars, Emission.chars_eq, Emission.chars_eq]
  decide +kernel

end Saltworks.Importer
