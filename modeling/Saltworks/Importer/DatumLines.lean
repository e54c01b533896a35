import Saltworks.Importer.DatumReader

/-!
# Lines of the emitted file

The header and the remarks show nothing of what the reader looks for, when the names that stand in
them do not.

## Main definitions

* `Quiet`: the lines that the reader passes over.
* `Emission.Legible`: the names do not interfere with what the reader looks for.

## Main results

* `passes_quiet`: no definition is found in such a line.
* `Emission.Legible.quiet_header`, `Emission.Legible.quiet_doc`,
  `Emission.Legible.quiet_chunkRemark`: the header, the docstring and the remarks are such lines.
-/

namespace Saltworks.Importer

open Silicon Text

/-! ### Lines -/

/-- A text within a line that the reader does not look for. -/
structure Inner (x : String) : Prop where
  line : '\n' ∉ x.toList
  literal : Free literalStart x.toList
  outs : Free outsStart x.toList

/-- A text that can stand between others within a line. -/
structure Seam (c : String) : Prop where
  line : '\n' ∉ c.toList
  literal : Glue literalStart c.toList
  outs : Glue outsStart c.toList

/-- A line that the reader passes over. -/
structure Quiet (x : String) : Prop extends Inner x where
  head : ¬ "def".toList <+: x.toList

instance (c : String) : Decidable (Seam c) :=
  decidable_of_iff ('\n' ∉ c.toList ∧ Glue literalStart c.toList ∧ Glue outsStart c.toList)
    ⟨fun h => ⟨h.1, h.2.1, h.2.2⟩, fun h => ⟨h.line, h.literal, h.outs⟩⟩

instance (x : String) : Decidable (Quiet x) :=
  decidable_of_iff ('\n' ∉ x.toList ∧ Free literalStart x.toList ∧ Free outsStart x.toList ∧
    ¬ "def".toList <+: x.toList)
    ⟨fun h => ⟨⟨h.1, h.2.1, h.2.2.1⟩, h.2.2.2⟩, fun h => ⟨h.line, h.literal, h.outs, h.head⟩⟩

section Lines

variable {v c z x : String}

theorem Seam.append (hc : Seam c) (hz : Inner z) : Inner (c ++ z) where
  line := by
    rw [String.toList_append, List.mem_append, not_or]
    exact ⟨hc.line, hz.line⟩
  literal := by
    rw [String.toList_append]
    exact Free.const hc.literal hz.literal
  outs := by
    rw [String.toList_append]
    exact Free.const hc.outs hz.outs

theorem Inner.insert (hv : Inner v) (hc : Seam c) (hz : Inner z) : Inner (v ++ c ++ z) where
  line := by
    rw [String.toList_append, String.toList_append, List.mem_append, List.mem_append, not_or,
      not_or]
    exact ⟨⟨hv.line, hc.line⟩, hz.line⟩
  literal := by
    rw [String.toList_append, String.toList_append, List.append_assoc]
    exact hv.literal.insert hc.literal hz.literal
  outs := by
    rw [String.toList_append, String.toList_append, List.append_assoc]
    exact hv.outs.insert hc.outs hz.outs

theorem inner_empty : Inner "" where
  line := by decide
  literal := free_nil (by decide)
  outs := free_nil (by decide)

theorem Inner.last (hv : Inner v) (hc : Seam c) : Inner (v ++ c) := by
  simpa using hv.insert hc inner_empty

theorem inner_word (hv : ∀ c ∈ v.toList, isSpace c = false) : Inner v := by
  have hblank : ' ' ∉ v.toList := notMem_of_isSpace hv (by decide)
  exact ⟨notMem_of_isSpace hv (by decide), free_of_notMem (a := ' ') (by decide) hblank,
    free_of_notMem (a := ' ') (by decide) hblank⟩

theorem inner_number (n : ℕ) : Inner (toString n) :=
  inner_word fun _ hc => isSpace_toString hc

/-- The text begins, and not with the first letter of a definition. -/
def Starts (x : String) : Prop := ∃ c ∈ x.toList.head?, c ≠ 'd'

instance (x : String) : Decidable (Starts x) :=
  decidable_of_iff (x.toList.head?.any (· ≠ 'd')) (by
    rw [Starts, Option.any_eq_true]
    simp only [decide_eq_true_eq, Option.mem_def])

theorem Starts.append (h : Starts c) (z : String) : Starts (c ++ z) := by
  obtain ⟨a, ha, hne⟩ := h
  refine ⟨a, ?_, hne⟩
  rw [String.toList_append, Option.mem_def, List.head?_append, Option.mem_def.mp ha, Option.some_or]

theorem Inner.quiet (h : Inner x) (hstart : Starts x) : Quiet x where
  toInner := h
  head := by
    rintro ⟨rest, hrest⟩
    obtain ⟨a, ha, hne⟩ := hstart
    rw [← hrest] at ha
    exact hne (Option.some.inj ha).symm

theorem exists_digit {d : Char} (hd : d.isDigit) : d ∈ "0123456789".toList := by
  rw [Char.isDigit, Bool.and_eq_true, decide_eq_true_eq, decide_eq_true_eq] at hd
  have hdigits : ∀ n < 10, Char.ofNat (0x30 + n) ∈ "0123456789".toList := by decide
  have hge : 0x30 ≤ d.toNat := UInt32.le_iff_toNat_le.mp hd.1
  have hle : d.toNat ≤ 0x39 := UInt32.le_iff_toNat_le.mp hd.2
  have hmem := hdigits (d.toNat - 0x30) (by omega)
  rwa [Nat.add_sub_cancel' hge, Char.ofNat_toNat] at hmem

/-- The first digit of a number, which may stand behind a colon, and the others. -/
theorem exists_first_digit (n : ℕ) : ∃ c v, toString n = c ++ v ∧ Starts c ∧ Seam (": " ++ c) ∧
    Inner v := by
  obtain ⟨d, ds, hds⟩ := List.exists_cons_of_ne_nil (toString_ne_nil n)
  have hdigit : ∀ c ∈ (toString n).toList, c.isDigit := fun c hc => toString_isDigit hc
  rw [hds] at hdigit
  obtain ⟨hd, hdigits⟩ := List.forall_mem_cons.mp hdigit
  have hall : ∀ d ∈ "0123456789".toList,
      Starts (String.ofList [d]) ∧ Seam (": " ++ String.ofList [d]) := by decide
  obtain ⟨hstart, hseam⟩ := hall d (exists_digit hd)
  refine ⟨String.ofList [d], String.ofList ds, ?_, hstart, hseam, inner_word fun c hc => ?_⟩
  · rw [← String.ofList_append, List.singleton_append, ← hds, String.ofList_toList]
  · rw [String.toList_ofList] at hc
    exact isSpace_isAlphanum (by rw [Char.isAlphanum, hdigits c hc, Bool.or_true])

/-- A definition is looked for at the beginning of a line only. -/
theorem passes_quiet (hx : Quiet x) (nm : List Char) :
    Passes (defLine nm) x.toList ∧ Passes (defLiteral nm) x.toList := by
  have hnone (rest : List Char) : afterDef nm (x.toList ++ '\n' :: rest) = none :=
    afterDef_of_not_prefix fun h => hx.head (prefix_of_notMem (by decide) h)
  constructor
  · refine passes_line hx.line fun rest => ?_
    rw [defLine, hnone]
    rfl
  · refine passes_line hx.line fun rest => ?_
    rw [defLiteral, hnone]
    rfl

end Lines

/-! ### Entries of the file -/

/-- The name of the datum does not begin with white space, and a datum in chunks does not read it as
joined. Neither the name nor the notice nor the file name of the netlist nor the namespace shows
what the reader looks for, and the pinned nets have no white space. -/
structure Emission.Legible (e : Emission) : Prop where
  name : Inner e.name
  head : Unindented e.name.toList
  joins : threshold < e.gates.length → Free "++".toList e.name.toList
  notice : ∀ x ∈ e.notice, Quiet x
  source : Inner e.source
  ns : Inner e.ns
  pinned : ∀ p ∈ e.pinned, ∀ c ∈ p.1.toList, isSpace c = false

namespace Emission.Legible

variable {e : Emission} (h : e.Legible)

include h

omit h in
theorem quiet_restriction {nm : Net} (hnm : Inner nm) (b : Bool) :
    Quiet ("-- ⚠ RESTRICTED DATUM — '" ++ nm ++ "' IS PINNED TO " ++ bit b ++ ".") ∧
    Quiet ("-- This models the design ONLY on traces where '" ++ nm ++ "' is held " ++ bit b) ∧
    Quiet ("-- restriction: their vendor `clear` field is unasserted at " ++ bit b ++ ", so") := by
  have hseam : ∀ c ∈ ["-- ⚠ RESTRICTED DATUM — '", "' IS PINNED TO ", ".",
      "-- This models the design ONLY on traces where '", "' is held ",
      "-- restriction: their vendor `clear` field is unasserted at ", ", so"], Seam c := by
    decide +kernel
  have hbit : Inner (bit b) := inner_number b.toNat
  refine ⟨?_, ?_, ?_⟩
  · exact ((((hseam _ (by decide)).append hnm).insert (hseam _ (by decide)) hbit).last
      (hseam _ (by decide))).quiet
        (((((by decide : Starts _).append _).append _).append _).append _)
  · exact (((hseam _ (by decide)).append hnm).insert (hseam _ (by decide)) hbit).quiet
      ((((by decide : Starts _).append _).append _).append _)
  · exact (((hseam _ (by decide)).append hbit).last (hseam _ (by decide))).quiet
      (((by decide : Starts _).append _).append _)

theorem quiet_header : ∀ x ∈ e.header, Quiet x := by
  have hfixed : ∀ x ∈ ["-- GENERATED by SaltWorks/Silicon/Importer/import_netlist.py",
      "-- DO NOT EDIT. The generator is UNTRUSTED; this datum is checked",
      "-- per-instance by the importer's round-trip census, and its cell",
      "-- expansions are proved against Liberty in SaltWorks.Silicon.Cells.Sky130.", "--",
      "-- THROUGHOUT. Asynchronously-resettable flops were imported under that",
      "-- the Liberty ff group reduces to dfxtp's field for field. It says NOTHING",
      "-- about the deassertion seam — the one cycle where the async path and the",
      "-- clock interact. A THEOREM PROVED ON THIS DATUM MUST NOT BE CITED AS",
      "-- COVERING RESET OR BRING-UP, and any certificate restating such a theorem",
      "-- must carry this restriction with it.",
      "-- docs/silicon-dfrtp-async-reset-prereg-0812.md",
      "import SaltWorks.Silicon.Equiv.BitSliced", ""], Quiet x := by decide +kernel
  have hsource : Quiet ("-- source: " ++ e.source) :=
    ((by decide : Seam "-- source: ").append h.source).quiet
      ((by decide : Starts _).append _)
  have hns : Quiet ("namespace " ++ e.ns) :=
    ((by decide : Seam "namespace ").append h.ns).quiet ((by decide : Starts _).append _)
  intro x hx
  rw [header, List.mem_append, List.mem_append, List.mem_append] at hx
  rcases hx with ((hx | hx) | hx) | hx
  · exact h.notice x hx
  · simp only [List.mem_cons, List.not_mem_nil, or_false] at hx
    rcases hx with rfl | rfl | rfl | rfl | rfl
    · exact hfixed _ (by decide)
    · exact hsource
    · exact hfixed _ (by decide)
    · exact hfixed _ (by decide)
    · exact hfixed _ (by decide)
  · obtain ⟨p, hp, hx⟩ := List.mem_flatMap.mp hx
    obtain ⟨hpin, htrace, hclear⟩ :=
      quiet_restriction (inner_word (h.pinned p (List.mem_mergeSort.mp hp))) p.2
    simp only [List.mem_cons, List.not_mem_nil, or_false] at hx
    rcases hx with rfl | rfl | rfl | rfl | rfl | rfl | rfl | rfl | rfl | rfl | rfl
    · exact hfixed _ (by decide)
    · exact hpin
    · exact htrace
    · exact hfixed _ (by decide)
    · exact hclear
    all_goals exact hfixed _ (by decide)
  · simp only [List.mem_cons, List.not_mem_nil, or_false] at hx
    rcases hx with rfl | rfl | rfl | rfl
    · exact hfixed _ (by decide)
    · exact hfixed _ (by decide)
    · exact hns
    · exact hfixed _ (by decide)

theorem quiet_doc : Quiet e.doc := by
  have hseam : ∀ c ∈ ["/-- ", " gates, ", " primary inputs. -/"], Seam c := by decide
  obtain ⟨c, v, hcv, -, hc, hv⟩ := exists_first_digit e.gates.length
  have hdoc : e.doc = "/-- " ++ e.name ++ (": " ++ c) ++ v ++ " gates, " ++
      toString e.ninputs ++ " primary inputs. -/" := by
    rw [doc, hcv]
    simp only [String.append_assoc]
  rw [hdoc]
  refine (((((hseam _ (by decide)).append h.name).insert hc hv).insert (hseam _ (by decide))
    (inner_number _)).last (hseam _ (by decide))).quiet ?_
  exact ((((((by decide : Starts _).append _).append _).append _).append _).append _).append _

theorem quiet_chunkRemark : ∀ x ∈ e.chunkRemark, Quiet x := by
  have hfixed : ∀ x ∈ ["", "`maxRecDepth` during elaboration (measured wall: 1,000 OK, 2,000 not).",
      "Chunking keeps every literal shallow and the `++` chain only", "-/"], Quiet x := by
    decide +kernel
  have hseam : ∀ c ∈ ["/-! ### ", " is emitted in ", " chunks of ≤ ", "A flat literal of ",
      " elements exceeds Lean's default",
      " deep, so this file needs NO `set_option` to elaborate."], Seam c := by decide
  intro x hx
  simp only [chunkRemark, List.mem_cons, List.not_mem_nil, or_false] at hx
  rcases hx with rfl | rfl | rfl | rfl | rfl | rfl | rfl | rfl
  · refine ((((hseam _ (by decide)).append h.name).insert (hseam _ (by decide))
      (inner_number _)).insert (hseam _ (by decide)) (inner_number _)).quiet ?_
    exact (((((by decide : Starts _).append _).append _).append _).append _).append _
  · exact hfixed _ (by decide)
  · exact (((hseam _ (by decide)).append (inner_number _)).last (hseam _ (by decide))).quiet
      (((by decide : Starts _).append _).append _)
  · exact hfixed _ (by decide)
  · exact hfixed _ (by decide)
  · have hnumber : Inner (toString e.parts.length ++
        " deep, so this file needs NO `set_option` to elaborate.") :=
      (inner_number _).last (hseam _ (by decide))
    obtain ⟨c, v, hcv, hstart, -⟩ := exists_first_digit e.parts.length
    rw [hcv] at hnumber ⊢
    exact hnumber.quiet ((hstart.append v).append _)
  · exact hfixed _ (by decide)
  · exact hfixed _ (by decide)

end Emission.Legible

end Saltworks.Importer
