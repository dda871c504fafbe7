import RegionPlanner.Proofs.Number.Whole
import RegionPlanner.Proofs.Tables
import RegionPlanner.Proofs.Text.Fields

/-!
# Region tables that are read back

A region is written on a line in either of two ways, with tabs or with spaces between its columns. A table of such lines,
blank lines anywhere among them, is read as the table of these regions.
-/

namespace RegionPlanner

/-! ### One region on a line -/

namespace Region

/-- The texts of a region, in the order of the fields of a row. -/
def columns (region : Region) : List (List Char) :=
  [(toString region.id).toList, region.kind.text.toList, region.file.toList, region.function.toList,
    (toString region.firstLine).toList, (toString region.lastLine).toList]

/-- A name that may stand between tabs: it has no blank at either end. -/
def IsName (name : String) : Prop := '\t' ∉ name.toList ∧ '\n' ∉ name.toList ∧ HasBareEnds name.toList

instance (name : String) : Decidable (IsName name) := inferInstanceAs (Decidable (_ ∧ _ ∧ _))

def IsWord (text : List Char) : Prop := text ≠ [] ∧ ∀ c ∈ text, ¬ isBlank c

instance (text : List Char) : Decidable (IsWord text) :=
  decidable_of_iff (text ≠ [] ∧ text.all (!isBlank ·)) (by simp [IsWord])

/-- The ways to write a region on a line that is to be separated so. -/
inductive Spells (separation : Separation) (region : Region) : List Char → Prop
  | tabs : separation ≠ .blanks → IsName region.file → IsName region.function →
    Spells separation region (tabbed region.columns)
  | spaces {line : List Char} : separation ≠ .tabs → IsWord region.file.toList → IsWord region.function.toList →
    Spaced region.columns line → Spells separation region line

variable {separation : Separation} {region : Region} {line column : List Char}

theorem isWord_toString (n : Nat) : IsWord (toString n).toList := by
  refine ⟨?_, fun c hc => not_isBlank_of_isDigit (Numeral.isDigit_of_mem_toString hc)⟩
  rw [Nat.toString_eq_repr, Nat.toList_repr]
  exact Nat.toDigits_ne_nil

theorem isWord_kind (kind : RegionKind) : IsWord kind.text.toList := by
  cases kind <;> decide

/-- All columns but the names are words. -/
theorem isWord_of_mem_columns (h : column ∈ region.columns) :
    column = region.file.toList ∨ column = region.function.toList ∨ IsWord column := by
  simp only [columns, List.mem_cons, List.not_mem_nil, or_false] at h
  rcases h with rfl | rfl | rfl | rfl | rfl | rfl
  · exact .inr (.inr (isWord_toString _))
  · exact .inr (.inr (isWord_kind _))
  · exact .inl rfl
  · exact .inr (.inl rfl)
  · exact .inr (.inr (isWord_toString _))
  · exact .inr (.inr (isWord_toString _))

theorem IsWord.not_mem {c : Char} (h : IsWord column) (hc : isBlank c) : c ∉ column := fun hm => h.2 c hm hc

theorem columns_of_names (hfile : IsName region.file) (hfunction : IsName region.function)
    (h : column ∈ region.columns) : '\t' ∉ column ∧ '\n' ∉ column ∧ HasBareEnds column := by
  rcases isWord_of_mem_columns h with rfl | rfl | hword
  · exact hfile
  · exact hfunction
  · exact ⟨hword.not_mem (by decide), hword.not_mem (by decide), hasBareEnds_of_forall hword.2⟩

theorem columns_of_words (hfile : IsWord region.file.toList) (hfunction : IsWord region.function.toList)
    (h : column ∈ region.columns) : IsWord column := by
  rcases isWord_of_mem_columns h with rfl | rfl | hword
  · exact hfile
  · exact hfunction
  · exact hword

theorem Spells.fieldsOf_eq (h : Spells separation region line) : fieldsOf separation line = region.columns := by
  cases h with
  | tabs hs hfile hfunction =>
    refine fieldsOf_tabbed hs (by simp [columns]) fun column hm => ?_
    obtain ⟨htab, -, hends⟩ := columns_of_names hfile hfunction hm
    exact ⟨htab, hends⟩
  | spaces hs hfile hfunction hline => exact fieldsOf_spaced hs hline fun column hm => columns_of_words hfile hfunction hm

theorem Spells.newline_not_mem (h : Spells separation region line) : '\n' ∉ line := by
  intro hc
  cases h with
  | tabs hs hfile hfunction =>
    rcases mem_tabbed hc with hc | ⟨column, hm, hc⟩
    · exact absurd hc (by decide)
    · exact (columns_of_names hfile hfunction hm).2.1 hc
  | spaces hs hfile hfunction hline =>
    rcases mem_spaced hline hc with hc | ⟨column, hm, hc⟩
    · exact absurd hc (by decide)
    · exact (columns_of_words hfile hfunction hm).not_mem (by decide) hc

theorem Spells.not_isBlankLine (h : Spells separation region line) : ¬ IsBlankLine line := by
  intro hblank
  obtain ⟨hne, hword⟩ := isWord_toString region.id.toNat
  obtain ⟨c, hc⟩ := List.exists_mem_of_ne_nil _ hne
  refine hword c hc (hblank c ?_)
  cases h with
  | tabs =>
    rw [columns, tabbed_cons_cons]
    exact List.mem_append_left _ hc
  | spaces _ _ _ hline => exact mem_spaced_of_mem hline hc

theorem readRow_columns (region : Region) (number : Nat) :
    RegionTable.readRow ⟨number, region.columns⟩ = .ok region := by
  simp [RegionTable.readRow, columns, Row.expect, Row.field, Row.word, Row.halfWord, Row.number?,
    RegionKind.ofText?_text, Numeral.readWord_toString, Numeral.readHalfWord_toString, ok_bind, pure, Except.pure]

end Region

/-! ### A table -/

namespace RegionTable

/-- The texts that hold these regions, one on each line that is not blank. A line ends in a line feed, with a carriage
return before it or without; a blank line may stand behind the last of them. -/
inductive Written (separation : Separation) : List Char → List Region → Prop
  | last {line : List Char} : IsBlankLine line → '\n' ∉ line → Written separation line []
  | blank {line text : List Char} {regions : List Region} : IsBlankLine line → '\n' ∉ line →
    Written separation text regions → Written separation (line ++ '\n' :: text) regions
  | row {line ending text : List Char} {region : Region} {regions : List Region} : region.Spells separation line →
    ending = [] ∨ ending = ['\r'] → Written separation text regions →
    Written separation (line ++ ending ++ '\n' :: text) (region :: regions)

/-- Regions with such names can be written with tabs, a line for each. -/
theorem Written.tabbed {separation : Separation} (hs : separation ≠ .blanks) {regions : List Region}
    (h : ∀ region ∈ regions, Region.IsName region.file ∧ Region.IsName region.function) :
    Written separation (regions.flatMap fun region => RegionPlanner.tabbed region.columns ++ ['\n']) regions := by
  induction regions with
  | nil => exact .last (by decide) (by decide)
  | cons region regions ih =>
    rw [List.forall_mem_cons] at h
    have hrow := Written.row (.tabs hs h.1.1 h.1.2) (.inl rfl) (ih h.2)
    rw [List.append_nil] at hrow
    rw [List.flatMap_cons, List.append_assoc]
    exact hrow

theorem Written.mapM_readRow {separation : Separation} {text : List Char} {regions : List Region}
    (h : Written separation text regions) (number : Nat) :
    (rowsFrom separation number (text.splitOn '\n')).mapM readRow = .ok regions := by
  induction h generalizing number with
  | last hblank hline =>
    rw [List.splitOn_eq_singleton hline, rowsFrom_blank hblank]
    rfl
  | blank hblank hline _ ih => rw [splitOn_append_cons_of_not_mem hline, rowsFrom_blank hblank, ih]
  | @row line ending text region regions hspells hending _ ih =>
    have hline : rowsFrom separation number ((line ++ ending ++ '\n' :: text).splitOn '\n') =
        rowsFrom separation number (line :: text.splitOn '\n') := by
      rcases hending with rfl | rfl
      · rw [List.append_nil, splitOn_append_cons_of_not_mem hspells.newline_not_mem]
      · rw [splitOn_append_cons_of_not_mem (by simpa using hspells.newline_not_mem), rowsFrom_return]
    rw [hline, rowsFrom_row hspells.not_isBlankLine, hspells.fieldsOf_eq, List.mapM_cons, region.readRow_columns, ih]
    rfl

/-- A table that was written is read back, and a look-up in it gives the last region or call site with an id. -/
theorem parse_written {separation : Separation} {text : List Char} {regions : List Region}
    (h : Written separation text regions) :
    parse separation (String.ofList text) = .ok (.ofList regions) ∧
    (∀ id, (ofList regions).region id = match lastRegion? regions id with
      | some found => .ok found
      | none => if id = 0 then .ok Region.root else .error (.unknownRegion id)) ∧
    ∀ id, (ofList regions).callSite id = match lastCallSite? regions id with
      | some found => .ok found
      | none => .error (.unknownCallSite id) := by
  refine ⟨?_, region_ofList regions, callSite_ofList regions⟩
  rw [parse, rows_eq, String.toList_ofList, h.mapM_readRow]
  rfl

theorem parse_written_both_forms :
    let text := "\n7\tloop\tmy module\tmain\t3\t9\r\n \t\n  7  callsite m f 10 12 \n"
    let regions : List Region := [⟨7, .loop, "my module", "main", 3, 9⟩, ⟨7, .callSite, "m", "f", 10, 12⟩]
    Written .auto text.toList regions ∧ parse .auto text = .ok (.ofList regions) ∧
    (ofList regions).region 7 = .ok ⟨7, .loop, "my module", "main", 3, 9⟩ ∧
    (ofList regions).region 0 = .ok Region.root ∧
    (ofList regions).region 8 = .error (.unknownRegion 8) ∧
    (ofList regions).callSite 7 = .ok ⟨7, .callSite, "m", "f", 10, 12⟩ := by
  intro text regions
  let loop := "7\tloop\tmy module\tmain\t3\t9".toList
  let site := [' ', ' '] ++ ['7'] ++ ' ' :: ([' '] ++ "callsite".toList ++ ' ' :: ([] ++ ['m'] ++ ' ' ::
    ([] ++ ['f'] ++ ' ' :: ([] ++ ['1', '0'] ++ ' ' :: ([] ++ ['1', '2'] ++ [' '])))))
  have htext : text.toList =
      [] ++ '\n' :: (loop ++ ['\r'] ++ '\n' :: ([' ', '\t'] ++ '\n' :: (site ++ [] ++ '\n' :: []))) := by
    decide +kernel
  have hloop : Region.Spells .auto ⟨7, .loop, "my module", "main", 3, 9⟩ loop :=
    .tabs (by decide) (by decide) (by decide)
  have hsite : Region.Spells .auto ⟨7, .callSite, "m", "f", 10, 12⟩ site := by
    refine .spaces (by decide) (by decide) (by decide) ?_
    refine .cons ?_ (.cons ?_ (.cons ?_ (.cons ?_ (.cons ?_ (.last ?_ ?_)))))
    all_goals decide
  have hwritten : Written .auto text.toList regions := by
    rw [htext]
    have hend : Written .auto [] [] := .last (by decide) (by decide)
    exact .blank (by decide) (by decide) (.row hloop (.inr rfl) (.blank (by decide) (by decide) (.row hsite (.inl rfl) hend)))
  obtain ⟨hparse, hregion, hcallSite⟩ := parse_written hwritten
  rw [String.ofList_toList] at hparse
  refine ⟨hwritten, hparse, ?_, ?_, ?_, ?_⟩
  · rw [hregion]
    rfl
  · rw [hregion]
    rfl
  · rw [hregion]
    rfl
  · rw [hcallSite]
    rfl

end RegionTable

end RegionPlanner
