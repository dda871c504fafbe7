import Mathlib.Data.List.DropRight
import Mathlib.Data.List.TakeWhile
import RegionPlanner.Text.Row

/-!
# The lines of a text

The rows of a text are those of its parts between line feeds: it does not matter whether a line ends in a carriage
return, nor whether the text ends in a line feed. So the rows of two texts with a line feed between them are those of the
first and then those of the second, further on.
-/

namespace RegionPlanner

/-- A line without a character that is not blank. -/
def IsBlankLine (line : List Char) : Prop := ∀ c ∈ line, isBlank c

instance (line : List Char) : Decidable (IsBlankLine line) := decidable_of_iff (line.all isBlank) List.all_eq_true

section Blank

variable {line current : List Char} {b : Char}

theorem trim_eq (line : List Char) : trim line = (line.dropWhile isBlank).rdropWhile isBlank := rfl

theorem trim_eq_nil : trim line = [] ↔ IsBlankLine line := by
  rw [trim_eq, List.rdropWhile_eq_nil_iff]
  constructor
  · intro h
    refine List.dropWhile_eq_nil_iff.mp ?_
    by_contra hne
    have hhead := List.head_dropWhile_not isBlank hne
    rw [h _ (List.head_mem hne)] at hhead
    cases hhead
  · intro h
    rw [List.dropWhile_eq_nil_iff.mpr h]
    simp

theorem trim_append_blank (hb : isBlank b) : trim (line ++ [b]) = trim line := by
  rw [trim_eq, trim_eq, List.dropWhile_append]
  split
  · rename_i h
    rw [List.isEmpty_iff.mp h]
    simp [hb]
  · rw [List.rdropWhile_concat_pos _ _ _ hb]

theorem wordsFrom_append_blank (hb : isBlank b) : wordsFrom current (line ++ [b]) = wordsFrom current line := by
  induction line generalizing current with
  | nil =>
    simp only [List.nil_append, wordsFrom, hb, if_true]
    rfl
  | cons c line ih => simp only [List.cons_append, wordsFrom, ih]

end Blank

/-! ### Cutting at a character -/

theorem splitOn_append_cons {sep : Char} (xs ys : List Char) :
    (xs ++ sep :: ys).splitOn sep = xs.splitOn sep ++ ys.splitOn sep :=
  List.splitOnP_append_cons xs ys (beq_self_eq_true sep)

theorem splitOn_append_cons_of_not_mem {sep : Char} {xs : List Char} (h : sep ∉ xs) (ys : List Char) :
    (xs ++ sep :: ys).splitOn sep = xs :: ys.splitOn sep := by
  rw [splitOn_append_cons, List.splitOn_eq_singleton h, List.singleton_append]

theorem splitOn_cons_self {sep : Char} (xs : List Char) : (sep :: xs).splitOn sep = [] :: xs.splitOn sep :=
  splitOn_append_cons_of_not_mem List.not_mem_nil xs

theorem splitOn_cons_ne {sep c : Char} (hc : c ≠ sep) (xs : List Char) :
    (c :: xs).splitOn sep = (xs.splitOn sep).modifyHead (c :: ·) := by
  rw [List.splitOn, List.splitOnP_cons_eq_if_modifyHead, if_neg (by simpa using hc)]
  rfl

theorem length_splitOn (sep : Char) (xs : List Char) : (xs.splitOn sep).length = xs.count sep + 1 := by
  induction xs with
  | nil => simp
  | cons c xs ih =>
    by_cases hc : c = sep
    · rw [hc, splitOn_cons_self, List.length_cons, List.count_cons_self, ih]
    · rw [splitOn_cons_ne hc, List.length_modifyHead, List.count_cons_of_ne hc, ih]

theorem cutAtTabs_eq_splitOn (line : List Char) : cutAtTabs line = line.splitOn '\t' := by
  induction line with
  | nil => rfl
  | cons c line ih =>
    by_cases hc : c = '\t'
    · rw [hc, splitOn_cons_self, ← ih]
      rfl
    · rw [splitOn_cons_ne hc, ← ih]
      simp only [cutAtTabs, hc, if_false]
      cases hcut : cutAtTabs line with
      | nil =>
        rw [ih] at hcut
        exact absurd hcut (List.splitOn_ne_nil _ _)
      | cons field fields => rfl

/-- What stands behind the last cut stays in the last part. -/
theorem exists_splitOn_append_singleton {sep b : Char} (hb : b ≠ sep) (xs : List Char) :
    ∃ parts last, xs.splitOn sep = parts ++ [last] ∧ (xs ++ [b]).splitOn sep = parts ++ [last ++ [b]] := by
  induction xs with
  | nil => exact ⟨[], [], by simp, by simp [splitOn_cons_ne hb]⟩
  | cons c xs ih =>
    obtain ⟨parts, last, hxs, hall⟩ := ih
    by_cases hc : c = sep
    · refine ⟨[] :: parts, last, ?_, ?_⟩
      · rw [hc, splitOn_cons_self, hxs, List.cons_append]
      · rw [hc, List.cons_append, splitOn_cons_self, hall, List.cons_append]
    · rw [List.cons_append, splitOn_cons_ne hc, splitOn_cons_ne hc, hxs, hall]
      cases parts with
      | nil => exact ⟨[], c :: last, rfl, rfl⟩
      | cons part parts => exact ⟨(c :: part) :: parts, last, rfl, rfl⟩

/-! ### The end of a line -/

theorem fieldsOf_append_return (separation : Separation) (line : List Char) :
    fieldsOf separation (line ++ ['\r']) = fieldsOf separation line := by
  have hwords : words (line ++ ['\r']) = words line := wordsFrom_append_blank (by decide)
  have hfields : (cutAtTabs (line ++ ['\r'])).map trim = (cutAtTabs line).map trim := by
    obtain ⟨parts, last, hline, hall⟩ := exists_splitOn_append_singleton (show '\r' ≠ '\t' by decide) line
    rw [cutAtTabs_eq_splitOn, cutAtTabs_eq_splitOn, hline, hall, List.map_append, List.map_append, List.map_singleton,
      List.map_singleton, trim_append_blank (by decide)]
  have htab : (line ++ ['\r']).contains '\t' = line.contains '\t' := by simp
  simp only [fieldsOf, hwords, hfields, htab]

variable {separation : Separation} {number : Nat}

theorem rowsFrom_return (line : List Char) (rest : List (List Char)) :
    rowsFrom separation number ((line ++ ['\r']) :: rest) = rowsFrom separation number (line :: rest) := by
  simp only [rowsFrom, trim_append_blank (show isBlank '\r' by decide), fieldsOf_append_return]

theorem rowsFrom_blank {line : List Char} (h : IsBlankLine line) (rest : List (List Char)) :
    rowsFrom separation number (line :: rest) = rowsFrom separation (number + 1) rest := by
  simp [rowsFrom, trim_eq_nil.mpr h]

theorem rowsFrom_row {line : List Char} (h : ¬ IsBlankLine line) (rest : List (List Char)) :
    rowsFrom separation number (line :: rest) =
      ⟨number, fieldsOf separation line⟩ :: rowsFrom separation (number + 1) rest := by
  simp [rowsFrom, mt trim_eq_nil.mp h]

theorem rowsFrom_withoutReturn (current : List Char) (rest : List (List Char)) :
    rowsFrom separation number ((linesFrom.withoutReturn current).reverse :: rest) =
      rowsFrom separation number (current.reverse :: rest) := by
  unfold linesFrom.withoutReturn
  split
  · rw [List.reverse_cons, rowsFrom_return]
  · rfl

/-! ### Rows -/

theorem rowsFrom_linesFrom {current : List Char} (hcurrent : '\n' ∉ current) (text : List Char) :
    rowsFrom separation number (linesFrom current text) =
      rowsFrom separation number ((current.reverse ++ text).splitOn '\n') := by
  induction text generalizing current number with
  | nil =>
    rw [List.append_nil, List.splitOn_eq_singleton (by simpa using hcurrent), linesFrom]
    cases current with
    | nil => rfl
    | cons c current => rfl
  | cons c text ih =>
    by_cases hc : c = '\n'
    · rw [hc, splitOn_append_cons_of_not_mem (by simpa using hcurrent), linesFrom, if_pos rfl, rowsFrom_withoutReturn]
      have hrest := fun number => @ih number [] (by simp)
      simp only [rowsFrom, hrest, List.reverse_nil, List.nil_append]
    · rw [linesFrom, if_neg hc, ih (by simp [hcurrent, Ne.symm hc]), List.reverse_cons, List.append_assoc,
        List.singleton_append]

theorem rows_eq (separation : Separation) (text : String) :
    rows separation text = rowsFrom separation 1 (text.toList.splitOn '\n') :=
  rowsFrom_linesFrom (by simp) text.toList

/-- A row so many lines further down. -/
def Row.movedDown (distance : Nat) (row : Row) : Row := { row with number := row.number + distance }

theorem rowsFrom_add (distance : Nat) (texts : List (List Char)) :
    rowsFrom separation (number + distance) texts = (rowsFrom separation number texts).map (·.movedDown distance) := by
  induction texts generalizing number with
  | nil => rfl
  | cons line texts ih =>
    have hnext := @ih (number + 1)
    rw [Nat.add_right_comm] at hnext
    by_cases h : IsBlankLine line
    · rw [rowsFrom_blank h, rowsFrom_blank h, hnext]
    · rw [rowsFrom_row h, rowsFrom_row h, hnext, List.map_cons]
      rfl

theorem rowsFrom_append (first second : List (List Char)) :
    rowsFrom separation number (first ++ second) =
      rowsFrom separation number first ++ rowsFrom separation (number + first.length) second := by
  induction first generalizing number with
  | nil => rfl
  | cons line first ih =>
    rw [List.cons_append, List.length_cons, Nat.add_comm first.length 1, ← Nat.add_assoc]
    by_cases h : IsBlankLine line
    · rw [rowsFrom_blank h, rowsFrom_blank h, ih]
    · rw [rowsFrom_row h, rowsFrom_row h, ih, List.cons_append]

theorem rows_append (separation : Separation) (first second : String) :
    rows separation (first ++ "\n" ++ second) =
      rows separation first ++ (rows separation second).map (·.movedDown (first.toList.count '\n' + 1)) := by
  have htext : (first ++ "\n" ++ second).toList = first.toList ++ '\n' :: second.toList := by
    simp [String.toList_append]
  rw [rows_eq, rows_eq, rows_eq, htext, splitOn_append_cons, rowsFrom_append, length_splitOn, rowsFrom_add]

/-- The rows of lines have the fields of those that are not blank. -/
theorem fields_rowsFrom (texts : List (List Char)) :
    (rowsFrom separation number texts).map (·.fields) =
      (texts.filter fun line => ¬ IsBlankLine line).map (fieldsOf separation) := by
  induction texts generalizing number with
  | nil => rfl
  | cons line texts ih =>
    by_cases h : IsBlankLine line
    · rw [rowsFrom_blank h, ih, List.filter_cons_of_neg (by simpa using h)]
    · rw [rowsFrom_row h, List.map_cons, ih, List.filter_cons_of_pos (by simpa using h), List.map_cons]

/-- The same lines in another order make the same rows in another order, but for their numbers. -/
theorem fields_perm {text text' : String} (h : (lines text'.toList).Perm (lines text.toList)) :
    ((rows separation text').map (·.fields)).Perm ((rows separation text).map (·.fields)) := by
  unfold rows
  rw [fields_rowsFrom, fields_rowsFrom]
  exact (h.filter _).map _

end RegionPlanner
