import RegionPlanner.Proofs.Text.Lines

/-!
# The fields of a written line

A line written with a tab between two columns has those columns as its fields, if none of them holds a tab or has a blank
at either end. A line written with spaces between its columns has them as its fields, if none of them is empty or holds a
blank.
-/

namespace RegionPlanner

/-! ### Tabs -/

/-- No blank at either end. -/
def HasBareEnds (text : List Char) : Prop := (∀ c ∈ text.head?, ¬ isBlank c) ∧ ∀ c ∈ text.getLast?, ¬ isBlank c

instance (text : List Char) : Decidable (HasBareEnds text) :=
  decidable_of_iff (text.head?.all (!isBlank ·) ∧ text.getLast?.all (!isBlank ·)) (by simp [HasBareEnds, Option.all_eq_true])

theorem hasBareEnds_of_forall {text : List Char} (h : ∀ c ∈ text, ¬ isBlank c) : HasBareEnds text :=
  ⟨fun c hc => h c (List.mem_of_mem_head? hc), fun c hc => h c (List.mem_of_mem_getLast? hc)⟩

theorem trim_eq_self {text : List Char} (h : HasBareEnds text) : trim text = text := by
  have hfront : text.dropWhile isBlank = text := by
    cases text with
    | nil => rfl
    | cons c text => exact List.dropWhile_cons_of_neg (h.1 c rfl)
  rw [trim_eq, hfront, List.rdropWhile_eq_self_iff]
  intro hne
  exact h.2 _ (List.getLast?_eq_some_getLast hne)

/-- The columns of a line with a tab between two of them. -/
def tabbed (columns : List (List Char)) : List Char := ['\t'].intercalate columns

theorem tabbed_cons_cons (first second : List Char) (columns : List (List Char)) :
    tabbed (first :: second :: columns) = first ++ '\t' :: tabbed (second :: columns) := by
  rw [tabbed, List.intercalate_cons_cons, List.append_assoc]
  rfl

theorem mem_tabbed {columns : List (List Char)} {c : Char} (hc : c ∈ tabbed columns) :
    c = '\t' ∨ ∃ column ∈ columns, c ∈ column := by
  induction columns with
  | nil => cases hc
  | cons first columns ih =>
    cases columns with
    | nil => exact .inr ⟨first, by simp, by simpa [tabbed] using hc⟩
    | cons second columns =>
      rw [tabbed_cons_cons, List.mem_append, List.mem_cons] at hc
      rcases hc with hc | hc | hc
      · exact .inr ⟨first, by simp, hc⟩
      · exact .inl hc
      · exact (ih hc).imp_right fun ⟨column, hm, hc⟩ => ⟨column, List.mem_cons_of_mem _ hm, hc⟩

theorem fieldsOf_tabbed {separation : Separation} {columns : List (List Char)} (hs : separation ≠ .blanks)
    (hmany : 2 ≤ columns.length) (hcolumns : ∀ column ∈ columns, '\t' ∉ column ∧ HasBareEnds column) :
    fieldsOf separation (tabbed columns) = columns := by
  have hcut : (cutAtTabs (tabbed columns)).map trim = columns := by
    rw [cutAtTabs_eq_splitOn, tabbed, List.splitOn_intercalate _ (fun column hm => (hcolumns column hm).1)
      (List.ne_nil_of_length_pos (by omega))]
    calc columns.map trim = columns.map id :=
          List.map_congr_left fun column hm => trim_eq_self (hcolumns column hm).2
      _ = columns := List.map_id _
  have htab : (tabbed columns).contains '\t' = true := by
    match columns, hmany with
    | first :: second :: columns, _ =>
      rw [tabbed_cons_cons]
      simp
  cases separation with
  | tabs => exact hcut
  | blanks => exact absurd rfl hs
  | auto => simpa only [fieldsOf, htab, if_true] using hcut

/-! ### Spaces -/

def IsSpaces (text : List Char) : Prop := ∀ c ∈ text, c = ' '

instance (text : List Char) : Decidable (IsSpaces text) := decidable_of_iff (text.all (· = ' ')) (by simp [IsSpaces])

/-- The columns in their order, at least one space between two of them, and spaces before the first and after the last. -/
inductive Spaced : List (List Char) → List Char → Prop
  | last {before column after : List Char} : IsSpaces before → IsSpaces after → Spaced [column] (before ++ column ++ after)
  | cons {before column : List Char} {columns : List (List Char)} {line : List Char} :
    IsSpaces before → Spaced columns line → Spaced (column :: columns) (before ++ column ++ ' ' :: line)

section Words

variable {current column before : List Char}

theorem wordsFrom_column (h : ∀ c ∈ column, ¬ isBlank c) (rest : List Char) :
    wordsFrom current (column ++ rest) = wordsFrom (column.reverse ++ current) rest := by
  induction column generalizing current with
  | nil => rfl
  | cons c column ih =>
    rw [List.forall_mem_cons] at h
    rw [List.cons_append, wordsFrom, if_neg h.1, ih h.2, List.reverse_cons, List.append_assoc, List.singleton_append]

theorem wordsFrom_spaces (h : IsSpaces before) (rest : List Char) :
    wordsFrom [] (before ++ rest) = wordsFrom [] rest := by
  induction before with
  | nil => rfl
  | cons c before ih =>
    rw [IsSpaces, List.forall_mem_cons] at h
    have hc : isBlank c := h.1 ▸ by decide
    rw [List.cons_append, wordsFrom, if_pos hc]
    exact ih h.2

theorem wordsFrom_space (hne : current ≠ []) (rest : List Char) :
    wordsFrom current (' ' :: rest) = current.reverse :: wordsFrom [] rest := by
  rw [wordsFrom, if_pos (by decide), if_neg (by simpa using hne)]

theorem words_spaced {columns : List (List Char)} {line : List Char} (h : Spaced columns line)
    (hcolumns : ∀ column ∈ columns, column ≠ [] ∧ ∀ c ∈ column, ¬ isBlank c) : words line = columns := by
  unfold words
  induction h with
  | @last before column after hbefore hafter =>
    obtain ⟨hne, hplain⟩ := hcolumns column (by simp)
    rw [List.append_assoc, wordsFrom_spaces hbefore, wordsFrom_column hplain, List.append_nil]
    cases after with
    | nil => simp [wordsFrom, hne]
    | cons c after =>
      rw [IsSpaces, List.forall_mem_cons] at hafter
      rw [hafter.1, wordsFrom_space (by simpa using hne), List.reverse_reverse, ← List.append_nil after,
        wordsFrom_spaces hafter.2]
      rfl
  | @cons before column columns line hbefore _ ih =>
    rw [List.forall_mem_cons] at hcolumns
    obtain ⟨⟨hne, hplain⟩, hrest⟩ := hcolumns
    rw [List.append_assoc, wordsFrom_spaces hbefore, wordsFrom_column hplain, List.append_nil,
      wordsFrom_space (by simpa using hne), List.reverse_reverse, ih hrest]

end Words

theorem mem_spaced {columns : List (List Char)} {line : List Char} (h : Spaced columns line) {c : Char} (hc : c ∈ line) :
    c = ' ' ∨ ∃ column ∈ columns, c ∈ column := by
  induction h with
  | last hbefore hafter =>
    simp only [List.mem_append] at hc
    rcases hc with (hc | hc) | hc
    · exact .inl (hbefore c hc)
    · exact .inr ⟨_, List.mem_cons_self, hc⟩
    · exact .inl (hafter c hc)
  | cons hbefore _ ih =>
    simp only [List.mem_append, List.mem_cons] at hc
    rcases hc with (hc | hc) | hc | hc
    · exact .inl (hbefore c hc)
    · exact .inr ⟨_, List.mem_cons_self, hc⟩
    · exact .inl hc
    · exact (ih hc).imp_right fun ⟨column, hm, hc⟩ => ⟨column, List.mem_cons_of_mem _ hm, hc⟩

theorem mem_spaced_of_mem {column : List Char} {columns : List (List Char)} {line : List Char}
    (h : Spaced (column :: columns) line) {c : Char} (hc : c ∈ column) : c ∈ line := by
  cases h <;> simp [hc]

theorem fieldsOf_spaced {separation : Separation} {columns : List (List Char)} {line : List Char}
    (hs : separation ≠ .tabs) (h : Spaced columns line)
    (hcolumns : ∀ column ∈ columns, column ≠ [] ∧ ∀ c ∈ column, ¬ isBlank c) : fieldsOf separation line = columns := by
  have hwords := words_spaced h hcolumns
  have htab : line.contains '\t' = false := by
    rw [List.contains_eq_mem, decide_eq_false_iff_not]
    intro hc
    rcases mem_spaced h hc with hc | ⟨column, hm, hc⟩
    · exact absurd hc (by decide)
    · exact (hcolumns column hm).2 _ hc (by decide)
  cases separation with
  | tabs => exact absurd rfl hs
  | blanks => exact hwords
  | auto => simpa only [fieldsOf, htab, Bool.false_eq_true, if_false] using hwords

end RegionPlanner
