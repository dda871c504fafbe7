import Mathlib
import RegionPlanner.Proofs.Tables
import RegionPlanner.Proofs.Text.Forms

/-!
# Loading a table

A table is loaded row by row. Loading fails at the first line that is not blank and has not the form of a row, and names
it; and a text behind another one is loaded as it is loaded alone, further down.
-/

namespace RegionPlanner

/-- How a table is read from a text: its rows each in a form, then all that was read gathered. -/
structure Loader (α β : Type) where
  separation : Separation
  form : RowForm
  read : Row → Except Fault α
  gather : List α → β

def regionLoader (separation : Separation) : Loader Region RegionTable :=
  ⟨separation, Region.form, RegionTable.readRow, RegionTable.ofList⟩

def cacheLoader : Loader CacheRow CacheTable := ⟨.tabs, CacheRow.form, CacheRow.ofRow, CacheTable.ofList⟩

def memoryLoader : Loader (UInt64 × MemoryCounters) MemoryProfile :=
  ⟨.blanks, MemoryProfile.form, MemoryProfile.readRow, MemoryProfile.ofList⟩

namespace Loader

variable {α β : Type} {loader : Loader α β}

/-- What is read from each row of a text. -/
def readAll (loader : Loader α β) (text : String) : Except Fault (List α) :=
  (rows loader.separation text).mapM loader.read

/-- A line that is not blank and has not the form of a row. -/
def Bad (loader : Loader α β) (line : List Char) : Prop :=
  ¬ IsBlankLine line ∧ loader.form.Malformed (fieldsOf loader.separation line)

/-- The place, counted from zero, of the first bad line. -/
def FirstBad (loader : Loader α β) (texts : List (List Char)) (place : Nat) : Prop :=
  (∃ line, texts[place]? = some line ∧ loader.Bad line) ∧ ∀ line ∈ texts.take place, ¬ loader.Bad line

theorem FirstBad.cons {line : List Char} {texts : List (List Char)} {place : Nat} (h : loader.FirstBad texts place)
    (hline : ¬ loader.Bad line) : loader.FirstBad (line :: texts) (place + 1) := by
  refine ⟨h.1, ?_⟩
  rw [List.take_succ_cons, List.forall_mem_cons]
  exact ⟨hline, h.2⟩

/-- What comes of lines, the first of them with this number: all that is read, or a fault at the first bad one. -/
def ReadsTo (loader : Loader α β) (texts : List (List Char)) (number : Nat) (result : Except Fault (List α)) : Prop :=
  ((∀ line ∈ texts, ¬ loader.Bad line) ∧ ∃ values, result = .ok values) ∨
    ∃ place reason, loader.FirstBad texts place ∧ result = .error (.row (place + number) reason)

theorem ReadsTo.cons {line : List Char} {texts : List (List Char)} {number : Nat} {result : Except Fault (List α)}
    (h : loader.ReadsTo texts (number + 1) result) (hline : ¬ loader.Bad line) (f : List α → List α) :
    loader.ReadsTo (line :: texts) number (f <$> result) := by
  rcases h with ⟨hgood, values, rfl⟩ | ⟨place, reason, hfirst, rfl⟩
  · exact .inl ⟨List.forall_mem_cons.mpr ⟨hline, hgood⟩, f values, rfl⟩
  · refine .inr ⟨place + 1, reason, hfirst.cons hline, ?_⟩
    rw [Nat.add_right_comm, Nat.add_assoc]
    rfl

theorem mapM_rowsFrom (h : Needs (¬ loader.form.Malformed ·) loader.read) (texts : List (List Char)) (number : Nat) :
    loader.ReadsTo texts number ((rowsFrom loader.separation number texts).mapM loader.read) := by
  induction texts generalizing number with
  | nil => exact .inl ⟨by simp, [], rfl⟩
  | cons line texts ih =>
    by_cases hblank : IsBlankLine line
    · have hnext := (ih (number + 1)).cons (fun hbad => hbad.1 hblank) id
      rwa [id_map, ← rowsFrom_blank hblank] at hnext
    · rw [rowsFrom_row hblank, List.mapM_cons]
      by_cases hform : loader.form.Malformed (fieldsOf loader.separation line)
      · obtain ⟨reason, hreason⟩ := h.refuses _ (not_not_intro hform)
        refine .inr ⟨0, reason, ⟨⟨line, rfl, hblank, hform⟩, by simp⟩, ?_⟩
        rw [hreason, Nat.zero_add]
        rfl
      · obtain ⟨value, hvalue⟩ := h.takes _ hform
        rw [hvalue, ok_bind]
        exact (ih (number + 1)).cons (fun hbad => hform hbad.2) (value :: ·)

theorem readAll_readsTo (h : Needs (¬ loader.form.Malformed ·) loader.read) (text : String) :
    loader.ReadsTo (text.toList.splitOn '\n') 1 (loader.readAll text) := by
  rw [readAll, rows_eq]
  exact mapM_rowsFrom h _ 1

theorem readAll_append (h : Needs (¬ loader.form.Malformed ·) loader.read) {first : String} {values : List α}
    (hfirst : loader.readAll first = .ok values) (second : String) : loader.readAll (first ++ "\n" ++ second) =
      (values ++ ·) <$> (loader.readAll second).mapError (·.movedDown (first.toList.count '\n' + 1)) := by
  unfold readAll at hfirst ⊢
  have hsecond : ((rows loader.separation second).map (·.movedDown (first.toList.count '\n' + 1))).mapM loader.read =
      ((rows loader.separation second).mapM loader.read).mapError (·.movedDown (first.toList.count '\n' + 1)) := by
    rw [List.mapM_map, ← mapM_mapError]
    exact mapM_congr fun row _ => h.movedDown _ row
  rw [rows_append, List.mapM_append, hfirst, ok_bind, hsecond]
  rfl

/-- How a text is loaded, and a text behind another one. -/
structure Loads (loader : Loader α β) (parse : String → Except Fault β) : Prop where
  fails_iff : ∀ text, (∃ fault, parse text = .error fault) ↔ ∃ line ∈ text.toList.splitOn '\n', loader.Bad line
  fails_first : ∀ text fault, parse text = .error fault →
    ∃ place reason, loader.FirstBad (text.toList.splitOn '\n') place ∧ fault = .row (place + 1) reason
  joined_fails : ∀ first second table fault, parse first = .ok table → parse second = .error fault →
    ∃ line reason, fault = .row line reason ∧
      parse (first ++ "\n" ++ second) = .error (.row (line + (first.toList.count '\n' + 1)) reason)
  joined_loads : ∀ first second table more, parse first = .ok table → parse second = .ok more →
    ∃ values later, loader.readAll first = .ok values ∧ loader.readAll second = .ok later ∧
      table = loader.gather values ∧ more = loader.gather later ∧
      parse (first ++ "\n" ++ second) = .ok (loader.gather (values ++ later))

theorem loads (h : Needs (¬ loader.form.Malformed ·) loader.read) :
    loader.Loads fun text => loader.gather <$> loader.readAll text where
  fails_iff text := by
    rcases readAll_readsTo h text with ⟨hgood, values, hvalues⟩ | ⟨place, reason, hfirst, hfault⟩
    · rw [hvalues]
      refine iff_of_false (fun ⟨fault, hfault⟩ => by cases hfault) fun ⟨line, hm, hbad⟩ => hgood line hm hbad
    · obtain ⟨⟨line, hline, hbad⟩, -⟩ := hfirst
      rw [hfault]
      exact iff_of_true ⟨_, rfl⟩ ⟨line, List.mem_of_getElem? hline, hbad⟩
  fails_first text fault hparse := by
    rcases readAll_readsTo h text with ⟨-, values, hvalues⟩ | ⟨place, reason, hfirst, hfault⟩
    · rw [hvalues] at hparse
      cases hparse
    · rw [hfault] at hparse
      cases hparse
      exact ⟨place, reason, hfirst, rfl⟩
  joined_fails first second table fault hfirst hsecond := by
    obtain ⟨values, hvalues, -⟩ := map_eq_ok.mp hfirst
    rcases readAll_readsTo h second with ⟨-, later, hlater⟩ | ⟨place, reason, -, hfault⟩
    · rw [hlater] at hsecond
      cases hsecond
    · rw [hfault] at hsecond
      cases hsecond
      refine ⟨place + 1, reason, rfl, ?_⟩
      rw [readAll_append h hvalues, hfault]
      rfl
  joined_loads first second table more hfirst hsecond := by
    obtain ⟨values, hvalues, rfl⟩ := map_eq_ok.mp hfirst
    obtain ⟨later, hlater, rfl⟩ := map_eq_ok.mp hsecond
    refine ⟨values, later, hvalues, hlater, rfl, rfl, ?_⟩
    rw [readAll_append h hvalues, hlater]
    rfl

/-! ### Lines in another order -/

/-- What is read from a row does not depend on where it stands. -/
theorem readAll_eq_ok (h : Needs (¬ loader.form.Malformed ·) loader.read) {text : String} {values : List α} :
    loader.readAll text = .ok values ↔
      List.Forall₂ (fun fields value => ∀ number, loader.read ⟨number, fields⟩ = .ok value)
        ((rows loader.separation text).map (·.fields)) values := by
  unfold readAll
  rw [mapM_eq_ok, List.forall₂_map_left_iff]
  constructor
  · intro hall
    refine hall.imp fun row value hvalue => ?_
    by_cases hform : loader.form.Malformed row.fields
    · obtain ⟨reason, hreason⟩ := h.refuses row.fields (not_not_intro hform)
      cases (hreason row.number).symm.trans hvalue
    · obtain ⟨found, hfound⟩ := h.takes row.fields hform
      cases (hfound row.number).symm.trans hvalue
      exact hfound
  · intro hall
    exact hall.imp fun row value hvalue => hvalue row.number

theorem readAll_perm (h : Needs (¬ loader.form.Malformed ·) loader.read) {text text' : String} {values : List α}
    (hlines : (lines text'.toList).Perm (lines text.toList)) (hread : loader.readAll text = .ok values) :
    ∃ values', loader.readAll text' = .ok values' ∧ values'.Perm values := by
  rw [readAll_eq_ok h] at hread
  obtain ⟨values', hvalues, hperm⟩ := List.perm_comp_forall₂ (fields_perm hlines) hread
  exact ⟨values', (readAll_eq_ok h).mpr hvalues, hperm⟩

end Loader

/-- Each of the three tables is loaded line by line. Of two texts with a line feed between them, the later entries replace
the earlier ones with the same id, and all rows of miss rates are kept, sorted by core count, the earlier first. -/
theorem tables_load :
    (∀ separation, (regionLoader separation).Loads (RegionTable.parse separation)) ∧
    cacheLoader.Loads CacheTable.parse ∧ memoryLoader.Loads MemoryProfile.parse ∧
    (∀ (regions later : List Region) (id : UInt64),
      (RegionTable.ofList (regions ++ later)).regions[id]? =
        (RegionTable.lastRegion? later id).or (RegionTable.ofList regions).regions[id]? ∧
      (RegionTable.ofList (regions ++ later)).callSites[id]? =
        (RegionTable.lastCallSite? later id).or (RegionTable.ofList regions).callSites[id]?) ∧
    (∀ (counters later : List (UInt64 × MemoryCounters)) (uid : UInt64),
      (MemoryProfile.ofList (counters ++ later))[uid]? =
        (MemoryProfile.lastCounters? later uid).or (MemoryProfile.ofList counters)[uid]?) ∧
    ∀ rows later : List CacheRow,
      (CacheTable.ofList (rows ++ later)).byCores.Perm (rows ++ later) ∧
      (CacheTable.ofList (rows ++ later)).byCores.Pairwise (·.cores ≤ ·.cores) ∧
      ∀ cores, (CacheTable.ofList (rows ++ later)).byCores.filter (·.cores = cores) =
        rows.filter (·.cores = cores) ++ later.filter (·.cores = cores) := by
  refine ⟨fun separation => Loader.loads RegionTable.needs_readRow, Loader.loads CacheRow.needs_ofRow,
    Loader.loads MemoryProfile.needs_readRow, fun regions later id => ?_, fun counters later uid => ?_,
    fun rows later => ⟨sorted_perm _ _, CacheTable.pairwise_ofList _, fun cores => ?_⟩⟩
  · have hall : RegionTable.ofList (regions ++ later) = later.foldl RegionTable.insert (RegionTable.ofList regions) :=
      List.foldl_append
    rw [hall]
    exact ⟨RegionTable.getElem?_regions _ later id, RegionTable.getElem?_callSites _ later id⟩
  · rw [MemoryProfile.getElem?_ofList, MemoryProfile.getElem?_ofList, MemoryProfile.lastCounters?_append]
  · rw [CacheTable.filter_ofList, List.filter_append]

theorem tables_load_second_bad :
    let first := "7 1 2 3 4\n\n"
    let second := "\n7 5 6 7 8\n8 1 x 3 4"
    MemoryProfile.parse first = .ok (.ofList [(7, ⟨1, 2, 3, 4⟩)]) ∧
    MemoryProfile.parse second = .error (.row 3 (.badNumber "writes" "x" .notADigit)) ∧
    MemoryProfile.parse (first ++ "\n" ++ second) = .error (.row 6 (.badNumber "writes" "x" .notADigit)) := by
  intro first second
  obtain ⟨hfirst, hsecond⟩ : MemoryProfile.parse first = .ok (.ofList [(7, ⟨1, 2, 3, 4⟩)]) ∧
      MemoryProfile.parse second = .error (.row 3 (.badNumber "writes" "x" .notADigit)) := ⟨by cbv, by cbv⟩
  obtain ⟨line, reason, hfault, hboth⟩ := tables_load.2.2.1.joined_fails first second _ _ hfirst hsecond
  have hfeeds : first.toList.count '\n' = 2 := by decide +kernel
  cases hfault
  rw [hfeeds] at hboth
  exact ⟨hfirst, hsecond, hboth⟩

end RegionPlanner
