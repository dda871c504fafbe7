import RegionPlanner.Cost.Cache
import RegionPlanner.Proofs.Success
import RegionPlanner.Proofs.Text.Lines
import RegionPlanner.Region.Table

/-!
# The forms of rows

A reader takes a row or refuses it, with its number, and it is the fields alone that decide: the row must have so many of
them, and some must be good texts for a number or a kind. Each of the three tables has such a form.
-/

namespace RegionPlanner

/-- The fields that a row must have at least, and the columns, counted from zero, that must be good. -/
structure RowForm where
  width : Nat
  columns : List (Nat × (List Char → Prop))

/-- Too few fields, or a column that is not good. -/
def RowForm.Malformed (form : RowForm) (fields : List (List Char)) : Prop :=
  fields.length < form.width ∨ ∃ column ∈ form.columns, ∃ text, fields[column.1]? = some text ∧ ¬ column.2 text

/-- A column that is there and good. -/
def HasColumn (fields : List (List Char)) (column : Nat × (List Char → Prop)) : Prop :=
  ∃ text, fields[column.1]? = some text ∧ column.2 text

theorem RowForm.not_malformed {form : RowForm} (h : ∀ column ∈ form.columns, column.1 < form.width)
    (fields : List (List Char)) : ¬ form.Malformed fields ↔
      form.width ≤ fields.length ∧ ∀ column ∈ form.columns, HasColumn fields column := by
  simp only [Malformed, not_or, not_exists, not_and, not_not, Nat.not_lt]
  refine and_congr_right fun hwidth => forall_congr' fun column => forall_congr' fun hm => ?_
  have hthere : column.1 < fields.length := lt_of_lt_of_le (h column hm) hwidth
  simp [HasColumn, List.getElem?_eq_getElem hthere]

def IsReadable {α : Type} (read : List Char → Except NumeralFault α) (text : List Char) : Prop :=
  ∃ value, read text = .ok value

def IsKind (text : List Char) : Prop := (RegionKind.ofText? (String.ofList text)).isSome

/-- Id, kind, file, function, first and last line. -/
def Region.form : RowForm where
  width := 6
  columns := [(0, IsReadable Numeral.readWord), (1, IsKind), (4, IsReadable Numeral.readHalfWord),
    (5, IsReadable Numeral.readHalfWord)]

/-- Core count and four rates. -/
def CacheRow.form : RowForm where
  width := 5
  columns := (0, IsReadable Numeral.readHalfWord) :: [1, 2, 3, 4].map (·, IsReadable Numeral.readDouble)

/-- Uid and four counters. -/
def MemoryProfile.form : RowForm where
  width := 5
  columns := [0, 1, 2, 3, 4].map (·, IsReadable Numeral.readWord)

/-! ### Steps that need something of a row -/

theorem Row.field_found {number index : Nat} {name : String} {fields : List (List Char)} {text : List Char}
    (h : fields[index]? = some text) : field ⟨number, fields⟩ index name = .ok text := by
  simp only [field, h]

theorem Row.field_missing {number index : Nat} {name : String} {fields : List (List Char)}
    (h : fields[index]? = none) : field ⟨number, fields⟩ index name = .error (.row number (.missingField name)) := by
  simp only [field, h]

/-- A fault so many lines further down in a text. -/
def Fault.movedDown (distance : Nat) : Fault → Fault
  | .row line reason => .row (line + distance) reason
  | fault => fault

/-- A step that gives the same for every row with the same good fields, and refuses the others for the same reason. -/
structure Needs {α : Type} (good : List (List Char) → Prop) (step : Row → Except Fault α) : Prop where
  takes : ∀ fields, good fields → ∃ value, ∀ number, step ⟨number, fields⟩ = .ok value
  refuses : ∀ fields, ¬ good fields → ∃ reason, ∀ number, step ⟨number, fields⟩ = .error (.row number reason)

namespace Needs

variable {α β : Type} {good more : List (List Char) → Prop} {step : Row → Except Fault α}

theorem congr (h : Needs good step) (hsame : ∀ fields, good fields ↔ more fields) : Needs more step where
  takes fields hgood := h.takes fields ((hsame fields).mpr hgood)
  refuses fields hgood := h.refuses fields (mt (hsame fields).mp hgood)

theorem value (a : α) : Needs (fun _ => True) fun _ => .ok a where
  takes _ _ := ⟨a, fun _ => rfl⟩
  refuses _ h := absurd trivial h

theorem bind {next : α → Row → Except Fault β} (h : Needs good step) (hnext : ∀ a, Needs more (next a)) :
    Needs (fun fields => good fields ∧ more fields) fun row => step row >>= fun a => next a row where
  takes fields hall := by
    obtain ⟨a, ha⟩ := h.takes fields hall.1
    obtain ⟨b, hb⟩ := (hnext a).takes fields hall.2
    exact ⟨b, fun number => by rw [ha, ok_bind, hb]⟩
  refuses fields hall := by
    by_cases hgood : good fields
    · obtain ⟨a, ha⟩ := h.takes fields hgood
      obtain ⟨reason, hreason⟩ := (hnext a).refuses fields fun hmore => hall ⟨hgood, hmore⟩
      exact ⟨reason, fun number => by rw [ha, ok_bind, hreason]⟩
    · obtain ⟨reason, hreason⟩ := h.refuses fields hgood
      exact ⟨reason, fun number => by rw [hreason]; rfl⟩

theorem map {f : α → β} (h : Needs good step) : Needs good fun row => f <$> step row where
  takes fields hgood := by
    obtain ⟨a, ha⟩ := h.takes fields hgood
    exact ⟨f a, fun number => by rw [ha]; rfl⟩
  refuses fields hgood := by
    obtain ⟨reason, hreason⟩ := h.refuses fields hgood
    exact ⟨reason, fun number => by rw [hreason]; rfl⟩

theorem expect (count : Nat) : Needs (count ≤ ·.length) (·.expect count) where
  takes fields hgood := ⟨(), fun number => by simp [Row.expect, hgood]⟩
  refuses fields hgood := ⟨.tooFewFields count fields.length, fun number => if_pos (Nat.lt_of_not_le hgood)⟩

theorem field (index : Nat) (name : String) : Needs (index < ·.length) (·.field index name) where
  takes fields hgood := ⟨fields[index], fun number => Row.field_found (List.getElem?_eq_getElem hgood)⟩
  refuses fields hgood :=
    ⟨.missingField name, fun number => Row.field_missing (List.getElem?_eq_none (Nat.le_of_not_lt hgood))⟩

theorem number {read : List Char → Except NumeralFault α} (index : Nat) (name : String) :
    Needs (HasColumn · (index, IsReadable read)) fun row => Row.number? read row index name where
  takes fields hgood := by
    obtain ⟨text, htext, a, ha⟩ := hgood
    exact ⟨a, fun number => by rw [Row.number?, Row.field_found htext, ok_bind, ha]⟩
  refuses fields hgood := by
    cases htext : fields[index]? with
    | none => exact ⟨.missingField name, fun number => by rw [Row.number?, Row.field_missing htext]; rfl⟩
    | some text =>
      cases hread : read text with
      | ok a => exact absurd ⟨text, htext, a, hread⟩ hgood
      | error cause =>
        exact ⟨.badNumber name (String.ofList text) cause, fun number => by
          rw [Row.number?, Row.field_found htext, ok_bind, hread]⟩

theorem word (index : Nat) (name : String) : Needs (HasColumn · (index, IsReadable Numeral.readWord)) (·.word index name) :=
  number index name

theorem halfWord (index : Nat) (name : String) :
    Needs (HasColumn · (index, IsReadable Numeral.readHalfWord)) (·.halfWord index name) :=
  number index name

theorem double (index : Nat) (name : String) :
    Needs (HasColumn · (index, IsReadable Numeral.readDouble)) (·.double index name) :=
  number index name

/-- The same row further down gives the same, or the same fault further down. -/
theorem movedDown (h : Needs good step) (distance : Nat) (row : Row) :
    step (row.movedDown distance) = (step row).mapError (·.movedDown distance) := by
  obtain ⟨number, fields⟩ := row
  by_cases hgood : good fields
  · obtain ⟨a, ha⟩ := h.takes fields hgood
    rw [ha, Row.movedDown, ha]
    rfl
  · obtain ⟨reason, hreason⟩ := h.refuses fields hgood
    rw [hreason, Row.movedDown, hreason]
    rfl

end Needs

/-! ### The readers -/

/-- The kind of a row. -/
def RegionTable.kindOf (row : Row) : Except Fault RegionKind := do
  let text ← row.field 1 "kind"
  match RegionKind.ofText? (String.ofList text) with
  | none => .error (.row row.number (.unknownRegionKind (String.ofList text)))
  | some kind => .ok kind

theorem RegionTable.needs_kindOf : Needs (HasColumn · (1, IsKind)) kindOf where
  takes fields hgood := by
    obtain ⟨text, htext, hkind⟩ := hgood
    obtain ⟨kind, hkind⟩ := Option.isSome_iff_exists.mp hkind
    exact ⟨kind, fun number => by rw [kindOf, Row.field_found htext, ok_bind, hkind]⟩
  refuses fields hgood := by
    cases htext : fields[1]? with
    | none => exact ⟨.missingField "kind", fun number => by rw [kindOf, Row.field_missing htext]; rfl⟩
    | some text =>
      have hkind : RegionKind.ofText? (String.ofList text) = none := by
        rw [← Option.not_isSome_iff_eq_none]
        exact fun hsome => hgood ⟨text, htext, hsome⟩
      exact ⟨.unknownRegionKind (String.ofList text), fun number => by
        rw [kindOf, Row.field_found htext, ok_bind, hkind]⟩

theorem RegionTable.readRow_eq (row : Row) : readRow row = (do
    row.expect 6
    let kind ← kindOf row
    let id ← row.word 0 "id"
    let file ← row.field 2 "module"
    let function ← row.field 3 "function"
    let firstLine ← row.halfWord 4 "start_line"
    let lastLine ← row.halfWord 5 "end_line"
    return ⟨id, kind, String.ofList file, String.ofList function, firstLine, lastLine⟩) := by
  unfold readRow kindOf
  simp only [bind_assoc]
  refine bind_congr fun _ => bind_congr fun text => ?_
  cases RegionKind.ofText? (String.ofList text) <;> rfl

theorem RegionTable.needs_readRow : Needs (¬ Region.form.Malformed ·) readRow := by
  have hsteps := (Needs.expect 6).bind fun _ => needs_kindOf.bind fun kind => (Needs.word 0 "id").bind fun id =>
    (Needs.field 2 "module").bind fun file => (Needs.field 3 "function").bind fun function =>
    (Needs.halfWord 4 "start_line").bind fun firstLine => (Needs.halfWord 5 "end_line").bind fun lastLine =>
    Needs.value (⟨id, kind, String.ofList file, String.ofList function, firstLine, lastLine⟩ : Region)
  rw [funext readRow_eq]
  refine hsteps.congr fun fields => ?_
  rw [RowForm.not_malformed (by simp [Region.form])]
  simp only [Region.form, List.forall_mem_cons, List.not_mem_nil, false_imp_iff, implies_true, and_true]
  constructor
  · rintro ⟨hwidth, hkind, hid, -, -, hfirst, hlast⟩
    exact ⟨hwidth, hid, hkind, hfirst, hlast⟩
  · rintro ⟨hwidth, hid, hkind, hfirst, hlast⟩
    exact ⟨hwidth, hkind, hid, by omega, by omega, hfirst, hlast⟩

theorem CacheRow.needs_percent (index : Nat) (name : String) :
    Needs (HasColumn · (index, IsReadable Numeral.readDouble)) (percent · index name) :=
  (Needs.double index name).map

theorem CacheRow.needs_ofRow : Needs (¬ CacheRow.form.Malformed ·) ofRow := by
  have hsteps := (Needs.expect 5).bind fun _ => (Needs.halfWord 0 "core_count").bind fun cores =>
    (needs_percent 1 "l1_read_miss").bind fun read1 => (needs_percent 2 "l1_write_miss").bind fun write1 =>
    (needs_percent 3 "l2_read_miss").bind fun read2 => (needs_percent 4 "l2_write_miss").bind fun write2 =>
    Needs.value (⟨cores, ⟨read1, write1⟩, ⟨read2, write2⟩⟩ : CacheRow)
  refine hsteps.congr fun fields => ?_
  rw [RowForm.not_malformed (by simp [CacheRow.form])]
  simp [CacheRow.form]

theorem MemoryProfile.needs_readRow : Needs (¬ MemoryProfile.form.Malformed ·) readRow := by
  have hsteps := (Needs.expect 5).bind fun _ => (Needs.word 0 "uid").bind fun uid => (Needs.word 1 "reads").bind fun reads =>
    (Needs.word 2 "writes").bind fun writes => (Needs.word 3 "loads").bind fun loads =>
    (Needs.word 4 "stores").bind fun stores => Needs.value (uid, (⟨reads, writes, loads, stores⟩ : MemoryCounters))
  refine hsteps.congr fun fields => ?_
  rw [RowForm.not_malformed (by simp [MemoryProfile.form])]
  simp [MemoryProfile.form]

end RegionPlanner
