import RegionPlanner.Forest.Build
import RegionPlanner.Proofs.Success

/-!
# Records by uid

The index of a list of records: it is made if and only if no uid occurs twice, and then gives the place of
the record with a uid.
-/

namespace RegionPlanner

/-- Where the first record with a uid stands. -/
def placeOf (records : List Record) : UidIndex := fun uid => records.findIdx? (·.uid == uid)

variable {records : List Record} {uid : UInt64} {place : Nat}

theorem placeOf_cons (record : Record) (records : List Record) (uid : UInt64) :
    placeOf (record :: records) uid = if record.uid = uid then some 0 else (placeOf records uid).map (· + 1) := by
  unfold placeOf
  rw [List.findIdx?_cons]
  by_cases h : record.uid = uid <;> simp [h]

theorem placeOf_found (h : placeOf records uid = some place) :
    ∃ record, records[place]? = some record ∧ record.uid = uid := by
  obtain ⟨hlt, huid, -⟩ := List.findIdx?_eq_some_iff_getElem.mp h
  exact ⟨records[place], List.getElem?_eq_getElem hlt, by simpa using huid⟩

theorem placeOf_eq_none_iff : placeOf records uid = none ↔ ∀ record ∈ records, record.uid ≠ uid := by
  unfold placeOf
  rw [List.findIdx?_eq_none_iff]
  simp

theorem placeOf_isSome {record : Record} (h : record ∈ records) (hu : record.uid = uid) :
    ∃ place, placeOf records uid = some place := by
  cases hp : placeOf records uid with
  | some place => exact ⟨place, rfl⟩
  | none => exact absurd hu (placeOf_eq_none_iff.mp hp record h)

theorem placeOf_eq_some_iff (hn : (records.map (·.uid)).Nodup) :
    placeOf records uid = some place ↔ ∃ record, records[place]? = some record ∧ record.uid = uid := by
  constructor
  · exact placeOf_found
  · rintro ⟨record, hrecord, rfl⟩
    obtain ⟨other, hother⟩ := placeOf_isSome (List.mem_of_getElem? hrecord) rfl
    obtain ⟨found, hfound, huid⟩ := placeOf_found hother
    have hlt : place < (records.map (·.uid)).length := by
      rw [List.length_map]
      exact (List.getElem?_eq_some_iff.mp hrecord).1
    have hsame : (records.map (·.uid))[place]? = (records.map (·.uid))[other]? := by
      rw [List.getElem?_map, List.getElem?_map, hrecord, hfound]
      simp [huid]
    rw [hother, (List.getElem?_inj hlt hn).mp hsame]

/-! ### Making the index -/

/-- One step of the index: a uid that is there already is a fault. -/
def indexStep (index : Std.TreeMap UInt64 Nat) : Record × Nat → Except Fault (Std.TreeMap UInt64 Nat)
  | (record, place) =>
    if index.contains record.uid then .error (.duplicateUid record.uid)
    else .ok (index.insert record.uid place)

theorem indexStep_ok {index out : Std.TreeMap UInt64 Nat} {record : Record} :
    indexStep index (record, place) = .ok out ↔ index[record.uid]? = none ∧ index.insert record.uid place = out := by
  have hc : index.contains record.uid = index[record.uid]?.isSome := Std.TreeMap.contains_eq_isSome_getElem?
  simp only [indexStep, hc]
  cases index[record.uid]? <;> simp

theorem getElem?_insert_uid {index : Std.TreeMap UInt64 Nat} {key : UInt64} :
    (index.insert key place)[uid]? = if key = uid then some place else index[uid]? := by
  rw [Std.TreeMap.getElem?_insert]
  simp only [Std.LawfulEqCmp.compare_eq_iff_eq]

theorem index_loop (first : Nat) (index out : Std.TreeMap UInt64 Nat)
    (h : (records.zipIdx first).foldlM indexStep index = .ok out) :
    (records.map (·.uid)).Nodup ∧ (∀ record ∈ records, index[record.uid]? = none) ∧
    ∀ uid, out[uid]? = match placeOf records uid with
      | some place => some (first + place)
      | none => index[uid]? := by
  induction records generalizing first index with
  | nil =>
    rw [List.zipIdx_nil, List.foldlM_nil, pure_eq_ok] at h
    subst h
    exact ⟨List.nodup_nil, by simp, fun uid => rfl⟩
  | cons record records ih =>
    rw [List.zipIdx_cons, List.foldlM_cons] at h
    obtain ⟨next, hstep, hrest⟩ := bind_eq_ok.mp h
    obtain ⟨hnew, rfl⟩ := indexStep_ok.mp hstep
    obtain ⟨hnodup, hfresh, hout⟩ := ih (first + 1) _ hrest
    have hother : ∀ other ∈ records, record.uid ≠ other.uid := by
      intro other ho hsame
      have hf := hfresh other ho
      rw [getElem?_insert_uid, if_pos hsame] at hf
      cases hf
    refine ⟨?_, ?_, ?_⟩
    · rw [List.map_cons, List.nodup_cons]
      refine ⟨?_, hnodup⟩
      intro hm
      obtain ⟨other, ho, hsame⟩ := List.mem_map.mp hm
      exact hother other ho hsame.symm
    · intro other ho
      rcases List.mem_cons.mp ho with rfl | ho
      · exact hnew
      · have hf := hfresh other ho
        rwa [getElem?_insert_uid, if_neg (hother other ho)] at hf
    · intro uid
      rw [hout uid, placeOf_cons]
      by_cases hu : record.uid = uid
      · have hnone : placeOf records uid = none := by
          rw [placeOf_eq_none_iff]
          intro other ho hsame
          exact hother other ho (hu.trans hsame.symm)
        rw [hnone, if_pos hu]
        simp only [getElem?_insert_uid, if_pos hu, Nat.add_zero]
      · rw [if_neg hu]
        cases hp : placeOf records uid with
        | none => simp only [getElem?_insert_uid, if_neg hu, Option.map_none]
        | some place =>
          simp only [Option.map_some, Option.some.injEq]
          omega

theorem index_loop_ok (first : Nat) (index : Std.TreeMap UInt64 Nat) (hn : (records.map (·.uid)).Nodup)
    (hfresh : ∀ record ∈ records, index[record.uid]? = none) :
    ∃ out, (records.zipIdx first).foldlM indexStep index = .ok out := by
  induction records generalizing first index with
  | nil => exact ⟨index, rfl⟩
  | cons record records ih =>
    rw [List.map_cons, List.nodup_cons] at hn
    obtain ⟨hnew, hn⟩ := hn
    have hnext : ∀ other ∈ records, (index.insert record.uid first)[other.uid]? = none := by
      intro other ho
      have hne : record.uid ≠ other.uid := fun hsame => hnew (List.mem_map.mpr ⟨other, ho, hsame.symm⟩)
      rw [getElem?_insert_uid, if_neg hne]
      exact hfresh other (List.mem_cons_of_mem _ ho)
    obtain ⟨out, hout⟩ := ih (first + 1) _ hn hnext
    refine ⟨out, ?_⟩
    rw [List.zipIdx_cons, List.foldlM_cons]
    exact bind_eq_ok.mpr ⟨_, indexStep_ok.mpr ⟨hfresh record List.mem_cons_self, rfl⟩, hout⟩

theorem indexRecords_eq (records : List Record) :
    indexRecords records = records.zipIdx.foldlM indexStep Std.TreeMap.empty := rfl

theorem indexRecords_found {places : Std.TreeMap UInt64 Nat} (h : indexRecords records = .ok places) :
    (records.map (·.uid)).Nodup ∧ (fun uid => places[uid]?) = placeOf records := by
  rw [indexRecords_eq] at h
  obtain ⟨hn, -, hplaces⟩ := index_loop 0 _ _ h
  refine ⟨hn, ?_⟩
  funext uid
  rw [hplaces uid]
  cases placeOf records uid <;> simp

theorem indexRecords_ok (hn : (records.map (·.uid)).Nodup) : ∃ places, indexRecords records = .ok places := by
  rw [indexRecords_eq]
  exact index_loop_ok 0 _ hn (by simp)

end RegionPlanner
