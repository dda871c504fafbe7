import RegionPlanner.Proofs.Forest.Index
import RegionPlanner.Proofs.Forest.Sweep

/-!
# Which records become inner ones

If no uid occurs twice, a record's children are the records with the uids it lists. Classification that ends
without a fault has then made inner ones of exactly the ordinary records that can be reached from an init
record, and has left everything else as it was.
-/

namespace RegionPlanner

open Relation

/-! ### Children by place -/

/-- The record at one place lists the record at the other. -/
def ChildAt (records : List Record) (place child : Nat) : Prop :=
  ∃ parent record, records[place]? = some parent ∧ records[child]? = some record ∧ record.uid ∈ parent.children

/-- A place that can be reached from an init record. -/
def InRecursion (records : List Record) (place : Nat) : Prop :=
  ∃ init record, records[init]? = some record ∧ record.kind = .init ∧ ReflTransGen (ChildAt records) init place

open Classical in
/-- The record at a place as it is after classification. -/
noncomputable def classifiedAt (records : List Record) (place : Nat) (record : Record) : Record :=
  if InRecursion records place then record.toInner else record

/-- The records as they are after classification. -/
noncomputable def reclassified (records : List Record) : List Record := records.mapIdx (classifiedAt records)

variable {records : List Record} {place child : Nat} {record : Record}

theorem classifiedAt_uid : (classifiedAt records place record).uid = record.uid := by
  unfold classifiedAt
  split
  · exact record.toInner_uid
  · rfl

theorem classifiedAt_children : (classifiedAt records place record).children = record.children := by
  unfold classifiedAt
  split
  · exact record.toInner_children
  · rfl

theorem classifiedAt_target : (classifiedAt records place record).target = record.target := by
  unfold classifiedAt Record.toInner
  split
  · split <;> rfl
  · rfl

/-- Classification changes ordinary records only. -/
theorem classifiedAt_kind {kind : NodeKind} (hn : kind ≠ .normal) (hi : kind ≠ .inner) :
    (classifiedAt records place record).kind = kind ↔ record.kind = kind := by
  unfold classifiedAt
  split
  · unfold Record.toInner
    split
    · next hkind =>
      rw [hkind]
      exact ⟨fun h => absurd h.symm hi, fun h => absurd h.symm hn⟩
    · rfl
  · rfl

theorem reclassified_zipIdx :
    (reclassified records).zipIdx =
      records.zipIdx.map fun (record, place) => (classifiedAt records place record, place) := by
  apply List.ext_getElem?
  intro place
  rw [List.getElem?_zipIdx, reclassified, List.getElem?_mapIdx, List.getElem?_map, List.getElem?_zipIdx]
  cases records[place]? with
  | none => rfl
  | some record => simp

theorem placeOf_lt {uid : UInt64} (h : placeOf records uid = some place) : place < records.length := by
  obtain ⟨found, hfound, -⟩ := placeOf_found h
  exact (List.getElem?_eq_some_iff.mp hfound).1

theorem childAt_iff (hn : (records.map (·.uid)).Nodup) (hr : records[place]? = some record) :
    ChildAt records place child ↔ ∃ uid ∈ record.children, placeOf records uid = some child := by
  constructor
  · rintro ⟨parent, found, hparent, hfound, hmem⟩
    rw [hr] at hparent
    cases hparent
    exact ⟨found.uid, hmem, (placeOf_eq_some_iff hn).mpr ⟨found, hfound, rfl⟩⟩
  · rintro ⟨uid, hmem, hplace⟩
    obtain ⟨found, hfound, rfl⟩ := placeOf_found hplace
    exact ⟨record, found, hr, hfound, hmem⟩

theorem leadsTo_placeOf (hn : (records.map (·.uid)).Nodup) :
    LeadsTo (placeOf records) records = ChildAt records := by
  funext place child
  apply propext
  constructor
  · rintro ⟨record, hr, hmem⟩
    exact (childAt_iff hn hr).mpr hmem
  · intro hchild
    have ⟨parent, _, hparent, _, _⟩ := hchild
    exact ⟨parent, hparent, (childAt_iff hn hparent).mp hchild⟩

theorem fromInit_placeOf (hn : (records.map (·.uid)).Nodup) :
    FromInit (placeOf records) records = InRecursion records := by
  unfold FromInit InRecursion
  rw [leadsTo_placeOf hn]

theorem placeOf_indexes (records : List Record) : Indexes (placeOf records) records :=
  ⟨fun _ _ hp => placeOf_found hp, fun _ hm => placeOf_isSome hm rfl⟩

/-! ### The classified records -/

theorem classified_eq {out : List Record} (hn : (records.map (·.uid)).Nodup)
    (h : classified (placeOf records) records = .ok out) : out = reclassified records := by
  unfold classified at h
  cases hf : (classify (placeOf records) records).fault with
  | some fault => simp [hf] at h
  | none =>
    simp only [hf, Except.ok.injEq] at h
    subst h
    apply List.ext_getElem?
    intro place
    rw [reclassified, List.getElem?_mapIdx, Array.getElem?_toList,
      classify_records (placeOf_indexes records) hf place, fromInit_placeOf hn]
    rfl

theorem classified_ok (hn : (records.map (·.uid)).Nodup)
    (hc : ∀ record ∈ records, ∀ uid ∈ record.children, ∃ place, placeOf records uid = some place) :
    classified (placeOf records) records = .ok (reclassified records) := by
  cases hf : (classify (placeOf records) records).fault with
  | some fault =>
    obtain ⟨place, record, -, hr, uid, hmem, hnone, -⟩ := classify_fault (placeOf_indexes records) hf
    obtain ⟨child, hchild⟩ := hc record (List.mem_of_getElem? hr) uid hmem
    rw [hnone] at hchild
    cases hchild
  | none =>
    have hok : classified (placeOf records) records = .ok (classify (placeOf records) records).records.toList := by
      simp only [classified, hf]
    rw [hok, classified_eq hn hok]

end RegionPlanner
