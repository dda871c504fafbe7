import Mathlib.Data.List.Nodup
import RegionPlanner.Proofs.Forest.Classification

/-!
# Parents

Linking goes through all references of records to their children. It succeeds if and only if every listed
uid belongs to a record and none is listed twice, and then every node has the place of the one record that
lists it as its parent.
-/

namespace RegionPlanner

/-- All uids that are listed as children, record by record. -/
def listed (records : List Record) : List UInt64 := records.flatMap (·.children)

/-- Where the record stands that lists the record at a place. -/
def parentAt (records : List Record) (place : Nat) : Option Nat :=
  records[place]?.bind fun record => records.findIdx? (·.children.contains record.uid)

variable {records : List Record} {index : UidIndex} {place above child : Nat} {record : Record}
  {refs : List (Nat × UInt64 × UInt64)} {nodes out : Array Node}

/-! ### References -/

theorem mem_references {uid childUid : UInt64} : (place, uid, childUid) ∈ references records ↔
    ∃ record, records[place]? = some record ∧ record.uid = uid ∧ childUid ∈ record.children := by
  unfold references
  rw [List.mem_flatMap]
  constructor
  · rintro ⟨⟨record, position⟩, hm, hchild⟩
    obtain ⟨found, hfound, heq⟩ := List.mem_map.mp hchild
    cases heq
    exact ⟨record, List.mem_zipIdx_iff_getElem?.mp hm, rfl, hfound⟩
  · rintro ⟨record, hr, rfl, hchild⟩
    exact ⟨(record, place), List.mem_zipIdx_iff_getElem?.mpr hr, List.mem_map.mpr ⟨childUid, hchild, rfl⟩⟩

theorem references_children (records : List Record) : (references records).map (·.2.2) = listed records := by
  have from_place : ∀ first, ((records.zipIdx first).flatMap fun entry =>
      entry.1.children.map fun child => (entry.2, entry.1.uid, child)).map (·.2.2) = listed records := by
    induction records with
    | nil => intro first; rfl
    | cons record records ih =>
      intro first
      rw [List.zipIdx_cons, List.flatMap_cons, List.map_append, ih (first + 1), List.map_map]
      unfold listed
      rw [List.flatMap_cons]
      congr 1
      exact List.map_id _
  exact from_place 0

theorem references_reclassified : references (reclassified records) = references records := by
  unfold references
  rw [reclassified_zipIdx, List.flatMap_map]
  simp only [classifiedAt_uid, classifiedAt_children]

/-! ### Who lists whom -/

theorem listed_once (hl : (listed records).Nodup) {p q : Nat} {first second : Record} {uid : UInt64}
    (hp : records[p]? = some first) (hq : records[q]? = some second) (hf : uid ∈ first.children)
    (hs : uid ∈ second.children) : p = q := by
  have hpairs := List.pairwise_iff_getElem.mp (List.nodup_flatMap.mp hl).2
  obtain ⟨hplt, rfl⟩ := List.getElem?_eq_some_iff.mp hp
  obtain ⟨hqlt, rfl⟩ := List.getElem?_eq_some_iff.mp hq
  rcases Nat.lt_trichotomy p q with hlt | heq | hlt
  · exact absurd hs (hpairs p q hplt hqlt hlt hf)
  · exact heq
  · exact absurd hf (hpairs q p hqlt hplt hlt hs)

theorem childAt_once {first second : Nat} (hl : (listed records).Nodup) (hf : ChildAt records first child)
    (hs : ChildAt records second child) : first = second := by
  obtain ⟨above, record, habove, hrecord, hmem⟩ := hf
  obtain ⟨above', record', habove', hrecord', hmem'⟩ := hs
  rw [hrecord] at hrecord'
  cases hrecord'
  exact listed_once hl habove habove' hmem hmem'

theorem childAt_lt (h : ChildAt records above child) : above < records.length ∧ child < records.length := by
  obtain ⟨parent, record, hparent, hrecord, -⟩ := h
  exact ⟨(List.getElem?_eq_some_iff.mp hparent).1, (List.getElem?_eq_some_iff.mp hrecord).1⟩

theorem parentAt_childAt (h : parentAt records child = some above) : ChildAt records above child := by
  obtain ⟨record, hr, hfind⟩ := Option.bind_eq_some_iff.mp h
  obtain ⟨hlt, hmem, -⟩ := List.findIdx?_eq_some_iff_getElem.mp hfind
  exact ⟨records[above], record, List.getElem?_eq_getElem hlt, hr, by simpa using hmem⟩

theorem parentAt_eq_some_iff (hl : (listed records).Nodup) :
    parentAt records child = some above ↔ ChildAt records above child := by
  constructor
  · exact parentAt_childAt
  · rintro ⟨parent, record, hparent, hr, hmem⟩
    have hsome : (records.findIdx? (·.children.contains record.uid)).isSome := by
      rw [List.findIdx?_isSome, List.any_eq_true]
      exact ⟨parent, List.mem_of_getElem? hparent, by simpa using hmem⟩
    obtain ⟨found, hfound⟩ := Option.isSome_iff_exists.mp hsome
    have hp : parentAt records child = some found := by
      unfold parentAt
      rw [hr]
      exact hfound
    rw [hp, childAt_once hl (parentAt_childAt hp) ⟨parent, record, hparent, hr, hmem⟩]

theorem parentAt_eq_none_iff (hr : records[place]? = some record) :
    parentAt records place = none ↔ record.uid ∉ listed records := by
  unfold parentAt
  rw [hr, Option.bind_some, List.findIdx?_eq_none_iff]
  constructor
  · intro hnone hm
    obtain ⟨parent, hparent, hmem⟩ := List.mem_flatMap.mp hm
    have hcontains := hnone parent hparent
    simp [hmem] at hcontains
  · intro hnot parent hparent
    have hmem : record.uid ∉ parent.children := fun hm => hnot (List.mem_flatMap.mpr ⟨parent, hparent, hm⟩)
    simpa using hmem

/-! ### Adoption -/

theorem adopt_eq_ok {uid childUid : UInt64} : adopt index nodes (above, uid, childUid) = .ok out ↔
    ∃ place child, index childUid = some place ∧ nodes[place]? = some child ∧ child.parent = none ∧
      nodes.setIfInBounds place { child with parent := some above } = out := by
  unfold adopt
  cases hi : index childUid with
  | none => simp [hi]
  | some place =>
    cases hn : nodes[place]? with
    | none => simp [hi, hn]
    | some child =>
      cases hp : child.parent with
      | some first => simp [hi, hn, hp]
      | none => simp [hi, hn, hp]

/-- A node with the parent that the references to it give. -/
def adoptedBy (index : UidIndex) (refs : List (Nat × UInt64 × UInt64)) (place : Nat) (node : Node) : Node :=
  match refs.find? (fun reference => index reference.2.2 = some place) with
  | some reference => { node with parent := some reference.1 }
  | none => node

theorem adoptedBy_cons {uid childUid : UInt64} {node : Node} (hi : index childUid = some child)
    (hrest : some child ∉ refs.map fun reference => index reference.2.2) :
    adoptedBy index ((above, uid, childUid) :: refs) place node =
      adoptedBy index refs place (if child = place then { node with parent := some above } else node) := by
  unfold adoptedBy
  rw [List.find?_cons]
  by_cases hsame : child = place
  · subst hsame
    have hnone : refs.find? (fun reference => index reference.2.2 = some child) = none := by
      rw [List.find?_eq_none]
      intro reference hm hfound
      exact hrest (List.mem_map.mpr ⟨reference, hm, by simpa using hfound⟩)
    rw [hnone]
    simp [hi]
  · simp [hi, hsame]

/-- The references lead to different nodes without a parent. -/
structure Adoptable (index : UidIndex) (refs : List (Nat × UInt64 × UInt64)) (nodes : Array Node) : Prop where
  free : ∀ reference ∈ refs, ∃ place child, index reference.2.2 = some place ∧ nodes[place]? = some child ∧
    child.parent = none
  nodup : (refs.map fun reference => index reference.2.2).Nodup

section
variable {node : Node} {uid childUid : UInt64} (hi : index childUid = some place) (hc : nodes[place]? = some node)
include hi hc

/-- After one adoption the remaining references find the same nodes free but the adopted one. -/
theorem adoptable_cons (hp : node.parent = none) : Adoptable index ((above, uid, childUid) :: refs) nodes ↔
    some place ∉ (refs.map fun reference => index reference.2.2) ∧
      Adoptable index refs (nodes.setIfInBounds place { node with parent := some above }) := by
  have hlt := (Array.getElem?_eq_some_iff.mp hc).1
  constructor
  · rintro ⟨hfree, hnodup⟩
    rw [List.map_cons, List.nodup_cons, hi] at hnodup
    refine ⟨hnodup.1, ?_, hnodup.2⟩
    intro reference hm
    obtain ⟨other, child, ho, hchild, hnone⟩ := hfree reference (List.mem_cons_of_mem _ hm)
    refine ⟨other, child, ho, ?_, hnone⟩
    rw [Array.getElem?_setIfInBounds, if_neg, hchild]
    rintro rfl
    exact hnodup.1 (List.mem_map.mpr ⟨reference, hm, ho⟩)
  · rintro ⟨hnew, hfree, hnodup⟩
    refine ⟨?_, ?_⟩
    · intro reference hm
      rcases List.mem_cons.mp hm with rfl | hm
      · exact ⟨place, node, hi, hc, hp⟩
      · obtain ⟨other, child, ho, hchild, hnone⟩ := hfree reference hm
        have hne : place ≠ other := by
          rintro rfl
          exact hnew (List.mem_map.mpr ⟨reference, hm, ho⟩)
        rw [Array.getElem?_setIfInBounds, if_neg hne] at hchild
        exact ⟨other, child, ho, hchild, hnone⟩
    · rw [List.map_cons, List.nodup_cons, hi]
      exact ⟨hnew, hnodup⟩

theorem mapIdx_adoptedBy_cons (hrest : some place ∉ refs.map fun reference => index reference.2.2) :
    (nodes.setIfInBounds place { node with parent := some above }).mapIdx (adoptedBy index refs) =
      nodes.mapIdx (adoptedBy index ((above, uid, childUid) :: refs)) := by
  apply Array.ext_getElem?
  intro other
  rw [Array.getElem?_mapIdx, Array.getElem?_mapIdx, Array.getElem?_setIfInBounds]
  by_cases hsame : place = other
  · subst hsame
    have hlt := (Array.getElem?_eq_some_iff.mp hc).1
    rw [if_pos rfl, if_pos hlt, hc, Option.map_some, Option.map_some, adoptedBy_cons hi hrest, if_pos rfl]
  · rw [if_neg hsame]
    cases nodes[other]? with
    | none => rfl
    | some found => rw [Option.map_some, Option.map_some, adoptedBy_cons hi hrest, if_neg hsame]

end

/-- A node that has just been adopted is not free. -/
theorem Adoptable.not_mem {node : Node} (hlt : place < nodes.size)
    (h : Adoptable index refs (nodes.setIfInBounds place { node with parent := some above })) :
    some place ∉ refs.map fun reference => index reference.2.2 := by
  intro hm
  obtain ⟨reference, href, hplace⟩ := List.mem_map.mp hm
  obtain ⟨other, child, ho, hchild, hnone⟩ := h.free reference href
  rw [hplace] at ho
  cases ho
  rw [Array.getElem?_setIfInBounds, if_pos rfl, if_pos hlt] at hchild
  cases hchild
  cases hnone

theorem adopts_eq_ok : refs.foldlM (adopt index) nodes = .ok out ↔
    Adoptable index refs nodes ∧ nodes.mapIdx (adoptedBy index refs) = out := by
  induction refs generalizing nodes with
  | nil =>
    have hsame : nodes.mapIdx (adoptedBy index []) = nodes := by
      apply Array.ext_getElem?
      intro place
      rw [Array.getElem?_mapIdx]
      exact Option.map_id_apply
    have hall : Adoptable index [] nodes := ⟨by simp, List.nodup_nil⟩
    rw [List.foldlM_nil, pure_eq_ok, hsame]
    exact (and_iff_right hall).symm
  | cons reference refs ih =>
    obtain ⟨above, uid, childUid⟩ := reference
    rw [List.foldlM_cons, bind_eq_ok]
    constructor
    · rintro ⟨next, hfirst, hrest⟩
      obtain ⟨place, child, hi, hc, hp, rfl⟩ := adopt_eq_ok.mp hfirst
      obtain ⟨hall, rfl⟩ := ih.mp hrest
      have hnew := hall.not_mem (Array.getElem?_eq_some_iff.mp hc).1
      exact ⟨(adoptable_cons hi hc hp).mpr ⟨hnew, hall⟩, (mapIdx_adoptedBy_cons hi hc hnew).symm⟩
    · rintro ⟨hall, rfl⟩
      obtain ⟨place, child, hi, hc, hp⟩ := hall.free _ List.mem_cons_self
      obtain ⟨hnew, hall⟩ := (adoptable_cons hi hc hp).mp hall
      exact ⟨_, adopt_eq_ok.mpr ⟨place, child, hi, hc, hp, rfl⟩, ih.mpr ⟨hall, mapIdx_adoptedBy_cons hi hc hnew⟩⟩

/-! ### Linked nodes -/

theorem adoptedBy_references (hn : (records.map (·.uid)).Nodup) (hl : (listed records).Nodup) {node : Node}
    (hp : node.parent = none) : adoptedBy (placeOf records) (references records) place node =
      { node with parent := parentAt records place } := by
  have hchild : ∀ reference ∈ references records, placeOf records reference.2.2 = some place →
      ChildAt records reference.1 place := by
    rintro ⟨above, uid, childUid⟩ hm hplace
    obtain ⟨record, hr, -, hmem⟩ := mem_references.mp hm
    exact (childAt_iff hn hr).mpr ⟨childUid, hmem, hplace⟩
  unfold adoptedBy
  cases hfind : (references records).find? fun reference => placeOf records reference.2.2 = some place with
  | some reference =>
    have hplace : placeOf records reference.2.2 = some place := by simpa using List.find?_some hfind
    have habove := hchild reference (List.mem_of_find?_eq_some hfind) hplace
    rw [(parentAt_eq_some_iff hl).mpr habove]
  | none =>
    have hnone : parentAt records place = none := by
      rw [Option.eq_none_iff_forall_ne_some]
      intro above habove
      obtain ⟨parent, record, hparent, hr, hmem⟩ := (parentAt_eq_some_iff hl).mp habove
      have href : (above, parent.uid, record.uid) ∈ references records :=
        mem_references.mpr ⟨parent, hparent, rfl, hmem⟩
      have hplace := (placeOf_eq_some_iff hn).mpr ⟨record, hr, rfl⟩
      have hnot := List.find?_eq_none.mp hfind _ href
      exact hnot (by simpa using hplace)
    rw [hnone, ← hp]

theorem adoptable_references (hs : nodes.size = records.length) (hp : ∀ node ∈ nodes, node.parent = none) :
    Adoptable (placeOf records) (references records) nodes ↔
      (∀ uid ∈ listed records, ∃ place, placeOf records uid = some place) ∧ (listed records).Nodup := by
  have hmap : ((references records).map fun reference => placeOf records reference.2.2) =
      (listed records).map (placeOf records) := by
    rw [← references_children, List.map_map]
    rfl
  constructor
  · rintro ⟨hfree, hnodup⟩
    rw [hmap] at hnodup
    refine ⟨?_, hnodup.of_map⟩
    intro uid hm
    rw [← references_children] at hm
    obtain ⟨reference, href, rfl⟩ := List.mem_map.mp hm
    obtain ⟨place, -, hplace, -⟩ := hfree reference href
    exact ⟨place, hplace⟩
  · rintro ⟨hknown, hl⟩
    refine ⟨?_, ?_⟩
    · intro reference href
      have hm : reference.2.2 ∈ listed records := by
        rw [← references_children]
        exact List.mem_map.mpr ⟨reference, href, rfl⟩
      obtain ⟨place, hplace⟩ := hknown _ hm
      have hlt : place < nodes.size := hs ▸ placeOf_lt hplace
      exact ⟨place, nodes[place], hplace, Array.getElem?_eq_getElem hlt, hp _ (Array.getElem_mem hlt)⟩
    · -- Two uids of one place are the uid of the record there.
      rw [hmap]
      refine hl.map_on ?_
      intro uid hu other ho hsame
      obtain ⟨place, hplace⟩ := hknown uid hu
      obtain ⟨found, hfound, rfl⟩ := placeOf_found hplace
      obtain ⟨found', hfound', rfl⟩ := placeOf_found (hsame ▸ hplace)
      rw [hfound] at hfound'
      cases hfound'
      rfl

theorem linked_eq_ok (hn : (records.map (·.uid)).Nodup) (hs : nodes.size = records.length)
    (hp : ∀ node ∈ nodes, node.parent = none) :
    (references records).foldlM (adopt (placeOf records)) nodes = .ok out ↔
      ((∀ uid ∈ listed records, ∃ place, placeOf records uid = some place) ∧ (listed records).Nodup) ∧
      nodes.mapIdx (fun place node => { node with parent := parentAt records place }) = out := by
  rw [adopts_eq_ok, adoptable_references hs hp]
  refine and_congr_right fun hl => ?_
  have hmap : nodes.mapIdx (adoptedBy (placeOf records) (references records)) =
      nodes.mapIdx fun place node => { node with parent := parentAt records place } := by
    apply Array.ext_getElem?
    intro place
    rw [Array.getElem?_mapIdx, Array.getElem?_mapIdx]
    cases hnode : nodes[place]? with
    | none => rfl
    | some node =>
      have hnone := hp node (Array.mem_of_getElem? hnode)
      rw [Option.map_some, Option.map_some, adoptedBy_references hn hl.2 hnone]
  rw [hmap]

end RegionPlanner
