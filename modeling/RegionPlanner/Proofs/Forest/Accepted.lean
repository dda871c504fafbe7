import RegionPlanner.Proofs.Forest.Draft
import RegionPlanner.Proofs.Forest.Reading
import RegionPlanner.Proofs.Forest.Sinks

/-!
# Which traces are built

Records are built into a forest if and only if they are well-formed: they form one tree, name regions of the
table, have counters, sinks lie below the init nodes that they name, and the counters allow a
self-parallelism. Places and sums have no upper end here.
-/

namespace RegionPlanner

open Relation

/-! ### Well-formed traces -/

/-- The node of a record with its parent. -/
noncomputable def placedNode (table : RegionTable) (records : List Record) (place : Nat) (record : Record) : Node :=
  { readNode table records place record with parent := parentAt records place }

/-- The node of a record with its parent and, if it is a sink, its init node. -/
noncomputable def linkedNode (table : RegionTable) (records : List Record) (place : Nat) (record : Record) : Node :=
  { placedNode table records place record with
    target := if record.kind = .sink then placeOf records record.target else none }

noncomputable def linkedNodes (table : RegionTable) (records : List Record) : List Node :=
  records.mapIdx (linkedNode table records)

/-- The nodes of all records after the weights are stored. -/
noncomputable def weightedNodes (table : RegionTable) (records : List Record) : List Node :=
  let weights := (weightsOf (linkedNodes table records).toArray).toOption.getD Std.TreeMap.empty
  (linkedNodes table records).map (·.weighted weights)

/-- What a trace must be. -/
structure WellFormed (table : RegionTable) (records : List Record) : Prop where
  distinct : (records.map (·.uid)).Nodup
  known : ∀ uid ∈ listed records, ∃ record ∈ records, record.uid = uid
  tree : ∃ root, TreeAt records root
  readable : ∀ record ∈ records, record.Readable table
  sinks : ∀ (place : Nat) (record : Record), records[place]? = some record → record.kind = .sink →
    ∃ (init : Nat) (target : Record), records[init]? = some target ∧ target.uid = record.target ∧
      target.kind = .init ∧ TransGen (ChildAt records) init place
  parallelism : ∀ node ∈ weightedNodes table records,
    ∃ value, node.profile.checkedSelfParallelism node.uid = .ok value

/-- A sink names an init record. -/
def Targeted (records : List Record) (record : Record) : Prop :=
  record.kind = .sink → ∃ (init : Nat) (target : Record), placeOf records record.target = some init ∧
    records[init]? = some target ∧ target.kind = .init

variable {table : RegionTable} {records : List Record} {record : Record} {place root : Nat} {node out : Node}
  {index : UidIndex} {nodes : Array Node}

theorem known_iff : (∀ uid ∈ listed records, ∃ record ∈ records, record.uid = uid) ↔
    ∀ uid ∈ listed records, ∃ place, placeOf records uid = some place := by
  refine forall₂_congr fun uid _ => ?_
  constructor
  · rintro ⟨record, hm, hu⟩
    exact placeOf_isSome hm hu
  · rintro ⟨place, hplace⟩
    obtain ⟨record, hr, hu⟩ := placeOf_found hplace
    exact ⟨record, List.mem_of_getElem? hr, hu⟩

theorem mem_linkedNodes : node ∈ (linkedNodes table records).toArray ↔
    ∃ (place : Nat) (record : Record), records[place]? = some record ∧
      linkedNode table records place record = node := by
  rw [List.mem_toArray, linkedNodes, List.mem_mapIdx]
  constructor
  · rintro ⟨place, hlt, rfl⟩
    exact ⟨place, _, List.getElem?_eq_getElem hlt, rfl⟩
  · rintro ⟨place, record, hrecord, rfl⟩
    obtain ⟨hlt, rfl⟩ := List.getElem?_eq_some_iff.mp hrecord
    exact ⟨place, hlt, rfl⟩

/-! ### Linked nodes -/

/-- Nodes made of records one by one that keep place, parent and children are linked to them. -/
theorem linkedTo_mapIdx {f : Nat → Record → Node} (hf : ∀ (place : Nat) (record : Record),
    records[place]? = some record → (f place record).id = place ∧ (f place record).parent = parentAt records place ∧
      (f place record).children = record.children.filterMap (placeOf records)) :
    LinkedTo records (records.mapIdx f).toArray := by
  have hnode : ∀ (place : Nat) (node : Node), (records.mapIdx f).toArray[place]? = some node →
      ∃ record, records[place]? = some record ∧ f place record = node := by
    intro place node h
    rw [List.getElem?_toArray, List.getElem?_mapIdx] at h
    exact Option.map_eq_some_iff.mp h
  refine ⟨by simp, ?_, ?_, ?_⟩
  · intro place node h
    obtain ⟨record, hr, rfl⟩ := hnode place node h
    exact (hf place record hr).1
  · intro place node h
    obtain ⟨record, hr, rfl⟩ := hnode place node h
    exact (hf place record hr).2.1
  · intro place node record h hr
    obtain ⟨found, hfound, rfl⟩ := hnode place node h
    rw [hr] at hfound
    cases hfound
    exact (hf place record hr).2.2

theorem placed_eq : (records.mapIdx (readNode table records)).toArray.mapIdx
    (fun place node => { node with parent := parentAt records place }) =
      (records.mapIdx (placedNode table records)).toArray := by
  apply Array.ext_getElem?
  intro place
  rw [Array.getElem?_mapIdx, List.getElem?_toArray, List.getElem?_toArray, List.getElem?_mapIdx,
    List.getElem?_mapIdx, Option.map_map]
  rfl

section
variable (hr : ∀ (place : Nat) (record : Record), records[place]? = some record → record.Readable table)
include hr

theorem placed_linkedTo : LinkedTo records (records.mapIdx (placedNode table records)).toArray := by
  apply linkedTo_mapIdx
  intro place record hrecord
  obtain ⟨hid, -, -, -, hchildren, -⟩ := readNode_fields (hr place record hrecord)
  exact ⟨hid, rfl, hchildren⟩

theorem placed_eq_ok (hn : (records.map (·.uid)).Nodup) :
    (references (reclassified records)).foldlM (adopt (placeOf records))
      (records.mapIdx (readNode table records)).toArray = .ok nodes ↔
    ((∀ uid ∈ listed records, ∃ place, placeOf records uid = some place) ∧ (listed records).Nodup) ∧
      (records.mapIdx (placedNode table records)).toArray = nodes := by
  have hparent : ∀ node ∈ (records.mapIdx (readNode table records)).toArray, node.parent = none := by
    intro node hm
    rw [List.mem_toArray, List.mem_mapIdx] at hm
    obtain ⟨place, hlt, rfl⟩ := hm
    obtain ⟨-, -, -, hnone, -, -⟩ := readNode_fields (hr place _ (List.getElem?_eq_getElem hlt))
    exact hnone
  rw [references_reclassified, linked_eq_ok hn (by simp) hparent, placed_eq]

theorem linked_linkedTo : LinkedTo records (linkedNodes table records).toArray := by
  apply linkedTo_mapIdx
  intro place record hrecord
  obtain ⟨hid, -, -, -, hchildren, -⟩ := readNode_fields (hr place record hrecord)
  exact ⟨hid, rfl, hchildren⟩

/-! ### Targets -/

theorem resolveTarget_eq_ok (hrecord : records[place]? = some record) :
    resolveTarget (placeOf records) (records.mapIdx (placedNode table records)).toArray
      (classifiedAt records place record) (placedNode table records place record) = .ok out ↔
    Targeted records record ∧ linkedNode table records place record = out := by
  obtain ⟨-, -, -, -, -, htarget⟩ := readNode_fields (hr place record hrecord)
  have hkind : (classifiedAt records place record).kind = .sink ↔ record.kind = .sink :=
    classifiedAt_kind (by simp) (by simp)
  unfold resolveTarget linkedNode Targeted
  by_cases hsink : record.kind = .sink
  · rw [if_neg (not_not_intro (hkind.mpr hsink)), classifiedAt_target]
    cases hplace : placeOf records record.target with
    | none => simp [hsink]
    | some init =>
      obtain ⟨target, hinit, -⟩ := placeOf_found hplace
      obtain ⟨hid, -, hreadKind, -, -, -⟩ := readNode_fields (hr init target hinit)
      have hget : (records.mapIdx (placedNode table records)).toArray[init]? =
          some (placedNode table records init target) := by
        rw [List.getElem?_toArray, List.getElem?_mapIdx, hinit, Option.map_some]
      have htargetKind : (placedNode table records init target).kind = .init ↔ target.kind = .init := by
        change (readNode table records init target).kind = .init ↔ _
        rw [hreadKind]
        exact classifiedAt_kind (by simp) (by simp)
      have htargetId : (placedNode table records init target).id = init := hid
      rw [Option.bind_some, hget]
      by_cases hi : target.kind = .init
      · simp only [htargetKind.mpr hi, if_true, htargetId, hsink]
        simp [hinit, hi]
      · simp only [mt htargetKind.mp hi, if_false, hsink]
        simp [hinit, hi]
  · have hnone : placedNode table records place record =
        { placedNode table records place record with target := none } := by
      unfold placedNode
      rw [← htarget]
    rw [if_pos (mt hkind.mp hsink), if_neg hsink, ← hnone]
    simp [hsink]

theorem resolved_eq_ok {resolved : List Node} :
    (((reclassified records).zip (records.mapIdx (placedNode table records)).toArray.toList).mapM
      fun (record, node) =>
        resolveTarget (placeOf records) (records.mapIdx (placedNode table records)).toArray record node) =
        .ok resolved ↔
    (∀ (place : Nat) (record : Record), records[place]? = some record → Targeted records record) ∧
      linkedNodes table records = resolved := by
  have hzip : (reclassified records).zip (records.mapIdx (placedNode table records)).toArray.toList =
      records.zipIdx.map fun entry =>
        (classifiedAt records entry.2 entry.1, placedNode table records entry.2 entry.1) := by
    rw [reclassified, List.mapIdx_eq_zipIdx_map, List.mapIdx_eq_zipIdx_map, List.toList_toArray, List.zip_map']
  rw [hzip, List.mapM_map]
  apply zipIdx_mapM_eq_ok
  intro place record hrecord node
  exact resolveTarget_eq_ok hr hrecord

/-! ### Sinks below their init nodes -/

theorem linkedNode_id (hrecord : records[place]? = some record) : (linkedNode table records place record).id = place :=
  (readNode_fields (hr place record hrecord)).1

theorem linkedNode_kind (hrecord : records[place]? = some record) {kind : NodeKind} (hn : kind ≠ .normal)
    (hi : kind ≠ .inner) : (linkedNode table records place record).kind = kind ↔ record.kind = kind := by
  obtain ⟨-, -, hkind, -, -, -⟩ := readNode_fields (hr place record hrecord)
  change (readNode table records place record).kind = kind ↔ _
  rw [hkind]
  exact classifiedAt_kind hn hi

/-- That sinks know their init nodes and lie below them, said of the records. -/
theorem sinks_iff (hn : (records.map (·.uid)).Nodup) (hl : (listed records).Nodup) :
    ((∀ (place : Nat) (record : Record), records[place]? = some record → Targeted records record) ∧
      SinksBelow (parentAt records) (linkedNodes table records).toArray) ↔
    ∀ (place : Nat) (record : Record), records[place]? = some record → record.kind = .sink →
      ∃ (init : Nat) (target : Record), records[init]? = some target ∧ target.uid = record.target ∧
        target.kind = .init ∧ TransGen (ChildAt records) init place := by
  have hancestor : Ancestor (parentAt records) = TransGen (ChildAt records) := by
    unfold Ancestor
    rw [covers_parentAt hl]
  constructor
  · rintro ⟨htargets, hbelow⟩ place record hrecord hsink
    obtain ⟨init, target, hplace, hinit, hkind⟩ := htargets place record hrecord hsink
    obtain ⟨found, hfound, huid⟩ := placeOf_found hplace
    rw [hinit] at hfound
    cases hfound
    refine ⟨init, target, hinit, huid, hkind, ?_⟩
    have habove := hbelow.below _ (mem_linkedNodes.mpr ⟨place, record, hrecord, rfl⟩)
      ((linkedNode_kind hr hrecord (by simp) (by simp)).mpr hsink) _
      (mem_linkedNodes.mpr ⟨init, target, hinit, rfl⟩)
      ((linkedNode_kind hr hinit (by simp) (by simp)).mpr hkind)
    rw [linkedNode_id hr hrecord, linkedNode_id hr hinit, hancestor] at habove
    refine habove ?_
    unfold linkedNode
    rw [if_pos hsink, hplace]
  · intro hsinks
    have hplace : ∀ {record target : Record} {init : Nat}, records[init]? = some target →
        target.uid = record.target → placeOf records record.target = some init := by
      intro record target init hinit huid
      exact (placeOf_eq_some_iff hn).mpr ⟨target, hinit, huid⟩
    refine ⟨?_, ?_, ?_⟩
    · intro place record hrecord hsink
      obtain ⟨init, target, hinit, huid, hkind, -⟩ := hsinks place record hrecord hsink
      exact ⟨init, target, hplace hinit huid, hinit, hkind⟩
    · intro sink hm hsink
      obtain ⟨place, record, hrecord, rfl⟩ := mem_linkedNodes.mp hm
      rw [linkedNode_kind hr hrecord (by simp) (by simp)] at hsink
      obtain ⟨init, target, hinit, huid, -, -⟩ := hsinks place record hrecord hsink
      unfold linkedNode
      rw [if_pos hsink, hplace hinit huid]
      rfl
    · intro sink hm hsink init hi _ htarget
      obtain ⟨place, record, hrecord, rfl⟩ := mem_linkedNodes.mp hm
      obtain ⟨above, found, hfound, rfl⟩ := mem_linkedNodes.mp hi
      rw [linkedNode_kind hr hrecord (by simp) (by simp)] at hsink
      obtain ⟨init, target, hinit, huid, -, hbelow⟩ := hsinks place record hrecord hsink
      rw [linkedNode_id hr hfound] at htarget ⊢
      rw [linkedNode_id hr hrecord, hancestor]
      unfold linkedNode at htarget
      rw [if_pos hsink, hplace hinit huid] at htarget
      cases htarget
      exact hbelow

end

/-! ### Building -/

theorem finished_isOk : (∃ out, node.finished = .ok out) ↔
    ∃ value, node.profile.checkedSelfParallelism node.uid = .ok value := by
  unfold Node.finished
  simp only [map_eq_ok]
  constructor
  · rintro ⟨out, value, hvalue, -⟩
    exact ⟨value, hvalue⟩
  · rintro ⟨value, hvalue⟩
    exact ⟨_, value, hvalue, rfl⟩

theorem weightedNodes_eq {weights : Weights} (h : weightsOf (linkedNodes table records).toArray = .ok weights) :
    weightedNodes table records = (linkedNodes table records).map (·.weighted weights) := by
  unfold weightedNodes
  rw [h]
  rfl

/-- A draft is the tree of records that are well-formed but perhaps for their counters. -/
theorem draft_sound {draft : Draft} (h : Forest.draft table records = .ok draft) :
    (records.map (·.uid)).Nodup ∧ (∀ uid ∈ listed records, ∃ record ∈ records, record.uid = uid) ∧
      TreeAt records draft.root ∧ (∀ record ∈ records, record.Readable table) ∧
      (∀ (place : Nat) (record : Record), records[place]? = some record → record.kind = .sink →
        ∃ (init : Nat) (target : Record), records[init]? = some target ∧ target.uid = record.target ∧
          target.kind = .init ∧ TransGen (ChildAt records) init place) ∧
      draft.nodes = linkedNodes table records ∧ weightsOf draft.nodes.toArray = .ok draft.weights := by
  unfold Forest.draft at h
  obtain ⟨places, hplaces, h⟩ := bind_eq_ok.mp h
  obtain ⟨hn, hindex⟩ := indexRecords_found hplaces
  simp only [hindex] at h
  obtain ⟨inner, hinner, h⟩ := bind_eq_ok.mp h
  obtain rfl := classified_eq hn hinner
  obtain ⟨unlinked, hunlinked, h⟩ := bind_eq_ok.mp h
  obtain ⟨hr, rfl⟩ := readNodes_eq_ok.mp hunlinked
  obtain ⟨linked, hlinked, h⟩ := bind_eq_ok.mp h
  obtain ⟨⟨hknown, hl⟩, rfl⟩ := (placed_eq_ok hr hn).mp hlinked
  obtain ⟨root, hroot, h⟩ := bind_eq_ok.mp h
  obtain ⟨_, hreach, h⟩ := bind_eq_ok.mp h
  have tree := ((placed_linkedTo hr).root_eq_ok hn hl).mp ⟨hroot, hreach⟩
  obtain ⟨resolved, hresolved, h⟩ := bind_eq_ok.mp h
  obtain ⟨htargets, rfl⟩ := (resolved_eq_ok hr).mp hresolved
  obtain ⟨weights, hweights, h⟩ := bind_eq_ok.mp h
  have hbelow := (weightsOf_isOk ((linked_linkedTo hr).placed (tree.rooted hl))).mp ⟨weights, hweights⟩
  rw [pure_eq_ok] at h
  subst h
  refine ⟨hn, known_iff.mpr hknown, tree, ?_, (sinks_iff hr hn hl).mp ⟨htargets, hbelow⟩, rfl, hweights⟩
  intro record hm
  obtain ⟨place, hrecord⟩ := List.mem_iff_getElem?.mp hm
  exact hr place record hrecord

/-- A forest that was built is the tree of well-formed records with their weighted and checked nodes. -/
theorem build_sound {forest : Forest} (h : Forest.build table records = .ok forest) :
    WellFormed table records ∧ TreeAt records forest.root ∧
      (weightedNodes table records).mapM Node.finished = .ok forest.nodes.toList := by
  rw [build_eq_draft] at h
  obtain ⟨draft, hdraft, h⟩ := bind_eq_ok.mp h
  obtain ⟨hn, hknown, tree, hreadable, hsinks, hnodes, hweights⟩ := draft_sound hdraft
  obtain ⟨finished, hfinished, rfl⟩ := map_eq_ok.mp h
  rw [hnodes] at hweights hfinished
  rw [← weightedNodes_eq hweights] at hfinished
  refine ⟨⟨hn, hknown, ⟨draft.root, tree⟩, hreadable, hsinks, ?_⟩, tree, hfinished⟩
  intro node hm
  exact finished_isOk.mp (mapM_isOk.mp ⟨finished, hfinished⟩ node hm)

/-- If nothing is wrong with the records but perhaps their counters, the checks of the self-parallelism decide. -/
theorem build_eq (hn : (records.map (·.uid)).Nodup) (hknown : ∀ uid ∈ listed records, ∃ record ∈ records, record.uid = uid)
    (tree : TreeAt records root) (hreadable : ∀ record ∈ records, record.Readable table)
    (hsinks : ∀ (place : Nat) (record : Record), records[place]? = some record → record.kind = .sink →
      ∃ (init : Nat) (target : Record), records[init]? = some target ∧ target.uid = record.target ∧
        target.kind = .init ∧ TransGen (ChildAt records) init place) :
    Forest.build table records =
      (fun finished => ⟨finished.toArray, root⟩) <$> (weightedNodes table records).mapM Node.finished := by
  rw [known_iff] at hknown
  have hl := tree.listed_nodup hknown
  have hr : ∀ (place : Nat) (record : Record), records[place]? = some record → record.Readable table :=
    fun _ record hrecord => hreadable record (List.mem_of_getElem? hrecord)
  have hchildren : ∀ record ∈ records, ∀ uid ∈ record.children, ∃ place, placeOf records uid = some place :=
    fun record hm uid hu => hknown uid (List.mem_flatMap.mpr ⟨record, hm, hu⟩)
  obtain ⟨htargets, hbelow⟩ := (sinks_iff hr hn hl).mpr hsinks
  obtain ⟨places, hplaces⟩ := indexRecords_ok hn
  obtain ⟨-, hindex⟩ := indexRecords_found hplaces
  obtain ⟨hroot, hreach⟩ := ((placed_linkedTo hr).root_eq_ok hn hl).mpr tree
  obtain ⟨weights, hweights⟩ := (weightsOf_isOk ((linked_linkedTo hr).placed (tree.rooted hl))).mpr hbelow
  unfold Forest.build
  rw [hplaces, ok_bind]
  simp only [hindex]
  rw [classified_ok hn hchildren, ok_bind, readNodes_eq_ok.mpr ⟨hr, rfl⟩, ok_bind,
    (placed_eq_ok hr hn).mpr ⟨⟨hknown, hl⟩, rfl⟩, ok_bind, hroot, ok_bind, hreach, ok_bind,
    (resolved_eq_ok hr).mpr ⟨htargets, rfl⟩, ok_bind, hweights, ok_bind, ← weightedNodes_eq hweights]
  rfl

theorem build_complete (h : WellFormed table records) : ∃ forest, Forest.build table records = .ok forest := by
  obtain ⟨root, tree⟩ := h.tree
  have hchecked : ∀ node ∈ weightedNodes table records, ∃ out, node.finished = .ok out :=
    fun node hm => finished_isOk.mpr (h.parallelism node hm)
  obtain ⟨finished, hfinished⟩ := mapM_isOk.mpr hchecked
  rw [build_eq h.distinct h.known tree h.readable h.sinks, hfinished]
  exact ⟨_, rfl⟩

theorem build_ok_iff (table : RegionTable) (records : List Record) :
    (∃ forest, Forest.build table records = .ok forest) ↔ WellFormed table records := by
  constructor
  · rintro ⟨forest, h⟩
    exact (build_sound h).1
  · exact build_complete

end RegionPlanner
