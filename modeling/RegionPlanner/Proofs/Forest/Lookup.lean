import RegionPlanner.Proofs.Forest.Tree

/-!
# Nodes by uid and by region

The two indexes of a forest are filled node by node, in trace order. In a built forest no uid occurs twice, so the
first finds the one node with a uid, and the second finds all nodes of a static region.
-/

namespace RegionPlanner

variable {table : RegionTable} {records : List Record} {forest : Forest} {place : Nat} {node : Node} {record : Record}

/-! ### Filling an index -/

/-- A later node with the same uid takes the place of an earlier one. -/
theorem getElem?_foldl_uid (nodes : List Node) (index : Std.TreeMap UInt64 Nat) (uid : UInt64) :
    (nodes.foldl (fun index node => index.insert node.uid node.id) index)[uid]? =
      ((nodes.findRev? (·.uid == uid)).map (·.id)).or index[uid]? := by
  induction nodes generalizing index with
  | nil => rfl
  | cons node nodes ih =>
    rw [List.foldl_cons, ih, getElem?_insert_uid, List.findRev?]
    cases nodes.findRev? (·.uid == uid) with
    | some later => rfl
    | none =>
      by_cases hu : node.uid = uid
      · simp [hu]
      · simp [hu]

/-- The nodes of a region come behind those that are there already. -/
theorem getD_foldl_region (nodes : List Node) (index : Std.TreeMap UInt64 (List Nat)) (region : UInt64) :
    (nodes.foldl (fun index node => index.insert node.region.id (index.getD node.region.id [] ++ [node.id]))
      index).getD region [] = index.getD region [] ++ (nodes.filter (·.region.id == region)).map (·.id) := by
  induction nodes generalizing index with
  | nil =>
    rw [List.filter_nil, List.map_nil, List.append_nil]
    rfl
  | cons node nodes ih =>
    rw [List.foldl_cons, ih, Std.TreeMap.getD_insert]
    by_cases hr : node.region.id = region
    · simp [hr]
    · simp [hr, Std.LawfulEqCmp.compare_eq_iff_eq]

/-! ### Nodes and records -/

section
variable (hb : Forest.build table records = .ok forest)
include hb

theorem build_uid (hnode : forest.nodes[place]? = some node) (hr : records[place]? = some record) :
    node.uid = record.uid := by
  obtain ⟨hformed, -, hfinished⟩ := build_sound hb
  obtain ⟨weights, hweights⟩ : ∃ weights, (weightedNodes table records)[place]? =
      some ((linkedNode table records place record).weighted weights) := by
    unfold weightedNodes linkedNodes
    rw [List.getElem?_map, List.getElem?_mapIdx, hr]
    exact ⟨_, rfl⟩
  obtain ⟨found, hfound, hplace⟩ := (mapM_getElem? hfinished).2 place _ hweights
  rw [Array.getElem?_toList, hnode] at hplace
  cases hplace
  obtain ⟨value, -, rfl⟩ := map_eq_ok.mp hfound
  exact (readNode_fields (hformed.readable record (List.mem_of_getElem? hr))).2.1

theorem build_record (hnode : forest.nodes[place]? = some node) : ∃ record, records[place]? = some record := by
  have hlt := (Array.getElem?_eq_some_iff.mp hnode).1
  rw [(build_linkedTo hb).size] at hlt
  exact ⟨_, List.getElem?_eq_getElem hlt⟩

theorem build_node (hr : records[place]? = some record) : ∃ node, forest.nodes[place]? = some node := by
  have hlt := (List.getElem?_eq_some_iff.mp hr).1
  rw [← (build_linkedTo hb).size] at hlt
  exact ⟨_, Array.getElem?_eq_getElem hlt⟩

/-- The children of a node are the nodes of the children of its record, in their order. -/
theorem build_childUids (hm : record ∈ records) :
    ((record.children.filterMap (placeOf records)).filterMap fun place => forest.nodes[place]?.map (·.uid)) =
      record.children := by
  have hkept : ∀ uid ∈ record.children,
      (placeOf records uid).bind (fun place => forest.nodes[place]?.map (·.uid)) = some uid := by
    intro uid hu
    obtain ⟨child, hchild, rfl⟩ := (build_sound hb).1.known uid (List.mem_flatMap.mpr ⟨record, hm, hu⟩)
    obtain ⟨place, hplace⟩ := placeOf_isSome hchild rfl
    obtain ⟨found, hfound, hsame⟩ := placeOf_found hplace
    obtain ⟨node, hnode⟩ := build_node hb hfound
    rw [hplace, Option.bind_some, hnode, Option.map_some, build_uid hb hnode hfound, hsame]
  rw [List.filterMap_filterMap, List.filterMap_congr hkept, List.filterMap_some]

theorem build_place (hm : node ∈ forest.nodes) : placeOf records node.uid = some node.id := by
  have hnode := (build_linked hb).mem_getElem? hm
  obtain ⟨record, hr⟩ := build_record hb hnode
  exact (placeOf_eq_some_iff (build_sound hb).1.distinct).mpr ⟨record, hr, (build_uid hb hnode hr).symm⟩

/-- The uid tells which node it is. -/
theorem eq_of_uid {other : Node} (hm : node ∈ forest.nodes) (hm' : other ∈ forest.nodes) (hu : node.uid = other.uid) :
    node = other := by
  have hplace := build_place hb hm
  rw [hu, build_place hb hm'] at hplace
  exact (build_linked hb).eq_of_id hm hm' (Option.some.inj hplace).symm

/-! ### Looking up -/

theorem nodeByUid?_eq_some_iff {uid : UInt64} :
    forest.nodeByUid? uid = some node ↔ node ∈ forest.nodes ∧ node.uid = uid := by
  have hindex : forest.byUid[uid]? = ((forest.nodes.toList.findRev? (·.uid == uid)).map (·.id)).or none :=
    getElem?_foldl_uid _ _ uid
  unfold Forest.nodeByUid?
  rw [hindex, Option.or_none, List.findRev?_eq_find?_reverse]
  cases hfind : forest.nodes.toList.reverse.find? (·.uid == uid) with
  | some found =>
    have hm : found ∈ forest.nodes := by
      simpa using List.mem_of_find?_eq_some hfind
    have hu : found.uid = uid := by simpa using List.find?_some hfind
    rw [Option.map_some, Option.bind_some, (build_linked hb).mem_getElem? hm, Option.some.injEq]
    constructor
    · rintro rfl
      exact ⟨hm, hu⟩
    · rintro ⟨hm', hu'⟩
      exact eq_of_uid hb hm hm' (hu.trans hu'.symm)
  | none =>
    rw [Option.map_none, Option.bind_none]
    constructor
    · intro hnone
      cases hnone
    · rintro ⟨hm, hu⟩
      have hnot := List.find?_eq_none.mp hfind node (by simpa using hm)
      simp [hu] at hnot

theorem nodesFor_eq (region : UInt64) :
    forest.nodesFor region = forest.nodes.toList.filter (·.region.id == region) := by
  have hindex : forest.byRegion.getD region [] = (forest.nodes.toList.filter (·.region.id == region)).map (·.id) :=
    getD_foldl_region _ _ region
  unfold Forest.nodesFor Forest.nodesAt
  rw [hindex, List.filterMap_map]
  refine (List.filterMap_congr fun node hm => ?_).trans List.filterMap_some
  exact (build_linked hb).mem_getElem? (Array.mem_toList_iff.mp (List.mem_of_mem_filter hm))

end

end RegionPlanner
