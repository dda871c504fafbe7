import RegionPlanner.Proofs.Forest.Lookup

/-!
# Parents, children and ancestors

Main statement: a forest that was built is one tree. Its links go both ways, the children stand in the order of the
record, the ancestors of a node are a finite chain up to the root, and every node is below the root.
-/

namespace RegionPlanner

open Relation

variable {table : RegionTable} {records : List Record} {forest : Forest} {node above child : Node} {place : Nat}

namespace Forest.Linked

variable (h : forest.Linked)
include h

/-! ### Children -/

theorem parentOf_eq (hm : node ∈ forest.nodes) : forest.parentOf node.id = node.parent := by
  unfold parentOf
  rw [h.mem_getElem? hm]
  rfl

theorem mem_rootNode_iff (hm : node ∈ forest.nodes) : node.parent = none ↔ node = forest.rootNode := by
  have hnode := h.mem_getElem? hm
  rw [← h.parentOf_eq hm]
  constructor
  · intro hnone
    have hroot := h.tree.eq_root (Array.getElem?_eq_some_iff.mp hnode).1 hnone
    unfold rootNode
    rw [← hroot, getD_node hnode]
  · rintro rfl
    obtain ⟨root, hroot⟩ := getElem? h.tree.root_lt
    have hid : forest.rootNode.id = forest.root := by
      unfold rootNode
      rw [getD_node hroot, h.id _ _ hroot]
    rw [hid]
    exact h.tree.root_top

theorem child_iff (hm : node ∈ forest.nodes) (hc : child ∈ forest.nodes) :
    child.id ∈ node.children ↔ child.parent = some node.id := by
  rw [h.children _ _ (h.mem_getElem? hm), h.parentOf_eq hc]

theorem mem_children_iff : child ∈ forest.children node ↔ child ∈ forest.nodes ∧ child.id ∈ node.children := by
  unfold Forest.children nodesAt
  rw [List.mem_filterMap]
  constructor
  · rintro ⟨place, hplace, hchild⟩
    rw [h.id _ _ hchild]
    exact ⟨Array.mem_of_getElem? hchild, hplace⟩
  · rintro ⟨hc, hplace⟩
    exact ⟨child.id, hplace, h.mem_getElem? hc⟩

theorem children_ids (hm : node ∈ forest.nodes) : (forest.children node).map (·.id) = node.children :=
  h.placed.ids_eq fun _ => h.child_lt (h.mem_getElem? hm)

theorem mem_children (hm : node ∈ forest.nodes) :
    child ∈ forest.children node ↔ child ∈ forest.nodes ∧ forest.parentOf child.id = some node.id := by
  rw [h.mem_children_iff, h.children _ _ (h.mem_getElem? hm)]

theorem children_nodup (hm : node ∈ forest.nodes) : (forest.children node).Nodup := by
  have hids := h.nodup _ _ (h.mem_getElem? hm)
  rw [← h.children_ids hm] at hids
  exact hids.of_map

/-- Every node is reached from the root, child by child. -/
theorem reached (hm : node ∈ forest.nodes) :
    ReflTransGen (fun above below => below ∈ forest.children above) forest.rootNode node := by
  have hnode := h.mem_getElem? hm
  have hway := h.tree.reached node.id (Array.getElem?_eq_some_iff.mp hnode).1
  generalize node.id = place at hway hnode
  induction hway generalizing node with
  | refl =>
    unfold rootNode
    rw [getD_node hnode]
  | @tail above below _ hparent ih =>
    obtain ⟨upper, hupper⟩ := getElem? (h.tree.bounded hparent).1
    refine (ih (Array.mem_of_getElem? hupper) hupper).tail (h.mem_children_iff.mpr ⟨hm, ?_⟩)
    rw [h.id _ _ hnode]
    exact (h.children above upper hupper below).mpr hparent

/-! ### Ancestors -/

theorem ancestors_chain (hm : node ∈ forest.nodes) :
    Chain forest.parentOf node.id ((forest.ancestors node).map (·.id)) := h.placed.ancestorsIn_ids hm

theorem ancestors_eq {path : List Nat} (hm : node ∈ forest.nodes) (hc : Chain forest.parentOf node.id path) :
    forest.ancestors node = path.filterMap (forest.nodes[·]?) := by
  have hlength := h.tree.length_lt (Array.getElem?_eq_some_iff.mp (h.mem_getElem? hm)).1 hc
  have hclimb := h.placed.climb_eq hc (Nat.le_of_lt hlength)
  rw [h.parentOf_eq hm] at hclimb
  exact hclimb

/-- The ancestors of a node are its parent and the ancestors of its parent. -/
theorem ancestors_step (hm : node ∈ forest.nodes) : forest.ancestors node =
    match node.parent.bind (forest.nodes[·]?) with
    | some above => above :: forest.ancestors above
    | none => [] := by
  have hchain := h.ancestors_chain hm
  generalize (forest.ancestors node).map (·.id) = path at hchain
  rw [h.ancestors_eq hm hchain]
  cases hchain with
  | top hnone =>
    rw [h.parentOf_eq hm] at hnone
    rw [hnone]
    rfl
  | @up _ place path hparent rest =>
    obtain ⟨above, habove⟩ := getElem? (h.tree.bounded hparent).1
    rw [h.parentOf_eq hm] at hparent
    rw [hparent, Option.bind_some, habove, List.filterMap_cons, habove]
    simp only
    rw [← h.id _ _ habove] at rest
    rw [h.ancestors_eq (Array.mem_of_getElem? habove) rest]

theorem ancestors_mem (hm : node ∈ forest.nodes) (ha : above ∈ forest.ancestors node) : above ∈ forest.nodes := by
  rw [h.ancestors_eq hm (h.ancestors_chain hm)] at ha
  obtain ⟨place, -, habove⟩ := List.mem_filterMap.mp ha
  exact Array.mem_of_getElem? habove

theorem mem_ancestors_iff (hm : node ∈ forest.nodes) :
    above ∈ forest.ancestors node ↔ above ∈ forest.nodes ∧ Ancestor forest.parentOf above.id node.id := by
  have hchain := h.ancestors_chain hm
  rw [← hchain.mem_iff, List.mem_map]
  constructor
  · intro ha
    exact ⟨h.ancestors_mem hm ha, above, ha, rfl⟩
  · rintro ⟨hin, found, hfound, hid⟩
    rwa [← h.eq_of_id (h.ancestors_mem hm hfound) hin hid]

theorem ancestors_last (hm : node ∈ forest.nodes) (hroot : node ≠ forest.rootNode) :
    (forest.ancestors node).getLast? = some forest.rootNode := by
  have hchain := h.ancestors_chain hm
  cases hlast : (forest.ancestors node).getLast? with
  | none =>
    rw [List.getLast?_eq_none_iff] at hlast
    rw [hlast] at hchain
    cases hchain with
    | top hnone =>
      rw [h.parentOf_eq hm] at hnone
      exact absurd ((h.mem_rootNode_iff hm).mp hnone) hroot
  | some last =>
    have hin := h.ancestors_mem hm (List.mem_of_getLast? hlast)
    have htop : forest.parentOf last.id = none := by
      refine hchain.getLast?_top ?_
      rw [List.getLast?_map, hlast]
      rfl
    rw [h.parentOf_eq hin] at htop
    rw [(h.mem_rootNode_iff hin).mp htop]

end Forest.Linked

/-! ### Built forests -/

/-- The tree that is made of records: node by node, link by link, and in the indexes. -/
structure Forest.IsTree (forest : Forest) (records : List Record) : Prop where
  size : forest.size = records.length
  id : ∀ (place : Nat) (node : Node), forest.nodes[place]? = some node → node.id = place
  uid : ∀ (place : Nat) (node : Node) (record : Record), forest.nodes[place]? = some node →
    records[place]? = some record → node.uid = record.uid
  root : forest.rootNode ∈ forest.nodes
  /-- No other node is without a parent. -/
  top : ∀ node ∈ forest.nodes, node.parent = none ↔ node = forest.rootNode
  child : ∀ node ∈ forest.nodes, ∀ child ∈ forest.nodes, child.id ∈ node.children ↔ child.parent = some node.id
  nodup : ∀ node ∈ forest.nodes, node.children.Nodup
  /-- All children are there, in the order of the record. -/
  children : ∀ node ∈ forest.nodes, (forest.children node).map (·.id) = node.children ∧
    ∀ record, records[node.id]? = some record → (forest.children node).map (·.uid) = record.children
  reached : ∀ node ∈ forest.nodes,
    ReflTransGen (fun above below => below ∈ forest.children above) forest.rootNode node
  /-- The ancestors of a node are all that come when one goes from parent to parent. -/
  ancestors : ∀ node ∈ forest.nodes, forest.ancestors node =
    match node.parent.bind (forest.nodes[·]?) with
    | some above => above :: forest.ancestors above
    | none => []
  distinct : ∀ node ∈ forest.nodes, (forest.ancestors node).Nodup ∧ node ∉ forest.ancestors node
  last : ∀ node ∈ forest.nodes, node ≠ forest.rootNode →
    (forest.ancestors node).getLast? = some forest.rootNode
  byUid : ∀ (uid : UInt64) (node : Node), forest.nodeByUid? uid = some node ↔ node ∈ forest.nodes ∧ node.uid = uid
  byRegion : ∀ region, forest.nodesFor region = forest.nodes.toList.filter (·.region.id == region)

/-- Every trace that is built gives one tree. -/
theorem build_isTree (h : Forest.build table records = .ok forest) : forest.IsTree records := by
  have hlinked := build_linked h
  have hto := build_linkedTo h
  constructor
  · exact hto.size
  · exact hlinked.id
  · intro place node record hnode hr
    exact build_uid h hnode hr
  · exact hlinked.rootNode_mem
  · intro node hm
    exact hlinked.mem_rootNode_iff hm
  · intro node hm child hc
    exact hlinked.child_iff hm hc
  · intro node hm
    exact hlinked.nodup _ _ (hlinked.mem_getElem? hm)
  · intro node hm
    refine ⟨hlinked.children_ids hm, ?_⟩
    intro record hr
    unfold Forest.children Forest.nodesAt
    rw [List.map_filterMap, hto.children _ _ _ (hlinked.mem_getElem? hm) hr]
    exact build_childUids h (List.mem_of_getElem? hr)
  · intro node hm
    exact hlinked.reached hm
  · intro node hm
    exact hlinked.ancestors_step hm
  · intro node hm
    have hchain := hlinked.ancestors_chain hm
    refine ⟨hchain.nodup.of_map, ?_⟩
    intro hown
    exact hchain.not_mem (List.mem_map_of_mem hown)
  · intro node hm hroot
    exact hlinked.ancestors_last hm hroot
  · intro uid node
    exact nodeByUid?_eq_some_iff h
  · exact nodesFor_eq h

theorem build_isTree_chain :
    let records : List Record :=
      [⟨3, 0, 0, .normal, 0, 1, false, [], [.ofWork 1 100 100]⟩,
        ⟨1, 0, 0, .normal, 0, 1, false, [4, 2], [.ofWork 1 1000 500]⟩,
        ⟨2, 0, 0, .normal, 0, 1, false, [3], [.ofWork 1 400 400]⟩,
        ⟨4, 0, 0, .normal, 0, 1, false, [], [.ofWork 1 300 300]⟩]
    ∃ forest, Forest.build .initial records = .ok forest ∧ forest.IsTree records ∧
      forest.nodes.toList.map (fun node => (forest.ancestors node).map (·.uid)) = [[2, 1], [], [1], [1]] := by
  intro records
  have hbuilt : (Forest.build .initial records).toOption.map (fun forest =>
      forest.nodes.toList.map fun node => (forest.ancestors node).map (·.uid)) = some [[2, 1], [], [1], [1]] := by
    decide +kernel
  obtain ⟨forest, hb, hancestors⟩ := toOption_map_eq_some.mp hbuilt
  exact ⟨forest, hb, build_isTree hb, hancestors⟩

end RegionPlanner
