import RegionPlanner.Proofs.Forest.Accepted

/-!
# Forests are trees

In a forest that was built every node stands at its own place, knows its parent and its children, and can be
reached from the root. So a value of a subtree can be computed from the values of the subtrees below it.
-/

namespace RegionPlanner

namespace Forest

/-- The place of the parent of the node at a place. -/
def parentOf (forest : Forest) (place : Nat) : Option Nat := forest.nodes[place]?.bind (·.parent)

/-- Nodes that form one tree, each at its own place. -/
structure Linked (forest : Forest) : Prop where
  id : ∀ (place : Nat) (node : Node), forest.nodes[place]? = some node → node.id = place
  tree : Rooted forest.parentOf forest.size forest.root
  children : ∀ (place : Nat) (node : Node), forest.nodes[place]? = some node →
    ∀ child, child ∈ node.children ↔ forest.parentOf child = some place
  nodup : ∀ (place : Nat) (node : Node), forest.nodes[place]? = some node → node.children.Nodup

/-- A value of the subtree at a place from the node and the values below it, down to a depth. -/
def foldWithin {β : Type} (forest : Forest) (combine : Node → List β → β) (bottom : β) : Nat → Nat → β
  | 0, _ => bottom
  | fuel + 1, place =>
    match forest.nodes[place]? with
    | some node => combine node (node.children.map (foldWithin forest combine bottom fuel))
    | none => bottom

/-- A value of the subtree at a place from the node and the values below it. No way down has more nodes than
there are. -/
def fold {β : Type} (forest : Forest) (combine : Node → List β → β) (bottom : β) (place : Nat) : β :=
  forest.foldWithin combine bottom forest.size place

end Forest

variable {table : RegionTable} {records : List Record} {forest : Forest} {place : Nat} {node : Node}

/-! ### Built forests -/

/-- Later passes over linked nodes leave the links alone. -/
theorem LinkedTo.of_same {nodes out : Array Node} (h : LinkedTo records nodes) (hs : out.size = nodes.size)
    (hsame : ∀ (place : Nat) (node : Node), nodes[place]? = some node → ∃ after, out[place]? = some after ∧
      after.id = node.id ∧ after.parent = node.parent ∧ after.children = node.children) : LinkedTo records out := by
  have hfrom : ∀ (place : Nat) (after : Node), out[place]? = some after → ∃ node, nodes[place]? = some node ∧
      after.id = node.id ∧ after.parent = node.parent ∧ after.children = node.children := by
    intro place after hafter
    have hlt : place < nodes.size := hs ▸ (Array.getElem?_eq_some_iff.mp hafter).1
    have hnode := Array.getElem?_eq_getElem hlt
    obtain ⟨found, hfound, hlinks⟩ := hsame place _ hnode
    rw [hafter] at hfound
    cases hfound
    exact ⟨_, hnode, hlinks⟩
  refine ⟨hs.trans h.size, ?_, ?_, ?_⟩
  · intro place after hafter
    obtain ⟨node, hnode, hid, -, -⟩ := hfrom place after hafter
    rw [hid, h.id place node hnode]
  · intro place after hafter
    obtain ⟨node, hnode, -, hparent, -⟩ := hfrom place after hafter
    rw [hparent, h.parent place node hnode]
  · intro place after record hafter hrecord
    obtain ⟨node, hnode, -, -, hchildren⟩ := hfrom place after hafter
    rw [hchildren, h.children place node record hnode hrecord]

theorem weighted_linkedTo (h : WellFormed table records) : LinkedTo records (weightedNodes table records).toArray := by
  have hr : ∀ (place : Nat) (record : Record), records[place]? = some record → record.Readable table :=
    fun _ record hrecord => h.readable record (List.mem_of_getElem? hrecord)
  refine (linked_linkedTo hr).of_same (by simp [weightedNodes]) ?_
  intro place node hnode
  rw [List.getElem?_toArray] at hnode
  let weights := (weightsOf (linkedNodes table records).toArray).toOption.getD Std.TreeMap.empty
  refine ⟨node.weighted weights, ?_, rfl, rfl, rfl⟩
  unfold weightedNodes
  rw [List.getElem?_toArray, List.getElem?_map, hnode]
  rfl

theorem build_linkedTo (h : Forest.build table records = .ok forest) : LinkedTo records forest.nodes := by
  obtain ⟨hformed, -, hfinished⟩ := build_sound h
  obtain ⟨hlength, hnodes⟩ := mapM_getElem? hfinished
  refine (weighted_linkedTo hformed).of_same ?_ ?_
  · rw [List.size_toArray]
    exact hlength.symm
  · intro place node hnode
    rw [List.getElem?_toArray] at hnode
    obtain ⟨after, hafter, hout⟩ := hnodes place node hnode
    rw [Array.getElem?_toList] at hout
    obtain ⟨value, -, rfl⟩ := map_eq_ok.mp hafter
    exact ⟨_, hout, rfl, rfl, rfl⟩

theorem build_parentOf (h : Forest.build table records = .ok forest) : forest.parentOf = parentAt records := by
  have hlinked := build_linkedTo h
  funext place
  unfold Forest.parentOf
  cases hnode : forest.nodes[place]? with
  | some node => rw [Option.bind_some, hlinked.parent place node hnode]
  | none =>
    have hout : records[place]? = none := by
      rw [List.getElem?_eq_none_iff, ← hlinked.size]
      exact Array.getElem?_eq_none_iff.mp hnode
    unfold parentAt
    rw [hout]
    rfl

theorem build_linked (h : Forest.build table records = .ok forest) : forest.Linked := by
  obtain ⟨hformed, tree, -⟩ := build_sound h
  have hlinked := build_linkedTo h
  have hparent := build_parentOf h
  have hn := hformed.distinct
  have hl := tree.listed_nodup (known_iff.mp hformed.known)
  have hrecord : ∀ (place : Nat) (node : Node), forest.nodes[place]? = some node →
      ∃ record, records[place]? = some record ∧ node.children = record.children.filterMap (placeOf records) := by
    intro place node hnode
    have hlt : place < records.length := hlinked.size ▸ (Array.getElem?_eq_some_iff.mp hnode).1
    have hr := List.getElem?_eq_getElem hlt
    exact ⟨_, hr, hlinked.children place node _ hnode hr⟩
  refine ⟨hlinked.id, ?_, ?_, ?_⟩
  · rw [hparent]
    unfold Forest.size
    rw [hlinked.size]
    exact tree.rooted hl
  · intro place node hnode child
    obtain ⟨record, hr, hchildren⟩ := hrecord place node hnode
    rw [hparent, parentAt_eq_some_iff hl, childAt_iff hn hr, hchildren, List.mem_filterMap]
  · intro place node hnode
    obtain ⟨record, hr, hchildren⟩ := hrecord place node hnode
    have hnodup := (List.nodup_flatMap.mp hl).1 record (List.mem_of_getElem? hr)
    rw [hchildren]
    refine hnodup.filterMap ?_
    intro uid uid' position hposition hposition'
    obtain ⟨found, hfound, rfl⟩ := placeOf_found hposition
    obtain ⟨found', hfound', rfl⟩ := placeOf_found hposition'
    rw [hfound] at hfound'
    cases hfound'
    rfl

/-! ### Values of subtrees -/

namespace Forest.Linked

variable {β : Type} {combine : Node → List β → β} {bottom : β}

theorem child_lt (h : forest.Linked) (hnode : forest.nodes[place]? = some node) {child : Nat}
    (hc : child ∈ node.children) : child < forest.size :=
  (h.tree.bounded ((h.children place node hnode child).mp hc)).2

theorem getElem? (hp : place < forest.size) : ∃ node, forest.nodes[place]? = some node :=
  ⟨_, Array.getElem?_eq_getElem hp⟩

theorem placed (h : forest.Linked) : Placed forest.parentOf forest.root forest.nodes := by
  refine ⟨h.tree, h.id, ?_⟩
  intro place node hnode
  unfold Forest.parentOf
  rw [hnode]
  rfl

theorem mem_getElem? (h : forest.Linked) (hm : node ∈ forest.nodes) : forest.nodes[node.id]? = some node :=
  h.placed.mem_getElem? hm

/-- The id tells which node it is. -/
theorem eq_of_id {other : Node} (h : forest.Linked) (hm : node ∈ forest.nodes) (hm' : other ∈ forest.nodes)
    (hid : node.id = other.id) : node = other := by
  have hnode := h.mem_getElem? hm
  rw [hid, h.mem_getElem? hm'] at hnode
  exact (Option.some.inj hnode).symm

theorem children_eq (h : forest.Linked) (hnode : forest.nodes[place]? = some node) :
    forest.children node = node.children.map (forest.nodes.getD · default) := by
  unfold Forest.children Forest.nodesAt
  rw [← List.filterMap_eq_map]
  apply List.filterMap_congr
  intro child hc
  obtain ⟨below, hbelow⟩ := getElem? (h.child_lt hnode hc)
  rw [hbelow, Function.comp_apply, getD_node hbelow]

theorem rootNode_mem (h : forest.Linked) : forest.rootNode ∈ forest.nodes := by
  obtain ⟨node, hnode⟩ := getElem? h.tree.root_lt
  unfold Forest.rootNode
  rw [getD_node hnode]
  exact Array.mem_of_getElem? hnode

/-- What holds at a node if it holds at its children holds everywhere. -/
theorem induction (h : forest.Linked) {P : Nat → Prop} (step : ∀ (place : Nat) (node : Node),
    forest.nodes[place]? = some node → (∀ child ∈ node.children, P child) → P place) :
    ∀ place < forest.size, P place := by
  refine h.tree.induction_up ?_
  intro place hlt ih
  obtain ⟨node, hnode⟩ := getElem? hlt
  refine step place node hnode ?_
  intro child hc
  exact ih child ((h.children place node hnode child).mp hc)

/-- More fuel than there is room below changes nothing. -/
theorem foldWithin_stable (h : forest.Linked) : ∀ place < forest.size, ∀ path, Chain forest.parentOf place path →
    ∀ fuel fuel', forest.size ≤ fuel + path.length → forest.size ≤ fuel' + path.length →
      forest.foldWithin combine bottom fuel place = forest.foldWithin combine bottom fuel' place := by
  refine h.tree.induction_up ?_
  intro place hlt ih path hpath fuel fuel' hfuel hfuel'
  have hlength := h.tree.length_lt hlt hpath
  obtain ⟨node, hnode⟩ := getElem? hlt
  cases fuel with
  | zero => omega
  | succ fuel =>
    cases fuel' with
    | zero => omega
    | succ fuel' =>
      rw [foldWithin, foldWithin, hnode]
      simp only
      congr 1
      apply List.map_congr_left
      intro child hc
      have hparent := (h.children place node hnode child).mp hc
      have hbelow := Chain.up hparent hpath
      refine ih child hparent (place :: path) hbelow fuel fuel' ?_ ?_
      · rw [List.length_cons]
        omega
      · rw [List.length_cons]
        omega

theorem fold_eq (h : forest.Linked) (hnode : forest.nodes[place]? = some node) :
    forest.fold combine bottom place = combine node (node.children.map (forest.fold combine bottom)) := by
  have hlt : place < forest.size := (Array.getElem?_eq_some_iff.mp hnode).1
  obtain ⟨path, hpath⟩ := h.tree.chain hlt
  have hlength := h.tree.length_lt hlt hpath
  have hroom : forest.fold combine bottom place = forest.foldWithin combine bottom (forest.size + 1) place :=
    h.foldWithin_stable place hlt path hpath _ _ (by omega) (by omega)
  rw [hroom, foldWithin, hnode]
  rfl

end Forest.Linked

end RegionPlanner
