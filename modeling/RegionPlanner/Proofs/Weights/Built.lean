import RegionPlanner.Proofs.Weights.Stored

/-!
# Weights of built trees

The shares that a build stores can be found again in the tree that it returns: storing them, and finding a
self-parallelism for every node, changes nothing that a share is made of. In a built tree every sink is below the
init node that it names, so shares are always found.
-/

namespace RegionPlanner

variable {table : RegionTable} {records : List Record} {record : Record} {place : Nat} {forest : Forest}
  {node sink : Node} {weights : Weights}

/-- A node without what is stored in it after the shares were found. -/
def Node.unsettled (node : Node) : Node := { node.unweighted with selfParallelism := Quantity.count 1 }

theorem Node.unsettled_alike (node : Node) : node.Alike node.unsettled := by
  obtain ⟨hid, huid, hkind, hparent, htarget, hwork⟩ := node.unweighted_alike
  exact ⟨hid, huid, hkind, hparent, htarget, hwork⟩

theorem unsettled_of_finished (h : (node.weighted weights).finished = .ok sink) : sink.unsettled = node.unsettled := by
  unfold Node.unsettled
  rw [unweighted_of_finished h]

section
variable (hb : Forest.build table records = .ok forest)
include hb

theorem build_unsettled : forest.nodes.map Node.unsettled = (linkedNodes table records).toArray.map Node.unsettled := by
  apply Array.ext_getElem?
  intro place
  unfold linkedNodes
  have hrecord : (records.mapIdx (linkedNode table records)).toArray[place]? =
      records[place]?.map (linkedNode table records place) := by
    rw [List.getElem?_toArray, List.getElem?_mapIdx]
  rw [Array.getElem?_map, Array.getElem?_map, hrecord]
  cases hr : records[place]? with
  | some record =>
    obtain ⟨weights, node, -, hnode, hfinished⟩ := build_getElem? hb hr
    rw [hnode]
    exact congrArg some (unsettled_of_finished hfinished)
  | none =>
    rw [List.getElem?_eq_none_iff, ← (build_linkedTo hb).size] at hr
    rw [Array.getElem?_eq_none hr]
    rfl

/-- The shares of a built tree are those that the build stored in it. -/
theorem build_weightsOf : weightsOf forest.nodes = weightsOf (linkedNodes table records).toArray := by
  rw [← weightsOf_map Node.unsettled_alike forest.nodes, build_unsettled hb, weightsOf_map Node.unsettled_alike]

theorem build_fields (hr : records[place]? = some record) (hnode : forest.nodes[place]? = some node) :
    node.kind = (linkedNode table records place record).kind ∧
      node.target = (linkedNode table records place record).target := by
  obtain ⟨weights, found, -, hfound, hfinished⟩ := build_getElem? hb hr
  rw [hnode] at hfound
  cases hfound
  obtain ⟨value, -, rfl⟩ := map_eq_ok.mp hfinished
  exact ⟨rfl, rfl⟩

theorem build_kind (hr : records[place]? = some record) (hnode : forest.nodes[place]? = some node) {kind : NodeKind}
    (hn : kind ≠ .normal) (hi : kind ≠ .inner) : node.kind = kind ↔ record.kind = kind := by
  rw [(build_fields hb hr hnode).1]
  exact linkedNode_kind (build_sound hb).1.formed.readableAt hr hn hi

/-- Every sink names an init node that is above it. -/
theorem build_sink (hs : sink ∈ forest.nodes) (hkind : sink.kind = .sink) : ∃ init ∈ forest.nodes,
    init.kind = .init ∧ sink.target = some init.id ∧ Ancestor forest.parentOf init.id sink.id := by
  obtain ⟨place, hsink⟩ := Array.mem_iff_getElem?.mp hs
  obtain ⟨record, hr⟩ := build_record hb hsink
  have hformed := (build_sound hb).1
  have hlinked := build_linked hb
  have hrecord := (build_kind hb hr hsink (by simp) (by simp)).mp hkind
  obtain ⟨above, target, htarget, huid, hinit, hbelow⟩ := hformed.sinks place record hr hrecord
  obtain ⟨init, hi⟩ := build_node hb htarget
  rw [← covers_parentAt hformed.formed.listed_nodup, ← build_parentOf hb] at hbelow
  refine ⟨init, Array.mem_of_getElem? hi, (build_kind hb htarget hi (by simp) (by simp)).mpr hinit, ?_, ?_⟩
  · rw [hlinked.id above init hi, (build_fields hb hr hsink).2]
    exact (hformed.formed.linkedNode_target htarget).mpr ⟨hrecord, huid.symm⟩
  · rwa [hlinked.id above init hi, hlinked.id place sink hsink]

theorem build_resolved : Resolved forest.nodes := by
  intro sink hs hkind
  obtain ⟨init, hi, hinit, htarget, -⟩ := build_sink hb hs hkind
  exact ⟨init, hi, hinit, htarget⟩

theorem build_allBelow (init : Nat) : AllBelow forest.parentOf forest.nodes init := by
  intro sink hs hkind htarget
  obtain ⟨above, -, -, habove, hbelow⟩ := build_sink hb hs hkind
  rw [htarget] at habove
  cases habove
  exact hbelow

theorem build_weights : ∃ weights, weightsOf forest.nodes = .ok weights := by
  rw [build_weightsOf hb]
  exact (build_sound hb).1.formed.weights_found

end

end RegionPlanner
