import RegionPlanner.Proofs.Plan.Best

/-!
# The entries of a plan

The entries of a plan are the nodes of the best choice at the root. No node is chosen together with a node
above it, none is excluded, and each saves its own point, which is more than nothing.
-/

namespace RegionPlanner

section
variable {α : Type} [Quantity α] {forest : Forest} {model : CostModel α} {exclude : Exclusion} {plan : Plan α}
  {rootTime : α} {place : Nat} {node : Node}

/-! ### Points -/

theorem selfPoint_nonneg [OrderedQuantity α] (node : Node) : Quantity.NonNegative (selfPoint model rootTime node) :=
  OrderedQuantity.larger_nonneg _

theorem ownPoint_nonneg [OrderedQuantity α] (node : Node) :
    Quantity.NonNegative (ownPoint model exclude rootTime node) := by
  unfold ownPoint
  split
  · exact Quantity.zero_nonneg
  · exact selfPoint_nonneg node

theorem ownPoint_of_included (h : exclude node = false) :
    ownPoint model exclude rootTime node = selfPoint model rootTime node := by
  unfold ownPoint
  rw [h]
  rfl

theorem included_of_positive [OrderedQuantity α]
    (h : Quantity.less (Quantity.count 0) (ownPoint model exclude rootTime node) = true) : exclude node = false := by
  have hzero : Quantity.NonNegative (Quantity.count 0 : α) := Quantity.zero_nonneg
  by_contra hexcluded
  rw [Bool.not_eq_false] at hexcluded
  unfold ownPoint at h
  rw [hexcluded, if_pos rfl] at h
  exact Quantity.not_atMost_of_less hzero hzero h hzero.atMost_self

/-! ### What a plan is made of -/

/-- The best choice that a plan follows. -/
def Forest.planned (forest : Forest) (model : CostModel α) (exclude : Exclusion) : Nat → Choice α :=
  forest.best (ownPoint model exclude (model.serialTime forest.rootNode))

theorem plan_isOk : (∃ plan, forest.plan model exclude = .ok plan) ↔
    ¬ Quantity.atMost (model.serialTime forest.rootNode) (Quantity.count 0) = true := by
  simp only [Forest.plan]
  split
  · next hnone => simp [hnone]
  · next hsome => simp [hsome]

theorem plan_made (h : forest.Linked) (hp : forest.plan model exclude = .ok plan) :
    plan.totalReduction = (forest.planned model exclude forest.root).point ∧
    plan.entries.Perm ((forest.planned model exclude forest.root).chosen.map (entryOf forest model.target
      (forest.evaluate (ownPoint model exclude (model.serialTime forest.rootNode))).points)) := by
  unfold Forest.planned
  rw [← evaluate_point h h.tree.root_lt, ← evaluate_chosen h]
  simp only [Forest.plan] at hp
  split at hp
  · cases hp
  · cases hp
    exact ⟨rfl, sorted_perm _ _⟩

theorem entries_nodes (h : forest.Linked) (hp : forest.plan model exclude = .ok plan) :
    (plan.entries.map (·.node)).Perm (forest.planned model exclude forest.root).chosen := by
  have hperm := (plan_made h hp).2.map (·.node)
  rw [List.map_map] at hperm
  have hplace : (·.node) ∘ entryOf forest model.target
      (forest.evaluate (ownPoint model exclude (model.serialTime forest.rootNode))).points = id := rfl
  rwa [hplace, List.map_id] at hperm

/-- An entry stands for the node of its place and saves what the node saves by itself. -/
theorem entry_wins (h : forest.Linked) (hp : forest.plan model exclude = .ok plan) {entry : PlanEntry α}
    (he : entry ∈ plan.entries) : ∃ node, forest.nodes[entry.node]? = some node ∧
      Quantity.less (forest.bestBelow (ownPoint model exclude (model.serialTime forest.rootNode)) node)
        (ownPoint model exclude (model.serialTime forest.rootNode) node) = true ∧
      entry.reduction = ownPoint model exclude (model.serialTime forest.rootNode) node := by
  obtain ⟨place, hplace, rfl⟩ := List.mem_map.mp ((plan_made h hp).2.mem_iff.mp he)
  obtain ⟨node, hnode, hless, hbest⟩ := chosen_wins h forest.root h.tree.root_lt place hplace
  refine ⟨node, hnode, hless, ?_⟩
  unfold entryOf
  simp only
  rw [evaluate_point h (Array.getElem?_eq_some_iff.mp hnode).1, hbest]

/-! ### Independence -/

theorem entries_nodup (h : forest.Linked) (hp : forest.plan model exclude = .ok plan) :
    (plan.entries.map (·.node)).Nodup :=
  (entries_nodes h hp).nodup_iff.mpr (chosen_nodup h forest.root h.tree.root_lt)

theorem entries_apart (h : forest.Linked) (hp : forest.plan model exclude = .ok plan) {upper lower : PlanEntry α}
    (hupper : upper ∈ plan.entries) (hlower : lower ∈ plan.entries) :
    ¬ Ancestor forest.parentOf upper.node lower.node := by
  have hmem : ∀ entry ∈ plan.entries, entry.node ∈ (forest.planned model exclude forest.root).chosen :=
    fun entry he => (entries_nodes h hp).mem_iff.mp (List.mem_map_of_mem he)
  exact chosen_apart h forest.root h.tree.root_lt upper.node (hmem upper hupper) lower.node (hmem lower hlower)

theorem entry_included [OrderedQuantity α] (h : forest.Linked) (hp : forest.plan model exclude = .ok plan)
    {entry : PlanEntry α} (he : entry ∈ plan.entries) : ∃ node, forest.nodes[entry.node]? = some node ∧ exclude node = false ∧
      entry.reduction = selfPoint model (model.serialTime forest.rootNode) node ∧
      Quantity.less (Quantity.count 0) entry.reduction = true := by
  obtain ⟨node, hnode, hless, hreduction⟩ := entry_wins h hp he
  have hpositive := chosen_positive h ownPoint_nonneg hnode hless
  have hincluded := included_of_positive hpositive
  refine ⟨node, hnode, hincluded, ?_, ?_⟩
  · rw [hreduction, ownPoint_of_included hincluded]
  · rwa [hreduction]

end

section
variable {table : RegionTable} {records : List Record} {forest : Forest} {model : CostModel Float}
  {exclude : Exclusion} {plan : Plan Float}

theorem plan_independent (hb : Forest.build table records = .ok forest) (hp : forest.plan model exclude = .ok plan) :
    (plan.entries.map (·.node)).Nodup ∧
    (∀ upper ∈ plan.entries, ∀ lower ∈ plan.entries, ¬ Ancestor forest.parentOf upper.node lower.node) ∧
    ∀ entry ∈ plan.entries, ∃ node, forest.nodes[entry.node]? = some node ∧ exclude node = false ∧
      entry.reduction = selfPoint model (model.serialTime forest.rootNode) node ∧ 0 < entry.reduction := by
  have h := build_linked hb
  refine ⟨entries_nodup h hp, fun upper hupper lower hlower => entries_apart h hp hupper hlower, ?_⟩
  intro entry he
  obtain ⟨node, hnode, hincluded, hreduction, hpositive⟩ := entry_included h hp he
  exact ⟨node, hnode, hincluded, hreduction, Double.less_eq_true.mp hpositive⟩

theorem plan_independent_siblings :
    let records : List Record :=
      [⟨1, 0, 0, .normal, 0, 1, false, [5, 7], [⟨1, 8, 8, 8, 100, 100, 0, 0, 0, 0⟩]⟩,
        ⟨5, 0, 0, .normal, 0, 1, false, [], [⟨1, 4, 2, 2, 100, 100, 0, 0, 0, 0⟩]⟩,
        ⟨7, 0, 0, .normal, 0, 1, false, [], [⟨1, 4, 1, 1, 100, 100, 0, 0, 0, 0⟩]⟩]
    let model : CostModel Float := plainModel ⟨4, 0, none, none, none⟩
    ∃ forest plan, Forest.build .initial records = .ok forest ∧ forest.plan model .none = .ok plan ∧
      plan.entries.map (·.node) = [2, 1] ∧
      (∀ upper ∈ plan.entries, ∀ lower ∈ plan.entries, ¬ Ancestor forest.parentOf upper.node lower.node) ∧
      ∀ entry ∈ plan.entries, 0 < entry.reduction := by
  intro records model
  have hrun : (Forest.build .initial records >>= fun forest => forest.plan model .none).toOption.map
      (fun plan => plan.entries.map (·.node)) = some [2, 1] := by decide +kernel
  obtain ⟨plan, hplan, hentries⟩ := toOption_map_eq_some.mp hrun
  obtain ⟨forest, hb, hp⟩ := bind_eq_ok.mp hplan
  obtain ⟨-, hapart, hpoints⟩ := plan_independent hb hp
  refine ⟨forest, plan, hb, hp, hentries, hapart, ?_⟩
  intro entry he
  obtain ⟨node, -, -, -, hpositive⟩ := hpoints entry he
  exact hpositive

end

end RegionPlanner
