import RegionPlanner.Proofs.Plan.Entries

/-!
# Plans that agree

A plan is made of the best choice at the root and the points of the nodes in it. Two cost models or exclusions that find
the same best choices there give the same plan, but for the name of the model.
-/

namespace RegionPlanner

variable {α : Type} [Quantity α] {forest : Forest} {own own' : Node → α} {model model' : CostModel α}
  {exclude exclude' : Exclusion} {plan : Plan α}

/-- Nodes that save as much by themselves are chosen alike. -/
theorem best_congr (h : forest.Linked) (hown : ∀ node ∈ forest.nodes, own' node = own node) :
    ∀ place < forest.size, forest.best own' place = forest.best own place := by
  refine h.induction ?_
  intro place node hnode ih
  have hbelow : node.children.map (forest.best own') = node.children.map (forest.best own) := List.map_congr_left ih
  rw [best_eq h own' hnode, best_eq h own hnode, hown node (Array.mem_of_getElem? hnode), hbelow]

theorem plan_model (hp : forest.plan model exclude = .ok plan) : plan.model = model.name := by
  simp only [Forest.plan] at hp
  split at hp
  · cases hp
  · cases hp
    rfl

theorem plan_congr (h : forest.Linked) (htarget : model'.target = model.target)
    (hserial : model'.serialTime forest.rootNode = model.serialTime forest.rootNode)
    (hroot : forest.planned model' exclude' forest.root = forest.planned model exclude forest.root)
    (hchosen : ∀ place ∈ (forest.planned model exclude forest.root).chosen,
      forest.planned model' exclude' place = forest.planned model exclude place) :
    forest.plan model' exclude' = (fun plan => { plan with model := model'.name }) <$> forest.plan model exclude := by
  have hlt : ∀ place ∈ (forest.planned model exclude forest.root).chosen, place < forest.size := by
    intro place hp
    obtain ⟨node, hnode, -⟩ := chosen_wins h forest.root h.tree.root_lt place hp
    exact (Array.getElem?_eq_some_iff.mp hnode).1
  unfold Forest.planned at hroot hchosen hlt
  simp only [Forest.plan, hserial]
  rw [hserial] at hroot hchosen
  by_cases hnone : Quantity.atMost (model.serialTime forest.rootNode) (Quantity.count 0) = true
  · rw [if_pos hnone, if_pos hnone]
    rfl
  · rw [if_neg hnone, if_neg hnone]
    generalize ownPoint model exclude (model.serialTime forest.rootNode) = own at hroot hchosen hlt
    generalize ownPoint model' exclude' (model.serialTime forest.rootNode) = own' at hroot hchosen hlt
    have hentries : (forest.best own forest.root).chosen.map (entryOf forest model.target (forest.evaluate own').points) =
        (forest.best own forest.root).chosen.map (entryOf forest model.target (forest.evaluate own).points) := by
      apply List.map_congr_left
      intro place hp
      unfold entryOf
      rw [evaluate_point h (hlt place hp), evaluate_point h (hlt place hp), hchosen place hp]
    rw [evaluate_chosen h, evaluate_chosen h, evaluate_point h h.tree.root_lt, evaluate_point h h.tree.root_lt, hroot,
      htarget, hentries]
    rfl

/-- Models that estimate every node alike on one target make the same plan. -/
theorem plan_of_estimates (h : forest.Linked) (htarget : model'.target = model.target)
    (hserial : ∀ node ∈ forest.nodes, model'.serialTime node = model.serialTime node)
    (hparallel : ∀ node ∈ forest.nodes, model'.parallelTime node = model.parallelTime node) :
    forest.plan model' exclude = (fun plan => { plan with model := model'.name }) <$> forest.plan model exclude := by
  have hroot := hserial _ h.rootNode_mem
  have hown : ∀ node ∈ forest.nodes, ownPoint model' exclude (model'.serialTime forest.rootNode) node =
      ownPoint model exclude (model.serialTime forest.rootNode) node := by
    intro node hm
    unfold ownPoint selfPoint
    rw [hroot, hserial node hm, hparallel node hm]
  have hplanned : ∀ place < forest.size, forest.planned model' exclude place = forest.planned model exclude place :=
    best_congr h hown
  refine plan_congr h htarget hroot (hplanned _ h.tree.root_lt) ?_
  intro place hp
  obtain ⟨node, hnode, -⟩ := chosen_wins h forest.root h.tree.root_lt place hp
  exact hplanned place (Array.getElem?_eq_some_iff.mp hnode).1

end RegionPlanner
