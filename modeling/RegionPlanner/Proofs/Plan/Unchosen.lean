import RegionPlanner.Proofs.Plan.Agreement

/-!
# Excluding what was not chosen

When more nodes are excluded, the points of their ancestors go down and other nodes may be chosen below them. A choice that
has none of the excluded nodes stays as it is, for it only competes with less. So a plan stays the same when nodes are
excluded that it did not choose, even those that won in their own subtree and were then overruled.
-/

namespace RegionPlanner

section
variable {α : Type} [Quantity α] [OrderedQuantity α] {forest : Forest} {own own' : Node → α} {place : Nat} {node : Node}

/-! ### Choices -/

theorem bestBelow_mono (h : forest.Linked) (hown : ∀ node, Quantity.NonNegative (own node))
    (hown' : ∀ node, Quantity.NonNegative (own' node))
    (hmore : ∀ node ∈ forest.nodes, Quantity.atMost (own node) (own' node) = true)
    (hnode : forest.nodes[place]? = some node) :
    Quantity.atMost (forest.bestBelow own node) (forest.bestBelow own' node) = true := by
  apply Quantity.total_mono
  rw [List.forall₂_map_left_iff, List.forall₂_map_right_iff, List.forall₂_same]
  intro child hc
  have hlt := h.child_lt hnode hc
  exact ⟨best_nonneg h hown child hlt, best_mono h hown hown' hmore child hlt⟩

/-- A choice whose nodes are worth what they were stays, if no other node is worth more than it was. -/
theorem best_kept (h : forest.Linked) (hown : ∀ node, Quantity.NonNegative (own node))
    (hown' : ∀ node, Quantity.NonNegative (own' node))
    (hless : ∀ node ∈ forest.nodes, Quantity.atMost (own' node) (own node) = true) : ∀ place < forest.size,
    (∀ below ∈ (forest.best own place).chosen, ∀ node, forest.nodes[below]? = some node → own' node = own node) →
      forest.best own' place = forest.best own place := by
  refine h.induction ?_
  intro place node hnode ih hkept
  have hnonneg := bestBelow_nonneg h hown hnode
  have hnonneg' := bestBelow_nonneg h hown' hnode
  rcases best_cases h own hnode with ⟨hwins, hbest⟩ | ⟨hloses, hbest⟩
  · -- The node is worth the same, and it competes with no more than before.
    have hsame : own' node = own node := hkept place (by simp [hbest]) node hnode
    have hwins' : Quantity.less (forest.bestBelow own' node) (own' node) = true := by
      rw [hsame]
      exact Quantity.less_of_atMost_of_less hnonneg' (hown node) (bestBelow_mono h hown' hown hless hnode) hwins
    rcases best_cases h own' hnode with ⟨-, hbest'⟩ | ⟨hloses', -⟩
    · rw [hbest', hbest, hsame]
    · rw [hwins'] at hloses'
      cases hloses'
  · -- Every child keeps its choice, and the node is worth no more against them.
    have hchild : ∀ child ∈ node.children, forest.best own' child = forest.best own child := by
      intro child hc
      refine ih child hc ?_
      intro below hb
      refine hkept below ?_
      rw [hbest]
      exact List.mem_flatMap.mpr ⟨child, hc, hb⟩
    have hsum : forest.bestBelow own' node = forest.bestBelow own node := by
      unfold Forest.bestBelow
      rw [List.map_congr_left fun child hc => congrArg Choice.point (hchild child hc)]
    have hloses' : ¬ Quantity.less (forest.bestBelow own' node) (own' node) = true := by
      intro hwins'
      rw [hsum] at hwins'
      refine Quantity.not_atMost_of_less hnonneg (hown' node) hwins' ?_
      refine OrderedQuantity.atMost_trans (hless node (Array.mem_of_getElem? hnode)) ?_
      exact Quantity.atMost_of_not_less hnonneg (hown node) (Bool.eq_false_iff.mp hloses)
    rcases best_cases h own' hnode with ⟨hwins', -⟩ | ⟨-, hbest'⟩
    · exact absurd hwins' hloses'
    · rw [hbest', hbest, hsum, List.flatMap_congr fun child hc => congrArg Choice.chosen (hchild child hc)]

/-! ### Plans -/

variable {model : CostModel α} {exclude other : Exclusion} {rootTime : α} {plan : Plan α}

omit [OrderedQuantity α] in
theorem ownPoint_union (hother : other node = false) :
    ownPoint model (exclude.union other) rootTime node = ownPoint model exclude rootTime node := by
  unfold ownPoint Exclusion.union
  rw [hother, Bool.or_false]

theorem ownPoint_union_atMost (node : Node) : Quantity.atMost (ownPoint model (exclude.union other) rootTime node)
    (ownPoint model exclude rootTime node) = true := by
  cases hother : other node with
  | false =>
    rw [ownPoint_union hother]
    exact (ownPoint_nonneg node).atMost_self
  | true =>
    have hnothing : ownPoint model (exclude.union other) rootTime node = Quantity.count 0 := by
      unfold ownPoint Exclusion.union
      rw [hother, Bool.or_true, if_pos rfl]
    rw [hnothing]
    exact ownPoint_nonneg node

/-- A choice stays if the plan is made of its nodes, none of which is excluded now. -/
theorem planned_kept (h : forest.Linked) (hp : forest.plan model exclude = .ok plan)
    (hother : ∀ entry ∈ plan.entries, ∀ node, forest.nodes[entry.node]? = some node → other node = false)
    (hlt : place < forest.size) (hchosen : ∀ below ∈ (forest.planned model exclude place).chosen,
      below ∈ (forest.planned model exclude forest.root).chosen) :
    forest.planned model (exclude.union other) place = forest.planned model exclude place := by
  refine best_kept h ownPoint_nonneg ownPoint_nonneg (fun node _ => ownPoint_union_atMost node) place hlt ?_
  intro below hb node hnode
  have hentry := (entries_nodes h hp).mem_iff.mpr (hchosen below hb)
  obtain ⟨entry, he, rfl⟩ := List.mem_map.mp hentry
  exact ownPoint_union (hother entry he node hnode)

end

section
variable {table : RegionTable} {records : List Record} {forest : Forest} {model : CostModel Float}
  {exclude other : Exclusion} {plan : Plan Float}

theorem plan_exclude_unchosen (hb : Forest.build table records = .ok forest) (hp : forest.plan model exclude = .ok plan)
    (hother : ∀ entry ∈ plan.entries, ∀ node, forest.nodes[entry.node]? = some node → other node = false) :
    forest.plan model (exclude.union other) = .ok plan := by
  have h := build_linked hb
  have hroot := planned_kept h hp hother h.tree.root_lt fun _ hb => hb
  have hkept : ∀ place ∈ (forest.planned model exclude forest.root).chosen,
      forest.planned model (exclude.union other) place = forest.planned model exclude place := by
    intro place hplace
    obtain ⟨node, hnode, -, hbest⟩ := chosen_wins h forest.root h.tree.root_lt place hplace
    refine planned_kept h hp hother (Array.getElem?_eq_some_iff.mp hnode).1 ?_
    -- Of a chosen node nothing but itself is chosen in its subtree.
    intro below hb
    unfold Forest.planned at hb
    rw [hbest, List.mem_singleton] at hb
    rwa [hb]
  rw [plan_congr h rfl rfl hroot hkept, hp, ← plan_model hp]
  rfl

/-- The second node wins in its own subtree and is overruled by the root. -/
theorem plan_exclude_unchosen_overruled :
    let records : List Record :=
      [⟨1, 0, 0, .normal, 0, 1, false, [5, 7], [.ofWork 1 80 16]⟩,
        ⟨5, 0, 0, .normal, 0, 1, false, [6], [.ofWork 1 40 10]⟩,
        ⟨6, 0, 0, .normal, 0, 1, false, [], [.ofWork 1 20 10]⟩,
        ⟨7, 0, 0, .normal, 0, 1, false, [], [.ofWork 1 40 10]⟩]
    let model : CostModel Float := plainModel ⟨8, 0, none, none, none⟩
    ∃ forest plan, Forest.build .initial records = .ok forest ∧ forest.plan model (.uids [7]) = .ok plan ∧
      plan.entries.map (·.uid) = [1] ∧ forest.plan model (Exclusion.union (.uids [7]) (.uids [5])) = .ok plan := by
  intro records model
  have hrun : (Forest.build .initial records).toOption.map (fun forest => (forest.plan model (.uids [7])).toOption.map
      fun plan => (plan.entries.map (·.uid), plan.entries.map fun entry => forest.nodes[entry.node]?.map (·.uid))) =
      some (some ([1], [some 1])) := by decide +kernel
  obtain ⟨forest, hb, hread⟩ := toOption_map_eq_some.mp hrun
  obtain ⟨plan, hp, hentries⟩ := toOption_map_eq_some.mp hread
  rw [Prod.mk.injEq] at hentries
  refine ⟨forest, plan, hb, hp, hentries.1, plan_exclude_unchosen hb hp ?_⟩
  intro entry he node hnode
  have huid : forest.nodes[entry.node]?.map (·.uid) ∈ [some 1] := hentries.2 ▸ List.mem_map_of_mem he
  rw [hnode, Option.map_some, List.mem_singleton, Option.some.injEq] at huid
  unfold Exclusion.uids
  rw [huid]
  rfl

end

end RegionPlanner
