import RegionPlanner.Proofs.Plan.Choice
import RegionPlanner.Proofs.Plan.Saving

/-!
# The best choice

The nodes of the best choice in a subtree lie in that subtree, each once, and none of them above another. Each
of them saves strictly more than the best choices below it. So no other set of nodes saves more.
-/

namespace RegionPlanner

variable {α : Type} [Quantity α] {forest : Forest} {own : Node → α} {place : Nat} {node : Node}

/-- Time saved by the best choices of the children of a node. -/
def Forest.bestBelow (forest : Forest) (own : Node → α) (node : Node) : α :=
  Quantity.total (node.children.map fun child => (forest.best own child).point)

/-- Either the node itself is chosen or what is chosen below it. -/
theorem best_cases (h : forest.Linked) (own : Node → α) (hnode : forest.nodes[place]? = some node) :
    (Quantity.less (forest.bestBelow own node) (own node) = true ∧ forest.best own place = ⟨own node, [place]⟩) ∨
    (Quantity.less (forest.bestBelow own node) (own node) = false ∧ forest.best own place =
      ⟨forest.bestBelow own node, node.children.flatMap fun child => (forest.best own child).chosen⟩) := by
  rw [best_eq h own hnode]
  unfold choose
  have hsum : Quantity.total ((node.children.map (forest.best own)).map (·.point)) = forest.bestBelow own node := by
    rw [List.map_map]
    rfl
  rw [hsum, List.flatMap_map]
  by_cases hless : Quantity.less (forest.bestBelow own node) (own node) = true
  · exact .inl ⟨hless, if_pos hless⟩
  · exact .inr ⟨Bool.eq_false_iff.mpr hless, if_neg hless⟩

/-! ### The chosen nodes -/

theorem chosen_within (h : forest.Linked) : ∀ place < forest.size,
    ∀ below ∈ (forest.best own place).chosen, Within forest.parentOf place below := by
  refine h.induction ?_
  intro place node hnode ih below hb
  rcases best_cases h own hnode with ⟨-, hbest⟩ | ⟨-, hbest⟩
  · rw [hbest, List.mem_singleton] at hb
    cases hb
    exact Within.refl
  · rw [hbest] at hb
    obtain ⟨child, hc, hb⟩ := List.mem_flatMap.mp hb
    exact (ih child hc below hb).child ((h.children place node hnode child).mp hc)

/-- A chosen node is the choice at its own place too. -/
theorem chosen_wins (h : forest.Linked) : ∀ place < forest.size, ∀ below ∈ (forest.best own place).chosen,
    ∃ node, forest.nodes[below]? = some node ∧ Quantity.less (forest.bestBelow own node) (own node) = true ∧
      forest.best own below = ⟨own node, [below]⟩ := by
  refine h.induction ?_
  intro place node hnode ih below hb
  rcases best_cases h own hnode with ⟨hless, hbest⟩ | ⟨-, hbest⟩
  · rw [hbest, List.mem_singleton] at hb
    cases hb
    exact ⟨node, hnode, hless, hbest⟩
  · rw [hbest] at hb
    obtain ⟨child, hc, hb⟩ := List.mem_flatMap.mp hb
    exact ih child hc below hb

theorem chosen_nodup (h : forest.Linked) : ∀ place < forest.size, (forest.best own place).chosen.Nodup := by
  refine h.induction ?_
  intro place node hnode ih
  rcases best_cases h own hnode with ⟨-, hbest⟩ | ⟨-, hbest⟩
  · rw [hbest]
    exact List.nodup_singleton place
  · rw [hbest]
    refine List.nodup_flatMap.mpr ⟨?_, ?_⟩
    · intro child hc
      exact ih child hc
    · refine (h.nodup place node hnode).imp_of_mem ?_
      intro child child' hc hc' hne below hb hb'
      have hparent := (h.children place node hnode child).mp hc
      have hparent' := (h.children place node hnode child').mp hc'
      have hwithin := chosen_within h child (h.child_lt hnode hc) below hb
      have hwithin' := chosen_within h child' (h.child_lt hnode hc') below hb'
      exact hne (h.tree.siblings hparent hparent' hwithin hwithin')

theorem chosen_apart (h : forest.Linked) : ∀ place < forest.size, ∀ above ∈ (forest.best own place).chosen,
    ∀ below ∈ (forest.best own place).chosen, ¬ Ancestor forest.parentOf above below := by
  refine h.induction ?_
  intro place node hnode ih above ha below hb hancestor
  rcases best_cases h own hnode with ⟨-, hbest⟩ | ⟨-, hbest⟩
  · rw [hbest, List.mem_singleton] at ha hb
    cases ha
    cases hb
    exact h.tree.irrefl hancestor
  · rw [hbest] at ha hb
    obtain ⟨child, hc, ha⟩ := List.mem_flatMap.mp ha
    obtain ⟨child', hc', hb⟩ := List.mem_flatMap.mp hb
    have hparent := (h.children place node hnode child).mp hc
    have hparent' := (h.children place node hnode child').mp hc'
    have hwithin := chosen_within h child (h.child_lt hnode hc) above ha
    have hwithin' := chosen_within h child' (h.child_lt hnode hc') below hb
    have hsame := h.tree.siblings hparent hparent' (hwithin.trans hancestor.to_reflTransGen) hwithin'
    cases hsame
    exact ih child hc above ha below hb hancestor

/-! ### What the choice saves -/

/-- The best choice saves what its nodes save. -/
theorem saving_chosen (h : forest.Linked) : ∀ place < forest.size,
    forest.saving own (forest.best own place).chosen.toFinset place = (forest.best own place).point := by
  refine h.induction ?_
  intro place node hnode ih
  rcases best_cases h own hnode with ⟨-, hbest⟩ | ⟨-, hbest⟩
  · rw [hbest, saving_eq h hnode, if_pos]
    rw [List.mem_toFinset, List.mem_singleton]
  · have hp : place ∉ (forest.best own place).chosen.toFinset := by
      rw [List.mem_toFinset, hbest, List.mem_flatMap]
      rintro ⟨child, hc, hp⟩
      have hwithin := chosen_within h child (h.child_lt hnode hc) place hp
      exact h.tree.irrefl (ancestor_iff.mpr ⟨child, (h.children place node hnode child).mp hc, hwithin⟩)
    rw [saving_of_not_mem h hnode hp]
    conv_rhs => rw [hbest]
    unfold Forest.bestBelow
    congr 1
    apply List.map_congr_left
    intro child hc
    have hparent := (h.children place node hnode child).mp hc
    rw [← ih child hc]
    -- In the subtree of a child only that child's choice counts.
    refine saving_congr h child (h.child_lt hnode hc) ?_ (fun _ _ _ _ => rfl)
    intro below hwithin
    rw [List.mem_toFinset, List.mem_toFinset, hbest, List.mem_flatMap]
    constructor
    · rintro ⟨child', hc', hb⟩
      have hparent' := (h.children place node hnode child').mp hc'
      have hwithin' := chosen_within h child' (h.child_lt hnode hc') below hb
      rwa [h.tree.siblings hparent hparent' hwithin hwithin']
    · intro hb
      exact ⟨child, hc, hb⟩

section
variable [OrderedQuantity α]

theorem best_nonneg (h : forest.Linked) (hown : ∀ node, Quantity.NonNegative (own node)) :
    ∀ place < forest.size, Quantity.NonNegative (forest.best own place).point := by
  intro place hlt
  rw [← saving_chosen h place hlt]
  exact saving_nonneg h hown place hlt

theorem bestBelow_nonneg (h : forest.Linked) (hown : ∀ node, Quantity.NonNegative (own node))
    (hnode : forest.nodes[place]? = some node) : Quantity.NonNegative (forest.bestBelow own node) := by
  apply Quantity.total_nonneg
  intro value hvalue
  obtain ⟨child, hc, rfl⟩ := List.mem_map.mp hvalue
  exact best_nonneg h hown child (h.child_lt hnode hc)

/-- What a set saves below a node is at most what the best choices save there, if it is so at each child. -/
theorem below_atMost (h : forest.Linked) (hown : ∀ node, Quantity.NonNegative (own node)) {chosen : Finset Nat}
    (hnode : forest.nodes[place]? = some node) (hbelow : ∀ child ∈ node.children,
      Quantity.atMost (forest.saving own chosen child) (forest.best own child).point = true) :
    Quantity.atMost (Quantity.total (node.children.map (forest.saving own chosen))) (forest.bestBelow own node) =
      true := by
  apply Quantity.total_mono
  rw [List.forall₂_map_left_iff, List.forall₂_map_right_iff, List.forall₂_same]
  intro child hc
  exact ⟨saving_nonneg h hown child (h.child_lt hnode hc), hbelow child hc⟩

/-- No set of nodes saves more than the best choice. -/
theorem saving_atMost_best (h : forest.Linked) (hown : ∀ node, Quantity.NonNegative (own node))
    (chosen : Finset Nat) : ∀ place < forest.size,
    Quantity.atMost (forest.saving own chosen place) (forest.best own place).point = true := by
  refine h.induction ?_
  intro place node hnode ih
  have hsum := below_atMost h hown hnode ih
  have hnonneg := bestBelow_nonneg h hown hnode
  rw [saving_eq h hnode]
  rcases best_cases h own hnode with ⟨hless, hbest⟩ | ⟨hless, hbest⟩
  · rw [hbest]
    split
    · exact (hown node).atMost_self
    · exact OrderedQuantity.atMost_trans hsum (Quantity.atMost_of_less hnonneg (hown node) hless)
  · rw [hbest]
    split
    · exact Quantity.atMost_of_not_less hnonneg (hown node) (Bool.eq_false_iff.mp hless)
    · exact hsum

/-- If every node is worth more, the best choice saves more: even the nodes chosen before would. -/
theorem best_mono (h : forest.Linked) {own' : Node → α} (hown : ∀ node, Quantity.NonNegative (own node))
    (hown' : ∀ node, Quantity.NonNegative (own' node))
    (hmore : ∀ node ∈ forest.nodes, Quantity.atMost (own node) (own' node) = true) : ∀ place < forest.size,
    Quantity.atMost (forest.best own place).point (forest.best own' place).point = true := by
  intro place hlt
  rw [← saving_chosen h place hlt]
  exact OrderedQuantity.atMost_trans (saving_mono h hown hmore place hlt) (saving_atMost_best h hown' _ place hlt)

/-- A chosen node saves strictly more than any set of nodes below it. -/
theorem saving_less_chosen (h : forest.Linked) (hown : ∀ node, Quantity.NonNegative (own node))
    {chosen : Finset Nat} (hnode : forest.nodes[place]? = some node)
    (hless : Quantity.less (forest.bestBelow own node) (own node) = true) (hp : place ∉ chosen) :
    Quantity.less (forest.saving own chosen place) (own node) = true := by
  have hlt : place < forest.size := (Array.getElem?_eq_some_iff.mp hnode).1
  have hnonneg : Quantity.NonNegative (forest.saving own chosen place) := saving_nonneg h hown place hlt
  have hsum : Quantity.atMost (forest.saving own chosen place) (forest.bestBelow own node) = true := by
    rw [saving_of_not_mem h hnode hp]
    apply below_atMost h hown hnode
    intro child hc
    exact saving_atMost_best h hown chosen child (h.child_lt hnode hc)
  exact Quantity.less_of_atMost_of_less hnonneg (hown node) hsum hless

/-- A chosen node saves something. -/
theorem chosen_positive (h : forest.Linked) (hown : ∀ node, Quantity.NonNegative (own node))
    (hnode : forest.nodes[place]? = some node)
    (hless : Quantity.less (forest.bestBelow own node) (own node) = true) :
    Quantity.less (Quantity.count 0) (own node) = true := by
  have hnonneg := bestBelow_nonneg h hown hnode
  exact Quantity.less_of_atMost_of_less Quantity.zero_nonneg (hown node) hnonneg hless

end

end RegionPlanner
