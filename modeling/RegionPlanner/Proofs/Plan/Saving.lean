import RegionPlanner.Number.Exact
import RegionPlanner.Proofs.Forest.Tree
import RegionPlanner.Proofs.Number.Ordered

/-!
# What a set of nodes saves

Going up the tree, a chosen node saves its own worth, and any other node what its children save together.
In exact numbers this is the sum over the set, as long as no chosen node is above another.
-/

namespace RegionPlanner

/-- Time saved in the subtree at a place when the nodes of a set are run in parallel. -/
def Forest.saving {α : Type} [Quantity α] (forest : Forest) (worth : Node → α) (chosen : Finset Nat)
    (place : Nat) : α :=
  forest.fold (fun node below => if node.id ∈ chosen then worth node else Quantity.total below) Quantity.emptySum
    place

section
variable {α : Type} [Quantity α] {forest : Forest} {worth worth' : Node → α} {chosen chosen' : Finset Nat}
  {place : Nat} {node : Node}

theorem saving_eq (h : forest.Linked) (hnode : forest.nodes[place]? = some node) :
    forest.saving worth chosen place =
      if place ∈ chosen then worth node else Quantity.total (node.children.map (forest.saving worth chosen)) := by
  unfold Forest.saving
  rw [h.fold_eq hnode, h.id place node hnode]

theorem saving_of_not_mem (h : forest.Linked) (hnode : forest.nodes[place]? = some node) (hp : place ∉ chosen) :
    forest.saving worth chosen place = Quantity.total (node.children.map (forest.saving worth chosen)) := by
  rw [saving_eq h hnode, if_neg hp]

/-- Only the chosen nodes of the subtree and their worth count. -/
theorem saving_congr (h : forest.Linked) : ∀ place < forest.size,
    (∀ below, Within forest.parentOf place below → (below ∈ chosen ↔ below ∈ chosen')) →
    (∀ (below : Nat) (node : Node), forest.nodes[below]? = some node → below ∈ chosen → worth node = worth' node) →
      forest.saving worth chosen place = forest.saving worth' chosen' place := by
  refine h.induction ?_
  intro place node hnode ih hsame hworth
  rw [saving_eq h hnode, saving_eq h hnode]
  by_cases hp : place ∈ chosen
  · rw [if_pos hp, if_pos ((hsame place Within.refl).mp hp)]
    exact hworth place node hnode hp
  · rw [if_neg hp, if_neg (mt (hsame place Within.refl).mpr hp)]
    congr 1
    apply List.map_congr_left
    intro child hc
    have hparent := (h.children place node hnode child).mp hc
    exact ih child hc (fun below hb => hsame below (hb.child hparent)) hworth

theorem saving_nonneg [OrderedQuantity α] (h : forest.Linked) (hworth : ∀ node, Quantity.NonNegative (worth node)) :
    ∀ place < forest.size, Quantity.NonNegative (forest.saving worth chosen place) := by
  refine h.induction ?_
  intro place node hnode ih
  rw [saving_eq h hnode]
  split
  · exact hworth node
  · apply Quantity.total_nonneg
    intro value hvalue
    obtain ⟨child, hc, rfl⟩ := List.mem_map.mp hvalue
    exact ih child hc

/-- If every node is worth more, a set of nodes saves more. -/
theorem saving_mono [OrderedQuantity α] (h : forest.Linked) (hworth : ∀ node, Quantity.NonNegative (worth node))
    (hmore : ∀ node ∈ forest.nodes, Quantity.atMost (worth node) (worth' node) = true) : ∀ place < forest.size,
    Quantity.atMost (forest.saving worth chosen place) (forest.saving worth' chosen place) = true := by
  refine h.induction ?_
  intro place node hnode ih
  rw [saving_eq h hnode, saving_eq h hnode]
  split
  · exact hmore node (Array.mem_of_getElem? hnode)
  · apply Quantity.total_mono
    rw [List.forall₂_map_left_iff, List.forall₂_map_right_iff, List.forall₂_same]
    intro child hc
    exact ⟨saving_nonneg h hworth child (h.child_lt hnode hc), ih child hc⟩

end

/-! ### Exact numbers -/

theorem Quantity.total_rat (terms : List Rat) : Quantity.total terms = terms.sum := by
  rw [List.sum_eq_foldl]
  rfl

section
variable {forest : Forest} {worth : Node → Rat} {chosen : Finset Nat} {place : Nat}

open Classical in
theorem saving_rat (h : forest.Linked)
    (hapart : ∀ above ∈ chosen, ∀ below ∈ chosen, ¬ Ancestor forest.parentOf above below) :
    ∀ place < forest.size, forest.saving worth chosen place =
      ∑ below ∈ chosen with Within forest.parentOf place below, worth (forest.nodes.getD below default) := by
  refine h.induction ?_
  intro place node hnode ih
  rw [saving_eq h hnode]
  split
  · next hp =>
    -- Below a chosen node no other one is chosen.
    have honly : chosen.filter (Within forest.parentOf place) = {place} := by
      ext below
      rw [Finset.mem_filter, Finset.mem_singleton, within_iff]
      constructor
      · rintro ⟨hb, rfl | ha⟩
        · rfl
        · exact absurd ha (hapart place hp below hb)
      · rintro rfl
        exact ⟨hp, .inl rfl⟩
    rw [honly, Finset.sum_singleton, getD_node hnode]
  · next hp =>
    have hsplit : chosen.filter (Within forest.parentOf place) =
        node.children.toFinset.biUnion fun child => chosen.filter (Within forest.parentOf child) := by
      ext below
      simp only [Finset.mem_biUnion, List.mem_toFinset, Finset.mem_filter, h.children place node hnode]
      constructor
      · rintro ⟨hb, hwithin⟩
        rcases within_iff.mp hwithin with rfl | ha
        · exact absurd hb hp
        · obtain ⟨child, hc, hw⟩ := ancestor_iff.mp ha
          exact ⟨child, hc, hb, hw⟩
      · rintro ⟨child, hc, hb, hw⟩
        exact ⟨hb, hw.child hc⟩
    rw [hsplit, Finset.sum_biUnion, Quantity.total_rat, List.sum_toFinset _ (h.nodup place node hnode)]
    · congr 1
      apply List.map_congr_left
      intro child hc
      exact ih child hc
    · intro child hc child' hc' hne
      rw [Finset.mem_coe, List.mem_toFinset, h.children place node hnode] at hc hc'
      apply Finset.disjoint_left.mpr
      intro below hb hb'
      exact hne (h.tree.siblings hc hc' (Finset.mem_filter.mp hb).2 (Finset.mem_filter.mp hb').2)

/-- Over exact numbers a set of nodes saves the sum of what they are worth. -/
theorem saving_root_rat (h : forest.Linked) (hbounded : ∀ place ∈ chosen, place < forest.size)
    (hapart : ∀ above ∈ chosen, ∀ below ∈ chosen, ¬ Ancestor forest.parentOf above below) :
    forest.saving worth chosen forest.root = ∑ place ∈ chosen, worth (forest.nodes.getD place default) := by
  classical
  rw [saving_rat h hapart forest.root h.tree.root_lt, Finset.filter_true_of_mem]
  intro place hp
  exact h.tree.reached place (hbounded place hp)

end

end RegionPlanner
