import RegionPlanner.Proofs.Plan.Entries

/-!
# Plans are optimal

Of all sets of nodes that a plan might run in parallel, none saves more than the plan does, sums rounded as the
planner rounds them. A node is only chosen if it saves more than anything below it would.
-/

namespace RegionPlanner

/-- Nodes that may be run in parallel together: none is excluded, and none is above another. -/
structure Forest.Admissible (forest : Forest) (exclude : Exclusion) (chosen : Finset Nat) : Prop where
  included : ∀ place ∈ chosen, ∃ node, forest.nodes[place]? = some node ∧ exclude node = false
  apart : ∀ upper ∈ chosen, ∀ lower ∈ chosen, ¬ Ancestor forest.parentOf upper lower

theorem Forest.Admissible.bounded {forest : Forest} {exclude : Exclusion} {chosen : Finset Nat}
    (h : forest.Admissible exclude chosen) : ∀ place ∈ chosen, place < forest.size := by
  intro place hp
  obtain ⟨node, hnode, -⟩ := h.included place hp
  exact (Array.getElem?_eq_some_iff.mp hnode).1

section
variable {α : Type} [Quantity α] {forest : Forest} {model : CostModel α} {exclude : Exclusion} {plan : Plan α}
  {rootTime : α} {chosen : Finset Nat} {place : Nat}

/-- A set without excluded nodes saves the points of its nodes. -/
theorem saving_selfPoint (h : forest.Linked) (hp : place < forest.size)
    (hincluded : ∀ place ∈ chosen, ∃ node, forest.nodes[place]? = some node ∧ exclude node = false) :
    forest.saving (selfPoint model rootTime) chosen place =
      forest.saving (ownPoint model exclude rootTime) chosen place := by
  refine saving_congr h place hp (fun _ _ => Iff.rfl) ?_
  intro below node hnode hb
  obtain ⟨found, hfound, hin⟩ := hincluded below hb
  rw [hnode] at hfound
  cases hfound
  exact (ownPoint_of_included hin).symm

variable [OrderedQuantity α]

theorem entries_included (h : forest.Linked) (hp : forest.plan model exclude = .ok plan) :
    ∀ place ∈ (plan.entries.map (·.node)).toFinset,
      ∃ node, forest.nodes[place]? = some node ∧ exclude node = false := by
  intro place hplace
  rw [List.mem_toFinset] at hplace
  obtain ⟨entry, he, rfl⟩ := List.mem_map.mp hplace
  obtain ⟨node, hnode, hless, -⟩ := entry_wins h hp he
  exact ⟨node, hnode, included_of_positive (chosen_positive h ownPoint_nonneg hnode hless)⟩

theorem totalReduction_eq_saving (h : forest.Linked) (hp : forest.plan model exclude = .ok plan) :
    plan.totalReduction = forest.saving (selfPoint model (model.serialTime forest.rootNode))
      (plan.entries.map (·.node)).toFinset forest.root := by
  rw [saving_selfPoint h h.tree.root_lt (entries_included h hp), List.toFinset_eq_of_perm _ _ (entries_nodes h hp),
    (plan_made h hp).1]
  exact (saving_chosen h forest.root h.tree.root_lt).symm

end

section
variable {table : RegionTable} {records : List Record} {forest : Forest} {model : CostModel Float}
  {exclude : Exclusion} {plan : Plan Float}

theorem plan_optimal (hb : Forest.build table records = .ok forest) (hp : forest.plan model exclude = .ok plan) :
    let point := selfPoint model (model.serialTime forest.rootNode)
    plan.totalReduction = forest.saving point (plan.entries.map (·.node)).toFinset forest.root ∧
    (∀ chosen, forest.Admissible exclude chosen →
      forest.saving point chosen forest.root ≤ plan.totalReduction) ∧
    (∀ entry ∈ plan.entries, ∃ node, forest.nodes[entry.node]? = some node ∧
      ∀ chosen, forest.Admissible exclude chosen →
        (∀ place ∈ chosen, Ancestor forest.parentOf entry.node place) →
          forest.saving point chosen entry.node < point node) ∧
    ∀ (worth : Node → Rat) (chosen : Finset Nat), forest.Admissible exclude chosen →
      forest.saving worth chosen forest.root = ∑ place ∈ chosen, worth (forest.nodes.getD place default) := by
  have h := build_linked hb
  intro point
  refine ⟨totalReduction_eq_saving h hp, ?_, ?_, ?_⟩
  · intro chosen hchosen
    rw [saving_selfPoint h h.tree.root_lt hchosen.included, (plan_made h hp).1]
    exact Double.atMost_eq_true.mp (saving_atMost_best h ownPoint_nonneg chosen forest.root h.tree.root_lt)
  · intro entry he
    obtain ⟨node, hnode, hless, -⟩ := entry_wins h hp he
    have hincluded := included_of_positive (chosen_positive h ownPoint_nonneg hnode hless)
    refine ⟨node, hnode, ?_⟩
    intro chosen hchosen hbelow
    have hself : entry.node ∉ chosen := fun hm => h.tree.irrefl (hbelow entry.node hm)
    have hlt : entry.node < forest.size := (Array.getElem?_eq_some_iff.mp hnode).1
    have hbeaten := saving_less_chosen h ownPoint_nonneg hnode hless hself
    rw [← saving_selfPoint h hlt hchosen.included, ownPoint_of_included hincluded] at hbeaten
    exact Double.less_eq_true.mp hbeaten
  · intro worth chosen hchosen
    exact saving_root_rat h hchosen.bounded hchosen.apart

theorem plan_optimal_child :
    let records : List Record :=
      [⟨1, 0, 0, .normal, 0, 1, false, [5], [⟨1, 8, 4, 4, 100, 100, 0, 0, 0, 0⟩]⟩,
        ⟨5, 0, 0, .normal, 0, 1, false, [], [⟨1, 8, 2, 2, 100, 100, 0, 0, 0, 0⟩]⟩]
    let model : CostModel Float := plainModel ⟨4, 0, none, none, none⟩
    ∃ forest plan, Forest.build .initial records = .ok forest ∧ forest.plan model .none = .ok plan ∧
      plan.entries.map (·.node) = [1] ∧
      plan.totalReduction = forest.saving (selfPoint model (model.serialTime forest.rootNode)) {1} forest.root ∧
      forest.saving (selfPoint model (model.serialTime forest.rootNode)) {forest.root} forest.root ≤
        plan.totalReduction := by
  intro records model
  have hrun : (Forest.build .initial records >>= fun forest => forest.plan model .none).toOption.map
      (fun plan => plan.entries.map (·.node)) = some [1] := by decide +kernel
  obtain ⟨plan, hplan, hentries⟩ := toOption_map_eq_some.mp hrun
  obtain ⟨forest, hb, hp⟩ := bind_eq_ok.mp hplan
  obtain ⟨htotal, hmost, -, -⟩ := plan_optimal hb hp
  rw [hentries] at htotal
  have h := build_linked hb
  refine ⟨forest, plan, hb, hp, hentries, htotal, hmost {forest.root} ⟨?_, ?_⟩⟩
  · intro place hplace
    rw [Finset.mem_singleton] at hplace
    obtain ⟨node, hnode⟩ := Forest.Linked.getElem? h.tree.root_lt
    exact ⟨node, hplace ▸ hnode, rfl⟩
  · intro upper hupper lower hlower
    rw [Finset.mem_singleton] at hupper hlower
    rw [hupper, hlower]
    exact h.tree.irrefl

end

end RegionPlanner
