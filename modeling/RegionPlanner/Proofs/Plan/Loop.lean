import RegionPlanner.Proofs.Plan.Entries

/-!
# The loop behind a plan

The loop over the queue refines the recursive definition of the best choice: it takes every node of a built tree
once and after its children, never lets a node wait for less than no child, ends when every node was taken, and
leaves the best choice at the root, which is what the plan is made of.
-/

namespace RegionPlanner

/-! ### Passes -/

section
variable {α : Type} [Quantity α] {forest : Forest} {own : Node → α} {place above : Nat} {before after : List Nat}

theorem run_prefix (nodes : Array Node) (own : Node → α) (count : Nat) (state : Evaluation α) :
    state.ready.order.toList <+: (Evaluation.run nodes own count state).ready.order.toList := by
  induction count generalizing state with
  | zero => exact List.prefix_rfl
  | succ count ih =>
    cases hnext : state.next? nodes own with
    | none => rw [Evaluation.run_done hnext]
    | some after =>
      rw [Evaluation.run_next hnext]
      refine List.IsPrefix.trans ?_ (ih after)
      obtain ⟨place, node, -, -, rfl⟩ := Evaluation.next_eq_some.mp hnext
      exact Schedule.turn_prefix nodes state.ready state.evaluated

variable (h : forest.Linked) (horder : (forest.evaluate own).ready.order.toList = before ++ place :: after)
include h horder

theorem length_before_lt : before.length < forest.size := by
  have hlength := congrArg List.length horder
  rw [Array.length_toList, evaluate_size h, List.length_append, List.length_cons] at hlength
  omega

omit h in
theorem evaluate_getElem? : (forest.evaluate own).ready.order.toList[before.length]? = some place := by
  rw [horder, List.getElem?_append_right (Nat.le_refl _), Nat.sub_self]
  rfl

theorem passes_count : (forest.passes own before.length).evaluated = before.length :=
  (passes_sound h before.length (length_before_lt h horder).le).1

theorem passes_reached : Schedule.Reached forest before.length (forest.passes own before.length).ready := by
  have hsound : (forest.passes own before.length).Sound forest own :=
    (passes_sound h before.length (length_before_lt h horder).le).2
  have hreached := hsound.reached
  rwa [passes_count h horder] at hreached

/-- The pass after so many others takes the node at that position of the whole order. -/
theorem passes_take : (forest.passes own before.length).ready.order.toList[before.length]? = some place := by
  have hroom := (passes_reached h horder).lt_size h (length_before_lt h horder)
  -- The passes that follow only add to the order.
  obtain ⟨rest, hrest⟩ : (forest.passes own before.length).ready.order.toList <+:
      (forest.evaluate own).ready.order.toList := by
    rw [← passes_stable h (Nat.le_add_left forest.size before.length), passes_add]
    exact run_prefix ..
  rw [← List.getElem?_append_left hroom, hrest]
  exact evaluate_getElem? horder

theorem passes_children {child : Nat} (hc : forest.parentOf child = some place) : child ∈ before := by
  have hreached : Schedule.Reached forest (forest.evaluate own).evaluated (forest.evaluate own).ready :=
    (evaluate_sound h).reached
  have hm := hreached.before before.length place child (evaluate_getElem? horder) hc
  rwa [horder, List.take_left] at hm

/-- The parent of the node that is taken still waits for it. -/
theorem passes_pending (hparent : forest.parentOf place = some above) :
    0 < (forest.passes own before.length).ready.pending.getD above 0 := by
  have hreached := passes_reached h horder
  obtain ⟨parent, habove⟩ := Forest.Linked.getElem? (h.tree.bounded hparent).1
  have hwaits := hreached.waits h (passes_take h horder) hparent habove
  rw [Array.getD_eq_getD_getElem?, hreached.pending above parent habove]
  exact List.length_pos_of_mem hwaits

end

/-! ### The loop of a plan -/

section
variable {table : RegionTable} {records : List Record} {forest : Forest} {model : CostModel Float}
  {exclude : Exclusion}

theorem plan_loop (hb : Forest.build table records = .ok forest)
    (hpositive : Quantity.count 0 < model.serialTime forest.rootNode) :
    let own := ownPoint model exclude (model.serialTime forest.rootNode)
    let final := forest.evaluate own
    final.ready.order.toList.Perm (List.range forest.size) ∧
    (∀ before place after, final.ready.order.toList = before ++ place :: after →
      let state := forest.passes own before.length
      state.evaluated = before.length ∧ state.ready.order[state.evaluated]? = some place ∧
      (∀ child, forest.parentOf child = some place → child ∈ before) ∧
      ∀ above, forest.parentOf place = some above → 0 < state.ready.pending.getD above 0) ∧
    final.evaluated = forest.size ∧ final.next? forest.nodes own = none ∧
    (∀ count, forest.size ≤ count → forest.passes own count = final) ∧
    (∀ place node, forest.nodes[place]? = some node →
      forest.best own place = choose (own node) place (node.children.map (forest.best own))) ∧
    final.points.getD forest.root (Quantity.count 0) = (forest.best own forest.root).point ∧
    final.chosen.getD forest.root [] = (forest.best own forest.root).chosen ∧
    ∃ plan, forest.plan model exclude = .ok plan ∧
      plan.totalReduction = final.points.getD forest.root (Quantity.count 0) ∧
      (plan.entries.map (·.node)).Perm (final.chosen.getD forest.root []) := by
  have h := build_linked hb
  intro own final
  obtain ⟨plan, hp⟩ : ∃ plan, forest.plan model exclude = .ok plan :=
    plan_isOk.mpr (mt Double.atMost_eq_true.mp (Double.not_le_of_lt hpositive))
  have hpoint : final.points.getD forest.root (Quantity.count 0) = (forest.best own forest.root).point :=
    evaluate_point h h.tree.root_lt
  have hchosen : final.chosen.getD forest.root [] = (forest.best own forest.root).chosen := evaluate_chosen h
  refine ⟨evaluate_order h, ?_, evaluate_evaluated h, evaluate_next h, fun count => passes_stable h,
    fun place node => best_eq h own, hpoint, hchosen, plan, hp, ?_, ?_⟩
  · intro before place after horder
    have htake := passes_take h horder
    rw [Array.getElem?_toList] at htake
    refine ⟨passes_count h horder, ?_, fun child => passes_children h horder, fun above => passes_pending h horder⟩
    rw [passes_count h horder]
    exact htake
  · rw [hpoint]
    exact (plan_made h hp).1
  · rw [hchosen]
    exact entries_nodes h hp

theorem plan_loop_siblings :
    let records : List Record :=
      [⟨1, 0, 0, .normal, 0, 1, false, [5, 6], [⟨1, 8, 4, 4, 100, 100, 0, 0, 0, 0⟩]⟩,
        ⟨5, 0, 0, .normal, 0, 1, false, [], [⟨1, 4, 1, 1, 100, 100, 0, 0, 0, 0⟩]⟩,
        ⟨6, 0, 0, .normal, 0, 1, false, [], [⟨1, 4, 1, 1, 100, 100, 0, 0, 0, 0⟩]⟩]
    let model : CostModel Float := plainModel ⟨4, 0, none, none, none⟩
    ∃ forest plan, Forest.build .initial records = .ok forest ∧
      Quantity.count 0 < model.serialTime forest.rootNode ∧ forest.plan model .none = .ok plan ∧
      let own := ownPoint model .none (model.serialTime forest.rootNode)
      (forest.evaluate own).ready.order.toList = [1, 2, 0] ∧
      0 < (forest.passes own 1).ready.pending.getD 0 0 ∧
      (forest.best own forest.root).chosen = [1, 2] ∧ (plan.entries.map (·.node)).Perm [1, 2] := by
  intro records model
  have hrun : (Forest.build .initial records).toOption.map (fun forest =>
      let own := ownPoint model .none (model.serialTime forest.rootNode)
      let final := forest.evaluate own
      (Quantity.less (Quantity.count 0) (model.serialTime forest.rootNode), forest.parentOf 2,
        final.ready.order.toList, final.chosen.getD forest.root [])) = some (true, some 0, [1, 2, 0], [1, 2]) := by
    decide +kernel
  obtain ⟨forest, hb, hread⟩ := toOption_map_eq_some.mp hrun
  obtain ⟨hless, hparent, horder, hchosen⟩ : _ = true ∧ _ = some 0 ∧ _ = [1, 2, 0] ∧ _ = [1, 2] := by
    simpa only [Prod.mk.injEq] using hread
  have hpositive := Double.less_eq_true.mp hless
  obtain ⟨-, hqueue, -, -, -, -, -, hroot, plan, hp, -, hentries⟩ :=
    @plan_loop .initial records forest model .none hb hpositive
  obtain ⟨-, -, -, hpending⟩ := hqueue [1] 2 [0] horder
  rw [hchosen] at hroot hentries
  exact ⟨forest, plan, hb, hpositive, hp, horder, hpending 0 hparent, hroot.symm, hentries⟩

end

end RegionPlanner
