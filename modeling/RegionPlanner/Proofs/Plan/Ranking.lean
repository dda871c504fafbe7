import RegionPlanner.Proofs.Plan.Entries

/-!
# The order of the entries

The entries of a plan stand in one order: what saves more comes first, and of two that save the same, the one first in the
trace. No entry saves less than nothing, so the comparison is total, and every list cut out of the entries keeps the order.
-/

namespace RegionPlanner

section
variable {α : Type} [Quantity α] [OrderedQuantity α] {first second third : PlanEntry α}

/-! ### The comparison -/

theorem before_iff (hfirst : Quantity.NonNegative first.reduction) (hsecond : Quantity.NonNegative second.reduction) :
    PlanEntry.before first second = true ↔ Quantity.atMost second.reduction first.reduction = true ∧
      (Quantity.atMost first.reduction second.reduction = true → first.node ≤ second.node) := by
  have htotal := OrderedQuantity.atMost_total hfirst hsecond
  unfold PlanEntry.before
  rw [OrderedQuantity.less_eq hsecond hfirst, OrderedQuantity.less_eq hfirst hsecond, Bool.not_not, Bool.or_eq_true,
    Bool.not_eq_true', Bool.and_eq_true, decide_eq_true_eq]
  by_cases hle : Quantity.atMost first.reduction second.reduction = true
  · simp [hle]
  · simp [hle, htotal.resolve_left hle]

theorem before_trans (hfirst : Quantity.NonNegative first.reduction) (hsecond : Quantity.NonNegative second.reduction)
    (hthird : Quantity.NonNegative third.reduction) (h : PlanEntry.before first second = true)
    (h' : PlanEntry.before second third = true) : PlanEntry.before first third = true := by
  rw [before_iff hfirst hsecond] at h
  rw [before_iff hsecond hthird] at h'
  rw [before_iff hfirst hthird]
  obtain ⟨hle, hplace⟩ := h
  obtain ⟨hle', hplace'⟩ := h'
  refine ⟨OrderedQuantity.atMost_trans hle' hle, fun hback => ?_⟩
  exact (hplace (OrderedQuantity.atMost_trans hback hle')).trans (hplace' (OrderedQuantity.atMost_trans hle hback))

theorem before_total (hfirst : Quantity.NonNegative first.reduction) (hsecond : Quantity.NonNegative second.reduction) :
    PlanEntry.before first second = true ∨ PlanEntry.before second first = true := by
  rw [before_iff hfirst hsecond, before_iff hsecond hfirst]
  by_cases hle : Quantity.atMost first.reduction second.reduction = true
  · by_cases hge : Quantity.atMost second.reduction first.reduction = true
    · rcases le_total first.node second.node with hplace | hplace
      · exact .inl ⟨hge, fun _ => hplace⟩
      · exact .inr ⟨hle, fun _ => hplace⟩
    · exact .inr ⟨hle, fun hback => absurd hback hge⟩
  · exact .inl ⟨(OrderedQuantity.atMost_total hfirst hsecond).resolve_left hle, fun hback => absurd hback hle⟩

/-! ### The entries -/

variable {forest : Forest} {model : CostModel α} {exclude : Exclusion} {plan : Plan α}

theorem reduction_nonneg (h : forest.Linked) (hp : forest.plan model exclude = .ok plan) {entry : PlanEntry α}
    (he : entry ∈ plan.entries) : Quantity.NonNegative entry.reduction := by
  obtain ⟨node, -, -, hreduction⟩ := entry_wins h hp he
  rw [hreduction]
  exact ownPoint_nonneg node

theorem entries_before (h : forest.Linked) (hp : forest.plan model exclude = .ok plan) :
    plan.entries.Pairwise fun first second => PlanEntry.before first second = true := by
  have hnonneg := @reduction_nonneg _ _ _ _ _ _ _ h hp
  have hentries : ∃ chosen, plan.entries = sorted PlanEntry.before chosen := by
    simp only [Forest.plan] at hp
    split at hp
    · cases hp
    · cases hp
      exact ⟨_, rfl⟩
  obtain ⟨chosen, hentries⟩ := hentries
  have hmem : ∀ entry ∈ chosen, Quantity.NonNegative entry.reduction := by
    intro entry he
    refine hnonneg ?_
    rw [hentries]
    exact mem_sorted.mpr he
  rw [hentries]
  exact pairwise_sorted
    (fun first hf second hs third ht => before_trans (hmem first hf) (hmem second hs) (hmem third ht))
    (fun first hf second hs => before_total (hmem first hf) (hmem second hs))

theorem entries_descending (h : forest.Linked) (hp : forest.plan model exclude = .ok plan) :
    plan.entries.Pairwise fun first second => Quantity.atMost second.reduction first.reduction = true := by
  have hnonneg := @reduction_nonneg _ _ _ _ _ _ _ h hp
  refine (entries_before h hp).imp_of_mem ?_
  intro first second hfirst hsecond hbefore
  exact ((before_iff (hnonneg hfirst) (hnonneg hsecond)).mp hbefore).1

theorem entriesAbove_descending (h : forest.Linked) (hp : forest.plan model exclude = .ok plan) (least : α) :
    (plan.entriesAbove least).Pairwise fun first second =>
      Quantity.atMost second.reduction first.reduction = true := (entries_descending h hp).filter _

end

end RegionPlanner
