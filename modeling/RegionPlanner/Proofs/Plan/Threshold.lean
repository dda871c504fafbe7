import RegionPlanner.Proofs.Number.Exact
import RegionPlanner.Proofs.Plan.Ranking
import RegionPlanner.Report

/-!
# The threshold of a report

The entries of a plan stand in one strict order, the largest saving first. So the entries that save at least so much
are the first ones, and a report with a higher threshold is the beginning of one with a lower threshold: the header, the
ranks and all blocks that are left stay the same.
-/

namespace RegionPlanner

/-! ### Beginnings of lists -/

section
variable {α β : Type} {p : α → Bool} {xs ys : List α}

/-- If nothing that holds comes after something that does not, what holds comes first. -/
theorem filter_prefix (h : xs.Pairwise fun first later => p later = true → p first = true) : xs.filter p <+: xs := by
  induction xs with
  | nil => exact List.nil_prefix
  | cons x xs ih =>
    rw [List.pairwise_cons] at h
    by_cases hx : p x = true
    · rw [List.filter_cons_of_pos hx, List.prefix_cons_inj]
      exact ih h.2
    · have hnone : xs.filter p = [] := by
        rw [List.filter_eq_nil_iff]
        exact fun later hm hlater => hx (h.1 later hm hlater)
      rw [List.filter_cons_of_neg hx, hnone]
      exact List.nil_prefix

theorem mapIdx_prefix (h : xs <+: ys) (f : Nat → α → β) : xs.mapIdx f <+: ys.mapIdx f := by
  obtain ⟨rest, rfl⟩ := h
  rw [List.mapIdx_append]
  exact List.prefix_append _ _

end

/-! ### Entries -/

section
variable {table : RegionTable} {records : List Record} {forest : Forest} {model : CostModel Float}
  {exclude : Exclusion} {plan : Plan Float} {least more : Float}

/-- Positive savings are no more than each other only if they are the same double. -/
theorem eq_of_atMost {x y : Float} (hx : 0 < x) (hle : x ≤ y) (hge : y ≤ x) : x = y := by
  obtain ⟨hnumber, hnumber'⟩ := Double.isNumber_of_le hle
  obtain ⟨hzero, hvalue⟩ := Double.zero_value
  rw [Double.le_iff hnumber hnumber'] at hle
  rw [Double.le_iff hnumber' hnumber] at hge
  have hpositive : 0 < Double.value x := by
    rw [← hvalue]
    exact (Double.lt_iff hzero hnumber).mp hx
  exact Double.eq_of_value hnumber hnumber' (le_antisymm hle hge) hpositive.ne'

/-- The entries stand in a strict order: what saves more comes first, and of two that save the same, the one that is
first in the trace. -/
theorem entries_strict (h : forest.Linked) (hp : forest.plan model exclude = .ok plan) :
    plan.entries.Pairwise fun first second => second.reduction < first.reduction ∨
      first.reduction = second.reduction ∧ first.node < second.node := by
  have hnonneg := @reduction_nonneg _ _ _ _ _ _ _ h hp
  have hdistinct : plan.entries.Pairwise fun first second => first.node ≠ second.node :=
    List.pairwise_map.mp (entries_nodup h hp)
  refine ((entries_before h hp).and hdistinct).imp_of_mem ?_
  rintro first second hfirst hsecond ⟨hbefore, hne⟩
  obtain ⟨hge, hplace⟩ := (before_iff (hnonneg hfirst) (hnonneg hsecond)).mp hbefore
  by_cases hle : Quantity.atMost first.reduction second.reduction = true
  · obtain ⟨-, -, -, -, hpositive⟩ := entry_included h hp hfirst
    exact .inr ⟨eq_of_atMost (Double.less_eq_true.mp hpositive) (Double.atMost_eq_true.mp hle)
      (Double.atMost_eq_true.mp hge), lt_of_le_of_ne (hplace hle) hne⟩
  · exact .inl (Double.less_eq_true.mp (Quantity.less_of_not_atMost (hnonneg hsecond) (hnonneg hfirst) hle))

theorem entriesAbove_begins (h : forest.Linked) (hp : forest.plan model exclude = .ok plan) (least : Float) :
    plan.entriesAbove least <+: plan.entries :=
  filter_prefix ((entries_descending h hp).imp fun hge henough => OrderedQuantity.atMost_trans henough hge)

/-- Nothing saves at least what is not a number. -/
theorem entriesAbove_nan (plan : Plan Float) (hleast : least.isNaN = true) : plan.entriesAbove least = [] := by
  unfold Plan.entriesAbove
  rw [List.filter_eq_nil_iff]
  intro entry _ henough
  exact Double.isNaN_iff.mp hleast (Double.isNumber_of_le (Double.atMost_eq_true.mp henough)).1

theorem entriesAbove_entriesAbove (plan : Plan Float) (h : least ≤ more) :
    (plan.entriesAbove least).filter (fun entry => Quantity.atMost more entry.reduction) = plan.entriesAbove more := by
  unfold Plan.entriesAbove
  rw [List.filter_filter]
  refine List.filter_congr fun entry _ => ?_
  rw [Bool.eq_iff_iff, Bool.and_eq_true, Double.atMost_eq_true, Double.atMost_eq_true]
  exact and_iff_left_of_imp fun hmore => Double.le_trans h hmore

theorem entriesAbove_mono (h : forest.Linked) (hp : forest.plan model exclude = .ok plan) (hle : least ≤ more) :
    plan.entriesAbove more <+: plan.entriesAbove least := by
  rw [← entriesAbove_entriesAbove plan hle]
  exact filter_prefix ((entriesAbove_descending h hp least).imp fun hge henough =>
    OrderedQuantity.atMost_trans henough hge)

/-! ### Reports -/

/-- The blocks of a report, in their order. -/
def Plan.blocks (plan : Plan Float) (forest : Forest) (least : Float) : List String :=
  (plan.entriesAbove least).mapIdx fun rank entry => Report.block forest entry rank

theorem report_eq (plan : Plan Float) (forest : Forest) (least : Float) :
    plan.report forest least = Report.header forest plan ++ String.join (plan.blocks forest least) := rfl

/-- A higher threshold only cuts the end of a plan and of its report. -/
theorem report_threshold (hb : Forest.build table records = .ok forest) (hp : forest.plan model exclude = .ok plan) :
    (plan.entries.Pairwise fun first second => second.reduction < first.reduction ∨
      first.reduction = second.reduction ∧ first.node < second.node) ∧
    (∀ least, plan.entriesAbove least <+: plan.entries ∧ (least.isNaN = true → plan.entriesAbove least = [])) ∧
    ∀ least more, least ≤ more → plan.entriesAbove more <+: plan.entriesAbove least ∧
      ∃ rest, plan.blocks forest least = plan.blocks forest more ++ rest ∧
        plan.report forest least = plan.report forest more ++ String.join rest := by
  have h := build_linked hb
  refine ⟨entries_strict h hp, fun least => ⟨entriesAbove_begins h hp least, entriesAbove_nan plan⟩,
    fun least more hle => ?_⟩
  have hentries := entriesAbove_mono h hp hle
  have hblocks : plan.blocks forest more <+: plan.blocks forest least := mapIdx_prefix hentries _
  obtain ⟨rest, hrest⟩ := hblocks
  refine ⟨hentries, rest, hrest.symm, ?_⟩
  rw [report_eq, report_eq, ← hrest, String.join_append, String.append_assoc]

/-- Of two siblings, a threshold between their savings keeps the one that comes later in the trace. -/
theorem report_threshold_siblings :
    let records : List Record :=
      [⟨1, 0, 0, .normal, 0, 1, false, [5, 7], [⟨1, 8, 8, 8, 100, 100, 0, 0, 0, 0⟩]⟩,
        ⟨5, 0, 0, .normal, 0, 1, false, [], [⟨1, 4, 2, 2, 100, 100, 0, 0, 0, 0⟩]⟩,
        ⟨7, 0, 0, .normal, 0, 1, false, [], [⟨1, 4, 1, 1, 100, 100, 0, 0, 0, 0⟩]⟩]
    ∃ forest plan, Forest.build .initial records = .ok forest ∧
      forest.plan (plainModel ⟨4, 0, none, none, none⟩) .none = .ok plan ∧
      (plan.entriesAbove 25).map (·.node) = [2, 1] ∧ (plan.entriesAbove 30).map (·.node) = [2] ∧
      ∃ rest, plan.blocks forest 25 = plan.blocks forest 30 ++ rest ∧
        plan.report forest 25 = plan.report forest 30 ++ String.join rest := by
  intro records
  have hrun : (Forest.build .initial records >>= fun forest =>
      forest.plan (plainModel (α := Float) ⟨4, 0, none, none, none⟩) .none).toOption.map (fun plan =>
        ((plan.entriesAbove 25).map (·.node), (plan.entriesAbove 30).map (·.node))) = some ([2, 1], [2]) := by
    decide +kernel
  obtain ⟨plan, hplan, hentries⟩ := toOption_map_eq_some.mp hrun
  obtain ⟨forest, hb, hp⟩ := bind_eq_ok.mp hplan
  have hle : (25 : Float) ≤ 30 := by decide +kernel
  obtain ⟨-, -, hcut⟩ := report_threshold hb hp
  obtain ⟨-, hreport⟩ := hcut 25 30 hle
  exact ⟨forest, plan, hb, hp, (Prod.mk.inj hentries).1, (Prod.mk.inj hentries).2, hreport⟩

end

end RegionPlanner
