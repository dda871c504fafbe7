import RegionPlanner.Command.Run
import RegionPlanner.Proofs.Command.Defaults
import RegionPlanner.Proofs.Plan.Ranking
import RegionPlanner.Trace.Encode

/-!
# What a run advises

A run that ends well either shows the usage or has built a forest from its files and reports some of its nodes: numbered
from zero, the one that saves most first, none above another, none of them excluded, and each with something to save.
This holds whatever the options are; from the arguments comes only what is excluded where they do not say.
-/

namespace RegionPlanner

open Double

/-! ### A run that ends well -/

section
variable {options : Options} {files : Files} {forest : Forest} {text : String}

theorem forest_eq_ok : options.forest files = .ok forest ↔ ∃ table records,
    readRegions files options.regionPath options.separation = .ok table ∧
      readTrace files options.tracePath = .ok records ∧ Forest.build table records = .ok forest := by
  unfold Options.forest
  simp only [bind_eq_ok]
  constructor
  · rintro ⟨table, htable, records, hrecords, hb⟩
    exact ⟨table, records, htable, hrecords, hb⟩
  · rintro ⟨table, records, htable, hrecords, hb⟩
    exact ⟨table, htable, records, hrecords, hb⟩

theorem report_eq_ok : options.report files = .ok text ↔ ∃ forest model plan, options.forest files = .ok forest ∧
    options.costModel files = .ok model ∧ forest.plan model options.exclusion = .ok plan ∧
      plan.report forest options.minTimeReduction = text := by
  unfold Options.report
  simp only [bind_eq_ok, pure_eq_ok]
  constructor
  · rintro ⟨forest, hforest, model, hmodel, plan, hp, htext⟩
    exact ⟨forest, model, plan, hforest, hmodel, hp, htext⟩
  · rintro ⟨forest, model, plan, hforest, hmodel, hp, htext⟩
    exact ⟨forest, hforest, model, hmodel, plan, hp, htext⟩

theorem outcome_exit (h : (options.outcome files).exit = 0) :
    ∃ text, options.report files = .ok text ∧ (options.outcome files).output = text := by
  unfold Options.outcome at h ⊢
  split
  · next text htext => exact ⟨text, htext, rfl⟩
  · next fault hfault =>
    rw [hfault] at h
    cases h

end

/-! ### What is excluded -/

section
variable {options : Options} {node : Node}

theorem nonIndependentLoops_eq_false :
    Exclusion.nonIndependentLoops node = false ↔ node.region.kind = .loop ∧ node.parallel = true := by
  simp [Exclusion.nonIndependentLoops, Node.isIndependentLoop, Region.isLoop]

theorem nonLoops_eq_false : Exclusion.nonLoops node = false ↔ node.region.kind = .loop := by
  simp [Exclusion.nonLoops, Region.isLoop]

theorem below_eq_false {least : Float} : Exclusion.below least node = false ↔ ¬ node.selfParallelism < least := by
  rw [← less_eq_true, Bool.not_eq_true]
  rfl

theorem exclusion_eq_false : options.exclusion node = false ↔
    (options.exclude = .nonIndependentLoops → Exclusion.nonIndependentLoops node = false) ∧
    (options.exclude = .nonLoops → Exclusion.nonLoops node = false) ∧
    ∀ least, options.minSelfParallelism = some least → Exclusion.below least node = false := by
  unfold Options.exclusion
  cases options.exclude <;> cases options.minSelfParallelism <;> simp [Exclusion.union, Exclusion.none]

end

/-! ### What is printed -/

section
variable {forest : Forest} {entry : PlanEntry Float} {node : Node}

/-- A block starts with its number and tells what is saved and the node that saves it. -/
theorem block_begins (rank : Nat) (hnode : forest.nodes[entry.node]? = some node) :
    ∃ rest, Report.block forest entry rank =
      s!"\n[{Report.rankText rank}] TimeRed({entry.cores}) = {Decimal.withPlaces 2 entry.reduction}%\n" ++
        s!"      id = {node.uid}, " ++ rest := by
  have hplace : forest.nodes.getD entry.node default = node := by
    rw [Array.getD_eq_getD_getElem?, hnode, Option.getD_some]
  unfold Report.block
  simp only [hplace, toString, String.append_assoc]
  exact ⟨_, rfl⟩

end

/-! ### The advice -/

section
variable {options : Options} {forest : Forest} {model : CostModel Float} {plan : Plan Float} {entry : PlanEntry Float}
  {node : Node} {arguments : List String} {files : Files}

/-- What a printed entry promises of its node. -/
structure Advised (options : Options) (forest : Forest) (model : CostModel Float) (entry : PlanEntry Float)
    (node : Node) : Prop where
  named : forest.nodes[entry.node]? = some node
  saves : entry.reduction = selfPoint model (model.serialTime forest.rootNode) node
  positive : 0 < entry.reduction
  enough : options.minTimeReduction ≤ entry.reduction
  independent : options.exclude = .nonIndependentLoops → node.region.kind = .loop ∧ node.parallel = true
  loop : options.exclude = .nonLoops → node.region.kind = .loop
  parallel : ∀ least, options.minSelfParallelism = some least → ¬ node.selfParallelism < least

theorem mem_entriesAbove {least : Float} : entry ∈ plan.entriesAbove least ↔
    entry ∈ plan.entries ∧ least ≤ entry.reduction := by
  unfold Plan.entriesAbove
  rw [List.mem_filter, atMost_eq_true]

theorem entry_advised (h : forest.Linked) (hp : forest.plan model options.exclusion = .ok plan)
    (he : entry ∈ plan.entriesAbove options.minTimeReduction) : ∃ node, Advised options forest model entry node := by
  obtain ⟨hentry, henough⟩ := mem_entriesAbove.mp he
  obtain ⟨node, hnode, hincluded, hreduction, hpositive⟩ := entry_included h hp hentry
  obtain ⟨hindependent, hloop, hparallel⟩ := exclusion_eq_false.mp hincluded
  exact ⟨node, hnode, hreduction, less_eq_true.mp hpositive, henough,
    fun hchoice => nonIndependentLoops_eq_false.mp (hindependent hchoice),
    fun hchoice => nonLoops_eq_false.mp (hloop hchoice),
    fun least hleast => below_eq_false.mp (hparallel least hleast)⟩

/-- What the report of a plan promises. The entries that are printed are those that save enough. -/
structure SoundReport (options : Options) (forest : Forest) (model : CostModel Float) (plan : Plan Float)
    (text : String) : Prop where
  blocks : text = Report.header forest plan ++
    String.join ((plan.entriesAbove options.minTimeReduction).mapIdx fun rank entry => Report.block forest entry rank)
  descending : (plan.entriesAbove options.minTimeReduction).Pairwise fun first second =>
    second.reduction ≤ first.reduction
  distinct : ((plan.entriesAbove options.minTimeReduction).map (·.node)).Nodup
  apart : ∀ upper ∈ plan.entriesAbove options.minTimeReduction, ∀ lower ∈ plan.entriesAbove options.minTimeReduction,
    ¬ Ancestor forest.parentOf upper.node lower.node
  advised : ∀ rank entry, (plan.entriesAbove options.minTimeReduction)[rank]? = some entry →
    ∃ node rest, Advised options forest model entry node ∧ Report.block forest entry rank =
      s!"\n[{Report.rankText rank}] TimeRed({entry.cores}) = {Decimal.withPlaces 2 entry.reduction}%\n" ++
        s!"      id = {node.uid}, " ++ rest

theorem report_sound (h : forest.Linked) (hp : forest.plan model options.exclusion = .ok plan) :
    SoundReport options forest model plan (plan.report forest options.minTimeReduction) := by
  have hmem : ∀ entry ∈ plan.entriesAbove options.minTimeReduction, entry ∈ plan.entries :=
    fun entry he => (mem_entriesAbove.mp he).1
  constructor
  case blocks => rfl
  case descending => exact (entriesAbove_descending h hp _).imp atMost_eq_true.mp
  case distinct => exact (entries_nodup h hp).sublist (List.filter_sublist.map _)
  case apart =>
    intro upper hupper lower hlower
    exact entries_apart h hp (hmem upper hupper) (hmem lower hlower)
  case advised =>
    intro rank entry hentry
    obtain ⟨node, hadvised⟩ := entry_advised h hp (List.mem_of_getElem? hentry)
    obtain ⟨rest, hblock⟩ := block_begins rank hadvised.named
    exact ⟨node, rest, hadvised, hblock⟩

/-- Whatever the options are, a run that ends well has read its files, built a forest and a plan, and reports the plan. -/
theorem outcome_sound (h : (options.outcome files).exit = 0) : ∃ table records forest model plan,
    readRegions files options.regionPath options.separation = .ok table ∧
      readTrace files options.tracePath = .ok records ∧ Forest.build table records = .ok forest ∧
      options.costModel files = .ok model ∧ forest.plan model options.exclusion = .ok plan ∧
      SoundReport options forest model plan (options.outcome files).output := by
  obtain ⟨text, hreport, houtput⟩ := outcome_exit h
  obtain ⟨forest, model, plan, hforest, hmodel, hp, rfl⟩ := report_eq_ok.mp hreport
  obtain ⟨table, records, htable, hrecords, hb⟩ := forest_eq_ok.mp hforest
  rw [houtput]
  exact ⟨table, records, forest, model, plan, htable, hrecords, hb, hmodel, hp, report_sound (build_linked hb) hp⟩

/-- A run for some arguments that ends well shows the usage, or what a plan for its files advises, best first. -/
theorem advice_sound (h : ((Options.read arguments).outcome files).exit = 0) :
    (Options.read arguments = .help ∧ ((Options.read arguments).outcome files).output = usage) ∨
    ∃ options table records forest model plan, Options.read arguments = .run options ∧
      ((∀ argument ∈ arguments, ¬ "--exclude".toList <+: argument.toList) →
        options.exclude = .nonIndependentLoops) ∧
      readRegions files options.regionPath options.separation = .ok table ∧
      readTrace files options.tracePath = .ok records ∧ Forest.build table records = .ok forest ∧
      options.costModel files = .ok model ∧ forest.plan model options.exclusion = .ok plan ∧
      SoundReport options forest model plan ((Options.read arguments).outcome files).output := by
  cases hread : Options.read arguments with
  | help => exact .inl ⟨rfl, rfl⟩
  | refused =>
    rw [hread] at h
    cases h
  | run options =>
    rw [hread] at h
    obtain ⟨table, records, forest, model, plan, hrun⟩ := outcome_sound h
    exact .inr ⟨options, table, records, forest, model, plan, rfl, Options.read_exclude hread, hrun⟩

theorem advice_sound_loop :
    let records : List Record :=
      [⟨1, 0, 0, .normal, 0, 1, false, [5], [⟨1, 8, 8, 8, 100, 100, 0, 0, 0, 0⟩]⟩,
        ⟨5, 1, 0, .normal, 0, 1, true, [], [⟨1, 4, 1, 1, 100, 100, 0, 0, 0, 0⟩]⟩]
    let files : Files := Directory.read [("sregions.txt", .file "1\tloop\tm\tf\t1\t9\n".toUTF8.toList),
      ("kremlin.bin", .file (encode records))]
    let outcome := (Options.read []).outcome files
    outcome.exit = 0 ∧ ∃ (forest : Forest) (plan : Plan Float), plan.entries.map (·.uid) = [5] ∧
      outcome.output = Report.header forest plan ++
        String.join ((plan.entriesAbove 0).mapIdx fun rank entry => Report.block forest entry rank) ∧
      ∀ entry ∈ plan.entriesAbove 0, ∃ node, forest.nodes[entry.node]? = some node ∧
        node.region.kind = .loop ∧ node.parallel = true := by
  intro records files outcome
  have hexit : outcome.exit = 0 := by decide +kernel
  have hrun : (({} : Options).forest files >>= fun forest => ({} : Options).costModel files >>= fun model =>
      forest.plan model ({} : Options).exclusion).toOption.map (fun plan => plan.entries.map (·.uid)) = some [5] := by
    decide +kernel
  refine ⟨hexit, ?_⟩
  rcases advice_sound hexit with ⟨hhelp, -⟩ | ⟨options, table, records, forest, model, plan, hread, -, htable, hrecords,
    hb, hmodel, hp, hsound⟩
  · cases hhelp
  · cases hread
    rw [forest_eq_ok.mpr ⟨table, records, htable, hrecords, hb⟩, ok_bind, hmodel, ok_bind, hp] at hrun
    refine ⟨forest, plan, Option.some.inj hrun, hsound.blocks, fun entry he => ?_⟩
    obtain ⟨rank, hentry⟩ := List.getElem?_of_mem he
    obtain ⟨node, -, hadvised, -⟩ := hsound.advised rank entry hentry
    exact ⟨node, hadvised.named, hadvised.independent rfl⟩

end

end RegionPlanner
