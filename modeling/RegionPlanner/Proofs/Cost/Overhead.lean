import RegionPlanner.Proofs.Plan.Machines

/-!
# More overhead

Where the self-parallelism of the nodes is finite and at least one, work is shared out over one core at least, on a target
without cores too. No parallel estimate is negative, and none shrinks when an instance costs more overhead.
-/

namespace RegionPlanner

open Double

section
variable {node : Node} (target : Target) (memory : MemoryProfile) {overhead : UInt32}

theorem one_le_iff {x : Float} (hx : x.isFinite = true) : 1 ≤ x ↔ 1 ≤ value x := by
  rw [one_eq_count, le_iff (isFinite_iff.mp one_value.1).1 (isFinite_iff.mp hx).1, one_value.2]

/-! ### The models without misses -/

variable (hnode : node.Parallel) (hoverhead : target.overhead ≤ overhead)
include hnode hoverhead

theorem plain_dearer :
    (plainModel target).parallelTime node ≤ ((plainModel { target with overhead }).parallelTime node : Float) :=
  (plain_faster { target with overhead } hnode (UInt32.le_refl target.cores) hoverhead).le

theorem bandwidth_dearer (bound : BandwidthBound) : (bandwidthModel bound target memory).parallelTime node ≤
    ((bandwidthModel bound { target with overhead } memory).parallelTime node : Float) :=
  (bandwidth_faster { target with overhead } hnode (UInt32.le_refl target.cores) hoverhead bound memory).le

/-! ### The cache model -/

/-- The misses do not depend on the overhead, nor does it decide whether the table covers the target. -/
theorem cache_dearer {rates : CacheTable} (hrates : rates.Sound) {model : CostModel Float}
    (hmodel : cacheModel target rates memory = .ok model) :
    ∃ model', cacheModel { target with overhead } rates memory = .ok model' ∧
      Quantity.NonNegative (model.parallelTime node) ∧ model.parallelTime node ≤ model'.parallelTime node := by
  have hnonneg := (overheadTime_upTo target hnode).nonNegative
  obtain ⟨hcovers, -, -, hparallel⟩ := cacheModel_made hmodel
  have hservice : Quantity.NonNegative
      (serviceTime rates memory node (target.usableCores node.selfParallelism).toUInt32) :=
    serviceTime_nonNegative memory hrates _
  rw [hparallel]
  refine ⟨_, if_pos (missRates_isSome.mpr hcovers), add_nonNegative hnonneg hservice, ?_⟩
  exact add_le_add hnonneg hservice (plain_dearer target hnode hoverhead) (atMost_eq_true.mp hservice.atMost_self)

end

/-! ### All models -/

section
variable {table : RegionTable} {records : List Record} {forest : Forest}

/-- In a built forest every node can use one core at least, and no parallel estimate of it is negative or shrinks with
more overhead. -/
theorem estimates_dearer (hb : Forest.build table records = .ok forest) (target : Target) (memory : MemoryProfile)
    {overhead : UInt32} (hoverhead : target.overhead ≤ overhead) :
    let dearer : Target := { target with overhead }
    let pairs : List (CostModel Float × CostModel Float) :=
      [(plainModel target, plainModel dearer),
        (bandwidthModel .best target memory, bandwidthModel .best dearer memory),
        (bandwidthModel .worst target memory, bandwidthModel .worst dearer memory)]
    ∀ node ∈ forest.nodes,
      (node.selfParallelism.isFinite = true ∧ 1 ≤ node.selfParallelism) ∧
      ((target.usableCores node.selfParallelism).isFinite = true ∧ 1 ≤ target.usableCores node.selfParallelism) ∧
      (∀ models ∈ pairs, Quantity.NonNegative (models.1.parallelTime node) ∧
        models.1.parallelTime node ≤ models.2.parallelTime node) ∧
      ∀ rates model, rates.Sound → cacheModel target rates memory = .ok model →
        ∃ model', cacheModel dearer rates memory = .ok model' ∧ Quantity.NonNegative (model.parallelTime node) ∧
          model.parallelTime node ≤ model'.parallelTime node := by
  intro dearer pairs node hm
  have hnode := build_parallel hb node hm
  obtain ⟨hfinite, hone⟩ := usableCores_bounds target hnode
  refine ⟨⟨hnode.finite, (one_le_iff hnode.finite).mpr hnode.one_le⟩, ⟨hfinite, (one_le_iff hfinite).mpr hone⟩, ?_, ?_⟩
  · intro models hmodels
    simp only [pairs, List.mem_cons, List.not_mem_nil, or_false] at hmodels
    rcases hmodels with rfl | rfl | rfl
    · exact ⟨(overheadTime_upTo target hnode).nonNegative, plain_dearer target hnode hoverhead⟩
    · exact ⟨(bandwidthModel_upTo target memory .best hnode).nonNegative,
        bandwidth_dearer target memory hnode hoverhead .best⟩
    · exact ⟨(bandwidthModel_upTo target memory .worst hnode).nonNegative,
        bandwidth_dearer target memory hnode hoverhead .worst⟩
  · intro rates model hrates hmodel
    exact cache_dearer target memory hnode hoverhead hrates hmodel

/-- A leaf with 100 loads on a target without cores, under a table of which every second load and every fourth store
misses. -/
theorem estimates_dearer_leaf :
    let records : List Record := [⟨1, 0, 0, .normal, 0, 1, false, [], [.ofWork 1 1000 300]⟩]
    let target : Target := { cores := 0, overhead := 10 }
    let memory : MemoryProfile := .ofList [(1, ⟨0, 0, 100, 0⟩)]
    let rates : CacheTable := ⟨[⟨4, ⟨0.5, 0.25⟩, ⟨0, 0⟩⟩]⟩
    ∃ forest model model', Forest.build .initial records = .ok forest ∧ forest.size = 1 ∧
      cacheModel target rates memory = .ok model ∧
      cacheModel { target with overhead := 30 } rates memory = .ok model' ∧
      ∀ node ∈ forest.nodes, 1 ≤ node.selfParallelism ∧ 1 ≤ target.usableCores node.selfParallelism ∧
        Quantity.NonNegative (model.parallelTime node) ∧ model.parallelTime node ≤ model'.parallelTime node := by
  intro records target memory rates
  have hforest : (Forest.build .initial records).toOption.map (·.size) = some 1 := by decide +kernel
  obtain ⟨forest, hb, hsize⟩ := toOption_map_eq_some.mp hforest
  have hcovered : (rates.missRates? (max target.cores 1) 0).isSome = true := by decide +kernel
  have hrates : rates.Sound := by
    intro row hrow
    obtain rfl := List.mem_singleton.mp hrow
    refine ⟨⟨?_, ?_⟩, ?_, ?_⟩ <;> decide +kernel
  have hoverhead : target.overhead ≤ 30 := by decide
  obtain ⟨model, hmodel⟩ : ∃ model, cacheModel target rates memory = .ok model := ⟨_, if_pos hcovered⟩
  obtain ⟨model', hmodel'⟩ : ∃ model', cacheModel { target with overhead := 30 } rates memory = .ok model' :=
    ⟨_, if_pos hcovered⟩
  refine ⟨forest, model, model', hb, hsize, hmodel, hmodel', ?_⟩
  intro node hm
  obtain ⟨⟨-, hone⟩, ⟨-, hcores⟩, -, hcache⟩ := estimates_dearer hb target memory hoverhead node hm
  obtain ⟨found, hfound, hnonneg, hle⟩ := hcache rates model hrates hmodel
  rw [hmodel', Except.ok.injEq] at hfound
  subst hfound
  exact ⟨hone, hcores, hnonneg, hle⟩

end

end RegionPlanner
