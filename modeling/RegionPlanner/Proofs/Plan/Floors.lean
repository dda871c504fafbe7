import RegionPlanner.Proofs.Plan.Machines

/-!
# Memory floors

The bandwidth models put a floor under the plain estimate. The floor of the worst case is the higher one: no cache takes
traffic away, and the memory is not faster. So from the plain model to the best and on to the worst case no node gets faster
and no plan saves more, whatever the plans are made of.
-/

namespace RegionPlanner

open Double

section
variable {node : Node} (target : Target) (memory : MemoryProfile)

/-! ### The floors -/

/-- A bandwidth that is not given is taken to be greater in the best case. -/
theorem bandwidth_le : (max (target.bandwidthMB.getD BandwidthBound.worst.defaultBandwidth) 1).toNat ≤
    (max (target.bandwidthMB.getD BandwidthBound.best.defaultBandwidth) 1).toNat := by
  cases target.bandwidthMB with
  | some given => exact le_rfl
  | none => decide

theorem bandwidthTime_le (node : Node) :
    value (bandwidthTime .best target memory node : Float) ≤ value (bandwidthTime .worst target memory node : Float) := by
  have htraffic := traffic_upTo memory node
  have hcached := cachedBytes_upTo target
  have hbytes (bound : BandwidthBound) := htraffic.rest (hcached bound) (by norm_num) (by norm_num)
  have hclock := halfWord_upTo (target.clockMHz.getD 2400)
  have hcycles (bound : BandwidthBound) := hclock.mul (hbytes bound) (by norm_num) (by norm_num) (by norm_num)
  have hspeed (bound : BandwidthBound) := one_le_count
    (toNat_max_one_pos (target.bandwidthMB.getD bound.defaultBandwidth)) (halfWord_lt _)
  -- The cache of the worst case takes nothing, so at least as many bytes are left to move.
  have hmoved := rest_anti (htraffic.isFinite (by norm_num)) ((hcached .worst).isFinite (by norm_num))
    ((hcached .best).isFinite (by norm_num)) (zero_value.2.trans_le (hcached .best).nonneg)
  have hcharged := mul_mono (hclock.isFinite (by norm_num)) hclock.nonneg ((hbytes .best).isFinite (by norm_num))
    ((hbytes .worst).isFinite (by norm_num)) hmoved
  have hmore := div_mono ((hcycles .best).isFinite (by norm_num)) ((hcycles .worst).isFinite (by norm_num))
    (count_isFinite (halfWord_lt _)) (zero_lt_one.trans_le (hspeed .best)) hcharged
  have hslower := div_anti ((hcycles .worst).isFinite (by norm_num)) (hcycles .worst).nonneg
    (count_isFinite (halfWord_lt _)) (count_isFinite (halfWord_lt _)) (zero_lt_one.trans_le (hspeed .worst))
    (count_mono (bandwidth_le target) (halfWord_lt _))
  exact hmore.trans hslower

/-! ### The models -/

variable (hnode : node.Parallel)
include hnode

theorem best_slower : Faster (bandwidthModel .best target memory) (plainModel target) node := by
  refine ⟨rfl, rfl, bandwidth_timed target hnode .best memory, overheadTime_timed target hnode, ?_⟩
  have hfloor := bandwidthTime_upTo target memory node .best
  have hmax := (larger_value (overheadTime_upTo target hnode).number hfloor.number).2
  exact (le_max_left _ _).trans hmax.ge

theorem worst_slower : Faster (bandwidthModel .worst target memory) (bandwidthModel .best target memory) node := by
  refine ⟨rfl, rfl, bandwidth_timed target hnode .worst memory, bandwidth_timed target hnode .best memory, ?_⟩
  have hnumber := (overheadTime_upTo target hnode).number
  have hfloor := bandwidthTime_upTo target memory node
  exact larger_mono hnumber hnumber (hfloor .best).number (hfloor .worst).number le_rfl
    (bandwidthTime_le target memory node)

end

/-! ### The plans -/

section
variable {forest : Forest} {model : CostModel Float} {exclude : Exclusion}
  (h : model.serialTime forest.rootNode = forest.rootNode.serialTime)
include h

theorem plan_of_idle (hidle : forest.rootNode.averageWork = 0) :
    forest.plan model exclude = .error .zeroSerialTime := by
  have hnone : Quantity.atMost (model.serialTime forest.rootNode) (Quantity.count 0) = true := by
    rw [h]
    unfold Node.serialTime
    rw [hidle]
    exact Quantity.zero_nonneg
  unfold Forest.plan
  exact if_pos hnone

theorem plan_of_busy (hbusy : forest.rootNode.averageWork ≠ 0) : ∃ plan, forest.plan model exclude = .ok plan := by
  have hpos : 0 < forest.rootNode.averageWork.toNat :=
    Nat.pos_of_ne_zero fun hzero => hbusy (UInt64.toNat_inj.mp hzero)
  have hone := one_le_count hpos forest.rootNode.averageWork.toNat_lt
  rw [plan_isOk, h, atMost_eq_true, le_iff (serialTime_upTo _).number zero_value.1, zero_value.2, not_le]
  exact zero_lt_one.trans_le hone

end

section
variable {table : RegionTable} {records : List Record} {forest : Forest}

/-- From the plain model to the best and to the worst case, no node gets faster and no plan saves more. All three plan
unless the root has no work. -/
theorem floors_ordered (hb : Forest.build table records = .ok forest) (target : Target) (memory : MemoryProfile)
    (exclude : Exclusion) :
    let plain : CostModel Float := plainModel target
    let best : CostModel Float := bandwidthModel .best target memory
    let worst : CostModel Float := bandwidthModel .worst target memory
    (∀ node ∈ forest.nodes, plain.parallelTime node ≤ best.parallelTime node ∧
      best.parallelTime node ≤ worst.parallelTime node) ∧
    (forest.rootNode.averageWork = 0 → ∀ model ∈ [plain, best, worst],
      forest.plan model exclude = .error .zeroSerialTime) ∧
    (forest.rootNode.averageWork ≠ 0 → ∃ planned bestPlanned worstPlanned, forest.plan plain exclude = .ok planned ∧
      forest.plan best exclude = .ok bestPlanned ∧ forest.plan worst exclude = .ok worstPlanned ∧
      bestPlanned.totalReduction ≤ planned.totalReduction ∧
      worstPlanned.totalReduction ≤ bestPlanned.totalReduction) := by
  intro plain best worst
  have hparallel := build_parallel hb
  have hbest : ∀ node ∈ forest.nodes, Faster best plain node :=
    fun node hm => best_slower target memory (hparallel node hm)
  have hworst : ∀ node ∈ forest.nodes, Faster worst best node :=
    fun node hm => worst_slower target memory (hparallel node hm)
  have hserial : ∀ model ∈ [plain, best, worst], model.serialTime forest.rootNode = forest.rootNode.serialTime := by
    simp [plain, best, worst, plainModel, bandwidthModel]
  refine ⟨fun node hm => ⟨(hbest node hm).le, (hworst node hm).le⟩, ?_, ?_⟩
  · intro hidle model hmodel
    exact plan_of_idle (hserial model hmodel) hidle
  · intro hbusy
    have h := build_linked hb
    obtain ⟨worstPlanned, hworstPlanned⟩ : ∃ plan, forest.plan worst exclude = .ok plan :=
      plan_of_busy (hserial worst (by simp)) hbusy
    obtain ⟨bestPlanned, hbestPlanned, hmore⟩ := plan_faster h hworst (fun _ _ hexcluded => hexcluded) hworstPlanned
    obtain ⟨planned, hplanned, hmost⟩ := plan_faster h hbest (fun _ _ hexcluded => hexcluded) hbestPlanned
    exact ⟨planned, bestPlanned, worstPlanned, hplanned, hbestPlanned, hworstPlanned, hmost, hmore⟩

/-- A root with traffic is chosen by the plain model and in the best case, its two children in the worst case. -/
theorem floors_ordered_traffic :
    let records : List Record :=
      [⟨1, 0, 0, .normal, 0, 1, false, [5, 7], [.ofWork 1 80 16]⟩,
        ⟨5, 0, 0, .normal, 0, 1, false, [], [.ofWork 1 40 10]⟩,
        ⟨7, 0, 0, .normal, 0, 1, false, [], [.ofWork 1 40 10]⟩]
    let target : Target := { cores := 8, overhead := 0, cacheMB := some 0 }
    let memory : MemoryProfile := .ofList [(1, ⟨30, 20, 0, 0⟩)]
    let plain : CostModel Float := plainModel target
    let best : CostModel Float := bandwidthModel .best target memory
    let worst : CostModel Float := bandwidthModel .worst target memory
    ∃ forest planned bestPlanned worstPlanned, Forest.build .initial records = .ok forest ∧
      forest.plan plain .none = .ok planned ∧ planned.entries.map (·.uid) = [1] ∧
      forest.plan best .none = .ok bestPlanned ∧ bestPlanned.entries.map (·.uid) = [1] ∧
      forest.plan worst .none = .ok worstPlanned ∧ worstPlanned.entries.map (·.uid) = [5, 7] ∧
      bestPlanned.totalReduction ≤ planned.totalReduction ∧
      worstPlanned.totalReduction ≤ bestPlanned.totalReduction := by
  intro records target memory plain best worst
  have hrun : (Forest.build .initial records).toOption.map (fun forest =>
      ([plain, best, worst].map fun model => (forest.plan model .none).toOption.map fun plan =>
        plan.entries.map (·.uid), forest.rootNode.averageWork)) =
      some ([some [1], some [1], some [5, 7]], 80) := by decide +kernel
  obtain ⟨forest, hb, hread⟩ := toOption_map_eq_some.mp hrun
  rw [Prod.mk.injEq] at hread
  obtain ⟨hentries, hwork⟩ := hread
  simp only [List.map_cons, List.map_nil, List.cons.injEq] at hentries
  obtain ⟨hplain, hbest, hworst, -⟩ := hentries
  obtain ⟨-, -, hplans⟩ := floors_ordered hb target memory .none
  obtain ⟨planned, bestPlanned, worstPlanned, hp, hp', hp'', hle, hle'⟩ := hplans (by rw [hwork]; decide)
  refine ⟨forest, planned, bestPlanned, worstPlanned, hb, hp, ?_, hp', ?_, hp'', ?_, hle, hle'⟩
  · simpa [plain, hp, Except.toOption] using hplain
  · simpa [best, hp', Except.toOption] using hbest
  · simpa [worst, hp'', Except.toOption] using hworst

end

end RegionPlanner
