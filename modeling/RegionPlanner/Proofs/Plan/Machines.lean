import RegionPlanner.Proofs.Cost.Estimates
import RegionPlanner.Proofs.Number.Monotone
import RegionPlanner.Proofs.Plan.Entries

/-!
# Better machines

With more cores, less overhead and fewer exclusions a plan saves at least as much: every step of a point, from the usable
cores to what is saved, keeps the order, rounding included, and so does the choice at every node.
-/

namespace RegionPlanner

open Double

/-! ### Speedups -/

/-- How many times as fast the parallel run is, one if it is not faster. -/
def speedupOf (serial parallel : Float) : Float :=
  if Quantity.less (Quantity.count 0) parallel && Quantity.less parallel serial then serial / parallel
  else Quantity.count 1

/-- What a speedup saves of a share of the program. -/
def savedShare (coverage speedup : Float) : Float := Quantity.larger (coverage - coverage / speedup) (Quantity.count 0)

/-- Estimates of a region: where there is work, no number of cores makes it vanish. -/
structure Timed (serial parallel : Float) : Prop where
  work : UpTo 64 serial
  finite : parallel.isFinite = true
  nonneg : 0 ≤ value parallel
  low : 0 < value serial → 2 ^ (-64 : ℤ) ≤ value parallel

section
variable {serial parallel parallel' : Float}

/-- A region that is not faster in parallel has a quotient of at most one, so the greater of both is rounded. -/
theorem speedupOf_value (h : Timed serial parallel) : (speedupOf serial parallel).isFinite = true ∧
    value (speedupOf serial parallel) = rounded (max 1 (value serial / value parallel)) := by
  obtain ⟨hnumber, -⟩ := isFinite_iff.mp h.finite
  obtain ⟨hzero, hzeroValue⟩ := zero_value
  have hcond : (Quantity.less (Quantity.count 0) parallel && Quantity.less parallel serial) = true ↔
      0 < value parallel ∧ value parallel < value serial := by
    rw [Bool.and_eq_true, less_eq_true, less_eq_true, lt_iff hzero hnumber, lt_iff hnumber h.work.number, hzeroValue]
  unfold speedupOf
  by_cases hfaster : 0 < value parallel ∧ value parallel < value serial
  · rw [if_pos (hcond.mpr hfaster)]
    obtain ⟨hpos, hlt⟩ := hfaster
    have hlow := h.low (hpos.trans hlt)
    -- There is work, so the parallel time is large enough for the quotient to stay in range.
    have hmost : |value serial / value parallel| ≤ 2 ^ (128 : ℤ) := by
      rw [abs_of_nonneg (div_nonneg h.work.nonneg hpos.le), div_le_iff₀ hpos]
      calc value serial ≤ 2 ^ (64 : ℤ) := h.work.le
        _ = 2 ^ (128 : ℤ) * 2 ^ (-64 : ℤ) := by norm_num
        _ ≤ 2 ^ (128 : ℤ) * value parallel := mul_le_mul_of_nonneg_left hlow (by norm_num)
    have hone : 1 ≤ value serial / value parallel := by
      rw [le_div_iff₀ hpos, one_mul]
      exact hlt.le
    rw [max_eq_right hone]
    exact div_exact (h.work.isFinite (by norm_num)) h.finite hpos.ne' (by norm_num) (by norm_num) hmost
  · rw [if_neg (mt hcond.mp hfaster)]
    have hone : value serial / value parallel ≤ 1 := by
      rcases h.nonneg.eq_or_lt with hnone | hpos
      · rw [← hnone, div_zero]
        exact zero_le_one
      · rw [div_le_one hpos]
        exact not_lt.mp fun hlt => hfaster ⟨hpos, hlt⟩
    rw [max_eq_left hone, rounded_one]
    exact one_value

theorem one_le_speedupOf (h : Timed serial parallel) : 1 ≤ value (speedupOf serial parallel) := by
  rw [(speedupOf_value h).2]
  exact one_le_rounded (le_max_left _ _)

theorem speedupOf_mono (h : Timed serial parallel) (h' : Timed serial parallel')
    (hle : value parallel' ≤ value parallel) :
    value (speedupOf serial parallel) ≤ value (speedupOf serial parallel') := by
  rw [(speedupOf_value h).2, (speedupOf_value h').2]
  refine rounded_mono (max_le_max_left 1 ?_)
  rcases h.work.nonneg.eq_or_lt with hnone | hpos
  · rw [← hnone, zero_div, zero_div]
  · have hlow : (0 : ℚ) < 2 ^ (-64 : ℤ) := by norm_num
    exact div_le_div_of_nonneg_left hpos.le (hlow.trans_le (h'.low hpos)) hle

theorem savedShare_mono {coverage speedup speedup' : Float} {k : ℤ} (hcoverage : UpTo k coverage) (hk : 0 ≤ k)
    (hlt : k < 1024) (hfinite : speedup.isFinite = true) (hfinite' : speedup'.isFinite = true) (hone : 1 ≤ value speedup)
    (hle : value speedup ≤ value speedup') : savedShare coverage speedup ≤ savedShare coverage speedup' := by
  have hc := hcoverage.isFinite hlt
  obtain ⟨hzero, -⟩ := zero_value
  have hremains := hcoverage.div hfinite hone hk hlt
  have hremains' := hcoverage.div hfinite' (hone.trans hle) hk hlt
  have hless : value (coverage / speedup') ≤ value (coverage / speedup) :=
    div_anti hc hcoverage.nonneg hfinite hfinite' (by linarith) hle
  have hsaved : value (coverage - coverage / speedup) ≤ value (coverage - coverage / speedup') :=
    sub_anti hc (hremains'.isFinite hlt) (hremains.isFinite hlt) hless
  obtain ⟨hnumber, -⟩ := sub_value hc (hremains.isFinite hlt)
  obtain ⟨hnumber', -⟩ := sub_value hc (hremains'.isFinite hlt)
  obtain ⟨hlarger, hmax⟩ := larger_value hnumber hzero
  obtain ⟨hlarger', hmax'⟩ := larger_value hnumber' hzero
  unfold savedShare
  rw [le_iff hlarger hlarger', hmax, hmax']
  exact max_le_max_right _ hsaved

end

/-! ### Points -/

/-- The second model finds a node at least as fast in parallel as the first. -/
structure Faster (model model' : CostModel Float) (node : Node) : Prop where
  serial : model.serialTime node = node.serialTime
  serial' : model'.serialTime node = node.serialTime
  timed : Timed node.serialTime (model.parallelTime node)
  timed' : Timed node.serialTime (model'.parallelTime node)
  parallel : value (model'.parallelTime node) ≤ value (model.parallelTime node)

variable {model model' : CostModel Float} {node : Node} {rootTime : Float}

theorem Faster.le (h : Faster model model' node) : model'.parallelTime node ≤ model.parallelTime node :=
  (le_iff (isFinite_iff.mp h.timed'.finite).1 (isFinite_iff.mp h.timed.finite).1).mpr h.parallel

theorem coverage_upTo (node : Node) (hroot : rootTime.isFinite = true) (hone : 1 ≤ value rootTime) :
    UpTo 192 (Quantity.count 100 * node.serialTime * Quantity.count node.instances.toNat / rootTime) := by
  have hhundred : UpTo 64 (Quantity.count 100) := count_upTo (by norm_num)
  have hshare := hhundred.mul (serialTime_upTo node) (by norm_num) (by norm_num) (by norm_num)
  have hall := hshare.mul (word_upTo node.instances) (by norm_num) (by norm_num) (by norm_num)
  exact hall.div hroot hone (by norm_num) (by norm_num)

theorem selfPoint_mono (h : Faster model model' node) (hroot : rootTime.isFinite = true) (hone : 1 ≤ value rootTime) :
    selfPoint model rootTime node ≤ selfPoint model' rootTime node := by
  have hpoint : selfPoint model rootTime node = savedShare
      (Quantity.count 100 * node.serialTime * Quantity.count node.instances.toNat / rootTime)
      (speedupOf node.serialTime (model.parallelTime node)) := by
    rw [← h.serial]
    rfl
  have hpoint' : selfPoint model' rootTime node = savedShare
      (Quantity.count 100 * node.serialTime * Quantity.count node.instances.toNat / rootTime)
      (speedupOf node.serialTime (model'.parallelTime node)) := by
    rw [← h.serial']
    rfl
  rw [hpoint, hpoint']
  exact savedShare_mono (coverage_upTo node hroot hone) (by norm_num) (by norm_num) (speedupOf_value h.timed).1
    (speedupOf_value h.timed').1 (one_le_speedupOf h.timed) (speedupOf_mono h.timed h.timed' h.parallel)

theorem ownPoint_mono {exclude exclude' : Exclusion} (h : Faster model model' node) (hroot : rootTime.isFinite = true)
    (hone : 1 ≤ value rootTime) (hexclude : exclude' node = true → exclude node = true) :
    Quantity.atMost (ownPoint model exclude rootTime node) (ownPoint model' exclude' rootTime node) = true := by
  cases hexcluded : exclude node with
  | true =>
    have hnothing : ownPoint model exclude rootTime node = Quantity.count 0 := by
      unfold ownPoint
      rw [hexcluded, if_pos rfl]
    rw [hnothing]
    exact ownPoint_nonneg node
  | false =>
    have hincluded : exclude' node = false := by
      rw [Bool.eq_false_iff]
      intro hexcluded'
      rw [hexclude hexcluded'] at hexcluded
      cases hexcluded
    rw [ownPoint_of_included hexcluded, ownPoint_of_included hincluded, atMost_eq_true]
    exact selfPoint_mono h hroot hone

/-! ### Estimates of better machines -/

section
variable (target : Target) {cores overhead : UInt32}

theorem usableCores_upTo (hnode : node.Parallel) : UpTo 64 (target.usableCores node.selfParallelism) := by
  have hcores := halfWord_upTo (max target.cores 1)
  obtain ⟨-, hone⟩ := usableCores_bounds target hnode
  obtain ⟨hnumber, hmin⟩ := smaller_value hcores.number (isFinite_iff.mp hnode.finite).1
  exact ⟨hnumber, zero_le_one.trans hone, hmin ▸ (min_le_left _ _).trans hcores.le⟩

theorem usableCores_mono (hnode : node.Parallel) (hcores : target.cores ≤ cores) :
    value (target.usableCores node.selfParallelism) ≤
      value (Target.usableCores { target with cores } node.selfParallelism) := by
  have hnumber := (isFinite_iff.mp hnode.finite).1
  have hmost : (max target.cores 1).toNat ≤ (max cores 1).toNat := by
    rw [UInt32.toNat_max, UInt32.toNat_max]
    exact max_le_max_right _ (UInt32.le_iff_toNat_le.mp hcores)
  unfold Target.usableCores
  rw [(smaller_value (halfWord_upTo _).number hnumber).2, (smaller_value (halfWord_upTo _).number hnumber).2]
  exact min_le_min_right _ (count_mono hmost (halfWord_lt _))

theorem one_le_serialTime (hwork : 0 < value (node.serialTime : Float)) : 1 ≤ value (node.serialTime : Float) := by
  refine one_le_count (Nat.pos_of_ne_zero fun hnone => ?_) node.averageWork.toNat_lt
  have hzero : (node.serialTime : Float) = Quantity.count 0 := congrArg Quantity.count hnone
  rw [hzero, zero_value.2] at hwork
  exact lt_irrefl _ hwork

theorem overheadTime_timed (hnode : node.Parallel) : Timed node.serialTime (overheadTime target node) := by
  have hserial := serialTime_upTo node
  have hbound := overheadTime_upTo target hnode
  refine ⟨hserial, hbound.isFinite (by norm_num), hbound.nonneg, ?_⟩
  intro hwork
  obtain ⟨hfinite, hone⟩ := usableCores_bounds target hnode
  have hcores := usableCores_upTo target hnode
  have hpos : 0 < value (target.usableCores node.selfParallelism) := by linarith
  have hshared := hserial.div hfinite hone (by norm_num) (by norm_num)
  have hoverhead := halfWord_upTo target.overhead
  -- There is at least one unit of work, and there are at most so many cores.
  have hleast : 2 ^ (-64 : ℤ) ≤ value (node.serialTime : Float) / value (target.usableCores node.selfParallelism) := by
    rw [le_div_iff₀ hpos]
    calc 2 ^ (-64 : ℤ) * value (target.usableCores node.selfParallelism) ≤ 2 ^ (-64 : ℤ) * 2 ^ (64 : ℤ) :=
          mul_le_mul_of_nonneg_left hcores.le (by norm_num)
      _ = 1 := by norm_num
      _ ≤ value (node.serialTime : Float) := one_le_serialTime hwork
  have hrounded : 2 ^ (-64 : ℤ) ≤ value (node.serialTime / target.usableCores node.selfParallelism : Float) := by
    have hmono := cutOff_rounded_mono hleast
    have hlarge := two_zpow_lt_tooLarge (k := -64) (by norm_num)
    rw [← (div_value (hserial.isFinite (by norm_num)) hfinite hpos.ne').2, rounded_two_zpow (by norm_num),
      cutOff_of_lt (by linarith [tooLarge_pos, zpow_pos (two_pos : (0 : ℚ) < 2) (-64)]) hlarge.le] at hmono
    exact hmono
  exact hrounded.trans
    (le_add_value (hshared.isFinite (by norm_num)) hshared.nonneg hoverhead.number hoverhead.nonneg)

theorem overheadTime_mono (hnode : node.Parallel) (hcores : target.cores ≤ cores) (hoverhead : overhead ≤ target.overhead) :
    value (overheadTime { target with cores, overhead } node : Float) ≤ value (overheadTime target node : Float) := by
  have hserial := serialTime_upTo node
  obtain ⟨hfinite, hone⟩ := usableCores_bounds target hnode
  obtain ⟨hfinite', hone'⟩ := usableCores_bounds { target with cores, overhead } hnode
  have hshared' := hserial.div hfinite' hone' (by norm_num) (by norm_num)
  have hshared := hserial.div hfinite hone (by norm_num) (by norm_num)
  have hless : value (node.serialTime / Target.usableCores { target with cores, overhead } node.selfParallelism : Float) ≤
      value (node.serialTime / target.usableCores node.selfParallelism : Float) :=
    div_anti (hserial.isFinite (by norm_num)) hserial.nonneg hfinite hfinite' (by linarith)
      (usableCores_mono target hnode hcores)
  have hcost : value (Quantity.count overhead.toNat : Float) ≤ value (Quantity.count target.overhead.toNat : Float) :=
    count_mono (UInt32.le_iff_toNat_le.mp hoverhead) (halfWord_lt _)
  have hsum := add_le_add hshared'.nonNegative (halfWord_upTo overhead).nonNegative
    ((le_iff hshared'.number hshared.number).mpr hless)
    ((le_iff (halfWord_upTo overhead).number (halfWord_upTo target.overhead).number).mpr hcost)
  obtain ⟨hnumber', hnumber⟩ := isNumber_of_le hsum
  exact (le_iff hnumber' hnumber).mp hsum

section
variable (hnode : node.Parallel) (hcores : target.cores ≤ cores) (hoverhead : overhead ≤ target.overhead)
include hnode hcores hoverhead

theorem plain_faster : Faster (plainModel target) (plainModel { target with cores, overhead }) node :=
  ⟨rfl, rfl, overheadTime_timed target hnode, overheadTime_timed _ hnode, overheadTime_mono target hnode hcores hoverhead⟩

omit hcores hoverhead in
theorem bandwidth_timed (bound : BandwidthBound) (memory : MemoryProfile) :
    Timed node.serialTime ((bandwidthModel bound target memory).parallelTime node) := by
  have htimed := overheadTime_timed target hnode
  have hbound := bandwidthModel_upTo target memory bound hnode
  refine ⟨htimed.work, hbound.isFinite (by norm_num), hbound.nonneg, ?_⟩
  intro hwork
  have hmax := (larger_value (isFinite_iff.mp htimed.finite).1 (bandwidthTime_upTo target memory node bound).number).2
  exact (htimed.low hwork).trans ((le_max_left _ _).trans hmax.ge)

/-- The time to move the data is the same on both machines. -/
theorem bandwidth_faster (bound : BandwidthBound) (memory : MemoryProfile) : Faster (bandwidthModel bound target memory)
    (bandwidthModel bound { target with cores, overhead } memory) node := by
  refine ⟨rfl, rfl, bandwidth_timed target hnode bound memory, bandwidth_timed _ hnode bound memory, ?_⟩
  have hnumber := (overheadTime_upTo target hnode).number
  have hnumber' := (overheadTime_upTo { target with cores, overhead } hnode).number
  have hfloor := (bandwidthTime_upTo target memory node bound).number
  exact larger_mono hnumber' hnumber hfloor hfloor (overheadTime_mono target hnode hcores hoverhead) le_rfl

end

end

/-! ### Plans for better machines -/

section
variable {forest : Forest} {exclude exclude' : Exclusion} {plan : Plan Float}

/-- A model that finds every node at least as fast gives a plan that saves at least as much. -/
theorem plan_faster (h : forest.Linked) (hfaster : ∀ node ∈ forest.nodes, Faster model model' node)
    (hexclude : ∀ node ∈ forest.nodes, exclude' node = true → exclude node = true)
    (hp : forest.plan model exclude = .ok plan) :
    ∃ plan', forest.plan model' exclude' = .ok plan' ∧ plan.totalReduction ≤ plan'.totalReduction := by
  have hroot := hfaster _ h.rootNode_mem
  have hsome := plan_isOk.mp ⟨plan, hp⟩
  have hsame : model'.serialTime forest.rootNode = model.serialTime forest.rootNode := hroot.serial'.trans hroot.serial.symm
  -- Only the serial time of the root decides whether there is a plan.
  obtain ⟨plan', hp'⟩ : ∃ plan', forest.plan model' exclude' = .ok plan' := by
    rw [plan_isOk, hsame]
    exact hsome
  have hfinite : (model.serialTime forest.rootNode).isFinite = true := by
    rw [hroot.serial]
    exact (serialTime_upTo _).isFinite (by norm_num)
  have hone : 1 ≤ value (model.serialTime forest.rootNode) := by
    have hnumber := (serialTime_upTo forest.rootNode).number
    rw [hroot.serial] at hsome ⊢
    rw [atMost_eq_true, le_iff hnumber zero_value.1, zero_value.2, not_le] at hsome
    exact one_le_serialTime hsome
  refine ⟨plan', hp', ?_⟩
  rw [(plan_made h hp).1, (plan_made h hp').1, ← atMost_eq_true]
  refine best_mono h ownPoint_nonneg ownPoint_nonneg ?_ forest.root h.tree.root_lt
  intro node hm
  rw [hsame]
  exact ownPoint_mono (hfaster node hm) hfinite hone (hexclude node hm)

end

section
variable {table : RegionTable} {records : List Record} {forest : Forest}

/-- More cores, less overhead and fewer exclusions do not make a plan worse. -/
theorem plan_monotone (hb : Forest.build table records = .ok forest) (target : Target) (memory : MemoryProfile)
    {cores overhead : UInt32} (hcores : target.cores ≤ cores) (hoverhead : overhead ≤ target.overhead)
    {exclude exclude' : Exclusion} (hexclude : ∀ node ∈ forest.nodes, exclude' node = true → exclude node = true) :
    let better : Target := { target with cores, overhead }
    let pairs : List (CostModel Float × CostModel Float) :=
      [(plainModel target, plainModel better),
        (bandwidthModel .best target memory, bandwidthModel .best better memory),
        (bandwidthModel .worst target memory, bandwidthModel .worst better memory)]
    ∀ models ∈ pairs,
      ∀ plan, forest.plan models.1 exclude = .ok plan →
        ∃ plan', forest.plan models.2 exclude' = .ok plan' ∧ plan.totalReduction ≤ plan'.totalReduction := by
  intro better pairs models hmodels plan hp
  have hparallel := build_parallel hb
  refine plan_faster (build_linked hb) ?_ hexclude hp
  intro node hm
  have hnode := hparallel node hm
  simp only [pairs, List.mem_cons, List.not_mem_nil, or_false] at hmodels
  rcases hmodels with rfl | rfl | rfl
  · exact plain_faster target hnode hcores hoverhead
  · exact bandwidth_faster target hnode hcores hoverhead .best memory
  · exact bandwidth_faster target hnode hcores hoverhead .worst memory

theorem plan_monotone_siblings :
    let records : List Record :=
      [⟨1, 0, 0, .normal, 0, 1, false, [5, 7], [⟨1, 80, 80, 80, 100, 100, 0, 0, 0, 0⟩]⟩,
        ⟨5, 0, 0, .normal, 0, 1, false, [], [⟨1, 40, 20, 20, 100, 100, 0, 0, 0, 0⟩]⟩,
        ⟨7, 0, 0, .normal, 0, 1, false, [], [⟨1, 40, 10, 10, 100, 100, 0, 0, 0, 0⟩]⟩]
    let target : Target := { cores := 2, overhead := 5, clockMHz := some 1000 }
    let memory : MemoryProfile := .ofList [(5, ⟨10, 20, 0, 0⟩)]
    let model : CostModel Float := bandwidthModel .worst target memory
    let model' : CostModel Float := bandwidthModel .worst { target with cores := 4, overhead := 1 } memory
    ∃ forest plan plan', Forest.build .initial records = .ok forest ∧
      forest.plan model (.uids [7]) = .ok plan ∧ plan.entries.map (·.uid) = [5] ∧
      forest.plan model' .none = .ok plan' ∧ plan.totalReduction ≤ plan'.totalReduction := by
  intro records target memory model model'
  have hrun : (Forest.build .initial records >>= fun forest => forest.plan model (.uids [7])).toOption.map
        (fun plan => plan.entries.map (·.uid)) = some [5] := by decide +kernel
  obtain ⟨plan, hplan, hentries⟩ := toOption_map_eq_some.mp hrun
  obtain ⟨forest, hb, hp⟩ := bind_eq_ok.mp hplan
  have hexclude : ∀ node ∈ forest.nodes, Exclusion.none node = true → Exclusion.uids [7] node = true := by
    intro node _ hexcluded
    cases hexcluded
  obtain ⟨plan', hp', hle⟩ := plan_monotone hb target memory (by decide : target.cores ≤ 4)
    (by decide : 1 ≤ target.overhead) hexclude (model, model') (by simp [model, model']) plan hp
  exact ⟨forest, plan, plan', hb, hp, hentries, hp', hle⟩

end

end RegionPlanner
