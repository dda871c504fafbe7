import RegionPlanner.Proofs.Number.Zero
import RegionPlanner.Proofs.Plan.Agreement
import RegionPlanner.Proofs.Plan.Machines

/-!
# Plans without memory traffic

Where no node has memory traffic, nothing is to be moved and nothing misses: the floors of the bandwidth models are zero, and
so is what the cache model charges, though with negative miss rates it is the negative zero. All models then estimate what
the plain model does, to the last bit, and plan alike.
-/

namespace RegionPlanner

open Double

/-- Miss rates that are finite; they may be negative. -/
def MissRates.Finite (rates : MissRates) : Prop := rates.read.isFinite = true ∧ rates.write.isFinite = true

instance {rates : MissRates} : Decidable rates.Finite := inferInstanceAs (Decidable (_ ∧ _))

section
variable {node : Node} (target : Target) {memory : MemoryProfile}

/-! ### The plain estimates -/

theorem serialTime_unsigned (node : Node) : Unsigned (node.serialTime : Float) := count_unsigned node.averageWork.toNat_lt

/-- With work the estimate is positive, and without it only the overhead is left. -/
theorem overheadTime_unsigned (hnode : node.Parallel) : Unsigned (overheadTime target node : Float) := by
  have htimed := overheadTime_timed target hnode
  rcases (serialTime_unsigned node).zero_or_pos with hidle | hwork
  · obtain ⟨hfinite, hone⟩ := usableCores_bounds target hnode
    have hcores : 0 < value (target.usableCores node.selfParallelism) := by linarith
    have hsum := htimed.finite
    have hestimate : (overheadTime target node : Float) = Quantity.count 0 + Quantity.count target.overhead.toNat := by
      unfold overheadTime
      rw [hidle]
      exact congrArg (· + _) (count_zero_div hfinite hcores)
    rw [hestimate] at hsum ⊢
    exact (count_unsigned (by norm_num)).add (count_unsigned (halfWord_lt _)) hsum
  · have hlow := htimed.low hwork
    exact unsigned_of_pos htimed.finite ((by norm_num : (0 : ℚ) < 2 ^ (-64 : ℤ)).trans_le hlow)

/-! ### No traffic -/

variable (hquiet : memory.counters node.uid = .none)
include hquiet

theorem averages_quiet : memory.averagesOf node =
    (⟨Quantity.count 0, Quantity.count 0, Quantity.count 0, Quantity.count 0⟩ : MemoryAverages Float) := by
  obtain ⟨hfinite, hone⟩ := instances_bounds node
  have hshare := count_zero_div hfinite (by linarith)
  unfold MemoryProfile.averagesOf MemoryProfile.averages
  simp only [hquiet, MemoryCounters.none, UInt64.toNat_zero, hshare]

theorem bandwidthTime_quiet (bound : BandwidthBound) :
    bandwidthTime bound target memory node = (Quantity.count 0 : Float) := by
  have hcached := cachedBytes_upTo target bound
  have hzero : IsZero (Quantity.count 0) := zero_value
  have hbytes := (hzero.add hzero).mul (count_isFinite (n := 4) (by norm_num))
  have hspeed := one_le_count (toNat_max_one_pos (target.bandwidthMB.getD bound.defaultBandwidth)) (halfWord_lt _)
  unfold bandwidthTime
  simp only [averages_quiet hquiet]
  rw [rest_of_zero hbytes (hcached.isFinite (by norm_num)) hcached.nonneg,
    (count_unsigned (halfWord_lt _)).mul_count_zero]
  exact count_zero_div (count_isFinite (halfWord_lt _)) (by linarith)

theorem serviceTime_quiet {rates : CacheTable} (hrates : ∀ row ∈ rates.byCores, row.level1.Finite ∧ row.level2.Finite)
    (cores : UInt32) : IsZero (serviceTime rates memory node cores) := by
  have hzero : IsZero (Quantity.count 0) := zero_value
  obtain ⟨terms, htotal, hterms⟩ : ∃ terms, serviceTime rates memory node cores = Quantity.total terms ∧
      ∀ term ∈ terms, IsZero term := by
    refine serviceTime_total (p := MissRates.Finite) memory ⟨hzero.isFinite, hzero.isFinite⟩ hrates cores ?_
    rintro _ rates cycles sharing rfl ⟨hread, hwrite⟩ - hlt hsharing hfew
    simp only [averages_quiet hquiet]
    have hmisses := (hzero.mul hread).add (hzero.mul hwrite)
    have hone := one_le_count hsharing hfew
    exact (hmisses.mul (count_isFinite hlt)).div (count_isFinite hfew) (by linarith)
  rw [htotal]
  exact total_isZero hterms

theorem bandwidth_quiet (hnode : node.Parallel) (bound : BandwidthBound) :
    (bandwidthModel bound target memory).parallelTime node = (overheadTime target node : Float) := by
  change Quantity.larger _ (bandwidthTime bound target memory node) = _
  rw [bandwidthTime_quiet target hquiet]
  exact (overheadTime_unsigned target hnode).larger_count_zero

end

/-! ### The plans -/

section
variable {table : RegionTable} {records : List Record} {forest : Forest}

/-- Only the name of the model differs; where the plain model finds no serial time, so do the others. -/
theorem plan_without_traffic (hb : Forest.build table records = .ok forest) (target : Target) {memory : MemoryProfile}
    (hquiet : ∀ node ∈ forest.nodes, memory.counters node.uid = .none) {rates : CacheTable}
    (hcovers : ∃ row ∈ rates.byCores, max target.cores 1 ≤ row.cores)
    (hrates : ∀ row ∈ rates.byCores, row.level1.Finite ∧ row.level2.Finite) (exclude : Exclusion) :
    ∃ cache, cacheModel target rates memory = .ok cache ∧
      ∀ model ∈ [bandwidthModel .best target memory, bandwidthModel .worst target memory, cache],
        forest.plan model exclude =
          (fun plan => { plan with model := model.name }) <$> forest.plan (plainModel target) exclude := by
  have h := build_linked hb
  have hparallel := build_parallel hb
  have hbandwidth (bound : BandwidthBound) : ∀ node ∈ forest.nodes,
      (bandwidthModel bound target memory).parallelTime node = (plainModel target).parallelTime node :=
    fun node hm => bandwidth_quiet target (hquiet node hm) (hparallel node hm) bound
  unfold cacheModel
  refine ⟨_, if_pos (missRates_isSome.mpr hcovers), ?_⟩
  intro model hmodel
  simp only [List.mem_cons, List.not_mem_nil, or_false] at hmodel
  rcases hmodel with rfl | rfl | rfl
  · exact plan_of_estimates h rfl (fun _ _ => rfl) (hbandwidth .best)
  · exact plan_of_estimates h rfl (fun _ _ => rfl) (hbandwidth .worst)
  · refine plan_of_estimates h rfl ?_ ?_
    · intro node hm
      exact (serialTime_unsigned node).add_isZero (serviceTime_quiet (hquiet node hm) hrates 1)
    · intro node hm
      exact (overheadTime_unsigned target (hparallel node hm)).add_isZero (serviceTime_quiet (hquiet node hm) hrates _)

/-- Two miss rates are negative, one node has a row of zeros, and the traffic is that of a node of another forest. -/
theorem plan_without_traffic_negative :
    let records : List Record :=
      [⟨1, 0, 0, .normal, 0, 1, false, [5, 7], [.ofWork 1 80 64]⟩,
        ⟨5, 0, 0, .normal, 0, 1, false, [], [.ofWork 1 40 10]⟩,
        ⟨7, 0, 0, .normal, 0, 1, false, [], [.ofWork 1 0 0]⟩]
    let target : Target := { cores := 4, overhead := 0 }
    let memory : MemoryProfile := .ofList [(5, ⟨0, 0, 0, 0⟩), (9, ⟨30, 20, 10, 5⟩)]
    let plain : CostModel Float := plainModel target
    ∃ forest rates cache plan, Forest.build .initial records = .ok forest ∧
      CacheTable.parse "8\t-100\t5\t1\t-20" = .ok rates ∧ cacheModel target rates memory = .ok cache ∧
      forest.plan plain .none = .ok plan ∧ plan.entries.map (·.uid) = [5] ∧
      forest.plan cache .none = .ok { plan with model := cache.name } ∧
      forest.plan (bandwidthModel .worst target memory) .none = .ok { plan with model := "bandwidth-worst" } := by
  intro records target memory plain
  have hrun : (Forest.build .initial records).toOption.map (fun forest =>
      (decide (∀ node ∈ forest.nodes.toList, memory.counters node.uid = .none),
        (forest.plan plain .none).toOption.map fun plan => plan.entries.map (·.uid))) =
      some (true, some [5]) := by decide +kernel
  have htable : (CacheTable.parse "8\t-100\t5\t1\t-20").toOption.map (fun rates =>
      decide ((∃ row ∈ rates.byCores, max target.cores 1 ≤ row.cores) ∧
        ∀ row ∈ rates.byCores, row.level1.Finite ∧ row.level2.Finite)) = some true := by decide +kernel
  obtain ⟨forest, hb, hread⟩ := toOption_map_eq_some.mp hrun
  obtain ⟨rates, hparse, hrates⟩ := toOption_map_eq_some.mp htable
  rw [Prod.mk.injEq, decide_eq_true_iff] at hread
  obtain ⟨hquiet, hplan⟩ := hread
  obtain ⟨plan, hp, hentries⟩ := toOption_map_eq_some.mp hplan
  obtain ⟨hcovers, hfinite⟩ := of_decide_eq_true hrates
  obtain ⟨cache, hcache, hsame⟩ := plan_without_traffic hb target
    (fun node hm => hquiet node (Array.mem_toList_iff.mpr hm)) hcovers hfinite .none
  refine ⟨forest, rates, cache, plan, hb, hparse, hcache, hp, hentries, ?_, ?_⟩
  · rw [hsame cache (by simp), hp]
    rfl
  · rw [hsame (bandwidthModel .worst target memory) (by simp), hp]
    rfl

end

end RegionPlanner
