import RegionPlanner.Proofs.Cost.Estimates
import RegionPlanner.Proofs.Plan.Entries

/-!
# What a machine can save

A region on `c` cores saves at most `1 - 1 / c` of its time, and of the nodes that are chosen none is above another.
So in exact numbers, and if the work of a node holds that of its children, no plan saves more than `1 - 1 / c` of the
program.
-/

namespace RegionPlanner

variable {forest : Forest} {place : Nat} {node : Node}

/-! ### Limits that children share -/

/-- A best choice does not save more than the limit of its node, if no node does by itself and the limit of a node is
enough for those of its children. -/
theorem best_le (h : forest.Linked) {own limit : Node → Rat} (hown : ∀ node ∈ forest.nodes, own node ≤ limit node)
    (hshared : ∀ node ∈ forest.nodes, ((forest.children node).map limit).sum ≤ limit node) :
    ∀ place < forest.size, (forest.best own place).point ≤ limit (forest.nodes.getD place default) := by
  refine h.induction ?_
  intro place node hnode ih
  have hm : node ∈ forest.nodes := Array.mem_of_getElem? hnode
  rw [getD_node hnode]
  rcases best_cases h own hnode with ⟨-, hbest⟩ | ⟨-, hbest⟩
  · rw [hbest]
    exact hown node hm
  · rw [hbest]
    unfold Forest.bestBelow
    rw [Quantity.total_rat]
    refine le_trans (List.sum_le_sum ih) ?_
    have hchildren := hshared node hm
    rwa [h.children_eq hnode, List.map_map] at hchildren

/-! ### Counters that fit together -/

/-- A record counts the instances that its outermost stat counts, at least one and for the root just one, and the work of
a node holds that of its children. -/
structure Forest.Counted (forest : Forest) : Prop where
  instances : ∀ node ∈ forest.nodes, node.instances = node.profile.outermost.instances ∧ 1 ≤ node.instances
  root : forest.rootNode.instances = 1
  work : ∀ node ∈ forest.nodes, ((forest.children node).map (·.work.toNat)).sum ≤ node.work.toNat

instance (forest : Forest) : Decidable forest.Counted :=
  decidable_of_iff
    ((∀ node ∈ forest.nodes, node.instances = node.profile.outermost.instances ∧ 1 ≤ node.instances) ∧
      forest.rootNode.instances = 1 ∧
      ∀ node ∈ forest.nodes, ((forest.children node).map (·.work.toNat)).sum ≤ node.work.toNat)
    ⟨fun ⟨instances, root, work⟩ => ⟨instances, root, work⟩, fun h => ⟨h.instances, h.root, h.work⟩⟩

theorem averageWork_mul_le (h : node.instances = node.profile.outermost.instances ∧ 1 ≤ node.instances) :
    node.averageWork.toNat * node.instances.toNat ≤ node.work.toNat := by
  obtain ⟨hsame, hpositive⟩ := h
  rw [UInt64.le_iff_toNat_le, UInt64.toNat_one] at hpositive
  unfold Node.averageWork Stat.averageWork Node.work
  rw [← hsame, UInt64.toNat_div, UInt64.toNat_max, UInt64.toNat_one, max_eq_left hpositive]
  exact Nat.div_mul_le_self _ _

theorem averageWork_of_one (hsame : node.instances = node.profile.outermost.instances) (hone : node.instances = 1) :
    node.averageWork = node.work := by
  unfold Node.averageWork Stat.averageWork Node.work
  rw [← hsame, hone, ← UInt64.toNat_inj, UInt64.toNat_div, UInt64.toNat_max, max_self, UInt64.toNat_one, Nat.div_one]

/-! ### Models -/

/-- The cores of a target in exact numbers. -/
def Target.exactCores (target : Target) : Rat := (max target.cores 1).toNat

theorem Target.one_le_exactCores (target : Target) : 1 ≤ target.exactCores := by
  unfold Target.exactCores
  exact_mod_cast toNat_max_one_pos target.cores

/-- No more of the time of an instance is saved than by sharing its work out over all cores. -/
structure CostModel.Limited (model : CostModel Rat) (target : Target) : Prop where
  serial : ∀ node, model.serialTime node = node.averageWork.toNat
  parallel : ∀ node, node.Parallel → model.serialTime node / target.exactCores ≤ model.parallelTime node

/-- An instance takes its average work, and in parallel no less than by the plain model. -/
structure CostModel.Floored (model : CostModel Rat) (target : Target) : Prop where
  serial : ∀ node, model.serialTime node = node.averageWork.toNat
  parallel : ∀ node, overheadTime target node ≤ model.parallelTime node

theorem one_le_stored (hnode : node.Parallel) : 1 ≤ (Quantity.stored node.selfParallelism : Rat) := by
  change 1 ≤ (Reading.ofFloat node.selfParallelism).toRat
  rw [Double.toRat_ofFloat hnode.finite]
  exact hnode.one_le

theorem usableCores_exact (target : Target) (selfParallelism : Rat) :
    target.usableCores selfParallelism = min target.exactCores selfParallelism := by
  simp only [Target.usableCores, Quantity.smaller_rat, Quantity.count_rat, Target.exactCores, min_def']

theorem overheadTime_ge (target : Target) {cores : Rat} (hnode : node.Parallel)
    (hcores : min target.exactCores (Quantity.stored node.selfParallelism) ≤ cores) :
    (node.averageWork.toNat : Rat) / cores ≤ overheadTime target node := by
  have hpos : 0 < min target.exactCores (Quantity.stored node.selfParallelism) :=
    lt_min (zero_lt_one.trans_le target.one_le_exactCores) (zero_lt_one.trans_le (one_le_stored hnode))
  have hshared : (node.averageWork.toNat : Rat) / cores ≤
      node.averageWork.toNat / min target.exactCores (Quantity.stored node.selfParallelism) :=
    div_le_div_of_nonneg_left (Nat.cast_nonneg _) hpos hcores
  have hoverhead : (0 : Rat) ≤ target.overhead.toNat := Nat.cast_nonneg _
  simp only [overheadTime, Node.serialTime, usableCores_exact, Quantity.count_rat]
  linarith

theorem plainModel_floored (target : Target) : (plainModel target).Floored target where
  serial _ := rfl
  parallel _ := le_rfl

theorem bandwidthModel_floored (bound : BandwidthBound) (target : Target) (memory : MemoryProfile) :
    (bandwidthModel bound target memory).Floored target where
  serial _ := rfl
  parallel node := by
    show overheadTime target node ≤
      Quantity.larger (overheadTime target node) (bandwidthTime bound target memory node)
    rw [Quantity.larger_rat]
    split
    · next hle => exact hle
    · exact le_rfl

theorem CostModel.Floored.limited {model : CostModel Rat} {target : Target} (h : model.Floored target) :
    model.Limited target where
  serial := h.serial
  parallel node hnode := by
    rw [h.serial]
    exact (overheadTime_ge target hnode (min_le_left _ _)).trans (h.parallel node)

theorem plainModel_limited (target : Target) : (plainModel target).Limited target := (plainModel_floored target).limited

theorem bandwidthModel_limited (bound : BandwidthBound) (target : Target) (memory : MemoryProfile) :
    (bandwidthModel bound target memory).Limited target := (bandwidthModel_floored bound target memory).limited

/-! ### Points -/

section
variable {model : CostModel Rat} {target : Target} {exclude : Exclusion} {rootTime : Rat}

/-- What can be saved of a whole, one core being needed anyway. -/
def Target.share (target : Target) : Rat := 1 - 1 / target.exactCores

theorem Target.share_nonneg (target : Target) : 0 ≤ target.share := by
  have hcores := target.one_le_exactCores
  unfold Target.share
  rw [sub_nonneg, div_le_one (by linarith)]
  exact hcores

theorem speedup_bounds {cores serial parallel : Rat} (hcores : 1 ≤ cores) (hparallel : serial / cores ≤ parallel) :
    let speedup := if Quantity.less (Quantity.count 0) parallel && Quantity.less parallel serial then serial / parallel
      else Quantity.count 1
    0 < speedup ∧ speedup ≤ cores := by
  rw [div_le_iff₀ (by linarith)] at hparallel
  simp only [Quantity.less_rat, Quantity.count_rat, Bool.and_eq_true, decide_eq_true_eq, Nat.cast_zero, Nat.cast_one]
  split
  · next hfaster =>
    obtain ⟨hpos, hlt⟩ := hfaster
    exact ⟨div_pos (hpos.trans hlt) hpos, (div_le_iff₀ hpos).mpr (by linarith)⟩
  · exact ⟨one_pos, hcores⟩

/-- The share of a node in the program without what is left of it at the speedup that the estimates give. -/
theorem selfPoint_exact (hserial : model.serialTime node = node.averageWork.toNat) :
    selfPoint model rootTime node =
      let speedup := if Quantity.less (Quantity.count 0) (model.parallelTime node) &&
          Quantity.less (model.parallelTime node) (model.serialTime node) then
        model.serialTime node / model.parallelTime node else Quantity.count 1
      let coverage := 100 * (node.averageWork.toNat * node.instances.toNat) / rootTime
      max (coverage - coverage / speedup) 0 := by
  unfold selfPoint
  simp only [Quantity.larger_rat, Quantity.count_rat, hserial]
  rw [max_def, Nat.cast_zero, Nat.cast_ofNat, mul_assoc]

/-- No node saves more than by sharing its work out over some cores, if its parallel time is no less than that. -/
theorem selfPoint_le {cores : Rat} (hserial : model.serialTime node = node.averageWork.toNat) (hcores : 1 ≤ cores)
    (hparallel : model.serialTime node / cores ≤ model.parallelTime node) (hroot : 0 < rootTime) :
    selfPoint model rootTime node ≤
      100 * (node.averageWork.toNat * node.instances.toNat) / rootTime * (1 - 1 / cores) := by
  obtain ⟨hpositive, hspeedup⟩ := speedup_bounds hcores hparallel
  rw [selfPoint_exact hserial]
  simp only at hpositive hspeedup ⊢
  generalize (if Quantity.less (Quantity.count 0) (model.parallelTime node) &&
    Quantity.less (model.parallelTime node) (model.serialTime node) then
    model.serialTime node / model.parallelTime node else Quantity.count 1) = speedup at *
  have hinverse : 1 / cores ≤ 1 / speedup := one_div_le_one_div_of_le hpositive hspeedup
  have hshare : 1 / cores ≤ 1 := (div_le_one (zero_lt_one.trans_le hcores)).mpr hcores
  have hcoverage : (0 : Rat) ≤ 100 * (node.averageWork.toNat * node.instances.toNat) / rootTime := by positivity
  generalize (100 * (node.averageWork.toNat * node.instances.toNat) / rootTime : Rat) = coverage at *
  refine max_le ?_ (mul_nonneg hcoverage (by linarith))
  calc coverage - coverage / speedup = coverage * (1 - 1 / speedup) := by ring
    _ ≤ coverage * (1 - 1 / cores) := by gcongr

/-- The share of a node in what the machine can save of the program. -/
def Target.limit (target : Target) (rootTime : Rat) (node : Node) : Rat :=
  100 * target.share / rootTime * node.work.toNat

theorem ownPoint_le_limit (hmodel : model.Limited target) (hroot : 0 < rootTime) (hnode : node.Parallel)
    (hcounted : node.instances = node.profile.outermost.instances ∧ 1 ≤ node.instances) :
    ownPoint model exclude rootTime node ≤ target.limit rootTime node := by
  have hshare := target.share_nonneg
  have hwork : (node.averageWork.toNat * node.instances.toNat : Rat) ≤ node.work.toNat := by
    exact_mod_cast averageWork_mul_le hcounted
  unfold ownPoint Target.limit
  split
  · rw [Quantity.count_rat, Nat.cast_zero]
    positivity
  · calc selfPoint model rootTime node
        ≤ 100 * (node.averageWork.toNat * node.instances.toNat) / rootTime * target.share :=
          selfPoint_le (hmodel.serial node) target.one_le_exactCores (hmodel.parallel node hnode) hroot
      _ = 100 * target.share / rootTime * (node.averageWork.toNat * node.instances.toNat) := by ring
      _ ≤ 100 * target.share / rootTime * node.work.toNat := by gcongr

theorem limit_shared (hcounted : forest.Counted) (hroot : 0 < rootTime) :
    ∀ node ∈ forest.nodes, ((forest.children node).map (target.limit rootTime)).sum ≤ target.limit rootTime node := by
  intro node hm
  have hshare := target.share_nonneg
  have hwork : ((((forest.children node).map (·.work.toNat)).sum : ℕ) : Rat) ≤ node.work.toNat :=
    Nat.cast_le.mpr (hcounted.work node hm)
  rw [Nat.cast_list_sum, List.map_map] at hwork
  unfold Target.limit
  rw [List.sum_map_mul_left]
  gcongr
  exact hwork

/-! ### Plans -/

variable {table : RegionTable} {records : List Record} {plan : Plan Rat}

theorem plan_time (hp : forest.plan model exclude = .ok plan) :
    0 < plan.serialTime ∧ plan.serialTime = model.serialTime forest.rootNode := by
  simp only [Forest.plan] at hp
  split at hp
  · cases hp
  · next hpositive =>
    cases hp
    rw [Quantity.atMost_rat, Quantity.count_rat, Nat.cast_zero, decide_eq_true_eq, not_le] at hpositive
    exact ⟨hpositive, rfl⟩

theorem totalReduction_le (hb : Forest.build table records = .ok forest) (hcounted : forest.Counted)
    (hmodel : model.Limited target) (hp : forest.plan model exclude = .ok plan) :
    plan.totalReduction ≤ 100 * target.share := by
  have h := build_linked hb
  obtain ⟨hpositive, htime⟩ := plan_time hp
  have hwork := averageWork_of_one (hcounted.instances _ h.rootNode_mem).1 hcounted.root
  rw [hmodel.serial, hwork] at htime
  have hown : ∀ node ∈ forest.nodes, ownPoint model exclude plan.serialTime node ≤ target.limit plan.serialTime node :=
    fun node hm => ownPoint_le_limit hmodel hpositive (build_parallel hb node hm) (hcounted.instances node hm)
  rw [(plan_made h hp).1]
  unfold Forest.planned
  rw [← (plan_time hp).2]
  calc (forest.best (ownPoint model exclude plan.serialTime) forest.root).point
      ≤ target.limit plan.serialTime forest.rootNode :=
        best_le h hown (limit_shared hcounted hpositive) forest.root h.tree.root_lt
    _ = 100 * target.share := by
        unfold Target.limit
        rw [← htime]
        field_simp

section
variable {cores : Rat} (h : plan.totalReduction ≤ 100 * (1 - 1 / cores))
include h

theorem rest_ge : 100 / cores ≤ 100 - plan.totalReduction := by
  have hsplit : 100 * (1 - 1 / cores) = 100 - 100 / cores := by ring
  linarith

theorem finiteSpeedup_le (hcores : 1 ≤ cores) : ∃ speedup, plan.finiteSpeedup? = some speedup ∧ speedup ≤ cores := by
  have hpositive : 0 < cores := by linarith
  have hrest := rest_ge h
  have hleft : 0 < 100 - plan.totalReduction := lt_of_lt_of_le (by positivity) hrest
  refine ⟨100 / (100 - plan.totalReduction), ?_, ?_⟩
  · unfold Plan.finiteSpeedup?
    simp only [Quantity.atMost_rat, Quantity.count_rat, Nat.cast_zero, Nat.cast_ofNat, decide_eq_true_eq]
    rw [if_neg (not_le.mpr hleft)]
  · rw [div_le_iff₀ hleft]
    rwa [div_le_iff₀ hpositive, mul_comm] at hrest

theorem le_parallelTime (htime : 0 < plan.serialTime) : plan.serialTime / cores ≤ plan.parallelTime := by
  have hrest := rest_ge h
  unfold Plan.parallelTime
  rw [Quantity.count_rat, Nat.cast_ofNat]
  calc plan.serialTime / cores = plan.serialTime * (100 / cores) / 100 := by ring
    _ ≤ plan.serialTime * (100 - plan.totalReduction) / 100 := by gcongr

end

/-- A plan does not promise more than the machine has. -/
theorem plan_within_machine (hb : Forest.build table records = .ok forest) (hcounted : forest.Counted) (target : Target)
    (memory : MemoryProfile) (exclude : Exclusion) :
    ∀ model ∈ [plainModel target, bandwidthModel .best target memory, bandwidthModel .worst target memory],
      ∀ plan : Plan Rat, forest.plan model exclude = .ok plan →
        let cores : Rat := (max target.cores 1).toNat
        plan.totalReduction ≤ 100 * (1 - 1 / cores) ∧ plan.totalReduction < 100 ∧
          (∃ speedup, plan.finiteSpeedup? = some speedup ∧ speedup ≤ cores) ∧
          plan.serialTime / cores ≤ plan.parallelTime := by
  intro model hm plan hp cores
  have hmodel : model.Limited target := by
    simp only [List.mem_cons, List.not_mem_nil, or_false] at hm
    rcases hm with rfl | rfl | rfl
    · exact plainModel_limited target
    · exact bandwidthModel_limited .best target memory
    · exact bandwidthModel_limited .worst target memory
  have hcores : 1 ≤ cores := target.one_le_exactCores
  have htotal : plan.totalReduction ≤ 100 * (1 - 1 / cores) := totalReduction_le hb hcounted hmodel hp
  have hshare : 0 < 1 / cores := by positivity
  exact ⟨htotal, by linarith, finiteSpeedup_le htotal hcores, le_parallelTime htotal (plan_time hp).1⟩

/-- Two children that take all of the work of the root, on four cores. -/
theorem plan_within_machine_siblings :
    let records : List Record :=
      [⟨1, 0, 0, .normal, 0, 1, false, [5, 7], [.ofWork 1 1000 1000]⟩,
        ⟨5, 0, 0, .normal, 0, 2, false, [], [.ofWork 2 600 75]⟩,
        ⟨7, 0, 0, .normal, 0, 1, false, [], [.ofWork 1 400 200]⟩]
    let target : Target := ⟨4, 10, none, none, none⟩
    let memory : MemoryProfile := .ofList [(5, ⟨100, 20, 0, 0⟩)]
    ∃ forest, Forest.build .initial records = .ok forest ∧ forest.size = 3 ∧
      ∀ model ∈ [plainModel target, bandwidthModel .best target memory, bandwidthModel .worst target memory],
        ∃ plan : Plan Rat, forest.plan model .none = .ok plan ∧ 50 < plan.totalReduction ∧ plan.totalReduction ≤ 75 ∧
          (∃ speedup, plan.finiteSpeedup? = some speedup ∧ speedup ≤ 4) ∧ plan.serialTime / 4 ≤ plan.parallelTime := by
  intro records target memory
  have hforest : (Forest.build .initial records).toOption.map
      (fun forest => (forest.size, decide forest.Counted)) = some (3, true) := by decide +kernel
  have hplans : ∀ model ∈ [plainModel target, bandwidthModel .best target memory, bandwidthModel .worst target memory],
      (Forest.build .initial records >>= fun forest => forest.plan model .none).toOption.map
        (fun plan : Plan Rat => decide (50 < plan.totalReduction)) = some true := by decide +kernel
  have hcores : (max target.cores 1).toNat = 4 := by decide
  obtain ⟨forest, hb, hfound⟩ := toOption_map_eq_some.mp hforest
  obtain ⟨hsize, hcounted⟩ := Prod.mk.inj hfound
  refine ⟨forest, hb, hsize, ?_⟩
  intro model hm
  obtain ⟨plan, hplan, hmore⟩ := toOption_map_eq_some.mp (hplans model hm)
  rw [hb, ok_bind] at hplan
  obtain ⟨hmost, -, hspeedup, htime⟩ :=
    plan_within_machine hb (of_decide_eq_true hcounted) target memory .none model hm plan hplan
  rw [hcores] at hmost hspeedup htime
  norm_num at hmost
  exact ⟨plan, hplan, of_decide_eq_true hmore, hmost, hspeedup, htime⟩

end

end RegionPlanner
