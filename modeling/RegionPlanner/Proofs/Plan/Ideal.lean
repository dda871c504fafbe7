import RegionPlanner.Proofs.Plan.Ceiling

/-!
# What a region could save at best

The time reduction of a node is what it would save with all of its self-parallelism and at no cost. In exact numbers no
model lets it save more than that, and the plain model lets it save just that if the machine sets no limit.
-/

namespace RegionPlanner

variable {forest : Forest} {node : Node} {model : CostModel Rat} {target : Target} {table : RegionTable}
  {records : List Record}

theorem timeReduction_exact (hwork : 0 < forest.rootNode.work) : forest.timeReduction node =
    100 * (node.work.toNat : Rat) / forest.rootNode.work.toNat * (1 - 1 / Quantity.stored node.selfParallelism) := by
  have hnonzero : forest.rootNode.work ≠ 0 := UInt64.pos_iff_ne_zero.mp hwork
  simp only [Forest.timeReduction, Forest.coverage, if_neg hnonzero, Quantity.count_rat, Nat.cast_ofNat, Nat.cast_one]

theorem mem_nodesAbove {threshold : Rat} :
    node ∈ forest.nodesAbove threshold ↔ node ∈ forest.nodes ∧ threshold < forest.timeReduction node := by
  simp [Forest.nodesAbove]

/-! ### Speedups up to the self-parallelism -/

theorem averageWork_mul_eq (h : node.instances = node.profile.outermost.instances ∧ 1 ≤ node.instances)
    (hdvd : node.instances.toNat ∣ node.work.toNat) :
    node.averageWork.toNat * node.instances.toNat = node.work.toNat := by
  obtain ⟨hsame, hpositive⟩ := h
  rw [UInt64.le_iff_toNat_le, UInt64.toNat_one] at hpositive
  unfold Node.averageWork Stat.averageWork Node.work at *
  rw [← hsame, UInt64.toNat_div, UInt64.toNat_max, UInt64.toNat_one, max_eq_left hpositive]
  exact Nat.div_mul_cancel hdvd

/-- Without overhead, and with cores enough, the plain model gives a node its self-parallelism as speedup. -/
theorem selfPoint_plainModel {rootTime : Rat} (hnode : node.Parallel) (hoverhead : target.overhead = 0)
    (hcores : (Quantity.stored node.selfParallelism : Rat) ≤ target.exactCores) (hroot : 0 < rootTime) :
    selfPoint (plainModel target) rootTime node =
      100 * (node.averageWork.toNat * node.instances.toNat : Rat) / rootTime *
        (1 - 1 / Quantity.stored node.selfParallelism) := by
  have hone := one_le_stored hnode
  have hserial : (plainModel target).serialTime node = (node.averageWork.toNat : Rat) := rfl
  have hparallel : (plainModel target).parallelTime node =
      (node.averageWork.toNat : Rat) / Quantity.stored node.selfParallelism := by
    show overheadTime target node = _
    simp [overheadTime, Node.serialTime, usableCores_exact, min_eq_right hcores, hoverhead]
  rw [selfPoint_exact hserial, hparallel, hserial]
  generalize (Quantity.stored node.selfParallelism : Rat) = parallelism at *
  rcases Nat.eq_zero_or_pos node.averageWork.toNat with hnone | hsome
  · simp [hnone]
  · have hwork : (0 : Rat) < node.averageWork.toNat := by exact_mod_cast hsome
    have hspeedup : (if Quantity.less (Quantity.count 0) ((node.averageWork.toNat : Rat) / parallelism) &&
        Quantity.less ((node.averageWork.toNat : Rat) / parallelism) node.averageWork.toNat then
        (node.averageWork.toNat : Rat) / (node.averageWork.toNat / parallelism) else Quantity.count 1) = parallelism := by
      simp only [Quantity.less_rat, Quantity.count_rat, Nat.cast_zero, Nat.cast_one, Bool.and_eq_true, decide_eq_true_eq]
      split
      · field_simp
      · next hslow =>
        -- The node is not faster in parallel, so it has no parallelism to use.
        by_contra hmore
        have hlt : 1 < parallelism := lt_of_le_of_ne hone hmore
        exact hslow ⟨div_pos hwork (by linarith), div_lt_self hwork hlt⟩
    simp only [hspeedup]
    rw [max_eq_left]
    · ring
    · rw [sub_nonneg]
      exact div_le_self (by positivity) hone

/-! ### Points of a built tree -/

section
variable (hb : Forest.build table records = .ok forest)
  (hinstances : ∀ node ∈ forest.nodes, node.instances = node.profile.outermost.instances ∧ 1 ≤ node.instances)
  (hroot : forest.rootNode.instances = 1) (hwork : 0 < forest.rootNode.work)
include hb hinstances hroot

theorem rootTime_eq (hmodel : model.Floored target) :
    model.serialTime forest.rootNode = forest.rootNode.work.toNat := by
  have hmember := (build_linked hb).rootNode_mem
  rw [hmodel.serial, averageWork_of_one (hinstances _ hmember).1 hroot]

include hwork

theorem rootTime_pos (hmodel : model.Floored target) : 0 < model.serialTime forest.rootNode := by
  rw [rootTime_eq hb hinstances hroot hmodel]
  exact_mod_cast UInt64.lt_iff_toNat_lt.mp hwork

theorem selfPoint_le_timeReduction (hmodel : model.Floored target) (hm : node ∈ forest.nodes) :
    selfPoint model (model.serialTime forest.rootNode) node ≤ forest.timeReduction node := by
  have hnode := build_parallel hb node hm
  have hone := one_le_stored hnode
  have hshare : 1 / (Quantity.stored node.selfParallelism : Rat) ≤ 1 := (div_le_one (by linarith)).mpr hone
  have hshared : (node.averageWork.toNat * node.instances.toNat : Rat) ≤ node.work.toNat := by
    exact_mod_cast averageWork_mul_le (hinstances node hm)
  have hparallel : model.serialTime node / Quantity.stored node.selfParallelism ≤ model.parallelTime node := by
    rw [hmodel.serial]
    exact (overheadTime_ge target hnode (min_le_right _ _)).trans (hmodel.parallel node)
  have hpoint := selfPoint_le (hmodel.serial node) hone hparallel (rootTime_pos hb hinstances hroot hwork hmodel)
  rw [timeReduction_exact hwork]
  rw [rootTime_eq hb hinstances hroot hmodel] at hpoint ⊢
  refine hpoint.trans ?_
  gcongr

theorem selfPoint_eq_timeReduction (hm : node ∈ forest.nodes) (hoverhead : target.overhead = 0)
    (hcores : (Quantity.stored node.selfParallelism : Rat) ≤ target.exactCores)
    (hdvd : node.instances.toNat ∣ node.work.toNat) :
    selfPoint (plainModel target) ((plainModel target).serialTime forest.rootNode) node =
      (forest.timeReduction node : Rat) := by
  have hmodel := plainModel_floored target
  have hshared : (node.averageWork.toNat * node.instances.toNat : Rat) = node.work.toNat := by
    exact_mod_cast averageWork_mul_eq (hinstances node hm) hdvd
  rw [selfPoint_plainModel (build_parallel hb node hm) hoverhead hcores
    (rootTime_pos hb hinstances hroot hwork hmodel), hshared, rootTime_eq hb hinstances hroot hmodel,
    timeReduction_exact hwork]

/-! ### Plans -/

/-- A plan credits no node with more than its ideal time reduction, and the plain model credits it with just that where
there is no overhead, cores are enough for the node and its work is shared out evenly over its instances. -/
theorem plan_within_ideal (target : Target) (memory : MemoryProfile) :
    (∀ model ∈ [plainModel target, bandwidthModel .best target memory, bandwidthModel .worst target memory],
      (∀ node ∈ forest.nodes,
        selfPoint model (model.serialTime forest.rootNode) node ≤ (forest.timeReduction node : Rat)) ∧
      ∀ exclude, ∃ plan : Plan Rat, forest.plan model exclude = .ok plan ∧
        ∀ entry ∈ plan.entries, ∃ node, forest.nodes[entry.node]? = some node ∧
          ∀ threshold < entry.reduction, node ∈ forest.nodesAbove threshold) ∧
    (target.overhead = 0 → ∀ node ∈ forest.nodes,
      (Quantity.stored node.selfParallelism : Rat) ≤ (max target.cores 1).toNat →
      node.instances.toNat ∣ node.work.toNat →
        selfPoint (plainModel target) ((plainModel target).serialTime forest.rootNode) node =
          (forest.timeReduction node : Rat)) := by
  refine ⟨?_, fun hoverhead node hm => selfPoint_eq_timeReduction hb hinstances hroot hwork hm hoverhead⟩
  intro model hmember
  have hmodel : model.Floored target := by
    simp only [List.mem_cons, List.not_mem_nil, or_false] at hmember
    rcases hmember with rfl | rfl | rfl
    · exact plainModel_floored target
    · exact bandwidthModel_floored .best target memory
    · exact bandwidthModel_floored .worst target memory
  have hpoint : ∀ node ∈ forest.nodes,
      selfPoint model (model.serialTime forest.rootNode) node ≤ (forest.timeReduction node : Rat) :=
    fun node hm => selfPoint_le_timeReduction hb hinstances hroot hwork hmodel hm
  refine ⟨hpoint, ?_⟩
  intro exclude
  have htime : ¬ Quantity.atMost (model.serialTime forest.rootNode) (Quantity.count 0) = true := by
    simpa using rootTime_pos hb hinstances hroot hwork hmodel
  obtain ⟨plan, hp⟩ := plan_isOk.mpr htime
  refine ⟨plan, hp, ?_⟩
  intro entry he
  obtain ⟨node, hnode, -, hreduction, -⟩ := entry_included (build_linked hb) hp he
  have hm : node ∈ forest.nodes := Array.mem_of_getElem? hnode
  refine ⟨node, hnode, ?_⟩
  intro threshold hless
  rw [hreduction] at hless
  exact mem_nodesAbove.mpr ⟨hm, hless.trans_le (hpoint node hm)⟩

end

/-- Of two children the second can use all of its self-parallelism on four cores, the first cannot. -/
theorem plan_within_ideal_siblings :
    let records : List Record :=
      [⟨1, 0, 0, .normal, 0, 1, false, [5, 7], [.ofWork 1 1000 1000]⟩,
        ⟨5, 0, 0, .normal, 0, 2, false, [], [.ofWork 2 600 75]⟩,
        ⟨7, 0, 0, .normal, 0, 1, false, [], [.ofWork 1 400 200]⟩]
    let target : Target := ⟨4, 0, none, none, none⟩
    let memory : MemoryProfile := .ofList [(5, ⟨100, 20, 0, 0⟩)]
    ∃ forest second, Forest.build .initial records = .ok forest ∧ forest.nodes[2]? = some second ∧
      selfPoint (plainModel target) 1000 second = (forest.timeReduction second : Rat) ∧
      forest.timeReduction second = (20 : Rat) ∧
      ∀ model ∈ [plainModel target, bandwidthModel .best target memory, bandwidthModel .worst target memory],
        ∃ plan : Plan Rat, forest.plan model .none = .ok plan ∧ plan.entries.map (·.node) = [1, 2] ∧
          ∀ entry ∈ plan.entries, ∃ node, forest.nodes[entry.node]? = some node ∧
            ∀ threshold < entry.reduction, node ∈ forest.nodesAbove threshold := by
  intro records target memory
  have hforest : (Forest.build .initial records).toOption.map (fun forest => (forest.nodes[2]?.map fun second =>
      decide ((Quantity.stored second.selfParallelism : Rat) = 2 ∧ second.instances.toNat = 1 ∧
        forest.timeReduction second = (20 : Rat)),
      decide ((∀ node ∈ forest.nodes, node.instances = node.profile.outermost.instances ∧ 1 ≤ node.instances) ∧
        forest.rootNode.instances = 1 ∧ 0 < forest.rootNode.work ∧ forest.rootNode.averageWork = 1000))) =
      some (some true, true) := by decide +kernel
  have hplans : ∀ model ∈ [plainModel target, bandwidthModel .best target memory, bandwidthModel .worst target memory],
      (Forest.build .initial records >>= fun forest => forest.plan model .none).toOption.map
        (fun plan : Plan Rat => plan.entries.map (·.node)) = some [1, 2] := by decide +kernel
  obtain ⟨forest, hb, hfound⟩ := toOption_map_eq_some.mp hforest
  obtain ⟨hsecond, hcounters⟩ := Prod.mk.inj hfound
  obtain ⟨second, hplace, hsecond⟩ := Option.map_eq_some_iff.mp hsecond
  obtain ⟨hparallelism, hone, htwenty⟩ := of_decide_eq_true hsecond
  obtain ⟨hinstances, hroot, hwork, htime⟩ := of_decide_eq_true hcounters
  obtain ⟨hmodels, hplain⟩ := plan_within_ideal hb hinstances hroot hwork target memory
  refine ⟨forest, second, hb, hplace, ?_, htwenty, ?_⟩
  · have hpoint := hplain rfl second (Array.mem_of_getElem? hplace) (by rw [hparallelism]; decide +kernel)
      (hone ▸ one_dvd _)
    have hserial : (plainModel target).serialTime forest.rootNode = (1000 : Rat) := by
      show ((forest.rootNode.averageWork.toNat : ℕ) : Rat) = 1000
      rw [htime]
      rfl
    rwa [hserial] at hpoint
  · intro model hm
    obtain ⟨plan, hp, hentries⟩ := (hmodels model hm).2 .none
    have hplan := hplans model hm
    rw [hb, ok_bind, hp] at hplan
    exact ⟨plan, hp, Option.some.inj hplan, hentries⟩

end RegionPlanner
