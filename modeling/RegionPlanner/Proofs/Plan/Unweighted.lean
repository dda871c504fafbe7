import RegionPlanner.Command.Run
import RegionPlanner.Proofs.Weights.Unweighted

/-!
# Plans do not read weights

Weights are used up when the self-parallelism of a node is found. A plan is the same for a forest without its weights,
under every cost model and exclusion that does not look at them. No model and no exclusion of a run does.
-/

namespace RegionPlanner

variable {α : Type}

/-- A cost model that reads no weight. -/
structure CostModel.WeightBlind (model : CostModel α) : Prop where
  serial : ∀ node, model.serialTime node.unweighted = model.serialTime node
  parallel : ∀ node, model.parallelTime node.unweighted = model.parallelTime node

/-- An exclusion that reads no weight. -/
def Exclusion.WeightBlind (exclude : Exclusion) : Prop := ∀ node, exclude node.unweighted = exclude node

/-! ### The queue -/

theorem start_unweighted (nodes : Array Node) :
    Schedule.start (nodes.map Node.unweighted) = Schedule.start nodes := by
  unfold Schedule.start
  rw [Array.toList_map, List.filter_map, List.map_map, Array.map_map]
  rfl

theorem turn_unweighted (nodes : Array Node) (state : Schedule.State) (position : Nat) :
    Schedule.turn (nodes.map Node.unweighted) state position = Schedule.turn nodes state position := by
  unfold Schedule.turn
  cases state.order[position]? with
  | none => rfl
  | some place =>
    simp only [Option.bind_some, Array.getElem?_map]
    cases nodes[place]? <;> rfl

section
variable [Quantity α] {own : Node → α}

theorem next?_unweighted (hown : ∀ node, own node.unweighted = own node) (nodes : Array Node) (state : Evaluation α) :
    state.next? (nodes.map Node.unweighted) own = state.next? nodes own := by
  unfold Evaluation.next?
  cases state.ready.order[state.evaluated]? with
  | none => rfl
  | some place =>
    simp only [Option.bind_eq_bind, Option.bind_some, Array.getElem?_map, turn_unweighted]
    cases nodes[place]? with
    | none => rfl
    | some node =>
      simp only [Option.map_some, Option.bind_some, hown]
      rfl

theorem run_unweighted (hown : ∀ node, own node.unweighted = own node) (nodes : Array Node) (fuel : Nat)
    (state : Evaluation α) : Evaluation.run (nodes.map Node.unweighted) own fuel state =
      Evaluation.run nodes own fuel state := by
  induction fuel generalizing state with
  | zero => rfl
  | succ fuel ih =>
    unfold Evaluation.run
    rw [next?_unweighted hown]
    cases state.next? nodes own with
    | none => rfl
    | some next => exact ih next

theorem evaluate_unweighted (hown : ∀ node, own node.unweighted = own node) (forest : Forest) :
    forest.unweighted.evaluate own = forest.evaluate own := by
  have hsize : forest.unweighted.size = forest.size := Array.size_map
  have hstart : (Evaluation.start forest.unweighted.nodes : Evaluation α) = Evaluation.start forest.nodes := by
    unfold Evaluation.start Forest.unweighted
    rw [start_unweighted, Array.size_map]
  unfold Forest.evaluate Forest.passes
  rw [hsize, hstart]
  exact run_unweighted hown forest.nodes forest.size _

/-! ### The plan -/

variable {model : CostModel α} {exclude : Exclusion}

theorem ownPoint_unweighted (hmodel : model.WeightBlind) (hexclude : exclude.WeightBlind) (rootTime : α) (node : Node) :
    ownPoint model exclude rootTime node.unweighted = ownPoint model exclude rootTime node := by
  unfold ownPoint selfPoint
  rw [hexclude, hmodel.serial, hmodel.parallel]
  rfl

theorem entryOf_unweighted (forest : Forest) (target : Target) (points : Array α) (place : Nat) :
    entryOf forest.unweighted target points place = entryOf forest target points place := by
  have huid : (forest.unweighted.nodes.getD place default).uid = (forest.nodes.getD place default).uid :=
    getD_unweighted (fun _ => rfl) forest.nodes place
  have hvalue : (forest.unweighted.nodes.getD place default).selfParallelism =
      (forest.nodes.getD place default).selfParallelism := getD_unweighted (fun _ => rfl) forest.nodes place
  simp only [entryOf, huid, hvalue]

theorem plan_unweighted (hmodel : model.WeightBlind) (hexclude : exclude.WeightBlind) (forest : Forest) :
    forest.unweighted.plan model exclude = forest.plan model exclude := by
  have hroot : model.serialTime forest.unweighted.rootNode = model.serialTime forest.rootNode :=
    getD_unweighted hmodel.serial forest.nodes forest.root
  unfold Forest.plan
  simp only [hroot, evaluate_unweighted (ownPoint_unweighted hmodel hexclude _) forest,
    funext (entryOf_unweighted forest model.target _)]
  rfl

end

/-! ### The cost models and exclusions of a run -/

section
variable [Quantity α]

theorem averageWork_unweighted (node : Node) : node.unweighted.averageWork = node.averageWork := by
  unfold Node.averageWork Node.unweighted
  cases node.profile <;> rfl

theorem serialTime_unweighted (node : Node) : (node.unweighted.serialTime : α) = node.serialTime := by
  unfold Node.serialTime
  rw [averageWork_unweighted]

theorem overheadTime_unweighted (target : Target) (node : Node) :
    (overheadTime target node.unweighted : α) = overheadTime target node := by
  unfold overheadTime
  rw [serialTime_unweighted]
  rfl

end

theorem plainModel_weightBlind (target : Target) : (plainModel target : CostModel Float).WeightBlind :=
  ⟨serialTime_unweighted, overheadTime_unweighted target⟩

theorem bandwidthModel_weightBlind (bound : BandwidthBound) (target : Target) (memory : MemoryProfile) :
    (bandwidthModel bound target memory : CostModel Float).WeightBlind := by
  refine ⟨serialTime_unweighted, fun node => ?_⟩
  change Quantity.larger (overheadTime target node.unweighted) (bandwidthTime bound target memory node) = _
  rw [overheadTime_unweighted]
  rfl

theorem cacheModel_weightBlind {target : Target} {table : CacheTable} {memory : MemoryProfile} {model : CostModel Float}
    (h : cacheModel target table memory = .ok model) : model.WeightBlind := by
  unfold cacheModel at h
  split at h
  · cases h
    constructor
    · intro node
      change node.unweighted.serialTime + serviceTime table memory node 1 = _
      rw [serialTime_unweighted]
    · intro node
      change overheadTime target node.unweighted + serviceTime table memory node _ = _
      rw [overheadTime_unweighted]
      rfl
  · cases h

theorem costModel_weightBlind {options : Options} {files : Files} {model : CostModel Float}
    (h : options.costModel files = .ok model) : model.WeightBlind := by
  unfold Options.costModel at h
  cases hfile : options.memoryFile
  all_goals
    rw [hfile] at h
    obtain ⟨memory, -, h⟩ := bind_eq_ok.mp h
    split at h
    · cases h
      exact plainModel_weightBlind options.target
    · cases h
      exact bandwidthModel_weightBlind _ options.target memory
    · obtain ⟨cache, -, hcache⟩ := bind_eq_ok.mp h
      exact cacheModel_weightBlind hcache

theorem exclusion_weightBlind (options : Options) : options.exclusion.WeightBlind := by
  intro node
  unfold Options.exclusion
  cases options.exclude <;> cases options.minSelfParallelism <;> rfl

end RegionPlanner
