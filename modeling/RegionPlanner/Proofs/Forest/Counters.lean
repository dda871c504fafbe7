import RegionPlanner.Proofs.Forest.Accepted

/-!
# Counters of built trees

In a tree that was built no plain node has a critical path above its work. Of a recursive node only the value of the
recurrence over its depths is known not to be below one by more than a rounding error; a critical path above the
work of a depth can be lost in it.
-/

namespace RegionPlanner

variable {table : RegionTable} {records : List Record} {forest : Forest} {node : Node} {uid : UInt64} {value : Float}

/-- The number that the self-parallelism of a node is made of. -/
def Profile.measured : Profile → Float
  | .plain stat => stat.selfParallelism
  | profile => recursiveSelfParallelism (profile.stats.map Depth.ofStat)

/-- What counters must fulfil. -/
def Profile.Allowed (profile : Profile) : Prop :=
  profile.measured.isFinite = true ∧
    match profile with
    | .plain stat => stat.selfParallelWork ≤ stat.work
    | profile => ¬ profile.measured < Quantity.count 1 - parallelismTolerance

theorem checked_eq_ok {profile : Profile} : profile.checkedSelfParallelism uid = .ok value ↔
    profile.Allowed ∧ Quantity.larger profile.measured (Quantity.count 1) = value := by
  unfold Profile.checkedSelfParallelism Profile.Allowed Profile.measured
  cases profile with
  | plain stat =>
    unfold checkPlainSelfParallelism
    simp only [Bool.or_eq_true, Bool.not_eq_true', decide_eq_true_eq]
    by_cases hwork : stat.work < stat.selfParallelWork
    · simp [hwork, UInt64.not_le.mpr hwork]
    · cases hfinite : stat.selfParallelism.isFinite <;> simp [hwork, UInt64.not_lt.mp hwork]
  | recursive outermost deeper =>
    unfold checkSelfParallelism
    simp only [Bool.or_eq_true, Bool.not_eq_true', decide_eq_true_eq]
    generalize (recursiveSelfParallelism ((Profile.recursive outermost deeper).stats.map Depth.ofStat) : Float) =
      measured
    by_cases hbelow : measured < Quantity.count 1 - parallelismTolerance
    · simp [hbelow]
    · cases hfinite : measured.isFinite <;> simp [hbelow]

theorem checked_eq_error {profile : Profile} {fault : Fault} (h : profile.checkedSelfParallelism uid = .error fault) :
    ∃ value, fault = .invalidSelfParallelism uid value := by
  unfold Profile.checkedSelfParallelism at h
  split at h
  · unfold checkPlainSelfParallelism at h
    dsimp only at h
    split at h
    · exact ⟨_, (Except.error.inj h).symm⟩
    · cases h
  · unfold checkSelfParallelism at h
    split at h
    · exact ⟨_, (Except.error.inj h).symm⟩
    · cases h

theorem build_checked (hb : Forest.build table records = .ok forest) : ∀ node ∈ forest.nodes,
    node.profile.checkedSelfParallelism node.uid = .ok node.selfParallelism := by
  intro node hm
  obtain ⟨-, -, hfinished⟩ := build_sound hb
  obtain ⟨before, -, hbefore⟩ := exists_of_mem_mapM hfinished (Array.mem_toList_iff.mpr hm)
  obtain ⟨value, hvalue, rfl⟩ := map_eq_ok.mp hbefore
  exact hvalue

theorem build_counters (hb : Forest.build table records = .ok forest) : ∀ node ∈ forest.nodes,
    node.profile.Allowed ∧ Quantity.larger node.profile.measured (Quantity.count 1) = node.selfParallelism := by
  intro node hm
  exact checked_eq_ok.mp (build_checked hb node hm)

theorem build_counters_pair :
    let records : List Record :=
      [⟨1, 0, 0, .normal, 0, 1, false, [2], [.ofWork 1 8 4]⟩, ⟨2, 0, 0, .normal, 0, 1, false, [], [.ofWork 1 2 2]⟩]
    ∃ forest, Forest.build .initial records = .ok forest ∧ forest.size = 2 ∧
      ∀ node ∈ forest.nodes, node.profile.Allowed := by
  intro records
  have hrun : (Forest.build .initial records).toOption.map (·.size) = some 2 := by decide +kernel
  obtain ⟨forest, hb, hsize⟩ := toOption_map_eq_some.mp hrun
  exact ⟨forest, hb, hsize, fun node hm => (build_counters hb node hm).1⟩

/-- A critical path above the work gets into a tree of recursive nodes at an inner depth, at a node without work, and
where it is above by a rounding error. -/
theorem build_bad_counters :
    let recursion (outer sink : List Stat) : List Record :=
      [⟨1, 0, 0, .init, 0, 1, false, [2], outer⟩, ⟨2, 0, 0, .sink, 1, 1, false, [], sink⟩]
    ∀ records ∈ [recursion [.ofWork 1 1000 500, .ofWork 1 100 200] [.ofWork 1 300 300],
        recursion [.ofWork 1 1000 500] [.ofWork 1 0 5],
        recursion [.ofWork 1 2000000000 2000000001] [.ofWork 1 300 300]],
      ∃ forest, Forest.build .initial records = .ok forest ∧
        ∃ node ∈ forest.nodes, ∃ stat ∈ node.profile.stats, stat.work < stat.selfParallelWork := by
  intro recursion records hm
  have hruns : ∀ records ∈ [recursion [.ofWork 1 1000 500, .ofWork 1 100 200] [.ofWork 1 300 300],
        recursion [.ofWork 1 1000 500] [.ofWork 1 0 5],
        recursion [.ofWork 1 2000000000 2000000001] [.ofWork 1 300 300]],
      (Forest.build .initial records).toOption.map (fun forest => decide (∃ node ∈ forest.nodes.toList,
        ∃ stat ∈ node.profile.stats, stat.work < stat.selfParallelWork)) = some true := by decide +kernel
  obtain ⟨forest, hb, hread⟩ := toOption_map_eq_some.mp (hruns records hm)
  obtain ⟨node, hnode, hstat⟩ := of_decide_eq_true hread
  exact ⟨forest, hb, node, Array.mem_toList_iff.mp hnode, hstat⟩

end RegionPlanner
