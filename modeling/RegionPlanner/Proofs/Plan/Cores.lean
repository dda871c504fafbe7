import Mathlib.Data.Rat.Floor
import RegionPlanner.Proofs.Number.Special
import RegionPlanner.Proofs.Plan.Machines

/-!
# Cores of the entries

A region that can use one core only is never faster in parallel, whatever its misses cost: work is not shared out, and
the misses are charged on both sides. So it saves nothing and is not chosen. An entry has a self-parallelism above one,
and gets the least number of cores that is not below what it can use: two at least, and no more than there are.
-/

namespace RegionPlanner

open Double

/-! ### Whole numbers of cores -/

/-- The quotient rounded up is the ceiling. -/
theorem ceil_natCast_div {num den : Nat} (hpos : 0 < den) :
    (((num + den - 1) / den : Nat) : Int) = ⌈(num : Rat) / den⌉ := by
  have hden : (0 : Rat) < den := by exact_mod_cast hpos
  have hsplit := Nat.div_add_mod (num + den - 1) den
  have hrest := Nat.mod_lt (num + den - 1) hpos
  generalize (num + den - 1) / den = high at hsplit
  have hlow : den * high < num + den := by omega
  have hhigh : num ≤ den * high := by omega
  rw [eq_comm, Int.ceil_eq_iff, lt_div_iff₀ hden, div_le_iff₀ hden]
  have hlow' : (den * high : Rat) < num + den := by exact_mod_cast hlow
  have hhigh' : (num : Rat) ≤ den * high := by exact_mod_cast hhigh
  push_cast
  constructor <;> linarith

/-- The ceiling of what a finite reading stands for. -/
theorem ceiling_eq (negative : Bool) (mantissa : Nat) (exponent : Int) :
    ceiling negative mantissa exponent = ⌈(Reading.finite negative mantissa exponent).toRat⌉ := by
  have hpos := binaryQuotient_den_pos mantissa exponent
  simp only [ceiling, Reading.toRat, Rat.mkRat_eq_div]
  generalize (binaryQuotient mantissa exponent).1 = num
  generalize (binaryQuotient mantissa exponent).2 = den at hpos ⊢
  cases negative with
  | false => exact ceil_natCast_div hpos
  | true =>
    have hfloor := Rat.ceil_intCast_div_natCast (-num) den
    rw [neg_neg] at hfloor
    exact hfloor.symm

theorem reading_of_pos {x : Float} (hx : x.isFinite = true) (hpos : 0 < value x) :
    ∃ negative mantissa exponent, Reading.ofFloat x = .finite negative mantissa exponent := by
  rw [← toRat_ofFloat hx] at hpos
  cases hread : Reading.ofFloat x with
  | notANumber => rw [hread] at hpos; exact absurd hpos (lt_irrefl 0)
  | infinite negative => rw [hread] at hpos; exact absurd hpos (lt_irrefl 0)
  | finite negative mantissa exponent => exact ⟨negative, mantissa, exponent, rfl⟩

/-- A node gets as many cores as cover its self-parallelism, or all there are. -/
theorem coresFor_eq (cores : UInt32) {x : Float} (hx : x.isFinite = true) (hone : 1 ≤ value x) :
    ((coresFor cores x).toNat : Int) = min (cores.toNat : Int) ⌈value x⌉ := by
  obtain ⟨negative, mantissa, exponent, hread⟩ := reading_of_pos hx (by linarith)
  have hwanted := ceiling_eq negative mantissa exponent
  rw [← hread, toRat_ofFloat hx] at hwanted
  have hceil : 1 ≤ ⌈value x⌉ := Int.one_le_ceil_iff.mpr (by linarith)
  unfold coresFor
  rw [hread]
  simp only [hwanted]
  split
  · next hle => rw [min_eq_left hle]
  · next hlt =>
    rw [not_le] at hlt
    have hcores := cores.toNat_lt
    have hmost : max ⌈value x⌉.toNat 1 < 2 ^ 32 := by omega
    rw [min_eq_right hlt.le, Nat.toUInt32, UInt32.toNat_ofNat_of_lt' hmost]
    omega

/-- Whatever can use more than one core gets two at least, if there are two. -/
theorem coresFor_bounds {cores : UInt32} {x : Float} (hx : x.isFinite = true) (hone : 1 < value x) (htwo : 2 ≤ cores) :
    2 ≤ coresFor cores x ∧ coresFor cores x ≤ cores := by
  have hcount := coresFor_eq cores hx hone.le
  have hceil : 2 ≤ ⌈value x⌉ := Int.lt_ceil.mpr (by exact_mod_cast hone)
  rw [UInt32.le_iff_toNat_le] at htwo ⊢
  rw [UInt32.le_iff_toNat_le]
  change 2 ≤ cores.toNat at htwo
  change 2 ≤ (coresFor cores x).toNat ∧ _
  constructor <;> omega

/-! ### Usable cores -/

section
variable {node : Node} {target : Target} {memory : MemoryProfile} {model : CostModel Float}

/-- Counts of cores are exact. -/
theorem cores_value (cores : UInt32) : value (Quantity.count cores.toNat : Float) = cores.toNat := by
  have hcores := cores.toNat_lt
  rw [(count_value (halfWord_lt cores)).2, rounded_natCast (by omega)]

theorem usableCores_value (target : Target) (hnode : node.Parallel) :
    value (target.usableCores node.selfParallelism) =
      min ((max target.cores 1).toNat : Rat) (value node.selfParallelism) := by
  have hcores := (halfWord_upTo (max target.cores 1)).number
  unfold Target.usableCores
  rw [(smaller_value hcores (isFinite_iff.mp hnode.finite).1).2, cores_value]

/-- The cores of an entry are the least whole number that is not below what the node can use. -/
theorem coresFor_isLeast (hnode : node.Parallel) (hcores : 1 ≤ target.cores) :
    IsLeast {n : Int | (Quantity.stored (target.usableCores node.selfParallelism) : Rat) ≤ n}
      (coresFor target.cores node.selfParallelism).toNat := by
  have husable : (Quantity.stored (target.usableCores node.selfParallelism) : Rat) =
      min (target.cores.toNat : Rat) (value node.selfParallelism) := by
    have hmost : (max target.cores 1).toNat = target.cores.toNat := by
      rw [UInt32.toNat_max]
      exact max_eq_left (UInt32.le_iff_toNat_le.mp hcores)
    change (Reading.ofFloat _).toRat = _
    rw [toRat_ofFloat (usableCores_bounds target hnode).1, usableCores_value target hnode, hmost]
  rw [husable, coresFor_eq target.cores hnode.finite hnode.one_le]
  constructor
  · rw [Set.mem_ofPred_eq, Int.cast_min, Int.cast_natCast]
    exact min_le_min_left _ (Int.le_ceil _)
  · intro n hn
    rw [Set.mem_ofPred_eq, min_le_iff] at hn
    rw [min_le_iff, Int.ceil_le]
    exact hn.imp_left fun hle => by exact_mod_cast hle

/-! ### One core -/

/-- On a single usable core a model finds no node faster in parallel. -/
def CostModel.SlowOnOne (model : CostModel Float) (target : Target) : Prop :=
  model.target = target ∧ ∀ node : Node, node.Parallel → value (target.usableCores node.selfParallelism) = 1 →
    ¬ model.parallelTime node < model.serialTime node

theorem overheadTime_on_one (hnode : node.Parallel) (hone : value (target.usableCores node.selfParallelism) = 1) :
    value (node.serialTime : Float) ≤ value (overheadTime target node : Float) := by
  have hserial := (serialTime_upTo node).isFinite (by norm_num)
  have husable := (usableCores_bounds target hnode).1
  have hoverhead := halfWord_upTo target.overhead
  obtain ⟨hnumber, hshared⟩ := div_value hserial husable (by rw [hone]; exact one_ne_zero)
  rw [hone, div_one, cutOff_value hserial] at hshared
  have hfinite : (node.serialTime / target.usableCores node.selfParallelism).isFinite = true :=
    isFinite_iff.mpr ⟨hnumber, hshared ▸ (isFinite_iff.mp hserial).2⟩
  have hnonneg := (serialTime_upTo node).nonneg
  rw [← hshared] at hnonneg ⊢
  exact le_add_value hfinite hnonneg hoverhead.number hoverhead.nonneg

theorem plainModel_slowOnOne (target : Target) : (plainModel target).SlowOnOne target := by
  refine ⟨rfl, fun node hnode hone => ?_⟩
  change ¬ overheadTime target node < node.serialTime
  rw [lt_iff (overheadTime_upTo target hnode).number (serialTime_upTo node).number, not_lt]
  exact overheadTime_on_one hnode hone

theorem bandwidthModel_slowOnOne (bound : BandwidthBound) (target : Target) (memory : MemoryProfile) :
    (bandwidthModel bound target memory).SlowOnOne target := by
  refine ⟨rfl, fun node hnode hone => ?_⟩
  obtain ⟨hnumber, hmax⟩ := larger_value (overheadTime_upTo target hnode).number
    (bandwidthTime_upTo target memory node bound).number
  change ¬ Quantity.larger (overheadTime target node) (bandwidthTime bound target memory node) < node.serialTime
  rw [lt_iff hnumber (serialTime_upTo node).number, not_lt, hmax]
  exact (overheadTime_on_one hnode hone).trans (le_max_left _ _)

/-- The misses on one core cost the same on both sides, be the rates what they may. -/
theorem cacheModel_slowOnOne {rates : CacheTable} (hmodel : cacheModel target rates memory = .ok model) :
    model.SlowOnOne target := by
  obtain ⟨-, htarget, hserial, hparallel⟩ := cacheModel_made hmodel
  refine ⟨htarget, fun node hnode hone => ?_⟩
  have husable : target.usableCores node.selfParallelism = Quantity.count 1 := by
    obtain ⟨hfinite, -⟩ := usableCores_bounds target hnode
    obtain ⟨hfiniteOne, hvalueOne⟩ := one_value
    refine eq_of_value (isFinite_iff.mp hfinite).1 (isFinite_iff.mp hfiniteOne).1 (hone.trans hvalueOne.symm) ?_
    rw [hone]
    exact one_ne_zero
  have hcores : (Quantity.count 1 : Float).toUInt32 = 1 := by decide +kernel
  rw [hserial, hparallel, husable, hcores]
  exact not_add_lt ((serialTime_upTo node).isFinite (by norm_num))
    ((overheadTime_upTo target hnode).isFinite (by norm_num)) (overheadTime_on_one hnode hone) _

/-! ### Entries -/

/-- What saves something is faster in parallel. -/
theorem faster_of_selfPoint {rootTime : Float} (h : Quantity.count 0 < selfPoint model rootTime node) :
    model.parallelTime node < model.serialTime node := by
  by_contra hslow
  have hspeedup : (Quantity.less (Quantity.count 0) (model.parallelTime node) &&
      Quantity.less (model.parallelTime node) (model.serialTime node)) = false := by
    rw [Bool.and_eq_false_iff]
    right
    rw [Bool.eq_false_iff, Ne, less_eq_true]
    exact hslow
  unfold selfPoint at h
  simp only [hspeedup, Bool.false_eq_true, if_false] at h
  exact nothing_left _ h

/-- An entry gets the cores that its node asks for. -/
theorem entry_cores {forest : Forest} {exclude : Exclusion} {plan : Plan Float} (h : forest.Linked)
    (hp : forest.plan model exclude = .ok plan) {entry : PlanEntry Float} (he : entry ∈ plan.entries)
    (hnode : forest.nodes[entry.node]? = some node) :
    entry.cores = coresFor model.target.cores node.selfParallelism := by
  obtain ⟨place, -, rfl⟩ := List.mem_map.mp ((plan_made h hp).2.mem_iff.mp he)
  have hplace : forest.nodes.getD place default = node := getD_node hnode
  unfold entryOf
  simp only [hplace]

/-- A node that can use more than one core has a self-parallelism above one, and there is more than one core. -/
theorem above_one (hnode : node.Parallel) (hmore : value (target.usableCores node.selfParallelism) ≠ 1) :
    1 < value node.selfParallelism ∧ 2 ≤ target.cores := by
  have hone := (usableCores_bounds target hnode).2
  have hlt := lt_of_le_of_ne hone hmore.symm
  rw [usableCores_value target hnode, lt_min_iff, UInt32.toNat_max, UInt32.toNat_one] at hlt
  obtain ⟨hcores, hparallel⟩ := hlt
  have hcores' : 1 < max target.cores.toNat 1 := by exact_mod_cast hcores
  have htwo : 2 ≤ target.cores.toNat := by omega
  exact ⟨hparallel, UInt32.le_iff_toNat_le.mpr htwo⟩

end

section
variable {table : RegionTable} {records : List Record} {forest : Forest} {target : Target} {model : CostModel Float}
  {exclude : Exclusion} {plan : Plan Float}

theorem entry_parallel (hb : Forest.build table records = .ok forest) (hmodel : model.SlowOnOne target)
    (hp : forest.plan model exclude = .ok plan) {entry : PlanEntry Float} (he : entry ∈ plan.entries) :
    ∃ node, forest.nodes[entry.node]? = some node ∧ 1 < node.selfParallelism ∧ 2 ≤ entry.cores ∧
      entry.cores ≤ target.cores ∧
      IsLeast {n : Int | (Quantity.stored (target.usableCores node.selfParallelism) : Rat) ≤ n} entry.cores.toNat := by
  have h := build_linked hb
  obtain ⟨htarget, hslow⟩ := hmodel
  obtain ⟨node, hnode, -, hreduction, hpositive⟩ := entry_included h hp he
  have hparallel := build_parallel hb node (Array.mem_of_getElem? hnode)
  rw [hreduction, less_eq_true] at hpositive
  have hmore := fun hone => hslow node hparallel hone (faster_of_selfPoint hpositive)
  obtain ⟨hone, htwo⟩ := above_one hparallel hmore
  have hcores := entry_cores h hp he hnode
  rw [htarget] at hcores
  obtain ⟨hleast, hmost⟩ := coresFor_bounds hparallel.finite hone htwo
  have hcount := coresFor_isLeast hparallel (UInt32.le_trans (by decide) htwo)
  rw [← hcores] at hleast hmost hcount
  refine ⟨node, hnode, ?_, hleast, hmost, hcount⟩
  rwa [one_eq_count, lt_iff (isFinite_iff.mp one_value.1).1 (isFinite_iff.mp hparallel.finite).1, one_value.2]

/-- Every entry of a plan uses several cores: its self-parallelism is above one, and it gets the least whole number of
cores that is not below what it can use, at least two and no more than there are. So a target with one core or none is
left with nothing to plan. The table of the cache model may hold any rates. -/
theorem plan_parallel (hb : Forest.build table records = .ok forest) {memory : MemoryProfile}
    (hmodel : model ∈ [plainModel target, bandwidthModel .best target memory, bandwidthModel .worst target memory] ∨
      ∃ rates, cacheModel target rates memory = .ok model)
    (hp : forest.plan model exclude = .ok plan) :
    (∀ entry ∈ plan.entries, ∃ node, forest.nodes[entry.node]? = some node ∧ 1 < node.selfParallelism ∧
      2 ≤ entry.cores ∧ entry.cores ≤ target.cores ∧
      IsLeast {n : Int | (Quantity.stored (target.usableCores node.selfParallelism) : Rat) ≤ n} entry.cores.toNat) ∧
    (target.cores ≤ 1 → plan.entries = []) := by
  have hslow : model.SlowOnOne target := by
    rcases hmodel with hmodel | ⟨rates, hrates⟩
    · simp only [List.mem_cons, List.not_mem_nil, or_false] at hmodel
      rcases hmodel with rfl | rfl | rfl
      · exact plainModel_slowOnOne target
      · exact bandwidthModel_slowOnOne .best target memory
      · exact bandwidthModel_slowOnOne .worst target memory
    · exact cacheModel_slowOnOne hrates
  refine ⟨fun entry he => entry_parallel hb hslow hp he, fun hfew => ?_⟩
  refine List.eq_nil_iff_forall_not_mem.mpr fun entry he => ?_
  obtain ⟨-, -, -, htwo, hmost, -⟩ := entry_parallel hb hslow hp he
  have hnone : (2 : UInt32) ≤ 1 := UInt32.le_trans htwo (UInt32.le_trans hmost hfew)
  exact absurd hnone (by decide)

/-- Under a table with a negative rate, a region that can use two and a half cores gets three of four, and none of
one. -/
theorem plan_parallel_leaf :
    let records : List Record :=
      [⟨1, 0, 0, .normal, 0, 1, false, [5], [.ofWork 1 100 100]⟩,
        ⟨5, 0, 0, .normal, 0, 1, true, [], [.ofWork 1 50 20]⟩]
    let memory : MemoryProfile := .ofList [(5, ⟨0, 0, 10, 0⟩)]
    let rates : CacheTable := ⟨[⟨8, ⟨-0.25, 0.5⟩, ⟨0, 0⟩⟩]⟩
    ∃ forest several single plan plan', Forest.build .initial records = .ok forest ∧
      cacheModel ⟨4, 0, none, none, none⟩ rates memory = .ok several ∧
      cacheModel ⟨1, 0, none, none, none⟩ rates memory = .ok single ∧
      forest.plan several .none = .ok plan ∧ forest.plan single .none = .ok plan' ∧
      plan.entries.map (·.cores) = [3] ∧ (∀ entry ∈ plan.entries, 2 ≤ entry.cores ∧ entry.cores ≤ 4) ∧
      plan'.entries = [] := by
  intro records memory rates
  have hrun : (do
      let forest ← Forest.build .initial records
      let several ← cacheModel ⟨4, 0, none, none, none⟩ rates memory
      let single ← cacheModel ⟨1, 0, none, none, none⟩ rates memory
      let plan ← forest.plan several .none
      let plan' ← forest.plan single .none
      pure (plan, plan') : Except Fault (Plan Float × Plan Float)).toOption.map (·.1.entries.map (·.cores)) =
        some [3] := by decide +kernel
  obtain ⟨⟨plan, plan'⟩, hplans, hcores⟩ := toOption_map_eq_some.mp hrun
  obtain ⟨forest, hb, hplans⟩ := bind_eq_ok.mp hplans
  obtain ⟨several, hseveral, hplans⟩ := bind_eq_ok.mp hplans
  obtain ⟨single, hsingle, hplans⟩ := bind_eq_ok.mp hplans
  obtain ⟨plan₁, hp, hplans⟩ := bind_eq_ok.mp hplans
  obtain ⟨plan₂, hp', hplans⟩ := bind_eq_ok.mp hplans
  cases hplans
  refine ⟨forest, several, single, plan, plan', hb, hseveral, hsingle, hp, hp', hcores, fun entry he => ?_, ?_⟩
  · obtain ⟨-, -, -, htwo, hmost, -⟩ := (plan_parallel hb (.inr ⟨rates, hseveral⟩) hp).1 entry he
    exact ⟨htwo, hmost⟩
  · exact (plan_parallel hb (.inr ⟨rates, hsingle⟩) hp').2 (by decide)

end

end RegionPlanner
