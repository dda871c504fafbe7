import RegionPlanner.Cost.Cache
import RegionPlanner.Proofs.Forest.Counters
import RegionPlanner.Proofs.Number.Bounded

/-!
# Estimates are not negative

The self-parallelism of a node of a built tree is finite and at least one, so the plain estimate and both bandwidth
estimates are finite and not negative, on any target. Those of the cache model are not negative if the percentages of
its table are finite and not negative; the table itself may hold any double, and with it the estimate.
-/

namespace RegionPlanner

open Double

/-! ### Self-parallelism -/

/-- A self-parallelism as checks leave it. -/
structure Node.Parallel (node : Node) : Prop where
  finite : node.selfParallelism.isFinite = true
  one_le : 1 ≤ value node.selfParallelism

theorem checked_bounds {profile : Profile} {uid : UInt64} {x : Float} (h : profile.checkedSelfParallelism uid = .ok x) :
    x.isFinite = true ∧ 1 ≤ value x := by
  obtain ⟨⟨hfinite, -⟩, rfl⟩ := checked_eq_ok.mp h
  have hone := one_le_count one_pos (by norm_num)
  obtain ⟨hnumber, hsmall⟩ := isFinite_iff.mp hfinite
  obtain ⟨hnumberOne, hsmallOne⟩ := isFinite_iff.mp (count_isFinite (n := 1) (by norm_num))
  obtain ⟨hlarger, hmax⟩ := larger_value hnumber hnumberOne
  refine ⟨isFinite_iff.mpr ⟨hlarger, ?_⟩, ?_⟩
  · rw [hmax]
    exact (abs_max_le_max_abs_abs).trans_lt (max_lt hsmall hsmallOne)
  · rw [hmax]
    exact le_max_of_le_right hone

section
variable {table : RegionTable} {records : List Record} {forest : Forest}

theorem build_parallel (hb : Forest.build table records = .ok forest) : ∀ node ∈ forest.nodes, node.Parallel := by
  intro node hm
  obtain ⟨hfinite, hone⟩ := checked_bounds (build_checked hb node hm)
  exact ⟨hfinite, hone⟩

end

variable {node : Node} (target : Target) (memory : MemoryProfile)

/-! ### The plain model -/

theorem toNat_max_one_pos (w : UInt32) : 0 < (max w 1).toNat := by
  rw [UInt32.toNat_max, UInt32.toNat_one]
  omega

/-- Work is shared out over one core at least. -/
theorem usableCores_bounds (hnode : node.Parallel) :
    (target.usableCores node.selfParallelism).isFinite = true ∧ 1 ≤ value (target.usableCores node.selfParallelism) := by
  have hcores := toNat_max_one_pos target.cores
  have hone := one_le_count hcores (halfWord_lt _)
  obtain ⟨hnumber, hsmall⟩ := isFinite_iff.mp (count_isFinite (halfWord_lt (max target.cores 1)))
  obtain ⟨hnumberNode, hsmallNode⟩ := isFinite_iff.mp hnode.finite
  obtain ⟨hsmaller, hmin⟩ := smaller_value hnumber hnumberNode
  unfold Target.usableCores
  refine ⟨isFinite_iff.mpr ⟨hsmaller, ?_⟩, ?_⟩
  · rw [hmin]
    exact (abs_min_le_max_abs_abs).trans_lt (max_lt hsmall hsmallNode)
  · rw [hmin]
    exact le_min hone hnode.one_le

theorem serialTime_upTo (node : Node) : UpTo 64 (node.serialTime : Float) := word_upTo node.averageWork

theorem overheadTime_upTo (hnode : node.Parallel) : UpTo 65 (overheadTime target node : Float) := by
  obtain ⟨hfinite, hone⟩ := usableCores_bounds target hnode
  have hshared := (serialTime_upTo node).div hfinite hone (by norm_num) (by norm_num)
  exact hshared.add (halfWord_upTo target.overhead) (by norm_num) (by norm_num)

/-! ### The bandwidth models -/

/-- Counters are shared out over one instance at least. -/
theorem instances_bounds (node : Node) : (Quantity.count (max node.instances 1).toNat : Float).isFinite = true ∧
    1 ≤ value (Quantity.count (max node.instances 1).toNat : Float) := by
  have hinstances : 0 < (max node.instances 1).toNat := by
    rw [UInt64.toNat_max, UInt64.toNat_one]
    omega
  exact ⟨count_isFinite (UInt64.toNat_lt _), one_le_count hinstances (UInt64.toNat_lt _)⟩

theorem averages_upTo (node : Node) : let averages : MemoryAverages Float := memory.averagesOf node
    UpTo 64 averages.reads ∧ UpTo 64 averages.writes ∧ UpTo 64 averages.loads ∧ UpTo 64 averages.stores := by
  obtain ⟨hfinite, hone⟩ := instances_bounds node
  have hshare : ∀ counter : UInt64,
      UpTo 64 (Quantity.count counter.toNat / Quantity.count (max node.instances 1).toNat) :=
    fun counter => (word_upTo counter).div hfinite hone (by norm_num) (by norm_num)
  exact ⟨hshare _, hshare _, hshare _, hshare _⟩

theorem cachedBytes_upTo (bound : BandwidthBound) : UpTo 192 (bound.cachedBytes target : Float) := by
  have hkilo : UpTo 64 (Quantity.count 1024) := count_upTo (by norm_num)
  cases bound with
  | best =>
    have hproduct := (halfWord_upTo (target.cacheMB.getD 16)).mul hkilo (by norm_num) (by norm_num) (by norm_num)
    exact (hproduct.mul hkilo (by norm_num) (by norm_num) (by norm_num)).mono (by norm_num)
  | worst => exact (count_upTo (by norm_num)).mono (by norm_num)

theorem traffic_upTo (node : Node) : let averages : MemoryAverages Float := memory.averagesOf node
    UpTo 192 ((averages.reads + averages.writes) * Quantity.count 4) := by
  obtain ⟨hreads, hwrites, -, -⟩ := averages_upTo memory node
  have hfour : UpTo 64 (Quantity.count 4) := count_upTo (by norm_num)
  have haccesses := hreads.add hwrites (by norm_num) (by norm_num)
  exact (haccesses.mul hfour (by norm_num) (by norm_num) (by norm_num)).mono (by norm_num)

theorem bandwidthTime_upTo (node : Node) (bound : BandwidthBound) :
    UpTo 256 (bandwidthTime bound target memory node : Float) := by
  have hbytes := (traffic_upTo memory node).rest (cachedBytes_upTo target bound) (by norm_num) (by norm_num)
  have hcycles := (halfWord_upTo (target.clockMHz.getD 2400)).mul hbytes (by norm_num) (by norm_num) (by norm_num)
  have hspeed := toNat_max_one_pos (target.bandwidthMB.getD bound.defaultBandwidth)
  exact (hcycles.div (count_isFinite (halfWord_lt _)) (one_le_count hspeed (halfWord_lt _)) (by norm_num)
    (by norm_num)).mono (by norm_num)

theorem bandwidthModel_upTo (bound : BandwidthBound) (hnode : node.Parallel) :
    UpTo 256 ((bandwidthModel bound target memory).parallelTime node : Float) := by
  have hoverhead := (overheadTime_upTo target hnode).mono (k := 256) (by norm_num)
  have hbandwidth := bandwidthTime_upTo target memory node bound
  obtain ⟨hnumber, hmax⟩ := larger_value hoverhead.number hbandwidth.number
  exact ⟨hnumber, hmax ▸ le_max_of_le_left hoverhead.nonneg, hmax ▸ max_le hoverhead.le hbandwidth.le⟩

/-! ### The cache model -/

/-- A finite double that is not negative. -/
def Amount (x : Float) : Prop := x.isFinite = true ∧ Quantity.NonNegative x

theorem amount_of_upTo {k : ℤ} {x : Float} (hx : UpTo k x) (hk : k < 1024) : Amount x :=
  ⟨hx.isFinite hk, hx.nonNegative⟩

/-- Miss rates that are amounts. -/
def MissRates.Sound (rates : MissRates) : Prop := Amount rates.read ∧ Amount rates.write

def CacheTable.Sound (rates : CacheTable) : Prop := ∀ row ∈ rates.byCores, row.level1.Sound ∧ row.level2.Sound

/-- A lookup finds the rates of a row or none. -/
theorem missRates_of_rows {p : MissRates → Prop} {rates : CacheTable} (hnone : p .none)
    (hrows : ∀ row ∈ rates.byCores, p row.level1 ∧ p row.level2) (cores : UInt32) (level : Nat) :
    p ((rates.missRates? cores level).getD .none) := by
  unfold CacheTable.missRates?
  cases hfound : rates.byCores.find? fun row => cores ≤ row.cores with
  | none => exact hnone
  | some row =>
    obtain ⟨hlevel1, hlevel2⟩ := hrows row (List.mem_of_find?_eq_some hfound)
    match level with
    | 0 => exact hlevel1
    | 1 => exact hlevel2
    | _ + 2 => exact hnone

theorem CacheRow.level?_isSome (row : CacheRow) (level : Nat) : (row.level? level).isSome = true ↔ level < 2 := by
  match level with
  | 0 => simp [level?]
  | 1 => simp [level?]
  | _ + 2 => simp [level?]

/-- A lookup finds the rates of one of the two levels if a row covers the cores. -/
theorem CacheTable.missRates?_isSome {rates : CacheTable} {cores : UInt32} {level : Nat} :
    (rates.missRates? cores level).isSome = true ↔ level < 2 ∧ ∃ row ∈ rates.byCores, cores ≤ row.cores := by
  have hfound : (rates.byCores.find? fun row => cores ≤ row.cores).isSome = true ↔
      ∃ row ∈ rates.byCores, cores ≤ row.cores := by
    rw [List.find?_isSome]
    simp only [decide_eq_true_iff]
  unfold missRates?
  rw [← hfound]
  cases rates.byCores.find? fun row => cores ≤ row.cores with
  | none => simp
  | some row => simp [CacheRow.level?_isSome]

/-- A table covers some cores if one of its rows does. -/
theorem missRates_isSome {rates : CacheTable} {cores : UInt32} :
    (rates.missRates? cores 0).isSome = true ↔ ∃ row ∈ rates.byCores, cores ≤ row.cores :=
  CacheTable.missRates?_isSome.trans (and_iff_right two_pos)

/-- A cache model is made if its table covers all cores of the target; both of its estimates are charged for misses. -/
theorem cacheModel_made {target : Target} {memory : MemoryProfile} {rates : CacheTable} {model : CostModel Float}
    (h : cacheModel target rates memory = .ok model) : (∃ row ∈ rates.byCores, max target.cores 1 ≤ row.cores) ∧
      model.target = target ∧ (∀ node, model.serialTime node = node.serialTime + serviceTime rates memory node 1) ∧
      ∀ node, model.parallelTime node = overheadTime target node +
        serviceTime rates memory node (target.usableCores node.selfParallelism).toUInt32 := by
  unfold cacheModel at h
  split at h
  · next hcovers =>
    cases h
    exact ⟨missRates_isSome.mp hcovers, rfl, fun _ => rfl, fun _ => rfl⟩
  · cases h

theorem cacheLevels_pos : ∀ level ∈ cacheLevels, 0 < level.cycles ∧ level.cycles < 2 ^ 64 ∧ 0 < level.scaleLimit.toNat := by
  decide

/-- The service time adds up what the levels charge for their misses. -/
theorem serviceTime_total {p : MissRates → Prop} {q : Float → Prop} {rates : CacheTable} (hnone : p .none)
    (hrows : ∀ row ∈ rates.byCores, p row.level1 ∧ p row.level2) (cores : UInt32)
    (hlevel : ∀ (averages : MemoryAverages Float) (rates : MissRates) (cycles sharing : Nat),
      averages = memory.averagesOf node → p rates → 0 < cycles → cycles < 2 ^ 64 → 0 < sharing → sharing < 2 ^ 64 →
      q ((averages.loads * rates.read + averages.stores * rates.write) * Quantity.count cycles /
        Quantity.count sharing)) :
    ∃ terms, serviceTime rates memory node cores = Quantity.total terms ∧ ∀ term ∈ terms, q term := by
  refine ⟨_, rfl, ?_⟩
  intro term hterm
  obtain ⟨index, hindex, rfl⟩ := List.mem_mapIdx.mp hterm
  obtain ⟨hcycles, hlt, hlimit⟩ := cacheLevels_pos _ (List.getElem_mem hindex)
  have hsharing : 0 < (min (max cores 1) cacheLevels[index].scaleLimit).toNat := by
    rw [UInt32.toNat_min]
    exact lt_min (toNat_max_one_pos cores) hlimit
  exact hlevel _ _ _ _ rfl (missRates_of_rows hnone hrows (max cores 1) index) hcycles hlt hsharing (halfWord_lt _)

/-- Every level adds misses that are not negative, though an overflow may make them infinite. -/
theorem serviceTime_nonNegative {rates : CacheTable} (hrates : rates.Sound) (cores : UInt32) :
    Quantity.NonNegative (serviceTime rates memory node cores) := by
  have hzero : Amount (Quantity.count 0) := amount_of_upTo (k := 64) (count_upTo (by norm_num)) (by norm_num)
  obtain ⟨-, -, hloads, hstores⟩ := averages_upTo memory node
  obtain ⟨terms, htotal, hterms⟩ : ∃ terms, serviceTime rates memory node cores = Quantity.total terms ∧
      ∀ term ∈ terms, Quantity.NonNegative term := by
    refine serviceTime_total (p := MissRates.Sound) memory ⟨hzero, hzero⟩ hrates cores ?_
    rintro _ rates cycles sharing rfl ⟨hread, hwrite⟩ hcycles hlt hsharing hfew
    have hmisses := add_nonNegative
      (mul_nonNegative hloads.nonNegative hread.2 (hloads.isFinite (by norm_num)) hread.1)
      (mul_nonNegative hstores.nonNegative hwrite.2 (hstores.isFinite (by norm_num)) hwrite.1)
    have hcharged := mul_pos_nonNegative hmisses (count_isFinite hlt) (by linarith [one_le_count hcycles hlt])
    exact div_nonNegative hcharged (count_isFinite hfew) (by linarith [one_le_count hsharing hfew])
  rw [htotal]
  exact Quantity.total_nonneg hterms

/-! ### Tables of percentages -/

instance {x : Float} : Decidable (Amount x) := inferInstanceAs (Decidable (_ ∧ _ = true))

/-- The fields of a row that hold percentages, if they can be read, hold amounts. -/
def Row.HoldsAmounts (row : Row) : Prop :=
  ∀ field ∈ (row.fields.drop 1).take 4, ∀ percent ∈ (Numeral.readDouble field).toOption, Amount percent

instance {row : Row} : Decidable row.HoldsAmounts :=
  inferInstanceAs (Decidable (∀ field ∈ (row.fields.drop 1).take 4, ∀ percent ∈ (Numeral.readDouble field).toOption,
    Amount percent))

theorem amount_mul {x y : Float} (hx : Amount x) (hy : Amount y) (hone : y ≤ Quantity.count 1) : Amount (x * y) := by
  obtain ⟨hfx, hx⟩ := hx
  obtain ⟨hfy, hy⟩ := hy
  refine ⟨isFinite_iff.mpr ?_, mul_nonNegative hx hy hfx hfy⟩
  obtain ⟨hnumber, hvalue⟩ := mul_value hfx hfy
  obtain ⟨hnumberX, hsmall⟩ := isFinite_iff.mp hfx
  have hx0 := (nonNegative_iff.mp hx).2
  have hy0 := (nonNegative_iff.mp hy).2
  obtain ⟨hfiniteOne, hvalueOne⟩ := one_value
  rw [le_iff (nonNegative_iff.mp hy).1 (isFinite_iff.mp hfiniteOne).1, hvalueOne] at hone
  have hlow : 0 ≤ rounded (value x * value y) := rounded_nonneg (mul_nonneg hx0 hy0)
  have hhigh := rounded_mono (mul_le_of_le_one_right hx0 hone)
  rw [rounded_value hfx] at hhigh
  rw [abs_of_nonneg hx0] at hsmall
  rw [cutOff_of_lt (by linarith [tooLarge_pos]) (hhigh.trans hsmall.le)] at hvalue
  rw [hvalue, abs_of_nonneg hlow]
  exact ⟨hnumber, hhigh.trans_lt hsmall⟩

theorem percent_amount {row : Row} (hrow : row.HoldsAmounts) {index : Nat} {name : String} {rate : Float}
    (hfirst : 1 ≤ index) (hlast : index < 5) (h : CacheRow.percent row index name = .ok rate) : Amount rate := by
  obtain ⟨percent, hpercent, rfl⟩ := map_eq_ok.mp h
  obtain ⟨field, hfield, hread⟩ := bind_eq_ok.mp hpercent
  have hmem : field ∈ (row.fields.drop 1).take 4 := by
    unfold Row.field at hfield
    split at hfield
    · next found hfound =>
      cases hfield
      refine List.mem_of_getElem? (i := index - 1) ?_
      rw [List.getElem?_take_of_lt (by omega), List.getElem?_drop, Nat.add_sub_cancel' hfirst]
      exact hfound
    · cases hfield
  refine amount_mul (hrow field hmem percent ?_) ?_ ?_
  · cases hvalue : Numeral.readDouble field with
    | error cause => rw [hvalue] at hread; cases hread
    | ok value => rw [hvalue] at hread; cases hread; rfl
  · decide +kernel
  · exact atMost_eq_true.mp (by decide +kernel)

theorem ofRow_sound {row : Row} {out : CacheRow} (hrow : row.HoldsAmounts) (h : CacheRow.ofRow row = .ok out) :
    out.level1.Sound ∧ out.level2.Sound := by
  unfold CacheRow.ofRow at h
  simp only [bind_eq_ok, pure_eq_ok] at h
  obtain ⟨-, -, cores, -, read1, hread1, write1, hwrite1, read2, hread2, write2, hwrite2, rfl⟩ := h
  exact ⟨⟨percent_amount hrow (by norm_num) (by norm_num) hread1, percent_amount hrow (by norm_num) (by norm_num) hwrite1⟩,
    percent_amount hrow (by norm_num) (by norm_num) hread2, percent_amount hrow (by norm_num) (by norm_num) hwrite2⟩

theorem parse_sound {text : String} {rates : CacheTable} (hrows : ∀ row ∈ rows .tabs text, row.HoldsAmounts)
    (h : CacheTable.parse text = .ok rates) : rates.Sound := by
  obtain ⟨parsed, hparsed, rfl⟩ := map_eq_ok.mp h
  intro out hout
  have hmem : out ∈ parsed := mem_sorted.mp hout
  obtain ⟨row, hrow, hread⟩ := exists_of_mem_mapM hparsed hmem
  exact ofRow_sound (hrows row hrow) hread

/-! ### All models -/

/-- Both estimates of every model are numbers that are not negative, those of the cache model if the percentages of its
table are finite and not negative. -/
theorem estimates_nonNegative {table : RegionTable} {records : List Record} {forest : Forest}
    (hb : Forest.build table records = .ok forest) (target : Target) (memory : MemoryProfile) :
    ∀ node ∈ forest.nodes,
      (∀ model ∈ [plainModel target, bandwidthModel .best target memory, bandwidthModel .worst target memory],
        Amount (model.serialTime node) ∧ Amount (model.parallelTime node)) ∧
      ∀ (text : String) (rates : CacheTable) (model : CostModel Float), CacheTable.parse text = .ok rates →
        (∀ row ∈ rows .tabs text, row.HoldsAmounts) → cacheModel target rates memory = .ok model →
        Quantity.NonNegative (model.serialTime node) ∧ Quantity.NonNegative (model.parallelTime node) := by
  intro node hm
  have hnode := build_parallel hb node hm
  have hserial := serialTime_upTo node
  have hoverhead := overheadTime_upTo target hnode
  constructor
  · intro model hmodel
    simp only [List.mem_cons, List.not_mem_nil, or_false] at hmodel
    rcases hmodel with rfl | rfl | rfl
    · exact ⟨amount_of_upTo hserial (by norm_num), amount_of_upTo hoverhead (by norm_num)⟩
    · exact ⟨amount_of_upTo hserial (by norm_num),
        amount_of_upTo (bandwidthModel_upTo target memory .best hnode) (by norm_num)⟩
    · exact ⟨amount_of_upTo hserial (by norm_num),
        amount_of_upTo (bandwidthModel_upTo target memory .worst hnode) (by norm_num)⟩
  · intro text rates model hparse hrows hmodel
    have hrates := parse_sound hrows hparse
    unfold cacheModel at hmodel
    split at hmodel
    · cases hmodel
      exact ⟨add_nonNegative hserial.nonNegative (serviceTime_nonNegative memory hrates 1),
        add_nonNegative hoverhead.nonNegative (serviceTime_nonNegative memory hrates _)⟩
    · cases hmodel

/-- A leaf with 100 loads, of which one in ten misses. -/
theorem estimates_nonNegative_leaf :
    let records : List Record := [⟨1, 0, 0, .normal, 0, 1, false, [], [.ofWork 1 1000 500]⟩]
    let target : Target := ⟨4, 10, none, none, none⟩
    let memory : MemoryProfile := .ofList [(1, ⟨0, 0, 100, 0⟩)]
    ∃ forest rates model, Forest.build .initial records = .ok forest ∧ forest.size = 1 ∧
      CacheTable.parse "4\t10\t0\t1\t0" = .ok rates ∧ cacheModel target rates memory = .ok model ∧
      ∀ node ∈ forest.nodes,
        Quantity.NonNegative (model.serialTime node) ∧ Quantity.NonNegative (model.parallelTime node) := by
  intro records target memory
  have hforest : (Forest.build .initial records).toOption.map (·.size) = some 1 := by decide +kernel
  have hmodel : (CacheTable.parse "4\t10\t0\t1\t0").toOption.map
      (fun rates => (cacheModel target rates memory).toOption.isSome) = some true := by decide +kernel
  have hrows : ∀ row ∈ rows .tabs "4\t10\t0\t1\t0", row.HoldsAmounts := by decide +kernel
  obtain ⟨forest, hb, hsize⟩ := toOption_map_eq_some.mp hforest
  obtain ⟨rates, hparse, hsome⟩ := toOption_map_eq_some.mp hmodel
  obtain ⟨model, hmodel⟩ := Option.isSome_iff_exists.mp hsome
  have hcache := toOption_eq_some.mp hmodel
  refine ⟨forest, rates, model, hb, hsize, hparse, hcache, ?_⟩
  intro node hm
  exact (estimates_nonNegative hb target memory node hm).2 _ rates model hparse hrows hcache

/-- A leaf with so many loads, on four cores under the cache model with these percentages, has estimates that are negative
or no numbers. -/
def NegativeLeaf (percentages : String) (loads : UInt64) : Prop :=
  ∃ forest rates model,
    Forest.build .initial [⟨1, 0, 0, .normal, 0, 1, false, [], [.ofWork 1 1000 500]⟩] = .ok forest ∧
    CacheTable.parse percentages = .ok rates ∧
    cacheModel ⟨4, 10, none, none, none⟩ rates (.ofList [(1, ⟨0, 0, loads, 0⟩)]) = .ok model ∧
    ∃ node ∈ forest.nodes,
      ¬ Quantity.NonNegative (model.serialTime node) ∧ ¬ Quantity.NonNegative (model.parallelTime node)

theorem negativeLeaf_of_run {percentages : String} {loads : UInt64} (h : (do
    let forest ← Forest.build .initial [⟨1, 0, 0, .normal, 0, 1, false, [], [.ofWork 1 1000 500]⟩]
    let rates ← CacheTable.parse percentages
    let model ← cacheModel ⟨4, 10, none, none, none⟩ rates (.ofList [(1, ⟨0, 0, loads, 0⟩)])
    return forest.nodes.toList.any fun node =>
      !Quantity.atMost (Quantity.count 0) (model.serialTime node) &&
        !Quantity.atMost (Quantity.count 0) (model.parallelTime node) : Except Fault Bool).toOption = some true) :
    NegativeLeaf percentages loads := by
  have hrun := toOption_eq_some.mp h
  simp only [bind_eq_ok, pure_eq_ok] at hrun
  obtain ⟨forest, hb, rates, hparse, model, hmodel, hany⟩ := hrun
  obtain ⟨node, hm, hboth⟩ := List.any_eq_true.mp hany
  rw [Bool.and_eq_true, Bool.not_eq_true', Bool.not_eq_true', ← Bool.not_eq_true, ← Bool.not_eq_true] at hboth
  exact ⟨forest, rates, model, hb, hparse, hmodel, node, Array.mem_toList_iff.mp hm, hboth⟩

/-- A negative percentage makes both estimates negative, and an infinite one that meets no loads makes them no numbers. -/
theorem estimates_negative : NegativeLeaf "4\t-100\t0\t0\t0" 1000 ∧ NegativeLeaf "4\tinf\t0\t0\t0" 0 :=
  ⟨negativeLeaf_of_run (by decide +kernel), negativeLeaf_of_run (by decide +kernel)⟩

end RegionPlanner
