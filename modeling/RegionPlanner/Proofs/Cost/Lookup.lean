import RegionPlanner.Proofs.Number.Truncated
import RegionPlanner.Proofs.Plan.Cores
import RegionPlanner.Proofs.Text.Loading

/-!
# Lookups of miss rates

A lookup in a table that was read from a text takes the row with the least core count that covers the cores, and of rows
with the same core count the one that was written first. A model is made only if its table covers all cores of the target.
A region of a built tree can use one core at least and all of them at most, so no lookup of a model fails.
-/

namespace RegionPlanner

open Double

section
variable {cores : UInt32} {rows : List CacheRow} {row : CacheRow}

/-! ### The row for some cores -/

/-- The row of a list that is meant for some cores: of those that cover them, the first with the least core count. -/
structure IsRowFor (rows : List CacheRow) (cores : UInt32) (row : CacheRow) : Prop where
  covers : cores ≤ row.cores
  least : ∀ other ∈ rows, cores ≤ other.cores → row.cores ≤ other.cores
  first : rows.find? (·.cores = row.cores) = some row

/-- A least row in front that covers the cores is the one that is meant. -/
theorem isRowFor_cons_of_covers {head : CacheRow} (hcovers : cores ≤ head.cores)
    (hleast : ∀ other ∈ rows, head.cores ≤ other.cores) : IsRowFor (head :: rows) cores row ↔ head = row := by
  constructor
  · intro hrow
    have hsame : head.cores = row.cores := by
      rcases List.mem_cons.mp (List.mem_of_find?_eq_some hrow.first) with rfl | hm
      · rfl
      · exact UInt32.le_antisymm (hleast row hm) (hrow.least head List.mem_cons_self hcovers)
    have hfirst := hrow.first
    rw [List.find?_cons_of_pos (by simpa using hsame)] at hfirst
    exact Option.some.inj hfirst
  · rintro rfl
    refine ⟨hcovers, fun other hm _ => ?_, List.find?_cons_of_pos (by simp)⟩
    rcases List.mem_cons.mp hm with rfl | hm
    · exact UInt32.le_refl _
    · exact hleast other hm

/-- A row in front that does not cover the cores is passed over. -/
theorem isRowFor_cons_of_not_covers {head : CacheRow} (hcovers : ¬ cores ≤ head.cores) :
    IsRowFor (head :: rows) cores row ↔ IsRowFor rows cores row := by
  have hskip : cores ≤ row.cores → (head :: rows).find? (·.cores = row.cores) = rows.find? (·.cores = row.cores) := by
    intro hrow
    have hother : head.cores ≠ row.cores := fun hsame => hcovers (hsame ▸ hrow)
    exact List.find?_cons_of_neg (by simpa using hother)
  constructor
  · intro hrow
    exact ⟨hrow.covers, fun other hm => hrow.least other (List.mem_cons_of_mem _ hm), hskip hrow.covers ▸ hrow.first⟩
  · intro hrow
    refine ⟨hrow.covers, fun other hm hother => ?_, (hskip hrow.covers).trans hrow.first⟩
    rcases List.mem_cons.mp hm with rfl | hm
    · exact absurd hother hcovers
    · exact hrow.least other hm hother

/-- Where rows stand by core count, the first that covers the cores is the one that is meant. -/
theorem find?_covering (h : rows.Pairwise (·.cores ≤ ·.cores)) :
    rows.find? (fun row => cores ≤ row.cores) = some row ↔ IsRowFor rows cores row := by
  induction rows with
  | nil => exact iff_of_false (by simp) fun hrow => by cases hrow.first
  | cons head rows ih =>
    obtain ⟨hleast, hrows⟩ := List.pairwise_cons.mp h
    by_cases hcovers : cores ≤ head.cores
    · rw [List.find?_cons_of_pos (by simpa using hcovers), Option.some.injEq, isRowFor_cons_of_covers hcovers hleast]
    · rw [List.find?_cons_of_neg (by simpa using hcovers), ih hrows, isRowFor_cons_of_not_covers hcovers]

/-- Where rows stand by core count, the last one covers the most cores. -/
theorem exists_covering (h : rows.Pairwise (·.cores ≤ ·.cores)) :
    (∃ row ∈ rows, cores ≤ row.cores) ↔ ∃ largest ∈ rows.getLast?.map (·.cores), cores ≤ largest := by
  rcases List.eq_nil_or_concat rows with rfl | ⟨before, last, rfl⟩
  · simp
  · rw [List.concat_eq_append, List.pairwise_append] at h
    obtain ⟨-, -, hlast⟩ := h
    rw [List.concat_eq_append, List.getLast?_concat, Option.map_some]
    simp only [Option.mem_some_iff, exists_eq_left', List.mem_append, List.mem_singleton]
    constructor
    · rintro ⟨row, hm | rfl, hcovers⟩
      · exact UInt32.le_trans hcovers (hlast row hm last (List.mem_singleton_self last))
      · exact hcovers
    · exact fun hcovers => ⟨last, .inr rfl, hcovers⟩

/-! ### Tables -/

namespace CacheTable

theorem isRowFor_ofList : IsRowFor (ofList rows).byCores cores row ↔ IsRowFor rows cores row := by
  have hmem : ∀ other, other ∈ (ofList rows).byCores ↔ other ∈ rows := fun other => mem_sorted
  have hfirst : (ofList rows).byCores.find? (·.cores = row.cores) = rows.find? (·.cores = row.cores) := by
    rw [← List.head?_filter, ← List.head?_filter, filter_ofList]
  constructor
  · intro hrow
    exact ⟨hrow.covers, fun other hm => hrow.least other ((hmem other).mpr hm), hfirst ▸ hrow.first⟩
  · intro hrow
    exact ⟨hrow.covers, fun other hm => hrow.least other ((hmem other).mp hm), hfirst ▸ hrow.first⟩

/-- What a table answers for some cores, by the rows that it was made of. -/
structure Answers (table : CacheTable) (rows : List CacheRow) (cores : UInt32) : Prop where
  found : ∀ level, (table.missRates? cores level).isSome = true ↔ level < 2 ∧ ∃ row ∈ rows, cores ≤ row.cores
  covered : (∃ row ∈ rows, cores ≤ row.cores) ↔ ∃ largest ∈ table.maxCores?, cores ≤ largest
  rates : ∀ level rates, table.missRates? cores level = some rates ↔
    ∃ row, IsRowFor rows cores row ∧ row.level? level = some rates

theorem ofList_answers (rows : List CacheRow) (cores : UInt32) : (ofList rows).Answers rows cores := by
  have hsame : (∃ row ∈ (ofList rows).byCores, cores ≤ row.cores) ↔ ∃ row ∈ rows, cores ≤ row.cores :=
    exists_congr fun row => and_congr_left fun _ => mem_sorted
  refine ⟨fun level => ?_, ?_, fun level rates => ?_⟩
  · rw [missRates?_isSome, hsame]
  · rw [← hsame]
    exact exists_covering (pairwise_ofList rows)
  · unfold missRates?
    rw [Option.bind_eq_some_iff]
    simp only [find?_covering (pairwise_ofList rows), isRowFor_ofList]

/-- Where all core counts are different, the order of the rows does not matter. -/
theorem ofList_congr {rows' : List CacheRow} (hperm : rows'.Perm rows) (hdistinct : (rows.map (·.cores)).Nodup) :
    ofList rows' = ofList rows := by
  have hall : (ofList rows').byCores.Perm (ofList rows).byCores :=
    (sorted_perm _ rows').trans (hperm.trans (sorted_perm _ rows).symm)
  have hrows : (ofList rows').byCores = (ofList rows).byCores := by
    refine hall.eq_of_pairwise (fun row other hm hm' hle hge => ?_) (pairwise_ofList rows') (pairwise_ofList rows)
    exact List.inj_on_of_nodup_map hdistinct (mem_sorted.mp (hall.mem_iff.mp hm)) (mem_sorted.mp hm')
      (UInt32.le_antisymm hle hge)
  exact congrArg CacheTable.mk hrows

end CacheTable

end

/-! ### Usable cores as counts -/

section
variable {node : Node} (target : Target)

theorem usableCount_eq (hnode : node.Parallel) : ((target.usableCores node.selfParallelism).toUInt32.toNat : Int) =
    min ((max target.cores 1).toNat : Int) ⌊value node.selfParallelism⌋ := by
  obtain ⟨hfinite, hone⟩ := usableCores_bounds target hnode
  have hcores := (max target.cores 1).toNat_lt
  rw [toUInt32_eq hfinite (zero_le_one.trans hone), usableCores_value target hnode, Int.floor_mono.map_min,
    Int.floor_natCast]
  omega

theorem usableCount_bounds (hnode : node.Parallel) :
    1 ≤ (target.usableCores node.selfParallelism).toUInt32 ∧
      (target.usableCores node.selfParallelism).toUInt32 ≤ max target.cores 1 := by
  have hcount := usableCount_eq target hnode
  have hone := toNat_max_one_pos target.cores
  have hfloor : 1 ≤ ⌊value node.selfParallelism⌋ := Int.le_floor.mpr (by exact_mod_cast hnode.one_le)
  rw [UInt32.le_iff_toNat_le, UInt32.le_iff_toNat_le, UInt32.toNat_one]
  omega

end

/-! ### The lookups of a model -/

/-- The service time with these rates for a level that no row is found for. -/
def serviceTimeOr (fallback : MissRates) (table : CacheTable) (memory : MemoryProfile) (node : Node) (cores : UInt32) :
    Float :=
  let averages : MemoryAverages Float := memory.averagesOf node
  let cores := max cores 1
  Quantity.total <| cacheLevels.mapIdx fun index level =>
    let rates := (table.missRates? cores index).getD fallback
    let misses := averages.loads * rates.read + averages.stores * rates.write
    misses * Quantity.count level.cycles / Quantity.count (min cores level.scaleLimit).toNat

theorem serviceTimeOr_none (table : CacheTable) (memory : MemoryProfile) (node : Node) (cores : UInt32) :
    serviceTimeOr .none table memory node cores = serviceTime table memory node cores := rfl

section
variable {table : CacheTable} {memory : MemoryProfile} {node : Node} {cores : UInt32}

/-- Where a row is found for each level, it does not matter which rates stand in for a missing one. -/
theorem serviceTimeOr_eq (hfound : ∀ level < 2, (table.missRates? (max cores 1) level).isSome = true)
    (fallback : MissRates) : serviceTimeOr fallback table memory node cores = serviceTime table memory node cores := by
  have hrates : ∀ index < cacheLevels.length,
      (table.missRates? (max cores 1) index).getD fallback = (table.missRates? (max cores 1) index).getD .none := by
    intro index hindex
    obtain ⟨rates, hrates⟩ := Option.isSome_iff_exists.mp (hfound index hindex)
    rw [hrates, Option.getD_some, Option.getD_some]
  rw [← serviceTimeOr_none]
  unfold serviceTimeOr
  refine congrArg Quantity.total (List.ext_getElem ?_ ?_)
  · rw [List.length_mapIdx, List.length_mapIdx]
  · intro index hindex _
    rw [List.length_mapIdx] at hindex
    rw [List.getElem_mapIdx, List.getElem_mapIdx, hrates index hindex]

end

/-- A lookup in a table that was read from a text takes the row that is meant for the cores, and fails if and only if there
is none or no such level. Where all core counts are different, the order of the lines does not matter. In a built tree no
lookup of a cache model fails: its regions can use one core at least and no more than there are, and nothing depends on what
stands in for a missing row. -/
theorem cache_lookups :
    (∀ (text : String) (table : CacheTable), CacheTable.parse text = .ok table →
      ∃ written, (rows .tabs text).mapM CacheRow.ofRow = .ok written ∧ (∀ cores, table.Answers written cores) ∧
        ((written.map (·.cores)).Nodup → ∀ text', (lines text'.toList).Perm (lines text.toList) →
          CacheTable.parse text' = .ok table)) ∧
    ∀ (regions : RegionTable) (records : List Record) (forest : Forest) (target : Target) (table : CacheTable)
      (memory : MemoryProfile) (model : CostModel Float), Forest.build regions records = .ok forest →
      cacheModel target table memory = .ok model → ∀ node ∈ forest.nodes,
        let usable := (target.usableCores node.selfParallelism).toUInt32
        (1 ≤ usable ∧ usable ≤ max target.cores 1) ∧
        (∀ level < 2, (table.missRates? 1 level).isSome = true ∧ (table.missRates? usable level).isSome = true) ∧
        ∀ fallback, model.serialTime node = node.serialTime + serviceTimeOr fallback table memory node 1 ∧
          model.parallelTime node = overheadTime target node + serviceTimeOr fallback table memory node usable := by
  constructor
  · intro text table hparse
    obtain ⟨written, hwritten, rfl⟩ := map_eq_ok.mp hparse
    refine ⟨written, hwritten, CacheTable.ofList_answers written, fun hdistinct text' hlines => ?_⟩
    obtain ⟨written', hwritten', hperm⟩ := cacheLoader.readAll_perm CacheRow.needs_ofRow hlines hwritten
    exact map_eq_ok.mpr ⟨written', hwritten', CacheTable.ofList_congr hperm hdistinct⟩
  · intro regions records forest target table memory model hb hmodel node hm usable
    obtain ⟨⟨row, hrow, hcovers⟩, -, hserial, hparallel⟩ := cacheModel_made hmodel
    have hbounds : 1 ≤ usable ∧ usable ≤ max target.cores 1 := usableCount_bounds target (build_parallel hb node hm)
    have hfound : ∀ cores ≤ max target.cores 1, ∀ level < 2, (table.missRates? cores level).isSome = true :=
      fun cores hcores level hlevel =>
        CacheTable.missRates?_isSome.mpr ⟨hlevel, row, hrow, UInt32.le_trans hcores hcovers⟩
    have hone : (1 : UInt32) ≤ max target.cores 1 := UInt32.le_trans hbounds.1 hbounds.2
    have hmost : max usable 1 = usable := by
      rw [← UInt32.toNat_inj, UInt32.toNat_max, UInt32.toNat_one]
      exact max_eq_left (UInt32.le_iff_toNat_le.mp hbounds.1)
    refine ⟨hbounds, fun level hlevel => ⟨hfound 1 hone level hlevel, hfound usable hbounds.2 level hlevel⟩,
      fun fallback => ⟨?_, ?_⟩⟩
    · rw [hserial, serviceTimeOr_eq (hfound (max 1 1) hone)]
    · rw [hparallel, serviceTimeOr_eq (hmost.symm ▸ hfound usable hbounds.2)]

/-- A leaf that can use two and a half cores, and a table without a row for two. -/
theorem cache_lookups_leaf :
    let records : List Record := [⟨1, 0, 0, .normal, 0, 1, false, [], [.ofWork 1 1000 400]⟩]
    let target : Target := { cores := 8, overhead := 0 }
    let memory : MemoryProfile := .ofList [(1, ⟨0, 0, 100, 50⟩)]
    ∃ table forest model, CacheTable.parse "8\t4\t2\t1\t0.5\n\n1\t10\t5\t2\t1\r\n" = .ok table ∧
      CacheTable.parse "1\t10\t5\t2\t1\n8\t4\t2\t1\t0.5\r\n\n" = .ok table ∧
      (table.missRates? 9 1).isSome = false ∧
      Forest.build .initial records = .ok forest ∧ cacheModel target table memory = .ok model ∧
      ∀ node ∈ forest.nodes, (target.usableCores node.selfParallelism).toUInt32 = 2 ∧
        ∀ level < 2, (table.missRates? 2 level).isSome = true := by
  intro records target memory
  have hrun : (do
      let written ← (rows .tabs "8\t4\t2\t1\t0.5\n\n1\t10\t5\t2\t1\r\n").mapM CacheRow.ofRow
      let table ← CacheTable.parse "8\t4\t2\t1\t0.5\n\n1\t10\t5\t2\t1\r\n"
      let forest ← Forest.build .initial records
      let model ← cacheModel target table memory
      pure (written, table, forest, model) :
        Except Fault (List CacheRow × CacheTable × Forest × CostModel Float)).toOption.map
      (fun (written, _, forest, _) => (written.map (·.cores), forest.nodes.toList.map fun node =>
        (target.usableCores node.selfParallelism).toUInt32)) = some ([8, 1], [2]) := by decide +kernel
  obtain ⟨⟨written, table, forest, model⟩, hok, hread⟩ := toOption_map_eq_some.mp hrun
  obtain ⟨written₁, hwritten, hok⟩ := bind_eq_ok.mp hok
  obtain ⟨table₁, hparse, hok⟩ := bind_eq_ok.mp hok
  obtain ⟨forest₁, hb, hok⟩ := bind_eq_ok.mp hok
  obtain ⟨model₁, hmodel, hok⟩ := bind_eq_ok.mp hok
  cases hok
  obtain ⟨hcounts, husable⟩ := Prod.mk.inj hread
  obtain ⟨same, hsame, hanswers, hordered⟩ := cache_lookups.1 _ table hparse
  rw [hwritten] at hsame
  cases hsame
  have hlines : (lines "1\t10\t5\t2\t1\n8\t4\t2\t1\t0.5\r\n\n".toList).Perm
      (lines "8\t4\t2\t1\t0.5\n\n1\t10\t5\t2\t1\r\n".toList) := by decide +kernel
  have hnone : (table.missRates? 9 1).isSome = false := by
    rw [Bool.eq_false_iff, Ne, (hanswers 9).found]
    rintro ⟨-, row, hm, hcovers⟩
    have hsmall : ∀ count ∈ [(8 : UInt32), 1], ¬ 9 ≤ count := by simp
    exact hsmall row.cores (hcounts ▸ List.mem_map_of_mem hm) hcovers
  refine ⟨table, forest, model, hparse, hordered (by rw [hcounts]; decide) _ hlines, hnone, hb, hmodel, fun node hm => ?_⟩
  have htwo : (target.usableCores node.selfParallelism).toUInt32 = 2 := by
    have hmem := List.mem_map_of_mem (Array.mem_toList_iff.mpr hm)
      (f := fun node : Node => (target.usableCores node.selfParallelism).toUInt32)
    rw [husable] at hmem
    exact List.mem_singleton.mp hmem
  obtain ⟨-, hfound, -⟩ := cache_lookups.2 _ _ forest target table memory model hb hmodel node hm
  rw [htwo] at hfound
  exact ⟨htwo, fun level hlevel => (hfound level hlevel).2⟩

end RegionPlanner
