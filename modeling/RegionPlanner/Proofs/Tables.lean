import RegionPlanner.Cost.Cache
import RegionPlanner.Region.Table

/-!
# What a table holds

The tables of regions and of counters hold the last entry for each id; the table of miss rates holds all rows, by core
count, rows of the same core count in their order.
-/

namespace RegionPlanner

/-! ### The last entry for each id -/

theorem getElem?_foldl_insert {α β : Type} (key : α → UInt64) (value : α → β) (xs : List α) (map : Std.TreeMap UInt64 β)
    (k : UInt64) : (xs.foldl (fun map x => map.insert (key x) (value x)) map)[k]? =
      ((xs.filter (key · = k)).getLast?.map value).or map[k]? := by
  induction xs generalizing map with
  | nil => simp
  | cons x xs ih =>
    rw [List.foldl_cons, ih, Std.TreeMap.getElem?_insert]
    simp only [Std.LawfulEqCmp.compare_eq_iff_eq, List.filter_cons, decide_eq_true_eq]
    split
    · rw [List.getLast?_cons]
      cases (xs.filter (key · = k)).getLast? <;> rfl
    · rfl

namespace RegionTable

/-- The last region with an id; call sites are none. -/
def lastRegion? (regions : List Region) (id : UInt64) : Option Region :=
  ((regions.filter (·.kind ≠ .callSite)).filter (·.id = id)).getLast?

/-- The last call site with an id. -/
def lastCallSite? (regions : List Region) (id : UInt64) : Option Region :=
  ((regions.filter (·.kind = .callSite)).filter (·.id = id)).getLast?

/-- One half of a table after inserts, if an insert changes it for the regions that belong to it only. -/
theorem getElem?_half {half : RegionTable → Std.TreeMap UInt64 Region} {belongs : Region → Bool}
    (hinsert : ∀ table region, half (insert table region) =
      if belongs region then (half table).insert region.id region else half table)
    (table : RegionTable) (regions : List Region) (id : UInt64) : (half (regions.foldl insert table))[id]? =
      (((regions.filter belongs).filter (·.id = id)).getLast?).or (half table)[id]? := by
  have hfold : half (regions.foldl insert table) =
      (regions.filter belongs).foldl (fun map region => map.insert region.id region) (half table) := by
    induction regions generalizing table with
    | nil => rfl
    | cons region regions ih =>
      rw [List.foldl_cons, ih, hinsert, List.filter_cons]
      split <;> rfl
  rw [hfold, getElem?_foldl_insert Region.id fun region => region, Option.map_id']

theorem getElem?_regions (table : RegionTable) (regions : List Region) (id : UInt64) :
    (regions.foldl insert table).regions[id]? = (lastRegion? regions id).or table.regions[id]? := by
  refine @getElem?_half RegionTable.regions _ (fun table region => ?_) table regions id
  cases hkind : region.kind <;> simp [insert, hkind]

theorem getElem?_callSites (table : RegionTable) (regions : List Region) (id : UInt64) :
    (regions.foldl insert table).callSites[id]? = (lastCallSite? regions id).or table.callSites[id]? := by
  refine @getElem?_half RegionTable.callSites _ (fun table region => ?_) table regions id
  cases hkind : region.kind <;> simp [insert, hkind]

/-- A region is the last one given with its id, or else the root. -/
theorem region_ofList (regions : List Region) (id : UInt64) : (ofList regions).region id =
    match lastRegion? regions id with
    | some found => .ok found
    | none => if id = 0 then .ok Region.root else .error (.unknownRegion id) := by
  have hroot : initial.regions[id]? = if id = 0 then some Region.root else none := by
    show (Std.TreeMap.empty.insert Region.root.id Region.root)[id]? = _
    rw [Std.TreeMap.getElem?_insert]
    simp only [Std.LawfulEqCmp.compare_eq_iff_eq, eq_comm (b := id)]
    rfl
  unfold region ofList
  rw [getElem?_regions, hroot]
  cases lastRegion? regions id with
  | some found => rfl
  | none =>
    by_cases hid : id = 0
    · simp [hid]
    · simp [hid]

/-- A call site is the last one given with its id. -/
theorem callSite_ofList (regions : List Region) (id : UInt64) : (ofList regions).callSite id =
    match lastCallSite? regions id with
    | some found => .ok found
    | none => .error (.unknownCallSite id) := by
  unfold callSite ofList
  rw [getElem?_callSites]
  cases lastCallSite? regions id with
  | some found => rfl
  | none => rfl

end RegionTable

namespace MemoryProfile

/-- The last counters of a node. -/
def lastCounters? (counters : List (UInt64 × MemoryCounters)) (uid : UInt64) : Option MemoryCounters :=
  (counters.filter (·.1 = uid)).getLast?.map (·.2)

theorem lastCounters?_append (counters later : List (UInt64 × MemoryCounters)) (uid : UInt64) :
    lastCounters? (counters ++ later) uid = (lastCounters? later uid).or (lastCounters? counters uid) := by
  unfold lastCounters?
  rw [List.filter_append, List.getLast?_append]
  cases (later.filter (·.1 = uid)).getLast? <;> rfl

theorem getElem?_ofList (counters : List (UInt64 × MemoryCounters)) (uid : UInt64) :
    (ofList counters)[uid]? = lastCounters? counters uid := by
  show (counters.foldl (fun map entry => map.insert entry.1 entry.2) empty)[uid]? = _
  rw [getElem?_foldl_insert]
  exact Option.or_none

end MemoryProfile

/-! ### Rows by core count -/

namespace CacheTable

theorem pairwise_ofList (rows : List CacheRow) : (ofList rows).byCores.Pairwise (·.cores ≤ ·.cores) := by
  refine (pairwise_sorted (fun a _ b _ c _ hab hbc => ?_) fun a _ b _ => ?_).imp of_decide_eq_true
  · simp only [decide_eq_true_eq] at hab hbc ⊢
    exact UInt32.le_trans hab hbc
  · simp only [decide_eq_true_eq]
    exact UInt32.le_total _ _

theorem filter_ofList (rows : List CacheRow) (cores : UInt32) :
    (ofList rows).byCores.filter (·.cores = cores) = rows.filter (·.cores = cores) := by
  refine filter_sorted fun a _ b _ ha hb => ?_
  simp only [decide_eq_true_eq] at ha hb ⊢
  rw [ha, hb]
  exact UInt32.le_refl _

end CacheTable

end RegionPlanner
