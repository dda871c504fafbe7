import RegionPlanner.Cost.Model
import RegionPlanner.Sorting

/-!
# The cache model

Miss rates come from a measured table, one row per core count: core count, then reads and writes of the
first level and of the second level in percent. A lookup takes the row with the least core count that
covers the cores in question. Both estimates of the model are charged the service time of the misses; a
level is shared by the cores up to a limit of its own.
-/

namespace RegionPlanner

/-! ### Measured miss rates -/

/-- Miss rates of a cache level, as fractions. -/
structure MissRates where
  read : Float
  write : Float
deriving BEq, Repr

def MissRates.none : MissRates := ⟨Quantity.count 0, Quantity.count 0⟩

structure CacheRow where
  cores : UInt32
  level1 : MissRates
  level2 : MissRates
deriving BEq, Repr

namespace CacheRow

def level? (row : CacheRow) : Nat → Option MissRates
  | 0 => some row.level1
  | 1 => some row.level2
  | _ => Option.none

def percent (row : Row) (index : Nat) (name : String) : Except Fault Float :=
  (· * 0.01) <$> row.double index name

def ofRow (row : Row) : Except Fault CacheRow := do
  row.expect 5
  let cores ← row.halfWord 0 "core_count"
  let read1 ← percent row 1 "l1_read_miss"
  let write1 ← percent row 2 "l1_write_miss"
  let read2 ← percent row 3 "l2_read_miss"
  let write2 ← percent row 4 "l2_write_miss"
  return ⟨cores, ⟨read1, write1⟩, ⟨read2, write2⟩⟩

end CacheRow

structure CacheTable where
  byCores : List CacheRow := []
deriving BEq, Repr

namespace CacheTable

/-- A table of rows in any order. Rows of the same core count keep theirs. -/
def ofList (rows : List CacheRow) : CacheTable := ⟨sorted (·.cores ≤ ·.cores) rows⟩

def parse (text : String) : Except Fault CacheTable := ofList <$> (rows .tabs text).mapM CacheRow.ofRow

def maxCores? (table : CacheTable) : Option UInt32 := table.byCores.getLast?.map (·.cores)

/-- The miss rates of a level, counted from zero. -/
def missRates? (table : CacheTable) (cores : UInt32) (level : Nat) : Option MissRates :=
  (table.byCores.find? fun row => cores ≤ row.cores).bind (·.level? level)

end CacheTable

/-! ### The model -/

/-- A cache level: the cycles of a miss, and the cores up to which the level scales. -/
structure CacheLevel where
  cycles : Nat
  scaleLimit : UInt32
deriving DecidableEq, Repr

def cacheLevels : List CacheLevel := [⟨10, 64⟩, ⟨200, 8⟩]

/-- Cycles to service the misses of an instance on some cores. A row that is missing has no misses. -/
def serviceTime (table : CacheTable) (memory : MemoryProfile) (node : Node) (cores : UInt32) : Float :=
  let averages : MemoryAverages Float := memory.averagesOf node
  let cores := max cores 1
  Quantity.total <| cacheLevels.mapIdx fun index level =>
    let rates := (table.missRates? cores index).getD .none
    let misses := averages.loads * rates.read + averages.stores * rates.write
    misses * Quantity.count level.cycles / Quantity.count (min cores level.scaleLimit).toNat

/-- The cache model. The table must cover the cores of the target. -/
def cacheModel (target : Target) (table : CacheTable) (memory : MemoryProfile) :
    Except Fault (CostModel Float) :=
  if (table.missRates? (max target.cores 1) 0).isSome then
    .ok {
      name := "cache"
      target := target
      serialTime := fun node => node.serialTime + serviceTime table memory node 1
      parallelTime := fun node =>
        let cores := (target.usableCores node.selfParallelism).toUInt32
        overheadTime target node + serviceTime table memory node cores }
  else
    .error (.cacheTable (match table.maxCores? with
      | some largest => .uncovered target.cores largest
      | none => .emptyTable))

end RegionPlanner
