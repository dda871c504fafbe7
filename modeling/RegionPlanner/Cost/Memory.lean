import Std.Data.TreeMap
import RegionPlanner.Forest.Node
import RegionPlanner.Text.Row

/-!
# Memory traffic

Memory accesses of the nodes, from a table of their own: one row with uid, reads, writes, loads and stores,
summed over all instances. A node without a row has no traffic.
-/

namespace RegionPlanner

structure MemoryCounters where
  reads : UInt64
  writes : UInt64
  loads : UInt64
  stores : UInt64
deriving DecidableEq, Repr

def MemoryCounters.none : MemoryCounters := ⟨0, 0, 0, 0⟩

structure MemoryAverages (α : Type) where
  reads : α
  writes : α
  loads : α
  stores : α
deriving Repr

abbrev MemoryProfile := Std.TreeMap UInt64 MemoryCounters

namespace MemoryProfile

def empty : MemoryProfile := Std.TreeMap.empty

def counters (profile : MemoryProfile) (uid : UInt64) : MemoryCounters := profile.getD uid .none

/-- The counters shared out over the instances of a node; no instance counts as one. -/
def averages {α : Type} [Quantity α] (profile : MemoryProfile) (uid instances : UInt64) :
    MemoryAverages α :=
  let counters := profile.counters uid
  let share (count : UInt64) : α := Quantity.count count.toNat / Quantity.count (max instances 1).toNat
  ⟨share counters.reads, share counters.writes, share counters.loads, share counters.stores⟩

def averagesOf {α : Type} [Quantity α] (profile : MemoryProfile) (node : Node) : MemoryAverages α :=
  profile.averages node.uid node.instances

def readRow (row : Row) : Except Fault (UInt64 × MemoryCounters) := do
  row.expect 5
  let uid ← row.word 0 "uid"
  let reads ← row.word 1 "reads"
  let writes ← row.word 2 "writes"
  let loads ← row.word 3 "loads"
  let stores ← row.word 4 "stores"
  return (uid, ⟨reads, writes, loads, stores⟩)

/-- The profile with these counters; later ones of a node replace earlier ones. -/
def ofList (counters : List (UInt64 × MemoryCounters)) : MemoryProfile :=
  counters.foldl (fun profile (uid, counters) => profile.insert uid counters) empty

def parse (text : String) : Except Fault MemoryProfile := ofList <$> (rows .blanks text).mapM readRow

end MemoryProfile

end RegionPlanner
