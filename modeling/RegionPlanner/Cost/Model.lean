import RegionPlanner.Cost.Memory
import RegionPlanner.Cost.Target

/-!
# Cost models

A cost model estimates the time of one instance of a region, serial and parallel, on a target. The plain
model shares the average work out over the usable cores and adds the overhead. The bandwidth models put a
floor under that time: a region cannot be faster than its data can be moved. In the best case the cache
takes part of the traffic, in the worst case it takes none and the memory is slower.
-/

namespace RegionPlanner

structure CostModel (α : Type) where
  name : String
  target : Target
  serialTime : Node → α
  parallelTime : Node → α

section
variable {α : Type} [Quantity α]

/-! ### The plain model -/

def Node.serialTime (node : Node) : α := Quantity.count node.averageWork.toNat

/-- Work spread over the usable cores, and the overhead. -/
def overheadTime (target : Target) (node : Node) : α :=
  node.serialTime / target.usableCores (Quantity.stored node.selfParallelism) +
    Quantity.count target.overhead.toNat

def plainModel (target : Target) : CostModel α where
  name := "plain"
  target := target
  serialTime := Node.serialTime
  parallelTime := overheadTime target

/-! ### The bandwidth models -/

/-- Which end of the estimate is taken. -/
inductive BandwidthBound where
  | best
  | worst
deriving DecidableEq, Repr

namespace BandwidthBound

def name : BandwidthBound → String
  | best => "bandwidth-best"
  | worst => "bandwidth-worst"

/-- Sustained bandwidth in MB/s where the target gives none. -/
def defaultBandwidth : BandwidthBound → UInt32
  | best => 25000
  | worst => 10000

/-- Traffic of an instance that the cache takes, in bytes. -/
def cachedBytes (bound : BandwidthBound) (target : Target) : α :=
  match bound with
  | best => Quantity.count (target.cacheMB.getD 16).toNat * Quantity.count 1024 * Quantity.count 1024
  | worst => Quantity.count 0

end BandwidthBound

/-- Cycles to move the data of an instance, four bytes an access. -/
def bandwidthTime (bound : BandwidthBound) (target : Target) (memory : MemoryProfile) (node : Node) : α :=
  let averages := memory.averagesOf node
  let bytes := Quantity.larger
    ((averages.reads + averages.writes) * Quantity.count 4 - bound.cachedBytes target) (Quantity.count 0)
  Quantity.count (target.clockMHz.getD 2400).toNat * bytes /
    Quantity.count (max (target.bandwidthMB.getD bound.defaultBandwidth) 1).toNat

def bandwidthModel (bound : BandwidthBound) (target : Target) (memory : MemoryProfile) : CostModel α where
  name := bound.name
  target := target
  serialTime := Node.serialTime
  parallelTime node := Quantity.larger (overheadTime target node) (bandwidthTime bound target memory node)

end

end RegionPlanner
