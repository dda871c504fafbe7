import RegionPlanner.Number.Quantity
import RegionPlanner.Number.Reading
import RegionPlanner.Trace.Kind

/-!
# Records of a trace

A trace has one record per dynamic region. A record names its static region and its children and carries
one block of counters, a `Stat`, per recursion depth, the outermost first.
-/

namespace RegionPlanner

/-- Work per unit of reduced work. Without work there is nothing to gain, and the quotient is one. -/
def workRatio {α : Type} [Quantity α] (work reduced : UInt64) : α :=
  if work = 0 then Quantity.count 1 else Quantity.count work.toNat / Quantity.count reduced.toNat

/-- Counters of one dynamic region at one recursion depth, summed over its instances. -/
structure Stat where
  instances : UInt64
  work : UInt64
  /-- Critical path, with the callees as parallel as they can be. -/
  parallelWork : UInt64
  /-- Critical path, with the callees serial. -/
  selfParallelWork : UInt64
  /-- Least self-parallelism of an instance, in hundredths. -/
  minParallelism : UInt64
  /-- Greatest self-parallelism of an instance, in hundredths. -/
  maxParallelism : UInt64
  iterations : UInt64
  minIterations : UInt64
  maxIterations : UInt64
  /-- The share of the enclosing recursion's work that passes through the region at this depth. No part of
  a trace: it is set when the tree is built. -/
  weight : Float
deriving BEq, Repr, Inhabited

namespace Stat

/-- Counters from the work alone. -/
def ofWork (instances work selfParallelWork : UInt64) : Stat :=
  let hundredths := nearestCount (workRatio work selfParallelWork * Quantity.count 100)
  { instances, work, selfParallelWork
    parallelWork := selfParallelWork
    minParallelism := hundredths
    maxParallelism := hundredths
    iterations := 0
    minIterations := 0
    maxIterations := 0
    weight := Quantity.count 0 }

/-- Work per unit of critical path, the callees serial. -/
def selfParallelism (stat : Stat) : Float := workRatio stat.work stat.selfParallelWork

/-- Work per unit of critical path, the callees parallel. -/
def totalParallelism (stat : Stat) : Float := workRatio stat.work stat.parallelWork

/-- A count of hundredths as a number. -/
def ofHundredths (count : UInt64) : Float := Quantity.count count.toNat / Quantity.count 100

def minSelfParallelism (stat : Stat) : Float := ofHundredths stat.minParallelism

def maxSelfParallelism (stat : Stat) : Float := ofHundredths stat.maxParallelism

/-- Work of an instance, rounded down; no instance counts as one. -/
def averageWork (stat : Stat) : UInt64 := stat.work / max stat.instances 1

def averageIterations (stat : Stat) : Float :=
  Quantity.count stat.iterations.toNat / Quantity.count (max stat.instances 1).toNat

end Stat

/-- One dynamic region as a trace stores it. -/
structure Record where
  uid : UInt64
  region : UInt64
  /-- Zero for none. -/
  callSite : UInt64
  kind : NodeKind
  /-- The init node that a sink leads back to; zero for every other kind. -/
  target : UInt64
  instances : UInt64
  parallel : Bool
  children : List UInt64
  stats : List Stat
deriving BEq, Repr, Inhabited

namespace Record

/-- Lower-case digits to the base sixteen. -/
def hexText (word : UInt64) : String := String.ofList (Nat.toDigits 16 word.toNat)

def text (record : Record) : String :=
  s!"id: {record.uid} sid: {hexText record.region} cid: {hexText record.callSite} type: {record.kind.text}" ++
    s!" rtarget: {record.target} instance: {record.instances} pbit: {record.parallel}" ++
    s!" children: {record.children.length} stats: {record.stats.length}"

end Record

end RegionPlanner
