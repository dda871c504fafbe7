import RegionPlanner.Fault
import RegionPlanner.Trace.Record

/-!
# Self-parallelism

The self-parallelism of a region is its work per unit of critical path, its callees taken as serial. A
region of an unwound recursion has counters at several depths. The work counted at a depth still holds the
work of the deeper levels as if nothing had been saved there, so the savings of the next depth, taken by the
weight of this one, are removed before this depth's own parallelism applies.
-/

namespace RegionPlanner

/-! ### One depth after the other -/

/-- What the recurrence needs of a depth. -/
structure Depth (α : Type) where
  work : UInt64
  selfParallelWork : UInt64
  weight : α
deriving Repr

namespace Depth

variable {α : Type} [Quantity α]

def ofStat (stat : Stat) : Depth α := ⟨stat.work, stat.selfParallelWork, Quantity.stored stat.weight⟩

def total (depth : Depth α) : α := Quantity.count depth.work.toNat

/-- The time saved at the first of these depths. -/
def savings : List (Depth α) → α
  | [] => Quantity.count 0
  | depth :: deeper =>
    let adjusted := depth.total - savings deeper * depth.weight
    depth.total - adjusted / workRatio depth.work depth.selfParallelWork

end Depth

def recursiveSelfParallelism {α : Type} [Quantity α] (depths : List (Depth α)) : α :=
  match depths with
  | [] => Quantity.count 1
  | outermost :: _ =>
    if outermost.work = 0 then Quantity.count 1
    else outermost.total / (outermost.total - Depth.savings depths)

/-! ### Checks -/

/-- Values this close below one are rounding errors. -/
def parallelismTolerance : Float := 1e-9

/-- Refuses a value that is not finite or below one by more than a rounding error. -/
def checkSelfParallelism (uid : UInt64) (value : Float) : Except Fault Float :=
  if !value.isFinite || value < Quantity.count 1 - parallelismTolerance then
    .error (.invalidSelfParallelism uid value)
  else .ok (Quantity.larger value (Quantity.count 1))

/-- The self-parallelism of a single stat; the critical path must not exceed the work, which is checked on
the counters themselves. -/
def checkPlainSelfParallelism (uid : UInt64) (stat : Stat) : Except Fault Float :=
  let value := stat.selfParallelism
  if stat.work < stat.selfParallelWork || !value.isFinite then .error (.invalidSelfParallelism uid value)
  else .ok (Quantity.larger value (Quantity.count 1))

end RegionPlanner
