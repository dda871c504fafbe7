import RegionPlanner.Cost.Target
import RegionPlanner.Forest.Node
import RegionPlanner.Number.Decimal

/-!
# Plans

A plan names the nodes to run in parallel, what each of them saves, and what all of them save together, in
percent of the program's serial time.
-/

namespace RegionPlanner

structure PlanEntry (α : Type) where
  /-- Place of the node. -/
  node : Nat
  uid : UInt64
  cores : UInt32
  /-- Time saved, in percent of the program. -/
  reduction : α
deriving Repr

structure Plan (α : Type) where
  entries : List (PlanEntry α)
  target : Target
  model : String
  /-- Time saved by all entries, in percent of the program. -/
  totalReduction : α
  /-- Serial time of the root. -/
  serialTime : α
deriving Repr

def PlanEntry.text (entry : PlanEntry Float) : String :=
  s!"[{entry.uid}] " ++ Decimal.withPlaces 2 entry.reduction ++ s!"% on {entry.cores} cores"

namespace Plan

section
variable {α : Type} [Quantity α]

/-- Speedup of the program; none is finite when no time remains. -/
def finiteSpeedup? (plan : Plan α) : Option α :=
  let remaining := Quantity.count 100 - plan.totalReduction
  if Quantity.atMost remaining (Quantity.count 0) then none else some (Quantity.count 100 / remaining)

def parallelTime (plan : Plan α) : α :=
  plan.serialTime * (Quantity.count 100 - plan.totalReduction) / Quantity.count 100

def entriesAbove (plan : Plan α) (reduction : α) : List (PlanEntry α) :=
  plan.entries.filter fun entry => Quantity.atMost reduction entry.reduction

end

def contains {α : Type} (plan : Plan α) (node : Nat) : Bool := plan.entries.any (·.node == node)

/-- Speedup of the program, infinite when no time remains. -/
def speedup (plan : Plan Float) : Float := plan.finiteSpeedup?.getD (Float.ofBits 0x7FF0000000000000)

end Plan

end RegionPlanner
