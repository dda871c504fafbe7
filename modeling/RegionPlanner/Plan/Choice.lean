import RegionPlanner.Cost.Model
import RegionPlanner.Plan.Basic
import RegionPlanner.Plan.Evaluation
import RegionPlanner.Plan.Exclusion
import RegionPlanner.Sorting

/-!
# Choosing the nodes of a plan

The point of a node is the share of the program's time that it saves when it alone runs in parallel. The plan
has the nodes that are chosen at the root when every node competes with its own point, or with none if it is
excluded.
-/

namespace RegionPlanner

section
variable {α : Type} [Quantity α]

/-- Time saved by a node alone, in percent of the root's serial time. A node that is not faster in parallel
saves nothing. -/
def selfPoint (model : CostModel α) (rootTime : α) (node : Node) : α :=
  let parallel := model.parallelTime node
  let serial := model.serialTime node
  let speedup :=
    if Quantity.less (Quantity.count 0) parallel && Quantity.less parallel serial then serial / parallel
    else Quantity.count 1
  let coverage := Quantity.count 100 * serial * Quantity.count node.instances.toNat / rootTime
  Quantity.larger (coverage - coverage / speedup) (Quantity.count 0)

def ownPoint (model : CostModel α) (exclude : Exclusion) (rootTime : α) (node : Node) : α :=
  if exclude node then Quantity.count 0 else selfPoint model rootTime node

/-! ### Entries -/

/-- The least whole number of cores that is not below the self-parallelism, but no more than there are and
at least one. -/
def coresFor (cores : UInt32) (selfParallelism : Float) : UInt32 :=
  match Reading.ofFloat selfParallelism with
  | .notANumber => 1
  | .infinite negative => if negative then 1 else cores
  | .finite negative mantissa exponent =>
    let wanted := ceiling negative mantissa exponent
    if (cores.toNat : Int) ≤ wanted then cores else (max wanted.toNat 1).toUInt32

/-- Entries that save more come first; of two that save the same, the one first in the trace. -/
def PlanEntry.before (first second : PlanEntry α) : Bool :=
  Quantity.less second.reduction first.reduction ||
    (!Quantity.less first.reduction second.reduction && decide (first.node ≤ second.node))

def entryOf (forest : Forest) (target : Target) (points : Array α) (place : Nat) : PlanEntry α :=
  let node := forest.nodes.getD place default
  { node := place
    uid := node.uid
    cores := coresFor target.cores node.selfParallelism
    reduction := points.getD place (Quantity.count 0) }

/-- The plan for a forest under a cost model. A root without serial time leaves nothing to plan. -/
def Forest.plan (forest : Forest) (model : CostModel α) (exclude : Exclusion) : Except Fault (Plan α) :=
  let rootTime := model.serialTime forest.rootNode
  if Quantity.atMost rootTime (Quantity.count 0) then .error .zeroSerialTime
  else
    let final := forest.evaluate (ownPoint model exclude rootTime)
    .ok {
      entries :=
        sorted PlanEntry.before ((final.chosen.getD forest.root []).map (entryOf forest model.target final.points))
      target := model.target
      model := model.name
      totalReduction := final.points.getD forest.root (Quantity.count 0)
      serialTime := rootTime }

end

end RegionPlanner
