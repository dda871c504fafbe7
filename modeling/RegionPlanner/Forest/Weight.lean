import Std.Data.TreeMap
import RegionPlanner.Forest.Basic

/-!
# Recursion weights

The work of the sinks of an init node flows up from each sink to the init node. At every depth, a node on
the way gets a weight: its share of the work that reaches the init node. A node on the ways of several init
nodes keeps the weight from the last of them in the trace.
-/

namespace RegionPlanner

/-- A part of the work of all sinks of an init node at some depth. -/
structure Share where
  part : Nat
  whole : Nat
deriving DecidableEq, Repr

/-- The share as a fraction; nothing of nothing is nothing. -/
def Share.value {α : Type} [Quantity α] (share : Share) : α :=
  if share.whole = 0 then Quantity.count 0 else Quantity.count share.part / Quantity.count share.whole

/-- Shares by node and depth. -/
abbrev Weights := Std.TreeMap (Nat × Nat) Share (compareLex (compareOn Prod.fst) (compareOn Prod.snd))

/-! ### From sinks to their init node -/

/-- The places from the first one up to and including `goal`, if it is among them. -/
def pathTo (goal : Nat) : List Nat → Option (List Nat)
  | [] => none
  | place :: above => if place = goal then some [place] else (place :: ·) <$> pathTo goal above

/-- A sink and the places strictly above it up to its init node. -/
structure SinkPath where
  sink : Node
  path : List Nat
deriving Repr

/-- The way from a sink to an init node. The init node must be an ancestor of the sink. -/
def sinkPath (nodes : Array Node) (init sink : Node) : Except Fault SinkPath :=
  match pathTo init.id ((ancestorsIn nodes sink).map (·.id)) with
  | some path => .ok ⟨sink, path⟩
  | none => .error (.sinkOutsideRecursion sink.uid init.uid)

/-! ### Work by node -/

abbrev Tally := Std.TreeMap Nat Nat

namespace Tally

/-- Work at a place, none unless some was added. -/
def workAt (tally : Tally) (place : Nat) : Nat := tally.getD place 0

def addAlong (work : Nat) (tally : Tally) (path : List Nat) : Tally :=
  path.foldl (fun tally place => tally.insert place (tally.workAt place + work)) tally

/-- The work of the sinks that have counters at a depth, at every node that it passes. -/
def ofPaths (paths : List SinkPath) (depth : Nat) : Tally :=
  paths.foldl (fun tally path =>
    match path.sink.profile.stats[depth]? with
    | some stat => tally.addAlong stat.work.toNat path.path
    | none => tally) Std.TreeMap.empty

end Tally

/-! ### Weights -/

/-- The depths at which some of the sinks have counters. -/
def deepest (paths : List SinkPath) : Nat := (paths.map (·.sink.depths)).foldl max 0

/-- The shares that an init node gives at one depth. -/
def addDepth (init : Nat) (paths : List SinkPath) (weights : Weights) (depth : Nat) : Weights :=
  let tally := Tally.ofPaths paths depth
  tally.foldl (fun weights place work => weights.insert (place, depth) ⟨work, tally.workAt init⟩) weights

/-- The shares that an init node gives at all depths. -/
def addInit (nodes : Array Node) (sinks : List Node) (weights : Weights) (init : Node) :
    Except Fault Weights := do
  let paths ← (sinks.filter (·.target = some init.id)).mapM (sinkPath nodes init)
  return (List.range (deepest paths)).foldl (addDepth init.id paths) weights

/-- The sinks of a trace. Each must know its init node. -/
def sinksOf (nodes : Array Node) : Except Fault (List Node) :=
  (nodes.toList.filter (·.kind = .sink)).mapM fun sink =>
    if sink.target.isSome then .ok sink else .error (.invalidRecursionTarget sink.uid 0)

/-- The weights of linked nodes, one init node after the other. -/
def weightsOf (nodes : Array Node) : Except Fault Weights := do
  let sinks ← sinksOf nodes
  (nodes.toList.filter (·.kind = .init)).foldlM (addInit nodes sinks) Std.TreeMap.empty

def Node.weighted (weights : Weights) (node : Node) : Node :=
  { node with
    profile := node.profile.mapDepths fun depth stat =>
      match weights[(node.id, depth)]? with
      | some share => { stat with weight := share.value }
      | none => stat }

end RegionPlanner
