import RegionPlanner.Forest.Basic
import RegionPlanner.Plan.Basic

/-!
# Reports

A plan as text: four lines about the target, the forest and the whole program, then a block per entry,
numbered from zero.
-/

namespace RegionPlanner

namespace Report

/-- A number in at least three columns, to the right. -/
def rankText (rank : Nat) : String :=
  let digits := toString rank
  String.ofList (List.replicate (3 - digits.length) ' ') ++ digits

def header (forest : Forest) (plan : Plan Float) : String :=
  s!"Target : {plan.target.text} ({plan.model})\n" ++
  forest.regionCounts.text ++ "\n" ++
  "Speedup: " ++ Decimal.withPlaces 2 plan.speedup ++
  ", Serial time: " ++ Decimal.withPlaces 0 plan.serialTime ++
  ", Parallel time: " ++ Decimal.withPlaces 0 plan.parallelTime ++
  ", Time reduction: " ++ Decimal.withPlaces 2 plan.totalReduction ++ "%\n"

def block (forest : Forest) (entry : PlanEntry Float) (rank : Nat) : String :=
  let node := forest.nodes.getD entry.node default
  "\n[" ++ rankText rank ++ s!"] TimeRed({entry.cores}) = " ++ Decimal.withPlaces 2 entry.reduction ++ "%\n" ++
  s!"      id = {node.uid}, {node.parallelismType.text} {node.kind.text}, coverage = " ++
  Decimal.withPlaces 2 (forest.coverage node) ++ "%\n" ++
  "      self-p = " ++ Decimal.withPlaces 2 node.selfParallelism ++
  " [" ++ Decimal.withPlaces 2 node.profile.minSelfParallelism ++
  " - " ++ Decimal.withPlaces 2 node.profile.maxSelfParallelism ++
  s!"], avg work = {node.averageWork}, instances = {node.instances}\n" ++
  String.join ((forest.context node).map fun frame => "      " ++ Forest.frameText frame ++ "\n")

end Report

/-- The report of a plan, without the entries that save less than `least` percent. -/
def Plan.report (plan : Plan Float) (forest : Forest) (least : Float) : String :=
  Report.header forest plan ++
    String.join ((plan.entriesAbove least).mapIdx fun rank entry => Report.block forest entry rank)

end RegionPlanner
