import RegionPlanner.Forest.Node

/-!
# Exclusions

An exclusion tells which nodes a plan must not run in parallel. Exclusions are united with `union`.
-/

namespace RegionPlanner

abbrev Exclusion := Node → Bool

namespace Exclusion

def none : Exclusion := fun _ => false

def nonLoops : Exclusion := fun node => !node.region.isLoop

def nonIndependentLoops : Exclusion := fun node => !node.isIndependentLoop

def below (least : Float) : Exclusion := fun node => Quantity.less node.selfParallelism least

def uids (excluded : List UInt64) : Exclusion := fun node => excluded.contains node.uid

def union (first second : Exclusion) : Exclusion := fun node => first node || second node

end Exclusion

end RegionPlanner
