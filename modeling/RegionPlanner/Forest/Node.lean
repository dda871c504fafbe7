import RegionPlanner.Forest.SelfParallelism
import RegionPlanner.Number.Decimal
import RegionPlanner.Region.Basic

/-!
# Nodes

A node is a dynamic region in the tree. It is named by its place in the trace, counted from zero, and
refers to its parent and its children by theirs.
-/

namespace RegionPlanner

/-! ### Profiles -/

/-- The counters of a node: those of an ordinary region, or one stat per recursion depth, the outermost
first. -/
inductive Profile where
  | plain (stat : Stat)
  | recursive (outermost : Stat) (deeper : List Stat)
deriving BEq, Repr, Inhabited

namespace Profile

def stats : Profile → List Stat
  | plain stat => [stat]
  | recursive outermost deeper => outermost :: deeper

def outermost : Profile → Stat
  | plain stat => stat
  | recursive outermost _ => outermost

def isRecursive : Profile → Bool
  | plain _ => false
  | recursive .. => true

/-- A change of every stat of a recursive profile, by depth. A plain profile keeps its stat. -/
def mapDepths (change : Nat → Stat → Stat) : Profile → Profile
  | plain stat => plain stat
  | recursive outermost deeper =>
    recursive (change 0 outermost) (deeper.mapIdx fun depth stat => change (depth + 1) stat)

def minSelfParallelism : Profile → Float
  | plain stat => stat.minSelfParallelism
  | profile => profile.stats.foldl (fun least stat => Quantity.smaller least stat.selfParallelism) greatestDouble
where
  greatestDouble : Float := Float.ofBits 0x7FEFFFFFFFFFFFFF

/-- The greatest self-parallelism seen, at least one. -/
def maxSelfParallelism : Profile → Float
  | plain stat => stat.maxSelfParallelism
  | profile =>
    profile.stats.foldl (fun greatest stat => Quantity.larger greatest stat.selfParallelism) (Quantity.count 1)

/-- Self-parallelism as the counters give it, or the fault that they show. -/
def checkedSelfParallelism (uid : UInt64) : Profile → Except Fault Float
  | plain stat => checkPlainSelfParallelism uid stat
  | profile => checkSelfParallelism uid (recursiveSelfParallelism (profile.stats.map Depth.ofStat))

end Profile

/-! ### Nodes -/

structure Node where
  id : Nat
  uid : UInt64
  region : Region
  callSite : Option Region
  kind : NodeKind
  instances : UInt64
  parallel : Bool
  parent : Option Nat := none
  children : List Nat := []
  profile : Profile
  /-- The init node that a sink leads back to. -/
  target : Option Nat := none
  selfParallelism : Float := Quantity.count 1
deriving BEq, Repr, Inhabited

/-- How the instances of a region can be run in parallel. -/
inductive ParallelismType where
  /-- A leaf, which has instruction-level parallelism only. -/
  | instructions
  /-- A loop with independent iterations. -/
  | iterations
  /-- A loop whose iterations depend on each other. -/
  | pipeline
  /-- Any other region. -/
  | tasks
deriving DecidableEq, Repr

def ParallelismType.text : ParallelismType → String
  | instructions => "ILP"
  | iterations => "DOALL"
  | pipeline => "DOACROSS"
  | tasks => "TLP"

namespace Node

def idText (node : Node) : String := s!"n{node.id}"

def isLeaf (node : Node) : Bool := node.children.isEmpty

def work (node : Node) : UInt64 := node.profile.outermost.work

def averageWork (node : Node) : UInt64 := node.profile.outermost.averageWork

def depths (node : Node) : Nat := node.profile.stats.length

def isIndependentLoop (node : Node) : Bool := node.region.isLoop && node.parallel

def parallelismType (node : Node) : ParallelismType :=
  if node.isLeaf then .instructions
  else if node.region.isLoop then if node.parallel then .iterations else .pipeline
  else .tasks

def text (node : Node) : String :=
  s!"[{node.uid}] {node.region.text} work = {node.averageWork}, sp = " ++
    Decimal.withPlaces 2 node.selfParallelism ++ s!", children = {node.children.length}" ++
    match node.callSite, node.region.kind with
    | some site, .function => s!"\tcalled at {site.file}:{site.firstLine}"
    | _, _ => ""

/-- The node with its self-parallelism, or the fault that its counters show. -/
def finished (node : Node) : Except Fault Node :=
  (fun value => { node with selfParallelism := value }) <$> node.profile.checkedSelfParallelism node.uid

end Node

end RegionPlanner
