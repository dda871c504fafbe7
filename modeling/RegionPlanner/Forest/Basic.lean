import Std.Data.TreeMap
import RegionPlanner.Forest.Node

/-!
# Forests

The tree of all nodes of a trace, in one array by place, and the questions that can be asked of it.
-/

namespace RegionPlanner

/-! ### Ancestors -/

/-- The nodes from `place` upward, at most `fuel` of them. -/
def climb (nodes : Array Node) : Nat → Option Nat → List Node
  | 0, _ => []
  | _, none => []
  | fuel + 1, some place =>
    match nodes[place]? with
    | some node => node :: climb nodes fuel node.parent
    | none => []

/-- The strict ancestors of a node, the nearest first. A chain of parents without a cycle has no more
nodes than there are. -/
def ancestorsIn (nodes : Array Node) (node : Node) : List Node := climb nodes nodes.size node.parent

/-! ### The forest -/

structure Forest where
  nodes : Array Node
  root : Nat
deriving BEq, Repr, Inhabited

structure RegionCounts where
  total : Nat
  loops : Nat
  functions : Nat
  bodies : Nat
deriving DecidableEq, Repr

def RegionCounts.text (counts : RegionCounts) : String :=
  s!"Region Count (Total / Loop / Func / Body) = {counts.total} / {counts.loops} / {counts.functions} / " ++
    s!"{counts.bodies}"

namespace Forest

def size (forest : Forest) : Nat := forest.nodes.size

def rootNode (forest : Forest) : Node := forest.nodes.getD forest.root default

def nodesAt (forest : Forest) (places : List Nat) : List Node := places.filterMap (forest.nodes[·]?)

def children (forest : Forest) (node : Node) : List Node := forest.nodesAt node.children

def ancestors (forest : Forest) (node : Node) : List Node := ancestorsIn forest.nodes node

/-! ### Look-ups, in trace order -/

/-- The place of the node with a uid. -/
def byUid (forest : Forest) : Std.TreeMap UInt64 Nat :=
  forest.nodes.toList.foldl (fun index node => index.insert node.uid node.id) Std.TreeMap.empty

/-- The places of the nodes of a static region. -/
def byRegion (forest : Forest) : Std.TreeMap UInt64 (List Nat) :=
  forest.nodes.toList.foldl
    (fun index node => index.insert node.region.id (index.getD node.region.id [] ++ [node.id])) Std.TreeMap.empty

def nodeByUid? (forest : Forest) (uid : UInt64) : Option Node := forest.byUid[uid]?.bind (forest.nodes[·]?)

def leaves (forest : Forest) : List Node := forest.nodes.toList.filter (·.isLeaf)

def nodesFor (forest : Forest) (region : UInt64) : List Node := forest.nodesAt (forest.byRegion.getD region [])

/-! ### Work and time -/

/-- Work of a node that belongs to none of its children. -/
def exclusiveWork (forest : Forest) (node : Node) : Nat :=
  node.work.toNat - (forest.children node).foldl (fun sum child => sum + child.work.toNat) 0

section
variable {α : Type} [Quantity α]

/-- Share of the program's work that is spent in a node, in percent. -/
def coverage (forest : Forest) (node : Node) : α :=
  if forest.rootNode.work = 0 then Quantity.count 0
  else Quantity.count 100 * Quantity.count node.work.toNat / Quantity.count forest.rootNode.work.toNat

/-- Share of the program's time that would be saved if the node alone ran as parallel as it can, in
percent. -/
def timeReduction (forest : Forest) (node : Node) : α :=
  forest.coverage node *
    (Quantity.count 1 - Quantity.count 1 / Quantity.stored node.selfParallelism)

def nodesAbove (forest : Forest) (threshold : α) : List Node :=
  forest.nodes.toList.filter fun node => Quantity.less threshold (forest.timeReduction node)

end

def regionCounts (forest : Forest) : RegionCounts :=
  let count (kind : RegionKind) : Nat := (forest.nodes.toList.filter (·.region.kind = kind)).length
  { total := forest.size
    loops := count .loop
    functions := count .function
    bodies := count .body + count .callSite }

/-! ### Calling contexts -/

def frameText (node : Node) : String :=
  match node.region.kind, node.callSite with
  | .function, some site => node.region.text ++ s!" called at file {site.file}, line {site.firstLine}"
  | .function, none => node.region.text ++ " called at file root, line 0"
  | _, _ => node.region.text

/-- The node itself and the enclosing functions with a call site, up to the root and without it. -/
def context (forest : Forest) (node : Node) : List Node :=
  node :: ((forest.ancestors node).takeWhile (·.id != forest.root)).filter fun above =>
    above.region.isFunction && above.callSite.isSome

end Forest

end RegionPlanner
