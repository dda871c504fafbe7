import RegionPlanner.Forest.Basic

/-!
# Children before parents

A queue of the nodes whose children have all had their turn: first the leaves, then each node as soon as the
last of its children has had its turn.
-/

namespace RegionPlanner

namespace Schedule

/-- All nodes that were ever queued, in order, and for each node the children whose turn is still to come. -/
structure State where
  order : Array Nat
  pending : Array Nat
deriving Repr

/-- The leaves are ready at once. -/
def start (nodes : Array Node) : State where
  order := ((nodes.toList.filter (·.isLeaf)).map (·.id)).toArray
  pending := nodes.map (·.children.length)

/-- The turn of the node at a position of the order: its parent waits for one child less, and is ready when
it waits for none. -/
def turn (nodes : Array Node) (state : State) (position : Nat) : State :=
  match (state.order[position]?).bind (nodes[·]?) with
  | none => state
  | some node =>
    match node.parent with
    | none => state
    | some parent =>
      let left := state.pending.getD parent 0 - 1
      { order := if left = 0 then state.order.push parent else state.order
        pending := state.pending.setIfInBounds parent left }

end Schedule

end RegionPlanner
