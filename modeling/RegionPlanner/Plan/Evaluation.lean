import RegionPlanner.Number.Quantity
import RegionPlanner.Plan.Schedule

/-!
# Evaluating the nodes of a forest

From the leaves up, a node competes with the best choices below its children: it is chosen if it saves strictly
more than they do together. So no node is chosen together with a node above it.
-/

namespace RegionPlanner

/-- The queue and how many nodes were taken from it, and for every node the time saved in its subtree and the
nodes chosen there. A node that takes over what its children have chosen leaves them without. -/
structure Evaluation (α : Type) where
  ready : Schedule.State
  evaluated : Nat
  points : Array α
  chosen : Array (List Nat)
deriving Repr

namespace Evaluation

/-- What some places have chosen, in one list, and the table without it. -/
def drain (chosen : Array (List Nat)) (places : List Nat) : List Nat × Array (List Nat) :=
  places.foldl (fun (union, chosen) place => (union ++ chosen.getD place [], chosen.setIfInBounds place []))
    ([], chosen)

section
variable {α : Type} [Quantity α]

def start (nodes : Array Node) : Evaluation α where
  ready := Schedule.start nodes
  evaluated := 0
  points := Array.replicate nodes.size (Quantity.count 0)
  chosen := Array.replicate nodes.size []

/-- The node itself if it saves more than the choices of its children, else those choices together. -/
def assess (own : α) (place : Nat) (node : Node) (state : Evaluation α) : Evaluation α :=
  let sum := Quantity.total (node.children.map fun child => state.points.getD child (Quantity.count 0))
  if Quantity.less sum own then
    { state with
      points := state.points.setIfInBounds place own
      chosen := state.chosen.setIfInBounds place [place] }
  else
    let (union, chosen) := drain state.chosen node.children
    { state with
      points := state.points.setIfInBounds place sum
      chosen := chosen.setIfInBounds place union }

/-- Takes the next node from the queue and evaluates it; nothing if the queue is empty. -/
def next? (nodes : Array Node) (own : Node → α) (state : Evaluation α) : Option (Evaluation α) := do
  let place ← state.ready.order[state.evaluated]?
  let node ← nodes[place]?
  return { state.assess (own node) place node with
    ready := Schedule.turn nodes state.ready state.evaluated
    evaluated := state.evaluated + 1 }

/-- Evaluates nodes until the queue is empty, at most so many. -/
def run (nodes : Array Node) (own : Node → α) : Nat → Evaluation α → Evaluation α
  | 0, state => state
  | fuel + 1, state =>
    match state.next? nodes own with
    | some next => run nodes own fuel next
    | none => state

end

end Evaluation

section
variable {α : Type} [Quantity α]

/-- The evaluation after so many passes of its loop, or at its end if that comes first. -/
def Forest.passes (forest : Forest) (own : Node → α) (count : Nat) : Evaluation α :=
  Evaluation.run forest.nodes own count (Evaluation.start forest.nodes)

/-- The evaluation of all nodes. No node is queued twice, so there are no more passes than nodes. -/
def Forest.evaluate (forest : Forest) (own : Node → α) : Evaluation α := forest.passes own forest.size

end

end RegionPlanner
