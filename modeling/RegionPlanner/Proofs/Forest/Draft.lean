import RegionPlanner.Forest.Build
import RegionPlanner.Proofs.Success

/-!
# Trees before their weights

A draft is all that is made of records before a weight is stored: the linked nodes, the root and the shares. Then only
the counters of a node can still be refused.
-/

namespace RegionPlanner

/-- Linked nodes without their weights, and the weights that they are to get. -/
structure Draft where
  nodes : List Node
  root : Nat
  weights : Weights

/-- The draft of a list of records over a table of static regions. -/
def Forest.draft (table : RegionTable) (records : List Record) : Except Fault Draft := do
  let places ← indexRecords records
  let index : UidIndex := (places[·]?)
  let records ← classified index records
  let unlinked ← records.zipIdx.mapM fun (record, place) => Node.ofRecord table index record place
  let linked ← (references records).foldlM (adopt index) unlinked.toArray
  let root ← findRoot linked
  checkReachable linked root
  let resolved ← (records.zip linked.toList).mapM fun (record, node) => resolveTarget index linked record node
  let weights ← weightsOf resolved.toArray
  return ⟨resolved, root, weights⟩

/-- A draft with its weights stored and its nodes checked. -/
def Draft.finish (draft : Draft) : Except Fault Forest :=
  (fun finished => ⟨finished.toArray, draft.root⟩) <$> (draft.nodes.map (·.weighted draft.weights)).mapM Node.finished

theorem build_eq_draft (table : RegionTable) (records : List Record) :
    Forest.build table records = Forest.draft table records >>= Draft.finish := by
  unfold Forest.build Forest.draft
  simp only [bind_assoc, pure_bind]
  rfl

end RegionPlanner
