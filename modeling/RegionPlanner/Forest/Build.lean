import RegionPlanner.Forest.Classify
import RegionPlanner.Forest.Weight
import RegionPlanner.Region.Table
import RegionPlanner.Sorting

/-!
# From records to a forest

Records are indexed and classified, every record becomes a node, the nodes are linked, the root is found,
sinks are led back to their init nodes, weights are stored, and every node gets its self-parallelism. The
first thing that is wrong ends the work.
-/

namespace RegionPlanner

/-! ### Records by uid -/

/-- Places by uid; a uid must not occur twice. -/
def indexRecords (records : List Record) : Except Fault (Std.TreeMap UInt64 Nat) :=
  records.zipIdx.foldlM (fun index (record, place) =>
    if index.contains record.uid then .error (.duplicateUid record.uid)
    else .ok (index.insert record.uid place)) Std.TreeMap.empty

/-- The records with the inner ones found. -/
def classified (index : UidIndex) (records : List Record) : Except Fault (List Record) :=
  let state := classify index records
  match state.fault with
  | some fault => .error fault
  | none => .ok state.records.toList

/-! ### Nodes -/

/-- The profile of a record: one stat of an ordinary region is plain. -/
def Record.profile (record : Record) : Except Fault Profile :=
  match record.stats with
  | [] => .error (.missingStatistics record.uid)
  | [stat] => .ok (if record.kind.isRecursive then .recursive stat [] else .plain stat)
  | outermost :: deeper => .ok (.recursive outermost deeper)

def Record.site (table : RegionTable) (record : Record) : Except Fault (Option Region) :=
  if record.callSite = 0 then .ok none else some <$> table.callSite record.callSite

/-- A node that knows its children, but neither its parent nor its init node. Children without a record
are left out here; they are a fault of the references. -/
def Node.ofRecord (table : RegionTable) (index : UidIndex) (record : Record) (place : Nat) :
    Except Fault Node := do
  let region ← table.region record.region
  let callSite ← record.site table
  let profile ← record.profile
  return { id := place, uid := record.uid, region, callSite, kind := record.kind,
           instances := record.instances, parallel := record.parallel,
           children := record.children.filterMap index, profile }

/-! ### Parents -/

/-- Every reference of a parent to a child: the place and uid of the parent and the uid of the child. -/
def references (records : List Record) : List (Nat × UInt64 × UInt64) :=
  records.zipIdx.flatMap fun (record, place) => record.children.map fun child => (place, record.uid, child)

/-- Sets the parent that a reference gives to its child. A second parent is a fault. -/
def adopt (index : UidIndex) (nodes : Array Node) (reference : Nat × UInt64 × UInt64) :
    Except Fault (Array Node) :=
  let (place, uid, childUid) := reference
  match index childUid with
  | none => .error (.danglingChild uid childUid)
  | some childPlace =>
    match nodes[childPlace]? with
    | none => .error (.danglingChild uid childUid)
    | some child =>
      match child.parent with
      | some first => .error (.duplicateParent childUid ((nodes.getD first default).uid) uid)
      | none => .ok (nodes.setIfInBounds childPlace { child with parent := some place })

/-- The place of the one node without a parent. -/
def findRoot (nodes : Array Node) : Except Fault Nat :=
  match nodes.toList.filter (·.parent.isNone) with
  | [] => .error .noRoot
  | [root] => .ok root.id
  | roots => .error (.multipleRoots (sorted (· ≤ ·) (roots.map (·.uid))))

/-- Every node must be below the root. A node with one parent that is not is on a cycle. -/
def checkReachable (nodes : Array Node) (root : Nat) : Except Fault Unit :=
  let next (place : Nat) : Except Empty (List Nat) := .ok (nodes.getD place default).children
  let reached := (search next nodes.size root).visited.length
  if reached = nodes.size then .ok () else .error (.unreachableNodes (nodes.size - reached))

/-! ### Sinks -/

/-- A node with the place of the init node that its record leads back to. -/
def resolveTarget (index : UidIndex) (nodes : Array Node) (record : Record) (node : Node) :
    Except Fault Node :=
  if record.kind ≠ .sink then .ok node
  else
    match (index record.target).bind (nodes[·]?) with
    | some init =>
      if init.kind = .init then .ok { node with target := some init.id }
      else .error (.invalidRecursionTarget record.uid record.target)
    | none => .error (.invalidRecursionTarget record.uid record.target)

/-! ### All together -/

/-- The forest of a list of records over a table of static regions. -/
def Forest.build (table : RegionTable) (records : List Record) : Except Fault Forest := do
  let places ← indexRecords records
  let index : UidIndex := (places[·]?)
  let records ← classified index records
  let unlinked ← records.zipIdx.mapM fun (record, place) => Node.ofRecord table index record place
  let linked ← (references records).foldlM (adopt index) unlinked.toArray
  let root ← findRoot linked
  checkReachable linked root
  let resolved ← (records.zip linked.toList).mapM fun (record, node) => resolveTarget index linked record node
  let weights ← weightsOf resolved.toArray
  let finished ← (resolved.map (·.weighted weights)).mapM Node.finished
  return { nodes := finished.toArray, root }

end RegionPlanner
