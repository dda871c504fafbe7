import RegionPlanner.Proofs.Forest.Draft
import RegionPlanner.Proofs.Trace.Written

/-!
# Weights that records bring along

No step up to a draft reads a weight of a record: with the weights taken out of the records, every step fails with the
same fault, or gives the same with the weights taken out.
-/

namespace RegionPlanner

variable {table : RegionTable} {index : UidIndex} {records : List Record} {nodes : Array Node}

/-! ### Without weights -/

def Record.unweighted (record : Record) : Record := { record with stats := record.stats.map Stat.stored }

def Profile.unweighted : Profile → Profile
  | .plain stat => .plain stat.stored
  | .recursive outermost deeper => .recursive outermost.stored (deeper.map Stat.stored)

def Node.unweighted (node : Node) : Node := { node with profile := node.profile.unweighted }

def Forest.unweighted (forest : Forest) : Forest := { forest with nodes := forest.nodes.map Node.unweighted }

def Draft.unweighted (draft : Draft) : Draft := { draft with nodes := draft.nodes.map Node.unweighted }

@[simp] theorem Record.unweighted_kind (record : Record) : record.unweighted.kind = record.kind := rfl

@[simp] theorem Record.unweighted_target (record : Record) : record.unweighted.target = record.target := rfl

@[simp] theorem Node.unweighted_kind (node : Node) : node.unweighted.kind = node.kind := rfl

@[simp] theorem Node.unweighted_parent (node : Node) : node.unweighted.parent = node.parent := rfl

@[simp] theorem Node.unweighted_target (node : Node) : node.unweighted.target = node.target := rfl

@[simp] theorem Profile.unweighted_stats (profile : Profile) :
    profile.unweighted.stats = profile.stats.map Stat.stored := by
  cases profile <;> rfl

/-! ### Records -/

theorem indexRecords_unweighted : indexRecords (records.map Record.unweighted) = indexRecords records := by
  unfold indexRecords
  rw [List.zipIdx_map, List.foldlM_map]
  rfl

theorem childPlacesAt_unweighted (index : UidIndex) (records : Array Record) :
    childPlacesAt index (records.map Record.unweighted) = childPlacesAt index records := by
  funext place
  unfold childPlacesAt
  rw [Array.getElem?_map]
  cases records[place]? <;> rfl

namespace Classified

def unweighted (state : Classified) : Classified := { state with records := state.records.map Record.unweighted }

@[simp] theorem unweighted_records (state : Classified) :
    state.unweighted.records = state.records.map Record.unweighted := rfl

@[simp] theorem unweighted_fault (state : Classified) : state.unweighted.fault = state.fault := rfl

theorem toInner_unweighted (record : Record) : record.unweighted.toInner = record.toInner.unweighted := by
  unfold Record.toInner
  rw [Record.unweighted_kind]
  split <;> rfl

theorem mark_unweighted (state : Classified) (place : Nat) :
    state.unweighted.mark place = (state.mark place).unweighted := by
  unfold mark
  rw [unweighted_records, Array.getElem?_map]
  cases state.records[place]? with
  | none => rfl
  | some record =>
    simp only [Option.map_some, Record.unweighted_kind, toInner_unweighted, ← Array.map_setIfInBounds]
    split <;> rfl

theorem sweep_unweighted (state : Classified) (start : Nat) :
    state.unweighted.sweep index start = (state.sweep index start).unweighted := by
  have hmarked : ∀ visited : List Nat, visited.foldl mark state.unweighted = (visited.foldl mark state).unweighted :=
    fun visited => List.foldl_hom unweighted mark_unweighted
  unfold sweep
  simp only [unweighted_fault, unweighted_records, childPlacesAt_unweighted, Array.size_map, hmarked]
  split <;> rfl

end Classified

theorem initPlaces_unweighted (records : Array Record) :
    initPlaces (records.map Record.unweighted) = initPlaces records := by
  unfold initPlaces
  rw [Array.size_map]
  congr 1
  funext place
  rw [Array.getElem?_map]
  cases records[place]? <;> rfl

theorem classify_unweighted : classify index (records.map Record.unweighted) = (classify index records).unweighted := by
  have hstart : (⟨(records.map Record.unweighted).toArray, 0, none⟩ : Classified) =
      Classified.unweighted ⟨records.toArray, 0, none⟩ := by
    unfold Classified.unweighted
    rw [List.map_toArray]
  unfold classify
  rw [hstart, ← List.map_toArray, initPlaces_unweighted]
  exact List.foldl_hom Classified.unweighted Classified.sweep_unweighted

theorem classified_unweighted : classified index (records.map Record.unweighted) =
    List.map Record.unweighted <$> classified index records := by
  unfold classified
  simp only [classify_unweighted, Classified.unweighted_fault, Classified.unweighted_records, Array.toList_map]
  split <;> rfl

/-! ### Nodes -/

theorem profile_unweighted (record : Record) : record.unweighted.profile = Profile.unweighted <$> record.profile := by
  unfold Record.profile Record.unweighted
  rcases record.stats with _ | ⟨outermost, _ | ⟨next, deeper⟩⟩
  · rfl
  · cases record.kind.isRecursive <;> rfl
  · rfl

theorem ofRecord_unweighted (record : Record) (place : Nat) : Node.ofRecord table index record.unweighted place =
    Node.unweighted <$> Node.ofRecord table index record place := by
  unfold Node.ofRecord
  rw [profile_unweighted]
  change (table.region record.region >>= fun region => record.site table >>= fun callSite => _) = _
  cases table.region record.region with
  | error fault => rfl
  | ok region =>
    cases record.site table with
    | error fault => rfl
    | ok callSite => cases record.profile <;> rfl

theorem unlinked_unweighted : ((records.map Record.unweighted).zipIdx.mapM fun (record, place) =>
      Node.ofRecord table index record place) =
    List.map Node.unweighted <$> records.zipIdx.mapM fun (record, place) => Node.ofRecord table index record place := by
  rw [List.zipIdx_map, List.mapM_map, map_mapM]
  refine congrArg (fun step => records.zipIdx.mapM step) ?_
  funext entry
  exact ofRecord_unweighted entry.1 entry.2

/-! ### Links -/

theorem references_unweighted : references (records.map Record.unweighted) = references records := by
  unfold references
  rw [List.zipIdx_map, List.flatMap_map]
  rfl

/-- What is read of a node at a place without a weight is read there too when the weights are taken out. -/
theorem getD_unweighted {γ : Type} {read : Node → γ} (hread : ∀ node, read node.unweighted = read node)
    (nodes : Array Node) (place : Nat) :
    read ((nodes.map Node.unweighted).getD place default) = read (nodes.getD place default) := by
  rw [Array.getD_eq_getD_getElem?, Array.getD_eq_getD_getElem?, Array.getElem?_map]
  cases nodes[place]? with
  | none => rfl
  | some node => exact hread node

theorem adopt_unweighted (nodes : Array Node) (reference : Nat × UInt64 × UInt64) :
    adopt index (nodes.map Node.unweighted) reference = (·.map Node.unweighted) <$> adopt index nodes reference := by
  obtain ⟨place, uid, childUid⟩ := reference
  have hfirst : ∀ first, ((nodes.map Node.unweighted).getD first default).uid = (nodes.getD first default).uid :=
    getD_unweighted (fun _ => rfl) nodes
  unfold adopt
  simp only [Array.getElem?_map, hfirst]
  cases index childUid with
  | none => rfl
  | some childPlace =>
    simp only
    cases nodes[childPlace]? with
    | none => rfl
    | some child =>
      simp only [Option.map_some, Node.unweighted_parent]
      cases child.parent with
      | some first => rfl
      | none =>
        have hset : (nodes.map Node.unweighted).setIfInBounds childPlace
            (Node.unweighted { child with parent := some place }) =
              (nodes.setIfInBounds childPlace { child with parent := some place }).map Node.unweighted :=
          Array.map_setIfInBounds.symm
        exact congrArg Except.ok hset

theorem findRoot_unweighted (nodes : Array Node) : findRoot (nodes.map Node.unweighted) = findRoot nodes := by
  have hroots : (nodes.map Node.unweighted).toList.filter (·.parent.isNone) =
      (nodes.toList.filter (·.parent.isNone)).map Node.unweighted := by
    rw [Array.toList_map, List.filter_map]
    rfl
  unfold findRoot
  rw [hroots]
  generalize nodes.toList.filter (fun node => node.parent.isNone) = roots
  match roots with
  | [] => rfl
  | [root] => rfl
  | first :: second :: rest =>
    simp only [List.map_cons, List.map_map]
    rfl

theorem checkReachable_unweighted (nodes : Array Node) (root : Nat) :
    checkReachable (nodes.map Node.unweighted) root = checkReachable nodes root := by
  have hchildren : ∀ place, ((nodes.map Node.unweighted).getD place default).children =
      (nodes.getD place default).children := getD_unweighted (fun _ => rfl) nodes
  unfold checkReachable
  simp only [hchildren, Array.size_map]

theorem resolveTarget_unweighted (nodes : Array Node) (record : Record) (node : Node) :
    resolveTarget index (nodes.map Node.unweighted) record.unweighted node.unweighted =
      Node.unweighted <$> resolveTarget index nodes record node := by
  unfold resolveTarget
  rw [Record.unweighted_kind, Record.unweighted_target]
  split
  · rfl
  · cases index record.target with
    | none => rfl
    | some place =>
      simp only [Option.bind_some, Array.getElem?_map]
      cases nodes[place]? with
      | none => rfl
      | some init =>
        rw [Option.map_some]
        dsimp only
        rw [Node.unweighted_kind init]
        split <;> rfl

theorem resolved_unweighted : (((records.map Record.unweighted).zip (nodes.map Node.unweighted).toList).mapM
      fun (record, node) => resolveTarget index (nodes.map Node.unweighted) record node) =
    List.map Node.unweighted <$> (records.zip nodes.toList).mapM fun (record, node) =>
      resolveTarget index nodes record node := by
  rw [Array.toList_map, List.zip_map, List.mapM_map, map_mapM]
  refine congrArg (fun step : Record × Node → Except Fault Node => (records.zip nodes.toList).mapM step) ?_
  funext entry
  exact resolveTarget_unweighted nodes entry.1 entry.2

/-! ### Shares -/

/-- Nodes that no share tells apart: they stand at one place, lead to the same places and have the same work. -/
structure Node.Alike (node node' : Node) : Prop where
  id : node'.id = node.id
  uid : node'.uid = node.uid
  kind : node'.kind = node.kind
  parent : node'.parent = node.parent
  target : node'.target = node.target
  work : node'.profile.stats.map (·.work) = node.profile.stats.map (·.work)

theorem Node.unweighted_alike (node : Node) : node.Alike node.unweighted := by
  refine ⟨rfl, rfl, rfl, rfl, rfl, ?_⟩
  change node.profile.unweighted.stats.map _ = _
  rw [Profile.unweighted_stats, List.map_map]
  rfl

/-- The way of a sink whose node was changed. -/
def SinkPath.changed (change : Node → Node) (path : SinkPath) : SinkPath := { path with sink := change path.sink }

section
variable {change : Node → Node} (h : ∀ node : Node, node.Alike (change node))
include h

theorem climb_map (nodes : Array Node) (fuel : Nat) (start : Option Nat) :
    climb (nodes.map change) fuel start = (climb nodes fuel start).map change := by
  induction fuel generalizing start with
  | zero => rfl
  | succ fuel ih =>
    cases start with
    | none => rfl
    | some place =>
      unfold climb
      rw [Array.getElem?_map]
      cases nodes[place]? with
      | none => rfl
      | some node =>
        rw [Option.map_some]
        simp only [(h node).parent, ih node.parent, List.map_cons]

theorem sinkPath_map (nodes : Array Node) (init sink : Node) :
    sinkPath (nodes.map change) (change init) (change sink) = SinkPath.changed change <$> sinkPath nodes init sink := by
  have hid : (·.id) ∘ change = (·.id) := funext fun node => (h node).id
  have habove : (ancestorsIn (nodes.map change) (change sink)).map (·.id) = (ancestorsIn nodes sink).map (·.id) := by
    unfold ancestorsIn
    rw [Array.size_map, climb_map h, List.map_map, hid, (h sink).parent]
  unfold sinkPath
  rw [habove, (h init).id, (h init).uid, (h sink).uid]
  cases pathTo init.id ((ancestorsIn nodes sink).map (·.id)) <;> rfl

theorem ofPaths_map (paths : List SinkPath) (depth : Nat) :
    Tally.ofPaths (paths.map (SinkPath.changed change)) depth = Tally.ofPaths paths depth := by
  unfold Tally.ofPaths
  rw [List.foldl_map]
  refine congrArg (fun step => paths.foldl step Std.TreeMap.empty) ?_
  funext tally path
  have hwork : (change path.sink).profile.stats[depth]?.map (·.work) = path.sink.profile.stats[depth]?.map (·.work) := by
    rw [← List.getElem?_map, ← List.getElem?_map, (h path.sink).work]
  cases hstat : path.sink.profile.stats[depth]? with
  | none =>
    rw [hstat, Option.map_none, Option.map_eq_none_iff] at hwork
    simp only [SinkPath.changed, hwork]
  | some stat =>
    rw [hstat, Option.map_some, Option.map_eq_some_iff] at hwork
    obtain ⟨stat', hstat', hwork⟩ := hwork
    simp only [SinkPath.changed, hstat', hwork]

theorem deepest_map (paths : List SinkPath) : deepest (paths.map (SinkPath.changed change)) = deepest paths := by
  have hdepths : ∀ path : SinkPath, (path.changed change).sink.depths = path.sink.depths := by
    intro path
    have hlength := congrArg List.length (h path.sink).work
    rwa [List.length_map, List.length_map] at hlength
  unfold deepest
  rw [List.map_map]
  refine congrArg (fun depths => depths.foldl max 0) (List.map_congr_left ?_)
  exact fun path _ => hdepths path

theorem addInit_map (nodes : Array Node) (sinks : List Node) (weights : Weights) (init : Node) :
    addInit (nodes.map change) (sinks.map change) weights (change init) = addInit nodes sinks weights init := by
  have htarget : (fun sink : Node => decide (sink.target = some (change init).id)) ∘ change =
      fun sink => decide (sink.target = some init.id) := by
    funext sink
    rw [Function.comp_apply, (h sink).target, (h init).id]
  have hpaths : ((sinks.map change).filter (·.target = some (change init).id)).mapM
      (sinkPath (nodes.map change) (change init)) =
        List.map (SinkPath.changed change) <$> (sinks.filter (·.target = some init.id)).mapM (sinkPath nodes init) := by
    rw [List.filter_map, htarget, List.mapM_map, map_mapM]
    exact congrArg (fun step : Node → Except Fault SinkPath => (sinks.filter _).mapM step)
      (funext (sinkPath_map h nodes init))
  have hdepth : ∀ paths weights depth, addDepth (change init).id (paths.map (SinkPath.changed change)) weights depth =
      addDepth init.id paths weights depth := by
    intro paths weights depth
    unfold addDepth
    rw [ofPaths_map h, (h init).id]
  unfold addInit
  rw [hpaths, bind_map_left]
  refine bind_congr fun paths => ?_
  rw [deepest_map h, funext₂ (hdepth paths)]

theorem sinksOf_map (nodes : Array Node) : sinksOf (nodes.map change) = List.map change <$> sinksOf nodes := by
  have hkind : (fun sink : Node => decide (sink.kind = .sink)) ∘ change = fun sink => decide (sink.kind = .sink) := by
    funext sink
    rw [Function.comp_apply, (h sink).kind]
  unfold sinksOf
  rw [Array.toList_map, List.filter_map, hkind, List.mapM_map, map_mapM]
  refine congrArg (fun step : Node → Except Fault Node => (nodes.toList.filter (·.kind = .sink)).mapM step) ?_
  funext sink
  rw [Function.comp_apply, (h sink).target, (h sink).uid]
  split <;> rfl

/-- Shares are the same for nodes that no share tells apart. -/
theorem weightsOf_map (nodes : Array Node) : weightsOf (nodes.map change) = weightsOf nodes := by
  have hkind : (fun init : Node => decide (init.kind = .init)) ∘ change = fun init => decide (init.kind = .init) := by
    funext init
    rw [Function.comp_apply, (h init).kind]
  unfold weightsOf
  rw [sinksOf_map h]
  cases sinksOf nodes with
  | error fault => rfl
  | ok sinks =>
    change ((nodes.map change).toList.filter (·.kind = .init)).foldlM _ _ = _
    rw [Array.toList_map, List.filter_map, hkind, List.foldlM_map]
    exact congrArg (fun step : Weights → Node → Except Fault Weights => (nodes.toList.filter _).foldlM step _)
      (funext₂ (addInit_map h nodes sinks))

end

theorem weightsOf_unweighted (nodes : Array Node) : weightsOf (nodes.map Node.unweighted) = weightsOf nodes :=
  weightsOf_map Node.unweighted_alike nodes

/-! ### The draft -/

theorem draft_unweighted (table : RegionTable) (records : List Record) :
    Forest.draft table (records.map Record.unweighted) = Draft.unweighted <$> Forest.draft table records := by
  unfold Forest.draft
  simp only [map_bind]
  rw [indexRecords_unweighted]
  refine bind_congr fun places => ?_
  rw [classified_unweighted, bind_map_left]
  refine bind_congr fun records => ?_
  rw [unlinked_unweighted, references_unweighted, bind_map_left]
  refine bind_congr fun unlinked => ?_
  rw [← List.map_toArray, foldlM_hom adopt_unweighted, bind_map_left]
  refine bind_congr fun linked => ?_
  rw [findRoot_unweighted]
  refine bind_congr fun root => ?_
  rw [checkReachable_unweighted]
  refine bind_congr fun _ => ?_
  rw [resolved_unweighted, bind_map_left]
  refine bind_congr fun resolved => ?_
  rw [← List.map_toArray, weightsOf_unweighted]
  rfl

end RegionPlanner
