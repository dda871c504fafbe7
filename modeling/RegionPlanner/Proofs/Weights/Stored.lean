import RegionPlanner.Proofs.Order.Permuted
import RegionPlanner.Proofs.Plan.Unweighted
import RegionPlanner.Proofs.Trace.RoundTrip

/-!
# Weights that stay

The build replaces the weight of a record at a depth if a way from a sink to its init node passes there, and leaves it
where none does. A trace stores no weights. So records and what a trace keeps of them give trees that agree but for the
weights that stayed, and for what the recurrence makes of those.
-/

namespace RegionPlanner

open Relation

variable {table : RegionTable} {records : List Record} {record : Record} {place depth : Nat} {uid : UInt64}
  {forest : Forest} {node : Node} {weights : Weights}

/-! ### What decides a weight -/

/-- The weight that the build gives a node at a depth, if an init record decides it. -/
noncomputable def weightTraced (records : List Record) (depth : Nat) (uid : UInt64) : Option Float :=
  (lastInit records depth uid).map fun init => (shareTraced records depth uid init).value

theorem reweighted_eq (stat : Stat) : reweighted records uid depth stat =
    { stat with weight := (weightTraced records depth uid).getD stat.weight } := by
  unfold reweighted weightTraced
  cases lastInit records depth uid <;> rfl

theorem lists_unweighted : Lists (records.map Record.unweighted) = Lists records := by
  funext above below
  unfold Lists
  simp only [List.mem_map, exists_exists_and_eq_and]
  rfl

theorem sinksNaming_unweighted (init : UInt64) : sinksNaming (records.map Record.unweighted) init depth =
    (sinksNaming records init depth).map Record.unweighted := by
  have hstats : ∀ sink : Record, sink.unweighted.stats.length = sink.stats.length := fun _ => List.length_map _
  unfold sinksNaming
  rw [List.filter_map]
  refine congrArg (List.map Record.unweighted) (List.filter_congr fun sink _ => ?_)
  simp only [Function.comp_apply, hstats]
  rfl

/-- No init record decides a weight where no way from one of its sinks passes. -/
theorem lastInit_eq_none : lastInit records depth uid = none ↔
    ∀ init ∈ records, init.kind = .init → ¬ Passes records depth uid init.uid := by
  classical
  unfold lastInit
  simp only [List.find?_eq_none, List.mem_reverse, List.mem_map, List.mem_filter, decide_eq_true_eq]
  constructor
  · intro h init hm hkind
    exact h init.uid ⟨init, ⟨hm, hkind⟩, rfl⟩
  · rintro h _ ⟨init, ⟨hm, hkind⟩, rfl⟩
    exact h init hm hkind

theorem passes_unweighted : Passes (records.map Record.unweighted) depth uid = Passes records depth uid := by
  funext init
  unfold Passes
  simp only [sinksNaming_unweighted, lists_unweighted, List.mem_map, exists_exists_and_eq_and]
  rfl

theorem lastInit_unweighted : lastInit (records.map Record.unweighted) depth uid = lastInit records depth uid := by
  unfold lastInit
  rw [passes_unweighted, List.filter_map, List.map_map]
  rfl

theorem shareTraced_unweighted :
    shareTraced (records.map Record.unweighted) depth uid = shareTraced records depth uid := by
  have hwork : ∀ sink : Record, workCounted sink.unweighted.stats depth = workCounted sink.stats depth := by
    intro sink
    change workCounted (sink.stats.map Stat.stored) depth = _
    unfold workCounted
    rw [List.getElem?_map]
    cases sink.stats[depth]? <;> rfl
  funext init
  unfold shareTraced
  rw [lists_unweighted]
  simp only [sinksNaming_unweighted, List.filter_map, List.map_map, Function.comp_def, hwork]
  rfl

theorem weightTraced_unweighted :
    weightTraced (records.map Record.unweighted) depth uid = weightTraced records depth uid := by
  unfold weightTraced
  rw [lastInit_unweighted, shareTraced_unweighted]

/-- Only records of recursions are given weights. -/
theorem unwound_of_weightTraced {weight : Float} (hweight : weightTraced records depth uid = some weight) :
    Unwound records uid := by
  classical
  obtain ⟨init, hlast, -⟩ := Option.map_eq_some_iff.mp hweight
  unfold lastInit at hlast
  obtain ⟨record, hrecord, rfl⟩ := List.mem_map.mp (List.mem_reverse.mp (List.mem_of_find?_eq_some hlast))
  have hpasses := List.find?_some hlast
  rw [decide_eq_true_eq] at hpasses
  obtain ⟨-, -, -, hwithin⟩ := hpasses
  obtain ⟨hm, hkind⟩ := List.mem_filter.mp hrecord
  exact ⟨record, hm, of_decide_eq_true hkind, hwithin⟩

/-! ### Weights of built nodes -/

theorem settled_isRecursive (h : Unwound records record.uid) : (settled records record).kind.isRecursive = true := by
  unfold settled Record.toInner
  rw [if_pos h]
  split
  · rfl
  · next hkind => simpa [NodeKind.isRecursive] using hkind

theorem profile_isRecursive {profile : Profile} (h : record.profile = .ok profile)
    (hkind : record.kind.isRecursive = true) : profile.isRecursive = true := by
  unfold Record.profile at h
  split at h
  · cases h
  · rw [if_pos hkind] at h
    cases h
    rfl
  · cases h
    rfl

theorem settled_stats : (settled records record).stats = record.stats := by
  unfold settled Record.toInner
  split
  · split <;> rfl
  · rfl

/-- The weight of a built node at a depth: the one that an init record decides, else the one that its record held. -/
theorem Tells.weightAt (htells : Tells records record forest node) (depth : Nat) : node.weightAt depth =
    record.stats[depth]?.map fun stat => (weightTraced records depth record.uid).getD stat.weight := by
  obtain ⟨profile, hprofile, hnode⟩ := map_eq_ok.mp htells.profile
  unfold Node.weightAt
  rw [← hnode, mapDepths_stats, profile_stats hprofile, settled_stats, Option.map_map]
  refine congrArg (Option.map · record.stats[depth]?) (funext fun stat => ?_)
  cases hweight : weightTraced records depth record.uid with
  | none =>
    have hkept : reweighted records record.uid depth stat = stat := by
      rw [reweighted_eq, hweight]
      rfl
    cases profile.isRecursive
    · rfl
    · exact congrArg Stat.weight hkept
  | some weight =>
    have hrecursive := profile_isRecursive hprofile (settled_isRecursive (unwound_of_weightTraced hweight))
    rw [hrecursive, if_pos rfl, Function.comp_apply, reweighted_eq, hweight]

/-! ### Finishing without the weights of the records -/

theorem mapDepths_unweighted {change : Nat → Stat → Stat} (h : ∀ depth stat, (change depth stat).stored = stat.stored)
    (profile : Profile) : (profile.mapDepths change).unweighted = profile.unweighted := by
  cases profile with
  | plain stat => rfl
  | recursive outermost deeper =>
    have hdeeper : (deeper.mapIdx fun depth stat => change (depth + 1) stat).map Stat.stored =
        deeper.map Stat.stored := by
      refine List.ext_getElem? fun depth => ?_
      rw [List.getElem?_map, List.getElem?_mapIdx, List.getElem?_map, Option.map_map]
      exact congrArg (Option.map · deeper[depth]?) (funext (h (depth + 1)))
    exact congrArg₂ Profile.recursive (h 0 outermost) hdeeper

theorem unweighted_weighted (weights : Weights) (node : Node) :
    (node.weighted weights).unweighted = node.unweighted := by
  unfold Node.weighted Node.unweighted
  simp only [Node.mk.injEq, true_and, and_true]
  refine mapDepths_unweighted (fun depth stat => ?_) node.profile
  split <;> rfl

theorem unweighted_unweighted (node : Node) : node.unweighted.unweighted = node.unweighted := by
  unfold Node.unweighted Profile.unweighted
  cases node.profile with
  | plain stat => rfl
  | recursive outermost deeper => simp only [List.map_map]; rfl

/-- A record outside recursions with counters at one depth: nothing reads its weight. -/
def Record.Plain (records : List Record) (record : Record) : Prop :=
  record.kind = .normal ∧ ¬ Unwound records record.uid ∧ record.stats.length = 1

/-- No weight that a record held is read: an init record decides the weight, or it is zero, or the record is plain. -/
def Record.Decided (records : List Record) (record : Record) : Prop :=
  record.Plain records ∨ ∀ (depth : Nat) (stat : Stat), record.stats[depth]? = some stat →
    lastInit records depth record.uid = none → stat.weight = 0

theorem profile_of_plain {profile : Profile} (h : record.Plain records)
    (hp : (settled records record).profile = .ok profile) : profile.isRecursive = false := by
  obtain ⟨hkind, hout, hlength⟩ := h
  obtain ⟨stat, hstats⟩ := List.length_eq_one_iff.mp hlength
  unfold settled Record.profile at hp
  rw [if_neg hout, hstats, hkind] at hp
  cases hp
  rfl

theorem eq_plain_of_isRecursive {profile : Profile} (h : profile.isRecursive = false) :
    ∃ stat, profile = .plain stat := by
  cases profile with
  | plain stat => exact ⟨stat, rfl⟩
  | recursive outermost deeper => cases h

/-- A change that sets every weight that is not zero does not need the weights that were there. -/
theorem mapDepths_of_unweighted {change : Nat → Stat → Stat} {profile : Profile}
    (hprofile : profile.isRecursive = true) (h : ∀ (depth : Nat) (stat : Stat), profile.stats[depth]? = some stat →
      change depth stat.stored = change depth stat) :
    profile.unweighted.mapDepths change = profile.mapDepths change := by
  cases profile with
  | plain stat => cases hprofile
  | recursive outermost deeper =>
    have hdeeper : (deeper.map Stat.stored).mapIdx (fun depth stat => change (depth + 1) stat) =
        deeper.mapIdx fun depth stat => change (depth + 1) stat := by
      refine List.ext_getElem? fun depth => ?_
      rw [List.getElem?_mapIdx, List.getElem?_mapIdx, List.getElem?_map]
      cases hstat : deeper[depth]? with
      | none => rfl
      | some stat => exact congrArg some (h (depth + 1) stat hstat)
    exact congrArg₂ Profile.recursive (h 0 outermost rfl) hdeeper

section
variable (h : Formed table records) (hok : weightsOf (linkedNodes table records).toArray = .ok weights)
include h hok

theorem checked_unweighted (hr : records[place]? = some record) (hdecided : record.Decided records) :
    ((linkedNode table records place record).unweighted.weighted weights).profile.checkedSelfParallelism uid =
      ((linkedNode table records place record).weighted weights).profile.checkedSelfParallelism uid := by
  have hread : (classifiedAt records place record).profile = .ok (linkedNode table records place record).profile :=
    readNode_profile (h.readableAt place record hr)
  rw [h.classifiedAt_eq hr] at hread
  have hstats := (profile_stats hread).trans settled_stats
  generalize hnode : linkedNode table records place record = node at hread hstats ⊢
  cases hrecursive : node.profile.isRecursive with
  | false =>
    -- A plain profile keeps its weight, but no check reads it.
    obtain ⟨stat, hplain⟩ := eq_plain_of_isRecursive hrecursive
    unfold Node.weighted Node.unweighted
    simp only [hplain]
    rfl
  | true =>
    have hzero := hdecided.resolve_left fun hplain => by
      rw [profile_of_plain hplain hread] at hrecursive
      cases hrecursive
    have hid : node.id = place := by
      rw [← hnode]
      exact linkedNode_id h.readableAt hr
    rw [h.weighted_profile hok hr hid, @Formed.weighted_profile _ _ _ _ node.unweighted _ h hok hr hid]
    refine congrArg (Profile.checkedSelfParallelism uid) (mapDepths_of_unweighted hrecursive fun depth stat hstat => ?_)
    rw [hstats] at hstat
    unfold reweighted
    cases hlast : lastInit records depth record.uid with
    | some init => rfl
    | none =>
      have hstored : stat.stored = stat := by
        unfold Stat.stored
        rw [← hzero depth stat hstat hlast]
      exact hstored

theorem finished_unweighted (hr : records[place]? = some record) (hdecided : record.Decided records) :
    Node.unweighted <$> ((linkedNode table records place record).unweighted.weighted weights).finished =
      Node.unweighted <$> ((linkedNode table records place record).weighted weights).finished := by
  generalize hnode : linkedNode table records place record = node
  have hchecked := @checked_unweighted _ _ _ _ node.uid _ h hok hr hdecided
  have hsame : (node.unweighted.weighted weights).unweighted = (node.weighted weights).unweighted := by
    rw [unweighted_weighted, unweighted_weighted, unweighted_unweighted]
  rw [hnode] at hchecked
  unfold Node.finished
  change _ <$> (_ <$> (node.unweighted.weighted weights).profile.checkedSelfParallelism node.uid) = _
  rw [hchecked]
  change _ = _ <$> (_ <$> (node.weighted weights).profile.checkedSelfParallelism node.uid)
  cases (node.weighted weights).profile.checkedSelfParallelism node.uid with
  | error fault => rfl
  | ok value => exact congrArg (fun node : Node => Except.ok { node with selfParallelism := value }) hsame

end

/-! ### Building without the weights of the records -/

theorem finish_unweighted {draft : Draft} (hdraft : Forest.draft table records = .ok draft)
    (hdecided : ∀ record ∈ records, record.Decided records) :
    Forest.unweighted <$> draft.unweighted.finish = Forest.unweighted <$> draft.finish := by
  obtain ⟨-, -, -, -, -, hnodes, hweights⟩ := draft_sound hdraft
  rw [hnodes] at hweights
  have hforest : ∀ finished : Except Fault (List Node),
      Forest.unweighted <$> ((fun nodes => (⟨nodes.toArray, draft.root⟩ : Forest)) <$> finished) =
        (fun nodes => ⟨nodes.toArray, draft.root⟩) <$> (List.map Node.unweighted <$> finished) := by
    intro finished
    cases finished with
    | error fault => rfl
    | ok nodes => exact congrArg (fun nodes => Except.ok (⟨nodes, draft.root⟩ : Forest)) List.map_toArray
  have hloop : List.map Node.unweighted <$>
      ((draft.nodes.map Node.unweighted).map (·.weighted draft.weights)).mapM Node.finished =
        List.map Node.unweighted <$> (draft.nodes.map (·.weighted draft.weights)).mapM Node.finished := by
    rw [List.map_map, map_mapM, map_mapM, List.mapM_map, List.mapM_map]
    refine mapM_congr fun node hm => ?_
    rw [hnodes] at hm
    obtain ⟨place, record, hr, rfl⟩ := mem_linkedNodes.mp (List.mem_toArray.mpr hm)
    exact finished_unweighted (draft_formed hdraft) hweights hr (hdecided record (List.mem_of_getElem? hr))
  exact (hforest _).trans ((congrArg _ hloop).trans (hforest _).symm)

theorem build_unweighted (hdecided : ∀ record ∈ records, record.Decided records) :
    Forest.unweighted <$> Forest.build table (records.map Record.unweighted) =
      Forest.unweighted <$> Forest.build table records := by
  rw [build_eq_draft, build_eq_draft, draft_unweighted]
  cases hdraft : Forest.draft table records with
  | error fault => rfl
  | ok draft => exact finish_unweighted hdraft hdecided

theorem finish_eq_error {draft : Draft} {fault : Fault} (h : draft.finish = .error fault) :
    ∃ uid value, fault = .invalidSelfParallelism uid value := by
  obtain ⟨node, -, hfinished⟩ := mapM_eq_error (map_eq_error.mp h)
  exact ⟨node.uid, checked_eq_error (map_eq_error.mp hfinished)⟩

/-- What is wrong with records other than their counters is wrong with them without their weights. -/
theorem build_unweighted_error {fault : Fault} (hfault : ∀ uid value, fault ≠ .invalidSelfParallelism uid value) :
    Forest.build table (records.map Record.unweighted) = .error fault ↔ Forest.build table records = .error fault := by
  rw [build_eq_draft, build_eq_draft, draft_unweighted]
  cases Forest.draft table records with
  | error other => rfl
  | ok draft =>
    have hother : ∀ draft : Draft, draft.finish ≠ .error fault := by
      intro draft h
      obtain ⟨uid, value, rfl⟩ := finish_eq_error h
      exact hfault uid value rfl
    exact iff_of_false (hother draft.unweighted) (hother draft)

/-! ### Two trees -/

theorem linkedNodes_unweighted {draft : Draft} (hdraft : Forest.draft table records = .ok draft) :
    linkedNodes table (records.map Record.unweighted) = (linkedNodes table records).map Node.unweighted := by
  have hdraft' : Forest.draft table (records.map Record.unweighted) = .ok draft.unweighted := by
    rw [draft_unweighted, hdraft]
    rfl
  obtain ⟨-, -, -, -, -, hnodes, -⟩ := draft_sound hdraft
  obtain ⟨-, -, -, -, -, hnodes', -⟩ := draft_sound hdraft'
  rw [← hnodes, ← hnodes']
  rfl

theorem unweighted_of_finished {out : Node} (h : (node.weighted weights).finished = .ok out) :
    out.unweighted = { node.unweighted with selfParallelism := out.selfParallelism } := by
  obtain ⟨value, -, rfl⟩ := map_eq_ok.mp h
  exact congrArg (fun node : Node => { node with selfParallelism := value }) (unweighted_weighted weights node)

section
variable {forest' : Forest} (hb : Forest.build table records = .ok forest)
  (hb' : Forest.build table (records.map Record.unweighted) = .ok forest')
include hb hb'

theorem build_root_unweighted : forest'.root = forest.root := by
  rw [build_eq_draft] at hb
  rw [build_eq_draft, draft_unweighted] at hb'
  obtain ⟨draft, hdraft, hfinish⟩ := bind_eq_ok.mp hb
  rw [hdraft] at hb'
  obtain ⟨_, -, rfl⟩ := map_eq_ok.mp hfinish
  obtain ⟨_, -, rfl⟩ := map_eq_ok.mp (hb' : draft.unweighted.finish = .ok forest')
  rfl

/-- A node and the node without the weights of the records: weights that no init record decides can differ, and with
them the self-parallelism. -/
structure Agrees (records : List Record) (record : Record) (node node' : Node) : Prop where
  same : node'.unweighted = { node.unweighted with selfParallelism := node'.selfParallelism }
  weight : ∀ depth, node.weightAt depth = record.stats[depth]?.map fun stat =>
    (weightTraced records depth record.uid).getD stat.weight
  weight' : ∀ depth, node'.weightAt depth = record.stats[depth]?.map fun _ =>
    (weightTraced records depth record.uid).getD 0
  selfParallelism : record.Decided records → node'.selfParallelism = node.selfParallelism

theorem build_agrees (hr : records[place]? = some record) : ∃ node node', forest.nodes[place]? = some node ∧
    forest'.nodes[place]? = some node' ∧ Agrees records record node node' := by
  have hr' : (records.map Record.unweighted)[place]? = some record.unweighted := by
    rw [List.getElem?_map, hr]
    rfl
  obtain ⟨draft, hdraft, -⟩ := bind_eq_ok.mp ((build_eq_draft table records).symm.trans hb)
  have hlinked := linkedNodes_unweighted hdraft
  have hnodeLinked : linkedNode table (records.map Record.unweighted) place record.unweighted =
      (linkedNode table records place record).unweighted := by
    have hplace := congrArg (·[place]?) hlinked
    unfold linkedNodes at hplace
    simp only [List.getElem?_mapIdx, List.getElem?_map, hr] at hplace
    exact Option.some.inj hplace
  obtain ⟨weights, node, hweights, hnode, hfinished⟩ := build_getElem? hb hr
  obtain ⟨weights', node', hweights', hnode', hfinished'⟩ := build_getElem? hb' hr'
  -- Shares come from work alone, so both trees store the same ones.
  rw [hlinked, ← List.map_toArray, weightsOf_unweighted, hweights] at hweights'
  cases hweights'
  rw [hnodeLinked] at hfinished'
  refine ⟨node, node', hnode, hnode', ?_, ?_, ?_, ?_⟩
  · rw [unweighted_of_finished hfinished, unweighted_of_finished hfinished', unweighted_unweighted]
  · exact (build_tells_node hb hr hnode).weightAt
  · intro depth
    rw [(build_tells_node hb' hr' hnode').weightAt depth, weightTraced_unweighted]
    change (record.stats.map Stat.stored)[depth]?.map _ = _
    rw [List.getElem?_map, Option.map_map]
    rfl
  · intro hdecided
    have hsame := finished_unweighted (build_sound hb).1.formed hweights hr hdecided
    rw [hfinished, hfinished'] at hsame
    change (Except.ok node'.unweighted : Except Fault Node) = .ok node.unweighted at hsame
    have hvalue := congrArg Node.selfParallelism (Except.ok.inj hsame)
    exact hvalue

end

/-! ### Through a trace -/

theorem stored_eq_unweighted (h : ∀ record ∈ records, record.kind ≠ .inner) :
    records.map Record.stored = records.map Record.unweighted := by
  refine List.map_congr_left fun record hm => ?_
  have hkind : record.kind.traced = record.kind := by
    cases hk : record.kind with
    | inner => exact absurd hk (h record hm)
    | _ => rfl
  unfold Record.stored Record.unweighted
  rw [hkind]

/-- Records, and what reading their trace back gives, have the same faults apart from refused self-parallelisms, and
give trees that agree. If no weight of a record is read, they are refused together and planned alike. -/
theorem build_stored (table : RegionTable)
    (hgood : ∀ record ∈ records, record.Countable ∧ ¬ record.Stray ∧ record.kind ≠ .inner) :
    ∃ stored, decode (encode records) = .ok stored ∧
      (∀ fault, (∀ uid value, fault ≠ .invalidSelfParallelism uid value) →
        (Forest.build table stored = .error fault ↔ Forest.build table records = .error fault)) ∧
      (∀ forest forest', Forest.build table records = .ok forest → Forest.build table stored = .ok forest' →
        forest'.root = forest.root ∧ forest'.size = forest.size ∧
        ∀ (place : Nat) (record : Record), records[place]? = some record → ∃ node node',
          forest.nodes[place]? = some node ∧ forest'.nodes[place]? = some node' ∧ Agrees records record node node') ∧
      ((∀ record ∈ records, record.Decided records) →
        Forest.unweighted <$> Forest.build table stored = Forest.unweighted <$> Forest.build table records ∧
        ∀ (model : CostModel Float) (exclude : Exclusion), model.WeightBlind → exclude.WeightBlind →
          (Forest.build table stored >>= (·.plan model exclude)) =
            Forest.build table records >>= (·.plan model exclude)) := by
  refine ⟨records.map Record.stored, (decode_good fun record hm => ⟨(hgood record hm).1, (hgood record hm).2.1⟩).2, ?_⟩
  rw [stored_eq_unweighted fun record hm => (hgood record hm).2.2]
  refine ⟨fun fault hfault => build_unweighted_error hfault, ?_, ?_⟩
  · intro forest forest' hb hb'
    refine ⟨build_root_unweighted hb hb', ?_, fun place record hr => build_agrees hb hb' hr⟩
    have hsize := (build_linkedTo hb').size
    rw [List.length_map, ← (build_linkedTo hb).size] at hsize
    exact hsize
  · intro hdecided
    have hbuilds := @build_unweighted table records hdecided
    refine ⟨hbuilds, fun model exclude hmodel hexclude => ?_⟩
    have hplan : ∀ built : Except Fault Forest, (built >>= (·.plan model exclude)) =
        (Forest.unweighted <$> built) >>= (·.plan model exclude) := by
      intro built
      simp only [bind_map_left, plan_unweighted hmodel hexclude]
    rw [hplan, hbuilds, ← hplan]

theorem build_stored_recursion :
    let init : Record := ⟨1, 0, 0, .init, 0, 1, false, [2], [{ Stat.ofWork 1 1000 500 with weight := 0.25 }]⟩
    let sink : Record := ⟨2, 0, 0, .sink, 1, 1, false, [], [.ofWork 1 300 300]⟩
    let model : CostModel Float := plainModel ⟨4, 0, none, none, none⟩
    ∃ stored forest forest', decode (encode [init, sink]) = .ok stored ∧
      Forest.build .initial [init, sink] = .ok forest ∧ Forest.build .initial stored = .ok forest' ∧
      forest'.unweighted = forest.unweighted ∧ forest'.plan model .none = forest.plan model .none := by
  intro init sink model
  have hgood : ∀ record ∈ [init, sink], record.Countable ∧ ¬ record.Stray ∧ record.kind ≠ .inner := by decide
  have hpasses : Passes [init, sink] 0 1 1 :=
    ⟨sink, by simp [sinksNaming, init, sink], .single ⟨init, by simp, rfl, by simp [init, sink]⟩, .refl⟩
  have hdecided : ∀ record ∈ [init, sink], record.Decided [init, sink] := by
    intro record hm
    refine .inr fun depth stat hstat hlast => ?_
    rw [List.mem_cons, List.mem_singleton] at hm
    rcases hm with rfl | rfl
    · obtain rfl : depth = 0 := by simpa [init] using (List.getElem?_eq_some_iff.mp hstat).1
      exact absurd hpasses (lastInit_eq_none.mp hlast init List.mem_cons_self rfl)
    · obtain rfl := List.mem_singleton.mp (List.mem_of_getElem? hstat)
      exact count_zero_eq
  have hrun : (Forest.build .initial [init, sink]).toOption.map (·.size) = some 2 := by decide +kernel
  obtain ⟨stored, hdecode, -, -, hagree⟩ := build_stored .initial hgood
  obtain ⟨hbuilds, hplans⟩ := hagree hdecided
  obtain ⟨forest, hb, -⟩ := toOption_map_eq_some.mp hrun
  rw [hb] at hbuilds hplans
  obtain ⟨forest', hb', hforest⟩ := map_eq_ok.mp hbuilds
  rw [hb'] at hplans
  exact ⟨stored, forest, forest', hdecode, hb, hb', hforest, hplans _ _ (plainModel_weightBlind _) fun _ => rfl⟩

/-- A weight that no init record decides is read: it changes a self-parallelism, and it can even keep a tree from being
built. A trace forgets it. -/
theorem build_stale_weight :
    let record (weight : Float) : Record :=
      ⟨1, 0, 0, .normal, 0, 1, false, [], [{ Stat.ofWork 1 1000 500 with weight }, .ofWork 1 400 200]⟩
    (∀ weight, (record weight).Countable ∧ ¬ (record weight).Stray ∧ (record weight).kind ≠ .inner) ∧
    (∃ stored forest forest', decode (encode [record 1]) = .ok stored ∧
      Forest.build .initial [record 1] = .ok forest ∧ Forest.build .initial stored = .ok forest' ∧
      forest.nodes.map (·.selfParallelism) = #[2.5] ∧ forest'.nodes.map (·.selfParallelism) = #[2]) ∧
    ∃ stored forest', decode (encode [record 100]) = .ok stored ∧ Forest.build .initial stored = .ok forest' ∧
      ¬ ∃ forest, Forest.build .initial [record 100] = .ok forest := by
  intro record
  have hfirst : (Forest.build .initial [record 1]).toOption.map (·.nodes.map (·.selfParallelism)) = some #[2.5] := by
    decide +kernel
  have hread : ∀ weight ∈ [(1 : Float), 100], (decode (encode [record weight]) >>= Forest.build .initial).toOption.map
      (·.nodes.map (·.selfParallelism)) = some #[2] := by decide +kernel
  have hrefused : (Forest.build .initial [record 100]).toOption.map (·.size) = none := by decide +kernel
  obtain ⟨forest, hb, hvalues⟩ := toOption_map_eq_some.mp hfirst
  obtain ⟨forest', hb', hvalues'⟩ := toOption_map_eq_some.mp (hread 1 (by simp))
  obtain ⟨stored, hstored, hb'⟩ := bind_eq_ok.mp hb'
  obtain ⟨other, hother, -⟩ := toOption_map_eq_some.mp (hread 100 (by simp))
  obtain ⟨read, hdecoded, hother⟩ := bind_eq_ok.mp hother
  refine ⟨fun weight => ⟨⟨by simp [record], by simp [record]⟩, by simp [record, Record.Stray], by simp [record]⟩,
    ⟨stored, forest, forest', hstored, hb, hb', hvalues, hvalues'⟩, read, other, hdecoded, hother, ?_⟩
  rintro ⟨refused, hok⟩
  rw [hok] at hrefused
  cases hrefused

end RegionPlanner
