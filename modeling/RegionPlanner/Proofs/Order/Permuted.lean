import RegionPlanner.Proofs.Forest.Counters
import RegionPlanner.Proofs.Forest.Lookup
import RegionPlanner.Proofs.Order.Traced

/-!
# Traces in another order

Two orders of the same records give trees that agree by uid in every link. They agree in a weight if the same
init record decides it, so they agree in a self-parallelism, and in whether it is refused, if the same init
records decide the weights of the node.
-/

namespace RegionPlanner

open Relation

/-- What a node is and whom it knows, with uids in place of places. -/
structure NodeLinks where
  kind : NodeKind
  parent : Option UInt64
  children : List UInt64
  target : Option UInt64
deriving DecidableEq, Repr

namespace Forest

def uidOf (forest : Forest) (place : Nat) : Option UInt64 := forest.nodes[place]?.map (·.uid)

def links (forest : Forest) (node : Node) : NodeLinks where
  kind := node.kind
  parent := node.parent.bind forest.uidOf
  children := node.children.filterMap forest.uidOf
  target := node.target.bind forest.uidOf

end Forest

def Node.weightAt (node : Node) (depth : Nat) : Option Float := node.profile.stats[depth]?.map (·.weight)

variable {table : RegionTable} {records records' : List Record} {record : Record} {place depth : Nat} {uid : UInt64}
  {forest forest' : Forest} {node : Node} {weights : Weights}

/-! ### Profiles -/

/-- The counters of a depth with the weight that the records give them there. -/
noncomputable def reweighted (records : List Record) (uid : UInt64) (depth : Nat) (stat : Stat) : Stat :=
  match lastInit records depth uid with
  | some init => { stat with weight := (shareTraced records depth uid init).value }
  | none => stat

noncomputable def profileTraced (records : List Record) (record : Record) : Except Fault Profile :=
  (·.mapDepths (reweighted records record.uid)) <$> (settled records record).profile

theorem reweighted_perm (h : records.Perm records')
    (hlast : lastInit records depth uid = lastInit records' depth uid) :
    reweighted records uid depth = reweighted records' uid depth := by
  funext stat
  unfold reweighted
  rw [hlast]
  simp only [shareTraced_perm h]

theorem profileTraced_perm (h : records.Perm records')
    (hlast : ∀ depth, lastInit records depth record.uid = lastInit records' depth record.uid) :
    profileTraced records record = profileTraced records' record := by
  have hchange : reweighted records record.uid = reweighted records' record.uid :=
    funext fun depth => reweighted_perm h (hlast depth)
  unfold profileTraced
  rw [hchange, settled_perm h]

theorem mapDepths_stats {change : Nat → Stat → Stat} {profile : Profile} : (profile.mapDepths change).stats[depth]? =
    profile.stats[depth]?.map (if profile.isRecursive then change depth else id) := by
  cases profile with
  | plain stat => simp [Profile.mapDepths, Profile.stats, Profile.isRecursive]
  | recursive outermost deeper =>
    cases depth <;> simp [Profile.mapDepths, Profile.stats, Profile.isRecursive]

theorem Formed.weights_found (h : Formed table records) :
    ∃ weights, weightsOf (linkedNodes table records).toArray = .ok weights := by
  obtain ⟨root, tree⟩ := h.treeAt
  have hl := h.listed_nodup
  exact (weightsOf_isOk ((linked_linkedTo h.readableAt).placed (tree.rooted hl))).mpr
    ((sinks_iff h.readableAt h.distinct hl).mpr h.sinksAt).2

theorem Formed.weighted_profile (h : Formed table records)
    (hok : weightsOf (linkedNodes table records).toArray = .ok weights) (hr : records[place]? = some record)
    (hid : node.id = place) :
    (node.weighted weights).profile = node.profile.mapDepths (reweighted records record.uid) := by
  unfold Node.weighted
  simp only
  congr 1
  funext depth stat
  rw [hid, h.weights_traced hok hr]
  unfold reweighted
  cases lastInit records depth record.uid <;> rfl

theorem Formed.profile_traced (h : Formed table records)
    (hok : weightsOf (linkedNodes table records).toArray = .ok weights) (hr : records[place]? = some record) :
    profileTraced records record = .ok ((linkedNode table records place record).weighted weights).profile := by
  have hchange := h.weighted_profile hok hr (linkedNode_id h.readableAt hr)
  have hread : (classifiedAt records place record).profile = .ok (readNode table records place record).profile :=
    readNode_profile (h.readableAt place record hr)
  rw [h.classifiedAt_eq hr] at hread
  unfold profileTraced
  rw [hread, hchange]
  rfl

/-! ### Nodes of built trees -/

/-- A node of a tree is what the records say of its record. -/
structure Tells (records : List Record) (record : Record) (forest : Forest) (node : Node) : Prop where
  uid : node.uid = record.uid
  kind : node.kind = (settled records record).kind
  parent : ∀ above, node.parent.bind forest.uidOf = some above ↔ Lists records above record.uid
  children : node.children.filterMap forest.uidOf = record.children
  target : node.target.bind forest.uidOf = if record.kind = .sink then some record.target else none
  profile : profileTraced records record = .ok node.profile
  checked : node.profile.checkedSelfParallelism record.uid = .ok node.selfParallelism

section
variable (hb : Forest.build table records = .ok forest)
include hb

theorem build_getElem? (hr : records[place]? = some record) : ∃ weights node,
    weightsOf (linkedNodes table records).toArray = .ok weights ∧ forest.nodes[place]? = some node ∧
      ((linkedNode table records place record).weighted weights).finished = .ok node := by
  obtain ⟨hformed, -, hfinished⟩ := build_sound hb
  obtain ⟨weights, hweights⟩ := hformed.formed.weights_found
  rw [weightedNodes_eq hweights] at hfinished
  have hnode : ((linkedNodes table records).map (·.weighted weights))[place]? =
      some ((linkedNode table records place record).weighted weights) := by
    unfold linkedNodes
    rw [List.getElem?_map, List.getElem?_mapIdx, hr]
    rfl
  obtain ⟨node, hnode, hfound⟩ := (mapM_getElem? hfinished).2 place _ hnode
  rw [Array.getElem?_toList] at hfound
  exact ⟨weights, node, hweights, hfound, hnode⟩

theorem build_uidOf (place : Nat) : forest.uidOf place = records[place]?.map (·.uid) := by
  unfold Forest.uidOf
  cases hr : records[place]? with
  | some record =>
    obtain ⟨node, hnode⟩ := build_node hb hr
    rw [hnode]
    exact congrArg some (build_uid hb hnode hr)
  | none =>
    have hsize := (build_linkedTo hb).size
    rw [List.getElem?_eq_none_iff, ← hsize] at hr
    rw [Array.getElem?_eq_none hr]
    rfl

theorem build_uidOf_placeOf (hm : record ∈ records) :
    (placeOf records record.uid).bind forest.uidOf = some record.uid := by
  obtain ⟨place, hr⟩ := List.mem_iff_getElem?.mp hm
  rw [placeOf_uid (build_sound hb).1.distinct hr, Option.bind_some, build_uidOf hb, hr]
  rfl

theorem build_uidOf_parentAt (hr : records[place]? = some record) {above : UInt64} :
    (parentAt records place).bind forest.uidOf = some above ↔ Lists records above record.uid := by
  rw [Option.bind_eq_some_iff]
  constructor
  · rintro ⟨position, hposition, hfound⟩
    rw [build_uidOf hb] at hfound
    obtain ⟨parent, hparent, rfl⟩ := Option.map_eq_some_iff.mp hfound
    obtain ⟨found, same, hfound, hsame, hmem⟩ := parentAt_childAt hposition
    rw [hparent] at hfound
    rw [hr] at hsame
    cases hfound
    cases hsame
    exact ⟨parent, List.mem_of_getElem? hparent, rfl, hmem⟩
  · rintro ⟨parent, hm, rfl, hmem⟩
    obtain ⟨position, hparent⟩ := List.mem_iff_getElem?.mp hm
    have hl := (build_sound hb).1.formed.listed_nodup
    refine ⟨position, (parentAt_eq_some_iff hl).mpr ⟨parent, record, hparent, hr, hmem⟩, ?_⟩
    rw [build_uidOf hb, hparent]
    rfl

theorem build_tells (hr : records[place]? = some record) :
    ∃ node, forest.nodes[place]? = some node ∧ Tells records record forest node := by
  have h := (build_sound hb).1.formed
  obtain ⟨weights, node, hweights, hnode, hfinished⟩ := build_getElem? hb hr
  obtain ⟨value, hvalue, rfl⟩ := map_eq_ok.mp hfinished
  obtain ⟨-, huid, hkind, -, hchildren, -⟩ := readNode_fields (h.readableAt place record hr)
  refine ⟨_, hnode, huid, ?_, fun _ => build_uidOf_parentAt hb hr, ?_, ?_, h.profile_traced hweights hr, ?_⟩
  · rw [← h.classifiedAt_eq hr]
    exact hkind
  · change (readNode table records place record).children.filterMap forest.uidOf = record.children
    rw [hchildren]
    exact build_childUids hb (List.mem_of_getElem? hr)
  · change (if record.kind = .sink then placeOf records record.target else none).bind forest.uidOf = _
    split
    · next hsink =>
      obtain ⟨init, hm, htarget, -, -⟩ := h.sinks record (List.mem_of_getElem? hr) hsink
      rw [← htarget]
      exact build_uidOf_placeOf hb hm
    · rfl
  · have hsame : ((linkedNode table records place record).weighted weights).uid = record.uid := huid
    rw [← hsame]
    exact hvalue

theorem build_tells_node {node : Node} (hr : records[place]? = some record) (hnode : forest.nodes[place]? = some node) :
    Tells records record forest node := by
  obtain ⟨found, hfound, htells⟩ := build_tells hb hr
  rw [hnode] at hfound
  cases hfound
  exact htells

theorem build_nodeByUid (hm : record ∈ records) :
    ∃ node, forest.nodeByUid? record.uid = some node ∧ Tells records record forest node := by
  obtain ⟨place, hr⟩ := List.mem_iff_getElem?.mp hm
  obtain ⟨node, hnode, htells⟩ := build_tells hb hr
  exact ⟨node, (nodeByUid?_eq_some_iff hb).mpr ⟨Array.mem_of_getElem? hnode, htells.uid⟩, htells⟩

theorem build_nodeByUid_none (hu : ∀ record ∈ records, record.uid ≠ uid) : forest.nodeByUid? uid = none := by
  rw [Option.eq_none_iff_forall_ne_some]
  intro node hfound
  obtain ⟨hm, rfl⟩ := (nodeByUid?_eq_some_iff hb).mp hfound
  obtain ⟨place, hnode⟩ := Array.mem_iff_getElem?.mp hm
  obtain ⟨record, hr⟩ := build_record hb hnode
  exact hu record (List.mem_of_getElem? hr) (build_uid hb hnode hr).symm

end

/-! ### Two orders -/

section
variable (hperm : records.Perm records') {node' : Node} (htells : Tells records record forest node)
  (htells' : Tells records' record forest' node')
include hperm htells htells'

theorem Tells.links_eq : forest.links node = forest'.links node' := by
  have hparent : node.parent.bind forest.uidOf = node'.parent.bind forest'.uidOf := by
    apply Option.ext
    intro above
    rw [htells.parent, htells'.parent, lists_perm hperm]
  unfold Forest.links
  rw [htells.kind, htells'.kind, settled_perm hperm, hparent, htells.children, htells'.children, htells.target,
    htells'.target]

theorem Tells.weight_eq (hlast : lastInit records depth record.uid = lastInit records' depth record.uid) :
    node.weightAt depth = node'.weightAt depth := by
  obtain ⟨profile, hprofile, hnode⟩ := map_eq_ok.mp htells.profile
  obtain ⟨profile', hprofile', hnode'⟩ := map_eq_ok.mp htells'.profile
  rw [← settled_perm hperm, hprofile] at hprofile'
  cases hprofile'
  unfold Node.weightAt
  rw [← hnode, ← hnode', mapDepths_stats, mapDepths_stats, reweighted_perm hperm hlast]

theorem Tells.profile_eq (hlast : ∀ depth, lastInit records depth record.uid = lastInit records' depth record.uid) :
    node.profile = node'.profile := by
  have hprofile := htells.profile
  rw [profileTraced_perm hperm hlast, htells'.profile] at hprofile
  exact (Except.ok.inj hprofile).symm

theorem Tells.selfParallelism_eq
    (hlast : ∀ depth, lastInit records depth record.uid = lastInit records' depth record.uid) :
    node.selfParallelism = node'.selfParallelism := by
  have hchecked := htells.checked
  rw [htells.profile_eq hperm htells' hlast, htells'.checked] at hchecked
  exact (Except.ok.inj hchecked).symm

end

/-! ### Building in two orders -/

/-- Records in an order that cannot be built, though another order can, have a node whose self-parallelism is
refused, and another init record decides one of its weights. -/
theorem build_perm_error (hperm : records.Perm records') (hb : Forest.build table records = .ok forest)
    {fault : Fault} (herror : Forest.build table records' = .error fault) :
    ∃ uid value depth, fault = .invalidSelfParallelism uid value ∧
      lastInit records depth uid ≠ lastInit records' depth uid := by
  have h' := (build_sound hb).1.formed.perm hperm
  obtain ⟨root, hbuild⟩ := h'.build_eq
  obtain ⟨weights, hweights⟩ := h'.weights_found
  rw [hbuild, weightedNodes_eq hweights] at herror
  obtain ⟨weighted, hm, hfinished⟩ := mapM_eq_error (map_eq_error.mp herror)
  obtain ⟨linked, hlinked, rfl⟩ := List.mem_map.mp hm
  obtain ⟨place, record, hr, rfl⟩ := mem_linkedNodes.mp (List.mem_toArray.mpr hlinked)
  have huid : ((linkedNode table records' place record).weighted weights).uid = record.uid :=
    (readNode_fields (h'.readableAt place record hr)).2.1
  have hchecked := map_eq_error.mp hfinished
  rw [huid] at hchecked
  obtain ⟨value, rfl⟩ := checked_eq_error hchecked
  refine ⟨record.uid, value, ?_⟩
  by_contra! hall
  -- With the same weights the node would have been refused in the first order too.
  obtain ⟨node, -, htells⟩ := build_nodeByUid hb (hperm.mem_iff.mpr (List.mem_of_getElem? hr))
  have hprofile := htells.profile
  rw [profileTraced_perm hperm (fun depth => hall depth rfl), h'.profile_traced hweights hr] at hprofile
  rw [Except.ok.inj hprofile, htells.checked] at hchecked
  cases hchecked

/-- Init records that keep their order decide what they decided before. -/
theorem lastInit_of_inits (hperm : records.Perm records')
    (hinits : records.filter (·.kind = .init) = records'.filter (·.kind = .init)) :
    lastInit records depth uid = lastInit records' depth uid := by
  have hpasses : Passes records depth uid = Passes records' depth uid := by
    funext init
    unfold Passes sinksNaming
    simp only [lists_perm hperm, List.mem_filter, hperm.mem_iff]
  unfold lastInit
  rw [hinits, hpasses]

theorem build_perm (hperm : records.Perm records') :
    (∀ forest forest', Forest.build table records = .ok forest → Forest.build table records' = .ok forest' → ∀ uid,
      (forest.nodeByUid? uid).map forest.links = (forest'.nodeByUid? uid).map forest'.links ∧
      (∀ depth, lastInit records depth uid = lastInit records' depth uid →
        (forest.nodeByUid? uid).bind (·.weightAt depth) = (forest'.nodeByUid? uid).bind (·.weightAt depth)) ∧
      ((∀ depth, lastInit records depth uid = lastInit records' depth uid) →
        (forest.nodeByUid? uid).map (·.selfParallelism) = (forest'.nodeByUid? uid).map (·.selfParallelism))) ∧
    (∀ forest, Forest.build table records = .ok forest → (∃ forest', Forest.build table records' = .ok forest') ∨
      ∃ uid value depth, Forest.build table records' = .error (.invalidSelfParallelism uid value) ∧
        lastInit records depth uid ≠ lastInit records' depth uid) ∧
    (records.filter (·.kind = .init) = records'.filter (·.kind = .init) →
      ∀ depth uid, lastInit records depth uid = lastInit records' depth uid) := by
  refine ⟨?_, ?_, fun hinits _ _ => lastInit_of_inits hperm hinits⟩
  · intro forest forest' hb hb' uid
    by_cases hu : ∃ record ∈ records, record.uid = uid
    · obtain ⟨record, hm, rfl⟩ := hu
      obtain ⟨node, hnode, htells⟩ := build_nodeByUid hb hm
      obtain ⟨node', hnode', htells'⟩ := build_nodeByUid hb' (hperm.mem_iff.mp hm)
      rw [hnode, hnode']
      refine ⟨?_, ?_, ?_⟩
      · exact congrArg some (htells.links_eq hperm htells')
      · intro depth hlast
        exact htells.weight_eq hperm htells' hlast
      · intro hlast
        exact congrArg some (htells.selfParallelism_eq hperm htells' hlast)
    · push Not at hu
      rw [build_nodeByUid_none hb hu, build_nodeByUid_none hb' fun record hm => hu record (hperm.mem_iff.mpr hm)]
      simp
  · intro forest hb
    cases hb' : Forest.build table records' with
    | ok forest' => exact .inl ⟨forest', rfl⟩
    | error fault =>
      obtain ⟨uid, value, depth, rfl, hdiffers⟩ := build_perm_error hperm hb hb'
      exact .inr ⟨uid, value, depth, rfl, hdiffers⟩

theorem build_perm_sinks :
    let inits : List Record :=
      [⟨1, 0, 0, .init, 0, 1, false, [2, 3], [.ofWork 1 2000 2000]⟩,
        ⟨2, 0, 0, .init, 0, 1, false, [4], [.ofWork 1 1000 500]⟩]
    let outer : Record := ⟨3, 0, 0, .sink, 1, 1, false, [], [.ofWork 1 300 300]⟩
    let inner : Record := ⟨4, 0, 0, .sink, 2, 1, false, [], [.ofWork 1 100 100]⟩
    (inits ++ [outer, inner]).Perm (inits ++ [inner, outer]) ∧ ∃ forest forest',
      Forest.build .initial (inits ++ [outer, inner]) = .ok forest ∧
      Forest.build .initial (inits ++ [inner, outer]) = .ok forest' ∧
      ∀ uid, (forest.nodeByUid? uid).map (·.selfParallelism) = (forest'.nodeByUid? uid).map (·.selfParallelism) := by
  intro inits outer inner
  have hperm : (inits ++ [outer, inner]).Perm (inits ++ [inner, outer]) :=
    (List.Perm.swap inner outer []).append_left inits
  have hfirst : (Forest.build .initial (inits ++ [outer, inner])).toOption.map (·.size) = some 4 := by decide +kernel
  have hsecond : (Forest.build .initial (inits ++ [inner, outer])).toOption.map (·.size) = some 4 := by decide +kernel
  obtain ⟨forest, hb, -⟩ := toOption_map_eq_some.mp hfirst
  obtain ⟨forest', hb', -⟩ := toOption_map_eq_some.mp hsecond
  refine ⟨hperm, forest, forest', hb, hb', fun uid => ?_⟩
  obtain ⟨hagree, -, hlast⟩ := @build_perm .initial _ _ hperm
  obtain ⟨-, -, hsame⟩ := hagree forest forest' hb hb' uid
  exact hsame fun depth => hlast rfl depth uid

/-- The order of two init records can change a weight and a self-parallelism, and even whether a tree is built. -/
theorem build_swapped_inits :
    let outer : Record := ⟨1, 0, 0, .init, 0, 1, false, [2, 3], [.ofWork 1 2000 2000]⟩
    let inner (stats : List Stat) : Record := ⟨2, 0, 0, .init, 0, 1, false, [4, 5], stats⟩
    let sinks (work : UInt64) : List Record :=
      [⟨3, 0, 0, .sink, 1, 1, false, [], [.ofWork 1 work work]⟩,
        ⟨4, 0, 0, .sink, 1, 1, false, [], [.ofWork 1 100 100, .ofWork 1 10 10]⟩,
        ⟨5, 0, 0, .sink, 2, 1, false, [], [.ofWork 1 50 50, .ofWork 1 20 20]⟩]
    let even := inner [.ofWork 1 1000 500, .ofWork 1 400 200]
    let uneven := inner [.ofWork 1 100 50, .ofWork 1 1000 100]
    (outer :: even :: sinks 300).Perm (even :: outer :: sinks 300) ∧
    (∃ forest forest', Forest.build .initial (outer :: even :: sinks 300) = .ok forest ∧
      Forest.build .initial (even :: outer :: sinks 300) = .ok forest' ∧
      (forest.nodeByUid? 2).bind (·.weightAt 0) = some 1 ∧ (forest'.nodeByUid? 2).bind (·.weightAt 0) = some 0.25 ∧
      (forest.nodeByUid? 2).map (·.selfParallelism) ≠ (forest'.nodeByUid? 2).map (·.selfParallelism)) ∧
    (outer :: uneven :: sinks 9900).Perm (uneven :: outer :: sinks 9900) ∧
    (¬ ∃ forest, Forest.build .initial (outer :: uneven :: sinks 9900) = .ok forest) ∧
    ∃ forest, Forest.build .initial (uneven :: outer :: sinks 9900) = .ok forest := by
  intro outer inner sinks even uneven
  let weight (forest : Forest) : Option Float := (forest.nodeByUid? 2).bind (·.weightAt 0)
  let value (forest : Forest) : Option Float := (forest.nodeByUid? 2).map (·.selfParallelism)
  have hfirst : (Forest.build .initial (outer :: even :: sinks 300)).toOption.map
      (fun forest => (weight forest, decide (value forest = some 2.5))) = some (some 1, true) := by decide +kernel
  have hsecond : (Forest.build .initial (even :: outer :: sinks 300)).toOption.map
      (fun forest => (weight forest, decide (value forest = some 2.5))) = some (some 0.25, false) := by decide +kernel
  have hrefused : (Forest.build .initial (outer :: uneven :: sinks 9900)).toOption.map (·.size) = none := by
    decide +kernel
  have hbuilt : (Forest.build .initial (uneven :: outer :: sinks 9900)).toOption.map (·.size) = some 5 := by
    decide +kernel
  obtain ⟨forest, hb, hread⟩ := toOption_map_eq_some.mp hfirst
  obtain ⟨forest', hb', hread'⟩ := toOption_map_eq_some.mp hsecond
  simp only [Prod.mk.injEq, decide_eq_true_eq, decide_eq_false_iff_not] at hread hread'
  refine ⟨.swap _ _ _, ⟨forest, forest', hb, hb', hread.1, hread'.1, ?_⟩, .swap _ _ _, ?_, ?_⟩
  · exact fun hsame => hread'.2 (hsame.symm.trans hread.2)
  · rintro ⟨forest, hok⟩
    rw [hok] at hrefused
    cases hrefused
  · obtain ⟨forest, hok, -⟩ := toOption_map_eq_some.mp hbuilt
    exact ⟨forest, hok⟩

end RegionPlanner
