import RegionPlanner.Proofs.Forest.Family
import RegionPlanner.Proofs.Weights.Built

/-!
# Recursions in built trees

Records are classified along their children, nodes take their shape from the kind of their record, and weights
follow the parents from the sinks. In a built tree the three agree on which nodes are recursive. So every weight that
is found has a place in a recursive profile, and what no weight is found for keeps the one of its record.
-/

namespace RegionPlanner

variable {table : RegionTable} {records : List Record} {record : Record} {place depth : Nat} {forest : Forest}
  {node init sink : Node} {weights : Weights}

/-! ### Kinds and profiles -/

theorem settled_inner_iff (hkind : record.kind ≠ .inner) :
    (settled records record).kind = .inner ↔ record.kind = .normal ∧ Unwound records record.uid := by
  unfold settled Record.toInner
  split
  · next hin =>
    split
    · next hnormal => simp [hnormal, hin]
    · next hnormal => simp [hnormal, hkind]
  · next hout => simp [hkind, hout]

theorem mapDepths_isRecursive {change : Nat → Stat → Stat} {profile : Profile} :
    (profile.mapDepths change).isRecursive = profile.isRecursive := by
  cases profile <;> rfl

theorem Tells.isRecursive (h : Tells records record forest node) (hin : Unwound records record.uid) :
    node.kind ≠ .normal ∧ node.profile.isRecursive = true := by
  have hkind := settled_isRecursive hin
  obtain ⟨profile, hprofile, hnode⟩ := map_eq_ok.mp h.profile
  refine ⟨?_, ?_⟩
  · rw [h.kind]
    intro hnormal
    rw [hnormal] at hkind
    cases hkind
  · rw [← hnode, mapDepths_isRecursive]
    exact profile_isRecursive hprofile hkind

/-! ### Built trees -/

section
variable (hb : Forest.build table records = .ok forest)
include hb

theorem build_unwound (hr : records[place]? = some record) :
    Unwound records record.uid ↔ ∃ init ∈ forest.nodes, init.kind = .init ∧ Within forest.parentOf init.id place := by
  have hformed := (build_sound hb).1.formed
  have hlinked := build_linked hb
  rw [build_parentOf hb]
  constructor
  · rintro ⟨target, hm, hkind, hreach⟩
    obtain ⟨above, htarget⟩ := List.mem_iff_getElem?.mp hm
    obtain ⟨init, hinit⟩ := build_node hb htarget
    refine ⟨init, Array.mem_of_getElem? hinit, (build_kind hb htarget hinit (by simp) (by simp)).mpr hkind, ?_⟩
    rw [hlinked.id above init hinit]
    exact (hformed.within_iff_lists htarget hr).mpr hreach
  · rintro ⟨init, hi, hkind, hw⟩
    have hinit := hlinked.mem_getElem? hi
    obtain ⟨target, htarget⟩ := build_record hb hinit
    exact ⟨target, List.mem_of_getElem? htarget, (build_kind hb htarget hinit (by simp) (by simp)).mp hkind,
      (hformed.within_iff_lists htarget hr).mp hw⟩

theorem build_inner_iff (hr : records[place]? = some record) (hnode : forest.nodes[place]? = some node)
    (hinner : record.kind ≠ .inner) :
    node.kind = .inner ↔ record.kind = .normal ∧ ∃ above ∈ forest.ancestors node, above.kind = .init := by
  have hlinked := build_linked hb
  have hm := Array.mem_of_getElem? hnode
  rw [(build_tells_node hb hr hnode).kind, settled_inner_iff hinner, build_unwound hb hr, ← hlinked.id place node hnode]
  refine and_congr_right fun hnormal => ?_
  have hown : node.kind ≠ .init := by
    rw [Ne, build_kind hb hr hnode (by simp) (by simp), hnormal]
    simp
  constructor
  · rintro ⟨init, hi, hkind, hw⟩
    refine ⟨init, (hlinked.mem_ancestors_iff hm).mpr ⟨hi, ?_⟩, hkind⟩
    refine (within_iff.mp hw).resolve_left fun hid => ?_
    rw [← hlinked.eq_of_id hm hi hid] at hkind
    exact hown hkind
  · rintro ⟨init, ha, hkind⟩
    obtain ⟨hi, habove⟩ := (hlinked.mem_ancestors_iff hm).mp ha
    exact ⟨init, hi, hkind, habove.to_reflTransGen⟩

/-- An init node and everything below it is recursive. -/
theorem build_isRecursive (hi : init ∈ forest.nodes) (hkind : init.kind = .init) (hm : node ∈ forest.nodes)
    (hw : Within forest.parentOf init.id node.id) : node.kind ≠ .normal ∧ node.profile.isRecursive = true := by
  have hnode := (build_linked hb).mem_getElem? hm
  obtain ⟨record, hr⟩ := build_record hb hnode
  exact (build_tells_node hb hr hnode).isRecursive ((build_unwound hb hr).mpr ⟨init, hi, hkind, hw⟩)

theorem build_sink_way (hs : sink ∈ forest.nodes) (hsink : sink.kind = .sink) :
    ∃ before init after, forest.ancestors sink = before ++ init :: after ∧ init.kind = .init ∧
      sink.target = some init.id ∧ ∀ node ∈ init :: before, node.kind ≠ .normal ∧ node.profile.isRecursive = true := by
  have hlinked := build_linked hb
  obtain ⟨init, hi, hkind, htarget, habove⟩ := build_sink hb hs hsink
  obtain ⟨before, after, hsplit⟩ := List.append_of_mem ((hlinked.mem_ancestors_iff hs).mpr ⟨hi, habove⟩)
  have hchain := hlinked.ancestors_chain hs
  rw [hsplit, List.map_append, List.map_cons] at hchain
  refine ⟨before, init, after, hsplit, hkind, htarget, ?_⟩
  rw [List.forall_mem_cons]
  refine ⟨build_isRecursive hb hi hkind hi .refl, fun node hm => ?_⟩
  have hnode : node ∈ forest.nodes := by
    refine hlinked.ancestors_mem hs ?_
    rw [hsplit]
    exact List.mem_append_left _ hm
  have hbelow := hchain.below_of_append node.id (List.mem_map_of_mem hm)
  exact build_isRecursive hb hi hkind hnode hbelow.to_reflTransGen

/-- The weight of a built node at a depth is its share of the work, or what its record held where it has none. -/
theorem build_weightAt (hok : weightsOf forest.nodes = .ok weights) (hr : records[place]? = some record)
    (hnode : forest.nodes[place]? = some node) (depth : Nat) : node.weightAt depth =
      record.stats[depth]?.map fun stat => (weights[(place, depth)]?.map Share.value).getD stat.weight := by
  rw [build_weightsOf hb] at hok
  rw [(build_tells_node hb hr hnode).weightAt, (build_sound hb).1.formed.weights_traced hok hr, Option.map_map]
  rfl

/-- Shares belong to recursive nodes. -/
theorem build_share_isRecursive (hok : weightsOf forest.nodes = .ok weights) {share : Share}
    (hshare : weights[(place, depth)]? = some share) :
    ∃ node, forest.nodes[place]? = some node ∧ node.profile.isRecursive = true := by
  have hlinked := build_linked hb
  have hm : (place, depth) ∈ weights := by
    rw [Std.TreeMap.mem_iff_isSome_getElem?, hshare]
    rfl
  obtain ⟨_, hc⟩ := (hlinked.placed.mem_weightsOf (build_resolved hb) hok).mp hm
  obtain ⟨init, hi, hkind, rfl⟩ := (build_resolved hb).of_carries hc
  obtain ⟨sink, -, ha, hw⟩ := hc
  obtain ⟨node, hnode⟩ := Forest.Linked.getElem? (hlinked.tree.ancestor_lt ha).1
  rw [← hlinked.id place node hnode] at hw
  exact ⟨node, hnode, (build_isRecursive hb hi hkind (Array.mem_of_getElem? hnode) hw).2⟩

end

/-- Kinds, profiles and weights of a built tree agree on what is recursive. A node is an inner one if its record was
ordinary and an init node is above it. A sink leads back to an init node above it, and all on the way there, the init
node too, have a recursive profile. So the weights that are found belong to recursive nodes and are all stored as
deep as the node has counters; elsewhere a record keeps its weights. -/
theorem recursion_consistent (hb : Forest.build table records = .ok forest)
    (hinner : ∀ record ∈ records, record.kind ≠ .inner) :
    (∀ (place : Nat) (record : Record), records[place]? = some record → ∃ node, forest.nodes[place]? = some node ∧
      (node.kind = .inner ↔ record.kind = .normal ∧ ∃ above ∈ forest.ancestors node, above.kind = .init)) ∧
    (∀ sink ∈ forest.nodes, sink.kind = .sink → ∃ before init after,
      forest.ancestors sink = before ++ init :: after ∧ init.kind = .init ∧ sink.target = some init.id ∧
        ∀ node ∈ init :: before, node.kind ≠ .normal ∧ node.profile.isRecursive = true) ∧
    ∃ weights, weightsOf forest.nodes = .ok weights ∧
      (∀ (place depth : Nat) (share : Share), weights[(place, depth)]? = some share →
        ∃ node, forest.nodes[place]? = some node ∧ node.profile.isRecursive = true ∧
          (depth < node.depths → node.weightAt depth = some share.value)) ∧
      ∀ (place depth : Nat) (record : Record), records[place]? = some record → weights[(place, depth)]? = none →
        ∃ node, forest.nodes[place]? = some node ∧ node.weightAt depth = record.stats[depth]?.map (·.weight) := by
  obtain ⟨weights, hok⟩ := build_weights hb
  refine ⟨fun place record hr => ?_, fun sink hs hsink => build_sink_way hb hs hsink, weights, hok,
    fun place depth share hshare => ?_, fun place depth record hr hnone => ?_⟩
  · obtain ⟨node, hnode⟩ := build_node hb hr
    exact ⟨node, hnode, build_inner_iff hb hr hnode (hinner record (List.mem_of_getElem? hr))⟩
  · obtain ⟨node, hnode, hrecursive⟩ := build_share_isRecursive hb hok hshare
    obtain ⟨record, hr⟩ := build_record hb hnode
    refine ⟨node, hnode, hrecursive, fun hd => ?_⟩
    have hweight := build_weightAt hb hok hr hnode depth
    have hstat : node.weightAt depth = some (node.profile.stats.get ⟨depth, hd⟩).weight := by
      unfold Node.weightAt
      rw [List.getElem?_eq_getElem hd]
      rfl
    rw [hshare, hstat] at hweight
    obtain ⟨_, -, hvalue⟩ := Option.map_eq_some_iff.mp hweight.symm
    rw [hstat, ← hvalue]
    rfl
  · obtain ⟨node, hnode⟩ := build_node hb hr
    refine ⟨node, hnode, ?_⟩
    rw [build_weightAt hb hok hr hnode, hnone]
    rfl

/-- A node on the way to the sink has counters at fewer depths than the sink, and one beside it brings a weight
along. -/
theorem recursion_consistent_beside :
    let beside : Record := ⟨4, 0, 0, .normal, 0, 1, false, [], [{ Stat.ofWork 1 50 50 with weight := 0.5 }]⟩
    let records : List Record :=
      [⟨1, 0, 0, .init, 0, 1, false, [2, 4], [.ofWork 1 1000 500, .ofWork 1 400 200]⟩,
        ⟨2, 0, 0, .normal, 0, 1, false, [3], [.ofWork 1 600 600]⟩,
        ⟨3, 0, 0, .sink, 1, 1, false, [], [.ofWork 1 300 300, .ofWork 1 100 100]⟩, beside]
    (∀ record ∈ records, record.kind ≠ .inner) ∧ ∃ forest node, Forest.build .initial records = .ok forest ∧
      forest.nodes[3]? = some node ∧ node.kind = .inner ∧ node.weightAt 0 = some 0.5 := by
  intro beside records
  have hinner : ∀ record ∈ records, record.kind ≠ .inner := by decide
  have hrun : (Forest.build .initial records >>= fun forest => (forest, ·) <$> weightsOf forest.nodes).toOption.map
      (fun (forest, weights) => (forest.nodes[3]?.map (·.kind), weights[(3, 0)]?)) = some (some .inner, none) := by
    decide +kernel
  obtain ⟨⟨forest, weights⟩, hok, hread⟩ := toOption_map_eq_some.mp hrun
  obtain ⟨built, hb, hweights⟩ := bind_eq_ok.mp hok
  obtain ⟨found, hfound, heq⟩ := map_eq_ok.mp hweights
  cases heq
  simp only [Prod.mk.injEq, Option.map_eq_some_iff] at hread
  obtain ⟨⟨node, hnode, hkind⟩, hnone⟩ := hread
  obtain ⟨-, -, same, hsame, -, hkept⟩ := recursion_consistent hb hinner
  rw [hfound] at hsame
  cases hsame
  obtain ⟨node', hnode', hweight⟩ := hkept 3 0 beside rfl hnone
  rw [hnode] at hnode'
  cases hnode'
  exact ⟨hinner, forest, node, hb, hnode, hkind, hweight⟩

end RegionPlanner
