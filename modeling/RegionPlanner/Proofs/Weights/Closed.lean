import Mathlib.Data.Nat.SuccPred
import Mathlib.Order.SuccPred.Archimedean
import RegionPlanner.Proofs.Forest.Tree
import RegionPlanner.Proofs.Weights.Shares

/-!
# Weights in closed form

In one tree of nodes whose sinks name their init nodes, weights are found if and only if every sink is below
the init node that it names. A place then has a weight at a depth exactly if it is on the way of some sink with
counters there, and the last init node among those of all such sinks gives it: the work of its sinks strictly
below the place out of the work of all its sinks.
-/

namespace RegionPlanner

variable {parent : Nat → Option Nat} {nodes : Array Node} {root place depth : Nat} {init : Node}
  {weights out : Weights}

/-! ### Work of the sinks of an init node -/

/-- The sinks that lead back to an init node and have counters at a depth. -/
def sinksInto (nodes : Array Node) (init depth : Nat) : List Node :=
  nodes.toList.filter fun sink => sink.kind = .sink ∧ sink.target = some init ∧ depth < sink.depths

/-- Work at a depth of all sinks of an init node. -/
def workInto (nodes : Array Node) (init depth : Nat) : Nat :=
  ((sinksInto nodes init depth).map (·.workAt depth)).sum

open Classical in
/-- Work at a depth of the sinks of an init node that are strictly below a place. -/
noncomputable def workThrough (parent : Nat → Option Nat) (nodes : Array Node) (init depth place : Nat) : Nat :=
  (((sinksInto nodes init depth).filter fun sink => Ancestor parent place sink.id).map (·.workAt depth)).sum

/-- A place is on the way of a sink with counters at a depth up to an init node. -/
def Carries (parent : Nat → Option Nat) (nodes : Array Node) (init depth place : Nat) : Prop :=
  ∃ sink ∈ sinksInto nodes init depth, Ancestor parent place sink.id ∧ Within parent init place

theorem mem_sinksInto {sink : Node} {init : Nat} : sink ∈ sinksInto nodes init depth ↔
    sink ∈ nodes ∧ sink.kind = .sink ∧ sink.target = some init ∧ depth < sink.depths := by
  unfold sinksInto
  simp

/-- Sinks without counters at a depth have no work there. -/
theorem workAt_eq_zero {sink : Node} (h : ¬ depth < sink.depths) : sink.workAt depth = 0 := by
  unfold Node.workAt workCounted
  rw [List.getElem?_eq_none (Nat.not_lt.mp h)]

theorem sum_filter_congr {work : Node → Nat} {p q : Node → Bool} {sinks : List Node}
    (h : ∀ sink ∈ sinks, work sink ≠ 0 → p sink = q sink) :
    ((sinks.filter p).map work).sum = ((sinks.filter q).map work).sum := by
  induction sinks with
  | nil => rfl
  | cons sink sinks ih =>
    rw [List.forall_mem_cons] at h
    by_cases hwork : work sink = 0
    · cases hp : p sink <;> cases hq : q sink <;> simp [hp, hq, hwork, ih h.2]
    · cases hq : q sink <;> simp [h.1 hwork, hq, ih h.2]

/-! ### One init node -/

/-- All sinks, whether they know their init node or not. -/
def sinkNodes (nodes : Array Node) : List Node := nodes.toList.filter (·.kind = .sink)

/-- The ways of the sinks of an init node. -/
def waysInto (nodes : Array Node) (init : Nat) : List SinkPath :=
  ((sinkNodes nodes).filter (·.target = some init)).map fun sink => ⟨sink, wayUp nodes init sink⟩

/-- Every sink of an init node is below it. -/
def AllBelow (parent : Nat → Option Nat) (nodes : Array Node) (init : Nat) : Prop :=
  ∀ sink ∈ nodes, sink.kind = .sink → sink.target = some init → Ancestor parent init sink.id

theorem workThrough_init {init : Nat} (hall : AllBelow parent nodes init) :
    workThrough parent nodes init depth init = workInto nodes init depth := by
  unfold workThrough workInto
  rw [List.filter_eq_self.mpr]
  intro sink hm
  obtain ⟨hs, hk, ht, -⟩ := mem_sinksInto.mp hm
  simpa using hall sink hs hk ht

theorem mem_waysInto {init : Nat} {path : SinkPath} : path ∈ waysInto nodes init ↔
    path.sink ∈ nodes ∧ path.sink.kind = .sink ∧ path.sink.target = some init ∧
      path.path = wayUp nodes init path.sink := by
  unfold waysInto sinkNodes
  simp only [List.mem_map, List.mem_filter, Array.mem_toList_iff, decide_eq_true_eq]
  constructor
  · rintro ⟨sink, ⟨⟨hs, hk⟩, ht⟩, rfl⟩
    exact ⟨hs, hk, ht, rfl⟩
  · rintro ⟨hs, hk, ht, hpath⟩
    exact ⟨path.sink, ⟨⟨hs, hk⟩, ht⟩, by rw [← hpath]⟩

namespace Placed

variable (h : Placed parent root nodes)
include h

theorem addInit_eq_ok : addInit nodes (sinkNodes nodes) weights init = .ok out ↔ AllBelow parent nodes init.id ∧
    (List.range (deepest (waysInto nodes init.id))).foldl (addDepth init.id (waysInto nodes init.id)) weights =
      out := by
  have hpaths : ∀ paths, ((sinkNodes nodes).filter (·.target = some init.id)).mapM (sinkPath nodes init) = .ok paths ↔
      AllBelow parent nodes init.id ∧ waysInto nodes init.id = paths := by
    intro paths
    have hway : ∀ sink ∈ (sinkNodes nodes).filter (·.target = some init.id), ∀ path,
        sinkPath nodes init sink = .ok path ↔
          Ancestor parent init.id sink.id ∧ (fun sink => ⟨sink, wayUp nodes init.id sink⟩) sink = path := by
      intro sink hm path
      exact h.sinkPath_eq_ok (Array.mem_toList_iff.mp (List.mem_filter.mp (List.mem_filter.mp hm).1).1)
    rw [mapM_eq_ok_map hway]
    refine and_congr ?_ Iff.rfl
    unfold AllBelow sinkNodes
    simp only [List.mem_filter, Array.mem_toList_iff, decide_eq_true_eq, and_imp]
  unfold addInit
  rw [bind_eq_ok]
  simp only [hpaths, pure_eq_ok]
  constructor
  · rintro ⟨paths, ⟨hall, rfl⟩, hout⟩
    exact ⟨hall, hout⟩
  · rintro ⟨hall, hout⟩
    exact ⟨_, ⟨hall, rfl⟩, hout⟩

variable {init : Nat} (hall : AllBelow parent nodes init)
include hall

theorem mem_tally : place ∈ Tally.ofPaths (waysInto nodes init) depth ↔ Carries parent nodes init depth place := by
  rw [Tally.mem_ofPaths]
  unfold Carries
  constructor
  · rintro ⟨path, hm, hd, hplace⟩
    obtain ⟨hs, hk, ht, hpath⟩ := mem_waysInto.mp hm
    rw [hpath, h.mem_wayUp hs (hall _ hs hk ht)] at hplace
    exact ⟨path.sink, mem_sinksInto.mpr ⟨hs, hk, ht, hd⟩, hplace⟩
  · rintro ⟨sink, hm, hplace⟩
    obtain ⟨hs, hk, ht, hd⟩ := mem_sinksInto.mp hm
    rw [← h.mem_wayUp hs (hall _ hs hk ht)] at hplace
    exact ⟨⟨sink, wayUp nodes init sink⟩, mem_waysInto.mpr ⟨hs, hk, ht, rfl⟩, hd, hplace⟩

theorem workAt_tally (hw : Within parent init place) :
    (Tally.ofPaths (waysInto nodes init) depth).workAt place = workThrough parent nodes init depth place := by
  have hnodup : ∀ path ∈ waysInto nodes init, path.path.Nodup := by
    intro path hm
    obtain ⟨hs, hk, ht, hpath⟩ := mem_waysInto.mp hm
    rw [hpath]
    exact h.wayUp_nodup hs (hall _ hs hk ht)
  rw [Tally.workAt_ofPaths hnodup]
  unfold waysInto sinkNodes workThrough sinksInto
  rw [List.filter_map, List.map_map, List.filter_filter, List.filter_filter, List.filter_filter]
  apply sum_filter_congr
  intro sink hm hwork
  have hd : depth < sink.depths := by
    by_contra hd
    exact hwork (workAt_eq_zero hd)
  rw [Bool.eq_iff_iff]
  simp only [Function.comp_apply, Bool.and_eq_true, decide_eq_true_eq]
  constructor
  · rintro ⟨⟨hplace, ht⟩, hk⟩
    have hs := Array.mem_toList_iff.mp hm
    exact ⟨((h.mem_wayUp hs (hall _ hs hk ht)).mp hplace).1, hk, ht, hd⟩
  · rintro ⟨ha, hk, ht, -⟩
    have hs := Array.mem_toList_iff.mp hm
    exact ⟨⟨(h.mem_wayUp hs (hall _ hs hk ht)).mpr ⟨ha, hw⟩, ht⟩, hk⟩

end Placed

/-! ### All init nodes -/

open Classical in
/-- The share that an init node gives a place at a depth, if it gives one. -/
noncomputable def shareFrom (parent : Nat → Option Nat) (nodes : Array Node) (depth place : Nat) (init : Node) :
    Option Share :=
  if Carries parent nodes init.id depth place then
    some ⟨workThrough parent nodes init.id depth place, workInto nodes init.id depth⟩
  else none

/-- Every sink knows its init node. -/
def Resolved (nodes : Array Node) : Prop :=
  ∀ sink ∈ nodes, sink.kind = .sink → ∃ init ∈ nodes, init.kind = .init ∧ sink.target = some init.id

theorem Resolved.of_carries (hr : Resolved nodes) {init : Nat} (hc : Carries parent nodes init depth place) :
    ∃ node ∈ nodes, node.kind = .init ∧ node.id = init := by
  obtain ⟨sink, hm, -⟩ := hc
  obtain ⟨hs, hk, ht, -⟩ := mem_sinksInto.mp hm
  obtain ⟨node, hn, hkind, htarget⟩ := hr sink hs hk
  rw [ht, Option.some.injEq] at htarget
  exact ⟨node, hn, hkind, htarget.symm⟩

namespace Placed

variable (h : Placed parent root nodes)
include h

theorem getElem?_addInit (hok : addInit nodes (sinkNodes nodes) weights init = .ok out) :
    out[(place, depth)]? = (shareFrom parent nodes depth place init).or weights[(place, depth)]? := by
  obtain ⟨hall, rfl⟩ := h.addInit_eq_ok.mp hok
  rw [getElem?_addDepths]
  unfold shareFrom
  by_cases hc : Carries parent nodes init.id depth place
  · obtain ⟨sink, hm, ha, hw⟩ := hc
    have hplace := (h.mem_tally hall).mpr ⟨sink, hm, ha, hw⟩
    rw [if_pos hplace, if_pos ⟨sink, hm, ha, hw⟩, shareOf, h.workAt_tally hall hw, h.workAt_tally hall .refl,
      workThrough_init hall]
    rfl
  · rw [if_neg (mt (h.mem_tally hall).mp hc), if_neg hc]
    rfl

theorem getElem?_weightsOf (hok : weightsOf nodes = .ok weights) : weights[(place, depth)]? =
    (nodes.toList.filter (·.kind = .init)).reverse.findSome? (shareFrom parent nodes depth place) := by
  unfold weightsOf at hok
  obtain ⟨sinks, hsinks, hloop⟩ := bind_eq_ok.mp hok
  obtain ⟨-, rfl⟩ := sinksOf_eq_ok.mp hsinks
  have hread : ∀ (before : Weights) (init : Node) (after : Weights),
      addInit nodes (sinkNodes nodes) before init = .ok after → after[(place, depth)]? =
        (shareFrom parent nodes depth place init).or before[(place, depth)]? := fun _ _ _ => h.getElem?_addInit
  have hempty : (Std.TreeMap.empty : Weights)[(place, depth)]? = none := Std.TreeMap.getElem?_emptyc
  rw [foldlM_read hread hloop, hempty, Option.or_none]

theorem inits_sorted : (nodes.toList.filter (·.kind = .init)).Pairwise (·.id < ·.id) := by
  refine List.Pairwise.filter _ (List.pairwise_iff_getElem.mpr ?_)
  intro first later hfirst hlater hlt
  rw [h.id first _ (by simp), h.id later _ (by simp)]
  exact hlt

theorem weightsOf_eq_error {fault : Fault} (herror : weightsOf nodes = .error fault)
    (hknown : ∀ sink ∈ nodes, sink.kind = .sink → sink.target.isSome) :
    ∃ sink ∈ nodes, sink.kind = .sink ∧ ∃ init ∈ nodes, sink.target = some init.id ∧
      ¬ Ancestor parent init.id sink.id ∧ fault = .sinkOutsideRecursion sink.uid init.uid := by
  unfold weightsOf at herror
  rw [sinksOf_eq_ok.mpr ⟨hknown, rfl⟩] at herror
  obtain ⟨before, init, hi, hinit⟩ := foldlM_eq_error herror
  unfold addInit at hinit
  rcases bind_eq_error.mp hinit with hways | ⟨_, -, hnone⟩
  · obtain ⟨sink, hm, hway⟩ := mapM_eq_error hways
    simp only [List.mem_filter, Array.mem_toList_iff, decide_eq_true_eq] at hm hi
    obtain ⟨⟨hs, hk⟩, ht⟩ := hm
    have habove : ¬ Ancestor parent init.id sink.id := by
      intro ha
      rw [(h.sinkPath_eq_ok hs).mpr ⟨ha, rfl⟩] at hway
      cases hway
    refine ⟨sink, hs, hk, init, hi.1, ht, habove, ?_⟩
    unfold sinkPath at hway
    split at hway
    · cases hway
    · exact (Except.error.inj hway).symm
  · cases hnone

variable (hr : Resolved nodes) (hok : weightsOf nodes = .ok weights)
include hr hok

theorem mem_weightsOf : (place, depth) ∈ weights ↔ ∃ init, Carries parent nodes init depth place := by
  rw [Std.TreeMap.mem_iff_isSome_getElem?, h.getElem?_weightsOf hok, List.findSome?_isSome_iff]
  constructor
  · rintro ⟨init, -, hgives⟩
    unfold shareFrom at hgives
    split at hgives
    · next hc => exact ⟨init.id, hc⟩
    · cases hgives
  · rintro ⟨init, hc⟩
    obtain ⟨node, hm, hk, rfl⟩ := hr.of_carries hc
    refine ⟨node, by simp [hm, hk], ?_⟩
    unfold shareFrom
    rw [if_pos hc]
    rfl

theorem exists_last (hm : (place, depth) ∈ weights) :
    ∃ init, IsGreatest {init | Carries parent nodes init depth place} init := by
  refine BddAbove.exists_isGreatest_of_nonempty ⟨nodes.size, ?_⟩ ((h.mem_weightsOf hr hok).mp hm)
  intro init hc
  obtain ⟨node, hn, -, rfl⟩ := hr.of_carries hc
  exact (Array.getElem?_eq_some_iff.mp (h.mem_getElem? hn)).1.le

/-- The last init node that gives a place a share at a depth decides. -/
theorem weight_of_last {init : Nat} (hlast : IsGreatest {init | Carries parent nodes init depth place} init) :
    weights[(place, depth)]? = some ⟨workThrough parent nodes init depth place, workInto nodes init depth⟩ := by
  obtain ⟨node, hm, hk, rfl⟩ := hr.of_carries hlast.1
  have hgives : shareFrom parent nodes depth place node =
      some ⟨workThrough parent nodes node.id depth place, workInto nodes node.id depth⟩ := if_pos hlast.1
  have hm : node ∈ nodes.toList.filter (·.kind = .init) := by simp [hm, hk]
  obtain ⟨before, after, hsplit⟩ := List.append_of_mem hm
  have hnone : ∀ later ∈ after.reverse, shareFrom parent nodes depth place later = none := by
    intro later hl
    have hsorted := h.inits_sorted
    rw [hsplit, List.pairwise_append, List.pairwise_cons] at hsorted
    have hlt : node.id < later.id := hsorted.2.1.1 later (List.mem_reverse.mp hl)
    refine if_neg fun hc => ?_
    have hle : later.id ≤ node.id := hlast.2 hc
    omega
  rw [h.getElem?_weightsOf hok, hsplit, List.reverse_append, List.reverse_cons, List.append_assoc,
    List.findSome?_append, List.findSome?_eq_none_iff.mpr hnone, Option.none_or, List.singleton_append,
    List.findSome?_cons, hgives]

end Placed

/-! ### Weights of a tree -/

/-- Weights are found unless some sink is not below its init node. A place has a weight at a depth if it is on the
way of a sink with counters there; the last init node that such sinks lead back to gives the weight. -/
theorem weightsOf_closed_form {forest : Forest} (h : forest.Linked) (hr : Resolved forest.nodes) :
    ((∃ sink init, weightsOf forest.nodes = .error (.sinkOutsideRecursion sink init)) ↔
      ∃ sink ∈ forest.nodes, sink.kind = .sink ∧ ∃ init, sink.target = some init ∧
        ¬ Ancestor forest.parentOf init sink.id) ∧
    ((∀ sink ∈ forest.nodes, sink.kind = .sink → ∀ init, sink.target = some init →
        Ancestor forest.parentOf init sink.id) →
      ∃ weights, weightsOf forest.nodes = .ok weights ∧ ∀ place depth,
        ((place, depth) ∈ weights ↔ ∃ init, Carries forest.parentOf forest.nodes init depth place) ∧
        ((place, depth) ∈ weights → ∃ init,
          IsGreatest {init | Carries forest.parentOf forest.nodes init depth place} init ∧
          (weights[(place, depth)]?.map Share.value : Option Float) =
            some (if workInto forest.nodes init depth = 0 then Quantity.count 0 else
              Quantity.count (workThrough forest.parentOf forest.nodes init depth place) /
                Quantity.count (workInto forest.nodes init depth)))) := by
  have hplaced := h.placed
  have hknown : ∀ sink ∈ forest.nodes, sink.kind = .sink → sink.target.isSome := by
    intro sink hs hk
    obtain ⟨init, -, -, ht⟩ := hr sink hs hk
    rw [ht]
    rfl
  refine ⟨⟨?_, ?_⟩, ?_⟩
  · rintro ⟨sinkUid, initUid, herror⟩
    obtain ⟨sink, hs, hk, init, -, ht, hout, -⟩ := hplaced.weightsOf_eq_error herror hknown
    exact ⟨sink, hs, hk, init.id, ht, hout⟩
  · rintro ⟨sink, hs, hk, init, ht, hout⟩
    cases hweights : weightsOf forest.nodes with
    | error fault =>
      obtain ⟨sink, -, -, init, -, -, -, rfl⟩ := hplaced.weightsOf_eq_error hweights hknown
      exact ⟨sink.uid, init.uid, rfl⟩
    | ok weights =>
      have hbelow := ((weightsOf_isOk hplaced).mp ⟨weights, hweights⟩).below
      obtain ⟨node, hi, hkind, htarget⟩ := hr sink hs hk
      rw [ht, Option.some.injEq] at htarget
      subst htarget
      exact absurd (hbelow sink hs hk node hi hkind ht) hout
  · intro hall
    have hbelow : SinksBelow forest.parentOf forest.nodes :=
      ⟨hknown, fun sink hs hk init _ _ ht => hall sink hs hk init.id ht⟩
    obtain ⟨weights, hweights⟩ := (weightsOf_isOk hplaced).mpr hbelow
    refine ⟨weights, hweights, fun place depth => ⟨hplaced.mem_weightsOf hr hweights, ?_⟩⟩
    intro hm
    obtain ⟨init, hlast⟩ := hplaced.exists_last hr hweights hm
    refine ⟨init, hlast, ?_⟩
    rw [hplaced.weight_of_last hr hweights hlast]
    rfl

instance : DecidablePred Resolved := fun nodes => decidable_of_iff
  (∀ sink ∈ nodes.toList, sink.kind = .sink → ∃ init ∈ nodes.toList, init.kind = .init ∧ sink.target = some init.id)
  (by simp [Resolved])

theorem weightsOf_closed_form_nested :
    let records : List Record :=
      [⟨1, 0, 0, .init, 0, 1, false, [2, 3], [.ofWork 1 1000 500]⟩,
        ⟨2, 0, 0, .init, 0, 1, false, [4, 5], [.ofWork 1 1000 500]⟩,
        ⟨3, 0, 0, .sink, 1, 1, false, [], [.ofWork 1 300 300]⟩,
        ⟨4, 0, 0, .sink, 1, 1, false, [], [.ofWork 1 100 100]⟩,
        ⟨5, 0, 0, .sink, 2, 1, false, [], [.ofWork 1 50 50]⟩]
    ∃ forest weights, Forest.build .initial records = .ok forest ∧ Resolved forest.nodes ∧
      weightsOf forest.nodes = .ok weights ∧ weights[(1, 0)]? = some ⟨50, 50⟩ ∧ weights[(0, 0)]? = some ⟨400, 400⟩ ∧
      ∃ init, Carries forest.parentOf forest.nodes init 0 1 := by
  intro records
  have hrun : (Forest.build .initial records >>= fun forest => (forest, ·) <$> weightsOf forest.nodes).toOption.map
      (fun (forest, weights) => (decide (Resolved forest.nodes), weights[(1, 0)]?, weights[(0, 0)]?)) =
        some (true, some ⟨50, 50⟩, some ⟨400, 400⟩) := by decide +kernel
  obtain ⟨⟨forest, weights⟩, hok, hread⟩ := toOption_map_eq_some.mp hrun
  obtain ⟨built, hb, hweights⟩ := bind_eq_ok.mp hok
  obtain ⟨found, hfound, heq⟩ := map_eq_ok.mp hweights
  cases heq
  simp only [Prod.mk.injEq, decide_eq_true_eq] at hread
  obtain ⟨hr, hinner, houter⟩ := hread
  obtain ⟨hfault, hclosed⟩ := weightsOf_closed_form (build_linked hb) hr
  have hall : ∀ sink ∈ forest.nodes, sink.kind = .sink → ∀ init, sink.target = some init →
      Ancestor forest.parentOf init sink.id := by
    intro sink hs hk init ht
    by_contra hout
    obtain ⟨sinkUid, initUid, herror⟩ := hfault.mpr ⟨sink, hs, hk, init, ht, hout⟩
    rw [hfound] at herror
    cases herror
  obtain ⟨same, hsame, hentries⟩ := hclosed hall
  rw [hfound] at hsame
  cases hsame
  have hm : (1, 0) ∈ weights := by
    rw [Std.TreeMap.mem_iff_isSome_getElem?, hinner]
    rfl
  exact ⟨forest, weights, hb, hr, hfound, hinner, houter, (hentries 1 0).1.mp hm⟩

end RegionPlanner
