import RegionPlanner.Proofs.Forest.Sinks

/-!
# Ways

The way from a sink up to its init node passes each strict ancestor of the sink in the subtree of the init
node, once, and nothing else.
-/

namespace RegionPlanner

variable {parent : Nat → Option Nat} {nodes : Array Node} {root place above goal init : Nat} {places path : List Nat}
  {sink : Node}

/-- The strict ancestors of a place are its parent and the strict ancestors of that. -/
theorem ancestor_iff_within {next : Nat} (hp : parent place = some next) :
    Ancestor parent above place ↔ Within parent above next := by
  constructor
  · intro ha
    obtain ⟨last, hwithin, hcovers⟩ := Relation.TransGen.tail'_iff.mp ha
    rw [Covers, hp] at hcovers
    cases hcovers
    exact hwithin
  · intro hwithin
    exact Relation.TransGen.tail' hwithin hp

theorem pathTo_sublist (h : pathTo goal places = some path) : path.Sublist places := by
  induction places generalizing path with
  | nil => cases h
  | cons place places ih =>
    unfold pathTo at h
    split at h
    · cases h
      exact (List.nil_sublist places).cons_cons place
    · obtain ⟨rest, hrest, rfl⟩ := Option.map_eq_some_iff.mp h
      exact (ih hrest).cons_cons place

theorem Chain.mem_pathTo (hc : Chain parent place places) (h : pathTo goal places = some path) :
    above ∈ path ↔ Ancestor parent above place ∧ Within parent goal above := by
  induction hc generalizing path with
  | top => cases h
  | @up place next places hp rest ih =>
    have hnext : Ancestor parent above place ↔ next = above ∨ Ancestor parent above next :=
      (ancestor_iff_within hp).trans within_iff
    unfold pathTo at h
    rw [hnext]
    split at h
    · next hgoal =>
      -- Nothing above the goal is in its subtree.
      cases h
      subst hgoal
      have hcycle : ¬ Ancestor parent next next := fun ha => rest.not_mem (rest.mem_iff.mpr ha)
      rw [List.mem_singleton]
      constructor
      · rintro rfl
        exact ⟨.inl rfl, Within.refl⟩
      · rintro ⟨rfl | ha, hwithin⟩
        · rfl
        · exact absurd (Relation.TransGen.trans_right hwithin ha) hcycle
    · obtain ⟨way, hway, rfl⟩ := Option.map_eq_some_iff.mp h
      have hgoal : Ancestor parent goal next := rest.mem_iff.mp (pathTo_isSome.mp ⟨way, hway⟩)
      rw [List.mem_cons, ih hway]
      constructor
      · rintro (rfl | ⟨ha, hwithin⟩)
        · exact ⟨.inl rfl, hgoal.to_reflTransGen⟩
        · exact ⟨.inr ha, hwithin⟩
      · rintro ⟨rfl | ha, hwithin⟩
        · exact .inl rfl
        · exact .inr ⟨ha, hwithin⟩

/-- The way from a sink up to an init node; none if it is not above the sink. -/
def wayUp (nodes : Array Node) (init : Nat) (sink : Node) : List Nat :=
  (pathTo init ((ancestorsIn nodes sink).map (·.id))).getD []

namespace Placed

variable (h : Placed parent root nodes) (hs : sink ∈ nodes) (hbelow : Ancestor parent init sink.id)
include h hs hbelow

theorem pathTo_eq : pathTo init ((ancestorsIn nodes sink).map (·.id)) = some (wayUp nodes init sink) := by
  obtain ⟨path, hpath⟩ := pathTo_isSome.mpr ((h.ancestorsIn_ids hs).mem_iff.mpr hbelow)
  unfold wayUp
  rw [hpath]
  rfl

theorem mem_wayUp : place ∈ wayUp nodes init sink ↔ Ancestor parent place sink.id ∧ Within parent init place :=
  (h.ancestorsIn_ids hs).mem_pathTo (h.pathTo_eq hs hbelow)

theorem wayUp_nodup : (wayUp nodes init sink).Nodup :=
  (h.ancestorsIn_ids hs).nodup.sublist (pathTo_sublist (h.pathTo_eq hs hbelow))

end Placed

theorem Placed.sinkPath_eq_ok (h : Placed parent root nodes) {init : Node} {out : SinkPath} (hs : sink ∈ nodes) :
    sinkPath nodes init sink = .ok out ↔
      Ancestor parent init.id sink.id ∧ ⟨sink, wayUp nodes init.id sink⟩ = out := by
  constructor
  · intro hok
    have hbelow := (h.sinkPath_isOk hs).mp ⟨out, hok⟩
    refine ⟨hbelow, ?_⟩
    unfold sinkPath at hok
    rw [h.pathTo_eq hs hbelow] at hok
    exact Except.ok.inj hok
  · rintro ⟨hbelow, rfl⟩
    unfold sinkPath
    rw [h.pathTo_eq hs hbelow]

end RegionPlanner
