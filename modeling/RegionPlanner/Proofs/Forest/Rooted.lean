import Mathlib.Logic.Relation
import RegionPlanner.Proofs.Places

/-!
# Rooted trees of places

Places are numbers below a size, and each place but the root has one parent. If every place can be reached
from the root, then the way up from a place ends in the root and visits no place twice; so a place has fewer
strict ancestors than there are places, and facts can be carried from the children to their parents.
-/

namespace RegionPlanner

variable {parent : Nat → Option Nat} {size root place above below : Nat} {path : List Nat}

/-- One place is the parent of the other. -/
def Covers (parent : Nat → Option Nat) (above below : Nat) : Prop := parent below = some above

/-- One place is a strict ancestor of the other. -/
def Ancestor (parent : Nat → Option Nat) : Nat → Nat → Prop := Relation.TransGen (Covers parent)

/-- The second place is in the subtree of the first. -/
def Within (parent : Nat → Option Nat) : Nat → Nat → Prop := Relation.ReflTransGen (Covers parent)

theorem within_iff : Within parent place below ↔ below = place ∨ Ancestor parent place below :=
  Relation.reflTransGen_iff_eq_or_transGen

theorem Within.refl : Within parent place place := Relation.ReflTransGen.refl

theorem Within.child {child : Nat} (h : Within parent child below) (hc : parent child = some place) :
    Within parent place below := Relation.ReflTransGen.head hc h

/-- What is strictly below a place is in the subtree of one of its children. -/
theorem ancestor_iff : Ancestor parent place below ↔ ∃ child, parent child = some place ∧ Within parent child below :=
  Relation.TransGen.head'_iff

/-- The strict ancestors of a place, the nearest first. -/
inductive Chain (parent : Nat → Option Nat) : Nat → List Nat → Prop where
  | top {place : Nat} (h : parent place = none) : Chain parent place []
  | up {place above : Nat} {path : List Nat} (h : parent place = some above) (rest : Chain parent above path) :
    Chain parent place (above :: path)

namespace Chain

theorem unique {path' : List Nat} (h : Chain parent place path) (h' : Chain parent place path') :
    path = path' := by
  induction h generalizing path' with
  | top hp =>
    cases h' with
    | top => rfl
    | up hp' => rw [hp] at hp'; cases hp'
  | up hp rest ih =>
    cases h' with
    | top hp' => rw [hp] at hp'; cases hp'
    | up hp' rest' =>
      rw [hp] at hp'
      cases hp'
      rw [ih rest']

theorem drop (h : Chain parent place path) (hm : above ∈ path) :
    ∃ before after, path = before ++ above :: after ∧ Chain parent above after := by
  induction h with
  | top => cases hm
  | @up place next path hp rest ih =>
    rcases List.mem_cons.mp hm with rfl | hm
    · exact ⟨[], path, rfl, rest⟩
    · obtain ⟨before, after, hpath, hchain⟩ := ih hm
      exact ⟨next :: before, after, by rw [hpath]; rfl, hchain⟩

theorem not_mem (h : Chain parent place path) : place ∉ path := by
  intro hm
  obtain ⟨before, after, hpath, hchain⟩ := h.drop hm
  have hlength := congrArg List.length ((h.unique hchain).symm.trans hpath)
  rw [List.length_append, List.length_cons] at hlength
  omega

theorem nodup (h : Chain parent place path) : path.Nodup := by
  induction h with
  | top => exact List.nodup_nil
  | up hp rest ih => exact List.nodup_cons.mpr ⟨rest.not_mem, ih⟩

theorem mem_iff (h : Chain parent place path) : above ∈ path ↔ Ancestor parent above place := by
  constructor
  · intro hm
    induction h with
    | top => cases hm
    | up hp rest ih =>
      rcases List.mem_cons.mp hm with rfl | hm
      · exact .single hp
      · exact (ih hm).tail hp
  · intro ha
    induction ha generalizing path with
    | single hp =>
      cases h with
      | top hp' => rw [Covers, hp'] at hp; cases hp
      | up hp' rest =>
        rw [Covers, hp'] at hp
        cases hp
        exact List.mem_cons_self
    | tail _ hp ih =>
      cases h with
      | top hp' => rw [Covers, hp'] at hp; cases hp
      | up hp' rest =>
        rw [Covers, hp'] at hp
        cases hp
        exact List.mem_cons_of_mem _ (ih rest)

/-- What comes before a place in a chain is below it. -/
theorem below_of_append {before after : List Nat} (h : Chain parent place (before ++ above :: after)) :
    ∀ below ∈ before, Ancestor parent above below := by
  induction before generalizing place with
  | nil => simp
  | cons next before ih =>
    cases h with
    | up hp rest =>
      rw [List.forall_mem_cons]
      exact ⟨rest.mem_iff.mp List.mem_append_cons_self, ih rest⟩

/-- The last place of a chain is one without a parent. -/
theorem getLast?_top {last : Nat} (h : Chain parent place path) (hlast : path.getLast? = some last) :
    parent last = none := by
  induction h with
  | top => cases hlast
  | @up place above path hp rest ih =>
    cases rest with
    | top htop =>
      cases hlast
      exact htop
    | up hp' rest' =>
      rw [List.getLast?_cons_cons] at hlast
      exact ih hlast

end Chain

/-- Every place can be reached from the root, which has no parent. -/
structure Rooted (parent : Nat → Option Nat) (size root : Nat) : Prop where
  root_lt : root < size
  root_top : parent root = none
  bounded : ∀ {above below : Nat}, parent below = some above → above < size ∧ below < size
  reached : ∀ place < size, Relation.ReflTransGen (Covers parent) root place

namespace Rooted

theorem chain (tree : Rooted parent size root) (h : place < size) : ∃ path, Chain parent place path := by
  have hr := tree.reached place h
  clear h
  induction hr with
  | refl => exact ⟨[], .top tree.root_top⟩
  | tail _ hp ih =>
    obtain ⟨path, hpath⟩ := ih
    exact ⟨_ :: path, .up hp hpath⟩

theorem eq_root (tree : Rooted parent size root) (h : place < size) (hp : parent place = none) :
    place = root := by
  rcases (tree.reached place h).cases_tail with heq | ⟨above, -, hc⟩
  · exact heq
  · rw [Covers, hp] at hc
    cases hc

theorem mem_lt (tree : Rooted parent size root) (h : Chain parent place path) (hm : above ∈ path) :
    above < size := by
  induction h with
  | top => cases hm
  | up hp rest ih =>
    rcases List.mem_cons.mp hm with rfl | hm
    · exact (tree.bounded hp).1
    · exact ih hm

theorem length_lt (tree : Rooted parent size root) (h : place < size) (hc : Chain parent place path) :
    path.length < size := by
  have hnodup : (place :: path).Nodup := List.nodup_cons.mpr ⟨hc.not_mem, hc.nodup⟩
  have hbound : ∀ q ∈ place :: path, q < size := by
    intro q hq
    rcases List.mem_cons.mp hq with rfl | hq
    · exact h
    · exact tree.mem_lt hc hq
  have hle := length_le_of_nodup hnodup hbound
  rwa [List.length_cons] at hle

theorem ancestor_lt (tree : Rooted parent size root) (h : Ancestor parent above below) :
    above < size ∧ below < size := by
  induction h with
  | single hp => exact tree.bounded hp
  | tail _ hp ih => exact ⟨ih.1, (tree.bounded hp).2⟩

theorem irrefl (tree : Rooted parent size root) : ¬ Ancestor parent place place := by
  intro h
  obtain ⟨path, hpath⟩ := tree.chain (tree.ancestor_lt h).1
  exact hpath.not_mem (hpath.mem_iff.mpr h)

/-- A step up lengthens the room that is left below, so what the children pass on reaches every place. -/
theorem induction_up (tree : Rooted parent size root) {P : Nat → Prop}
    (step : ∀ place < size, (∀ child, parent child = some place → P child) → P place) :
    ∀ place < size, P place := by
  have bounded : ∀ room place path, place < size → Chain parent place path → size - path.length ≤ room →
      P place := by
    intro room
    induction room with
    | zero =>
      intro place path hlt hc hroom
      have hlength := tree.length_lt hlt hc
      omega
    | succ room ih =>
      intro place path hlt hc hroom
      refine step place hlt ?_
      intro child hp
      have hlength := tree.length_lt hlt hc
      refine ih child (place :: path) (tree.bounded hp).2 (.up hp hc) ?_
      rw [List.length_cons]
      omega
  intro place hlt
  obtain ⟨path, hc⟩ := tree.chain hlt
  exact bounded _ place path hlt hc (Nat.le_refl _)

/-- Two places below one are on one way down, or neither is above the other. -/
theorem comparable {low : Nat} (h : Ancestor parent above low) (h' : Ancestor parent below low) :
    above = below ∨ Ancestor parent above below ∨ Ancestor parent below above := by
  induction h with
  | single hp =>
    cases h' with
    | single hp' =>
      rw [Covers, hp] at hp'
      exact .inl (Option.some.inj hp')
    | tail ha hp' =>
      rw [Covers, hp] at hp'
      cases hp'
      exact .inr (.inr ha)
  | tail ha hp ih =>
    cases h' with
    | single hp' =>
      rw [Covers, hp] at hp'
      cases hp'
      exact .inr (.inl ha)
    | tail ha' hp' =>
      rw [Covers, hp] at hp'
      cases hp'
      exact ih ha'

/-- The subtrees of two children of a place have no place in common. -/
theorem siblings (tree : Rooted parent size root) {child child' : Nat} (hc : parent child = some place)
    (hc' : parent child' = some place) (h : Within parent child below) (h' : Within parent child' below) :
    child = child' := by
  have not_above : ∀ upper lower : Nat, parent upper = some place → parent lower = some place →
      ¬ Ancestor parent upper lower := by
    intro upper lower hu hl ha
    rcases Relation.TransGen.tail'_iff.mp ha with ⟨middle, hm, hcovers⟩
    rw [Covers, hl] at hcovers
    cases hcovers
    exact tree.irrefl (ancestor_iff.mpr ⟨upper, hu, hm⟩)
  rw [within_iff] at h h'
  rcases h with rfl | h
  · rcases h' with heq | h'
    · exact heq
    · exact absurd h' (not_above child' below hc' hc)
  · rcases h' with rfl | h'
    · exact absurd h (not_above child below hc hc')
    · rcases comparable h h' with heq | ha | ha
      · exact heq
      · exact absurd ha (not_above child child' hc hc')
      · exact absurd ha (not_above child' child hc' hc)

end Rooted

end RegionPlanner
