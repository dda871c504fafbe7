import Mathlib.Logic.Relation
import RegionPlanner.Forest.Reach
import RegionPlanner.Proofs.Places

/-!
# What the search finds

The search visits only what can be reached, nothing twice, and if no step fails, all of it.
-/

namespace RegionPlanner

namespace Reach

/-! ### Found places -/

structure Found.Valid (count : Nat) (found : Found) : Prop where
  size : found.known.size = count
  known : ∀ place, found.known[place]? = some true ↔ place ∈ found.order
  nodup : found.order.toList.Nodup

namespace Found.Valid

variable {count place : Nat} {found : Found}

theorem lt (h : found.Valid count) (hm : place ∈ found.order) : place < count := by
  have hk := (h.known place).mpr hm
  obtain ⟨hlt, -⟩ := Array.getElem?_eq_some_iff.mp hk
  rw [← h.size]
  exact hlt

theorem size_le (h : found.Valid count) : found.order.size ≤ count := by
  have hb : ∀ p ∈ found.order.toList, p < count := fun p hp => h.lt (Array.mem_toList_iff.mp hp)
  have hle := length_le_of_nodup h.nodup hb
  rwa [Array.length_toList] at hle

theorem add_cases (h : found.Valid count) (hlt : place < count) :
    (place ∈ found.order ∧ found.add place = found) ∨
    (place ∉ found.order ∧
      found.add place = ⟨found.order.push place, found.known.setIfInBounds place true⟩) := by
  unfold Found.add
  cases hk : found.known[place]? with
  | none =>
    rw [Array.getElem?_eq_none_iff, h.size] at hk
    omega
  | some known =>
    cases known with
    | true => exact .inl ⟨(h.known place).mp hk, rfl⟩
    | false =>
      refine .inr ⟨?_, rfl⟩
      intro hm
      rw [(h.known place).mpr hm] at hk
      cases hk

theorem add (h : found.Valid count) (hlt : place < count) : (found.add place).Valid count := by
  rcases h.add_cases hlt with ⟨-, heq⟩ | ⟨hnew, heq⟩
  · rw [heq]
    exact h
  · rw [heq]
    refine ⟨by simp [h.size], ?_, ?_⟩
    · intro other
      have hother := h.known other
      have hplace : place < found.known.size := by rw [h.size]; exact hlt
      rw [Array.getElem?_setIfInBounds, Array.mem_push]
      by_cases hsame : place = other
      · subst hsame
        simp [hplace]
      · simp [hsame, Ne.symm hsame, hother]
    · rw [Array.toList_push]
      refine List.nodup_append.mpr ⟨h.nodup, by simp, ?_⟩
      intro a ha b hb
      rw [List.mem_singleton] at hb
      rintro rfl
      exact hnew (hb ▸ Array.mem_toList_iff.mp ha)

theorem mem_add (h : found.Valid count) (hlt : place < count) {other : Nat} :
    other ∈ (found.add place).order ↔ other ∈ found.order ∨ other = place := by
  rcases h.add_cases hlt with ⟨hold, heq⟩ | ⟨-, heq⟩
  · rw [heq]
    constructor
    · exact .inl
    · rintro (hm | rfl)
      · exact hm
      · exact hold
  · rw [heq, Array.mem_push]

theorem add_prefix (h : found.Valid count) (hlt : place < count) :
    found.order.toList <+: (found.add place).order.toList := by
  rcases h.add_cases hlt with ⟨-, heq⟩ | ⟨-, heq⟩
  · exact ⟨[], by rw [heq, List.append_nil]⟩
  · rw [heq, Array.toList_push]
    exact List.prefix_append _ _

theorem add_all {places : List Nat} (h : found.Valid count) (hlt : ∀ p ∈ places, p < count) :
    (places.foldl Found.add found).Valid count ∧
    found.order.toList <+: (places.foldl Found.add found).order.toList ∧
    ∀ other, other ∈ (places.foldl Found.add found).order ↔ other ∈ found.order ∨ other ∈ places := by
  induction places generalizing found with
  | nil => exact ⟨h, List.prefix_refl _, by simp⟩
  | cons place places ih =>
    have hplace : place < count := hlt place List.mem_cons_self
    obtain ⟨hvalid, hprefix, hmem⟩ :=
      ih (h.add hplace) (fun p hp => hlt p (List.mem_cons_of_mem _ hp))
    refine ⟨hvalid, (h.add_prefix hplace).trans hprefix, ?_⟩
    intro other
    rw [List.foldl_cons, hmem other, h.mem_add hplace, List.mem_cons, or_assoc]

end Found.Valid

theorem Found.start_valid {count start : Nat} (h : start < count) :
    (Found.start count start).Valid count ∧ ∀ other, other ∈ (Found.start count start).order ↔ other = start := by
  have hempty : Found.Valid count ⟨#[], Array.replicate count false⟩ := by
    refine ⟨by simp, ?_, by simp⟩
    intro place
    rw [Array.getElem?_replicate]
    split <;> simp
  refine ⟨hempty.add h, ?_⟩
  intro other
  rw [Found.start, hempty.mem_add h]
  simp

/-! ### Visits -/

section
variable {ε : Type} {next : Nat → Except ε (List Nat)} {count start : Nat}

/-- One place is among those that the step from the other gives. -/
def Steps (next : Nat → Except ε (List Nat)) (place other : Nat) : Prop :=
  ∃ places, next place = .ok places ∧ other ∈ places

/-- The places before position `done` have been visited. -/
structure Visiting (next : Nat → Except ε (List Nat)) (count start done : Nat) (found : Found) : Prop where
  valid : found.Valid count
  done_le : done ≤ found.order.size
  start_mem : start ∈ found.order
  sound : ∀ place ∈ found.order, Relation.ReflTransGen (Steps next) start place
  closed : ∀ i < done, ∀ place, found.order[i]? = some place →
    ∃ places, next place = .ok places ∧ ∀ other ∈ places, other ∈ found.order

/-- What is known of the end of a search. -/
structure Complete (next : Nat → Except ε (List Nat)) (start : Nat) (reach : Reach ε) : Prop where
  nodup : reach.visited.Nodup
  sound : ∀ place ∈ reach.visited, Relation.ReflTransGen (Steps next) start place
  closed : reach.failure = none → start ∈ reach.visited ∧
    ∀ place ∈ reach.visited, ∃ places, next place = .ok places ∧ ∀ other ∈ places, other ∈ reach.visited
  failed : ∀ failure, reach.failure = some failure → ∃ place ∈ reach.visited, next place = .error failure

namespace Visiting

variable {done place : Nat} {found : Found}

theorem finish (h : Visiting next count start done found) (hdone : found.order.size ≤ done) :
    Complete next start ⟨found.order.toList, none⟩ := by
  refine ⟨h.valid.nodup, ?_, ?_, by simp⟩
  · intro place hm
    exact h.sound place (Array.mem_toList_iff.mp hm)
  · intro _
    refine ⟨Array.mem_toList_iff.mpr h.start_mem, ?_⟩
    intro place hm
    obtain ⟨i, hi⟩ := List.getElem?_of_mem hm
    rw [Array.getElem?_toList] at hi
    have hlt : i < found.order.size := (Array.getElem?_eq_some_iff.mp hi).1
    obtain ⟨places, hnext, hsub⟩ := h.closed i (by omega) place hi
    exact ⟨places, hnext, fun other ho => Array.mem_toList_iff.mpr (hsub other ho)⟩

theorem fail {failure : ε} (h : Visiting next count start done found) (hplace : found.order[done]? = some place)
    (hnext : next place = .error failure) :
    Complete next start ⟨(found.order.take (done + 1)).toList, some failure⟩ := by
  have htake : (found.order.take (done + 1)).toList = found.order.toList.take (done + 1) := by simp
  have hsub : ∀ p ∈ (found.order.take (done + 1)).toList, p ∈ found.order := by
    intro p hp
    rw [htake] at hp
    exact Array.mem_toList_iff.mp (List.mem_of_mem_take hp)
  refine ⟨?_, fun p hp => h.sound p (hsub p hp), by simp, ?_⟩
  · change (found.order.take (done + 1)).toList.Nodup
    rw [htake]
    exact h.valid.nodup.sublist (List.take_sublist _ _)
  · intro failure' heq
    cases heq
    refine ⟨place, ?_, hnext⟩
    change place ∈ (found.order.take (done + 1)).toList
    rw [htake, List.mem_iff_getElem?]
    refine ⟨done, ?_⟩
    rw [List.getElem?_take_of_lt (Nat.lt_succ_self done), Array.getElem?_toList]
    exact hplace

theorem step {places : List Nat} (h : Visiting next count start done found)
    (hplace : found.order[done]? = some place) (hnext : next place = .ok places)
    (hlt : ∀ p ∈ places, p < count) :
    Visiting next count start (done + 1) (places.foldl Found.add found) := by
  obtain ⟨hvalid, hprefix, hmem⟩ := h.valid.add_all hlt
  have hlength := hprefix.length_le
  rw [Array.length_toList, Array.length_toList] at hlength
  obtain ⟨hdone, hget⟩ := Array.getElem?_eq_some_iff.mp hplace
  have hfound : place ∈ found.order := by
    rw [← hget]
    exact Array.getElem_mem hdone
  have hkeep : ∀ i < found.order.size, (places.foldl Found.add found).order[i]? = found.order[i]? := by
    intro i hi
    rw [← Array.getElem?_toList, ← Array.getElem?_toList]
    obtain ⟨rest, hrest⟩ := hprefix
    rw [← hrest, List.getElem?_append_left (by rw [Array.length_toList]; exact hi)]
  refine ⟨hvalid, by omega, (hmem start).mpr (.inl h.start_mem), ?_, ?_⟩
  · intro other ho
    rcases (hmem other).mp ho with ho | ho
    · exact h.sound other ho
    · exact (h.sound place hfound).tail ⟨places, hnext, ho⟩
  · -- The queue only grows at its end, so what was closed stays closed, and the place just visited is new.
    intro i hi other hother
    rw [hkeep i (by omega)] at hother
    by_cases hlast : i < done
    · obtain ⟨others, hn, hsub⟩ := h.closed i hlast other hother
      exact ⟨others, hn, fun q hq => (hmem q).mpr (.inl (hsub q hq))⟩
    · have hi' : i = done := by omega
      subst hi'
      rw [hplace] at hother
      cases hother
      exact ⟨places, hnext, fun q hq => (hmem q).mpr (.inr hq)⟩

/-- No place is found twice, so the fuel lasts until every found place has been visited. -/
theorem run (hb : ∀ place places, next place = .ok places → ∀ p ∈ places, p < count) (fuel : Nat)
    (h : Visiting next count start done found) (hfuel : count ≤ fuel + done) :
    Complete next start (visit next fuel done found) := by
  induction fuel generalizing done found with
  | zero =>
    have hsize := h.valid.size_le
    have hdone := h.done_le
    have hall : found.order.take done = found.order := by
      rw [Array.take_eq_extract, Array.extract_eq_self_of_le (by omega)]
    rw [visit, hall]
    exact h.finish (by omega)
  | succ fuel ih =>
    rw [visit]
    cases hplace : found.order[done]? with
    | none =>
      rw [Array.getElem?_eq_none_iff] at hplace
      exact h.finish hplace
    | some place =>
      simp only
      cases hnext : next place with
      | error failure => exact h.fail hplace hnext
      | ok places => exact ih (h.step hplace hnext (hb place places hnext)) (by omega)

end Visiting

theorem search_complete (hb : ∀ place places, next place = .ok places → ∀ p ∈ places, p < count)
    (hs : start < count) : Complete next start (search next count start) := by
  obtain ⟨hvalid, hmem⟩ := Found.start_valid hs
  have first : Visiting next count start 0 (Found.start count start) := by
    refine ⟨hvalid, by omega, (hmem start).mpr rfl, ?_, by omega⟩
    intro place hm
    rw [(hmem place).mp hm]
  exact first.run hb count (by omega)

theorem Complete.mem_iff {reach : Reach ε} (h : Complete next start reach) (hf : reach.failure = none)
    {place : Nat} : place ∈ reach.visited ↔ Relation.ReflTransGen (Steps next) start place := by
  constructor
  · exact h.sound place
  · intro hr
    obtain ⟨hstart, hclosed⟩ := h.closed hf
    induction hr with
    | refl => exact hstart
    | tail _ hstep ih =>
      obtain ⟨places, hnext, hsub⟩ := hclosed _ ih
      obtain ⟨places', hnext', hm⟩ := hstep
      rw [hnext] at hnext'
      cases hnext'
      exact hsub _ hm

/-- As many places are visited as there are exactly if each can be reached. -/
theorem search_all (hb : ∀ place places, next place = .ok places → ∀ p ∈ places, p < count) (hs : start < count)
    (hf : (search next count start).failure = none) :
    (search next count start).visited.length = count ↔
      ∀ place < count, Relation.ReflTransGen (Steps next) start place := by
  have hcomplete := search_complete hb hs
  have hmem : ∀ place, place ∈ (search next count start).visited ↔ Relation.ReflTransGen (Steps next) start place :=
    fun _ => hcomplete.mem_iff hf
  have hlt : ∀ p ∈ (search next count start).visited, p < count := by
    intro p hm
    rcases ((hmem p).mp hm).cases_tail with heq | ⟨above, -, places, hplaces, hmem⟩
    · rw [heq]
      exact hs
    · exact hb above places hplaces p hmem
  constructor
  · intro hlength place hp
    have hperm := perm_range_of_nodup hcomplete.nodup hlt (by omega)
    rw [← hmem, hperm.mem_iff, List.mem_range]
    exact hp
  · intro hall
    have hsub : List.range count ⊆ (search next count start).visited := by
      intro p hm
      exact (hmem p).mpr (hall p (List.mem_range.mp hm))
    have hle := (List.subperm_of_subset List.nodup_range hsub).length_le
    have hge := length_le_of_nodup hcomplete.nodup hlt
    rw [List.length_range] at hle
    exact Nat.le_antisymm hge hle

end

end Reach

end RegionPlanner
