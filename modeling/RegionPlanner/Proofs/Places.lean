import Mathlib.Data.List.Perm.Subperm

/-!
# Lists of places

A list of different places below a bound is no longer than the bound, and if it is as long, it has them all.
-/

namespace RegionPlanner

variable {places : List Nat} {count : Nat}

theorem length_le_of_nodup (hn : places.Nodup) (hb : ∀ p ∈ places, p < count) : places.length ≤ count := by
  have hsub : places ⊆ List.range count := fun p hp => List.mem_range.mpr (hb p hp)
  have hle := (List.subperm_of_subset hn hsub).length_le
  rwa [List.length_range] at hle

theorem perm_range_of_nodup (hn : places.Nodup) (hb : ∀ p ∈ places, p < count) (hl : count ≤ places.length) :
    places.Perm (List.range count) := by
  have hsub : places ⊆ List.range count := fun p hp => List.mem_range.mpr (hb p hp)
  refine (List.subperm_of_subset hn hsub).perm_of_length_le ?_
  rwa [List.length_range]

end RegionPlanner
