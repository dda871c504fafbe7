import RegionPlanner.Proofs.Weights.Tally
import RegionPlanner.Proofs.Weights.Ways

/-!
# Shares of work

What the loops over init nodes, depths and sinks leave behind: at each place and depth the share that the
last init node gives there, which is the work of its sinks below the place out of the work of all its sinks.
-/

namespace RegionPlanner

instance lawfulEqCmp_lex :
    Std.LawfulEqCmp (compareLex (compareOn (Prod.fst : Nat × Nat → Nat)) (compareOn Prod.snd)) where
  eq_of_compare h := by
    simp only [compareLex, compareOn, Ordering.then_eq_eq, Nat.compare_eq_eq] at h
    exact Prod.ext h.1 h.2

variable {place depth deep : Nat} {paths : List SinkPath} {weights : Weights}

/-! ### One depth -/

/-- The share that the ways to an init node give a place at a depth. -/
def shareOf (init : Nat) (paths : List SinkPath) (depth place : Nat) : Share :=
  ⟨(Tally.ofPaths paths depth).workAt place, (Tally.ofPaths paths depth).workAt init⟩

theorem getElem?_insert_share {entry : Nat × Nat} {share : Share} : (weights.insert entry share)[(place, deep)]? =
    if entry = (place, deep) then some share else weights[(place, deep)]? := by
  rw [Std.TreeMap.getElem?_insert]
  simp only [Std.LawfulEqCmp.compare_eq_iff_eq]

theorem getElem?_addDepth (init : Nat) : (addDepth init paths weights depth)[(place, deep)]? =
    if deep = depth ∧ place ∈ Tally.ofPaths paths depth then some (shareOf init paths depth place)
    else weights[(place, deep)]? := by
  have entries : ∀ (rest : List (Nat × Nat)) (weights : Weights),
      (∀ entry ∈ rest, entry.2 = (Tally.ofPaths paths depth).workAt entry.1) →
      (rest.foldl (fun weights entry => weights.insert (entry.1, depth)
        ⟨entry.2, (Tally.ofPaths paths depth).workAt init⟩) weights)[(place, deep)]? =
      if deep = depth ∧ place ∈ rest.map Prod.fst then some (shareOf init paths depth place)
      else weights[(place, deep)]? := by
    intro rest
    induction rest with
    | nil => simp
    | cons entry rest ih =>
      intro weights hwork
      rw [List.forall_mem_cons] at hwork
      rw [List.foldl_cons, ih _ hwork.2, getElem?_insert_share]
      simp only [List.map_cons, List.mem_cons]
      by_cases hsame : entry.1 = place
      · subst hsame
        by_cases hd : depth = deep
        · subst hd
          rw [hwork.1]
          simp [shareOf]
        · simp [hd, Ne.symm hd]
      · have hother : ¬ place = entry.1 := Ne.symm hsame
        have hentry : ¬ (entry.1, depth) = (place, deep) := fun heq => hsame (Prod.mk.inj heq).1
        simp only [hother, hentry, false_or, if_false]
  have hkeys : place ∈ (Tally.ofPaths paths depth).toList.map Prod.fst ↔ place ∈ Tally.ofPaths paths depth := by
    rw [Std.TreeMap.map_fst_toList_eq_keys, Std.TreeMap.mem_keys]
  unfold addDepth
  simp only
  rw [Std.TreeMap.foldl_eq_foldl_toList, entries]
  · simp only [hkeys]
  intro entry hentry
  rw [Std.TreeMap.mem_toList_iff_getElem?_eq_some] at hentry
  unfold Tally.workAt
  rw [Std.TreeMap.getD_eq_getD_getElem?, hentry]
  rfl

/-! ### All depths -/

theorem depths_le_deepest {path : SinkPath} (hp : path ∈ paths) : path.sink.depths ≤ deepest paths := by
  have from_start : ∀ (depths : List Nat) (start : Nat), start ≤ depths.foldl max start ∧
      ∀ depth ∈ depths, depth ≤ depths.foldl max start := by
    intro depths
    induction depths with
    | nil => simp
    | cons first depths ih =>
      intro start
      obtain ⟨hstart, hall⟩ := ih (max start first)
      rw [List.foldl_cons, List.forall_mem_cons]
      exact ⟨by omega, by omega, hall⟩
  exact (from_start _ 0).2 _ (List.mem_map_of_mem hp)

theorem getElem?_addDepths (init : Nat) :
    ((List.range (deepest paths)).foldl (addDepth init paths) weights)[(place, depth)]? =
      if place ∈ Tally.ofPaths paths depth then some (shareOf init paths depth place)
      else weights[(place, depth)]? := by
  have so_far : ∀ count, ((List.range count).foldl (addDepth init paths) weights)[(place, depth)]? =
      if depth < count ∧ place ∈ Tally.ofPaths paths depth then some (shareOf init paths depth place)
      else weights[(place, depth)]? := by
    intro count
    induction count with
    | zero => simp
    | succ count ih =>
      rw [List.range_succ, List.foldl_append, List.foldl_cons, List.foldl_nil, getElem?_addDepth, ih]
      by_cases hlast : depth = count
      · subst hlast
        simp
      · have hlt : depth < count + 1 ↔ depth < count := by omega
        simp [hlast, hlt]
  have hdepth : depth < deepest paths ∧ place ∈ Tally.ofPaths paths depth ↔ place ∈ Tally.ofPaths paths depth := by
    refine and_iff_right_of_imp ?_
    intro hm
    obtain ⟨path, hp, hlt, -⟩ := Tally.mem_ofPaths.mp hm
    exact Nat.lt_of_lt_of_le hlt (depths_le_deepest hp)
  rw [so_far]
  simp only [hdepth]

end RegionPlanner
