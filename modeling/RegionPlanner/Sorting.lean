/-!
# Sorting

`sorted le xs` puts a list into order by insertion; elements that may stand either way keep their order.
Main statements: the result has the same elements, each of them may precede every later one, and those that may all stand
before each other stand as they did.
-/

namespace RegionPlanner

variable {α : Type}

/-- Inserts an element before the first one that it may precede. -/
def insertSorted (le : α → α → Bool) (x : α) : List α → List α
  | [] => [x]
  | y :: ys => if le x y then x :: y :: ys else y :: insertSorted le x ys

def sorted (le : α → α → Bool) : List α → List α
  | [] => []
  | x :: xs => insertSorted le x (sorted le xs)

/-! ### The same elements -/

theorem insertSorted_perm (le : α → α → Bool) (x : α) (ys : List α) :
    (insertSorted le x ys).Perm (x :: ys) := by
  induction ys with
  | nil => exact .refl _
  | cons y ys ih =>
    simp only [insertSorted]
    split
    · exact .refl _
    · exact (ih.cons y).trans (.swap x y ys)

theorem sorted_perm (le : α → α → Bool) (xs : List α) : (sorted le xs).Perm xs := by
  induction xs with
  | nil => exact .refl _
  | cons x xs ih => exact (insertSorted_perm le x _).trans (ih.cons x)

theorem mem_sorted {le : α → α → Bool} {x : α} {xs : List α} : x ∈ sorted le xs ↔ x ∈ xs :=
  (sorted_perm le xs).mem_iff

/-! ### The order -/

theorem pairwise_insertSorted {le : α → α → Bool} {x : α} {ys : List α}
    (trans : ∀ a ∈ ys, ∀ b ∈ ys, le x a → le a b → le x b) (total : ∀ a ∈ ys, le x a ∨ le a x)
    (h : ys.Pairwise (le · ·)) : (insertSorted le x ys).Pairwise (le · ·) := by
  induction ys with
  | nil => simp [insertSorted]
  | cons y ys ih =>
    have hy : ∀ a ∈ ys, le y a := (List.pairwise_cons.mp h).1
    simp only [insertSorted]
    split
    · rename_i hxy
      refine List.pairwise_cons.mpr ⟨fun a ha => ?_, h⟩
      rcases List.mem_cons.mp ha with rfl | ha
      · exact hxy
      · exact trans y List.mem_cons_self a (List.mem_cons_of_mem _ ha) hxy (hy a ha)
    · rename_i hxy
      have rest := ih (fun a ha b hb => trans a (List.mem_cons_of_mem _ ha) b (List.mem_cons_of_mem _ hb))
        (fun a ha => total a (List.mem_cons_of_mem _ ha)) (List.pairwise_cons.mp h).2
      refine List.pairwise_cons.mpr ⟨fun a ha => ?_, rest⟩
      rcases List.mem_cons.mp ((insertSorted_perm le x ys).mem_iff.mp ha) with rfl | ha
      · exact (total y List.mem_cons_self).resolve_left hxy
      · exact hy a ha

theorem pairwise_sorted {le : α → α → Bool} {xs : List α}
    (trans : ∀ a ∈ xs, ∀ b ∈ xs, ∀ c ∈ xs, le a b → le b c → le a c)
    (total : ∀ a ∈ xs, ∀ b ∈ xs, le a b ∨ le b a) : (sorted le xs).Pairwise (le · ·) := by
  induction xs with
  | nil => exact .nil
  | cons x xs ih =>
    have tail {a : α} (ha : a ∈ xs) : a ∈ x :: xs := List.mem_cons_of_mem _ ha
    refine pairwise_insertSorted
      (fun a ha b hb => trans x List.mem_cons_self a (tail (mem_sorted.mp ha)) b (tail (mem_sorted.mp hb)))
      (fun a ha => total x List.mem_cons_self a (tail (mem_sorted.mp ha)))
      (ih (fun a ha b hb c hc => trans a (tail ha) b (tail hb) c (tail hc))
        (fun a ha b hb => total a (tail ha) b (tail hb)))

/-! ### Elements that may stand either way -/

theorem filter_insertSorted {le : α → α → Bool} {keep : α → Bool} {x : α} {ys : List α}
    (h : keep x → ∀ y ∈ ys, keep y → le x y) : (insertSorted le x ys).filter keep = (x :: ys).filter keep := by
  induction ys with
  | nil => rfl
  | cons y ys ih =>
    simp only [insertSorted]
    split
    · rfl
    · rename_i hxy
      have hrest := ih fun hx z hz => h hx z (List.mem_cons_of_mem _ hz)
      -- `x` goes behind `y`, so not both are kept
      have hother : ¬ (keep x = true ∧ keep y = true) := fun hboth => hxy (h hboth.1 y List.mem_cons_self hboth.2)
      simp only [List.filter_cons, hrest]
      cases hx : keep x <;> cases hy : keep y <;> simp_all

theorem filter_sorted {le : α → α → Bool} {keep : α → Bool} {xs : List α}
    (h : ∀ x ∈ xs, ∀ y ∈ xs, keep x → keep y → le x y) : (sorted le xs).filter keep = xs.filter keep := by
  induction xs with
  | nil => rfl
  | cons x xs ih =>
    have hrest : (sorted le xs).filter keep = xs.filter keep :=
      ih fun a ha b hb => h a (List.mem_cons_of_mem _ ha) b (List.mem_cons_of_mem _ hb)
    have hfirst : keep x → ∀ y ∈ sorted le xs, keep y → le x y := fun hx y hy hky =>
      h x List.mem_cons_self y (List.mem_cons_of_mem _ (mem_sorted.mp hy)) hx hky
    rw [sorted, filter_insertSorted hfirst, List.filter_cons, List.filter_cons, hrest]

end RegionPlanner
