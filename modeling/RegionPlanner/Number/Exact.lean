import RegionPlanner.Number.Quantity
import RegionPlanner.Number.Reading

/-!
# Exact quantities

The formulas over `Quantity` read over the rationals: counts are themselves, a stored double is the
fraction it stands for, and nothing is rounded.
-/

namespace RegionPlanner

instance : Quantity Rat where
  count n := n
  stored x := (Reading.ofFloat x).toRat
  emptySum := 0
  less x y := x < y
  atMost x y := x ≤ y

namespace Quantity

@[simp] theorem count_rat (n : Nat) : (count n : Rat) = n := rfl
@[simp] theorem emptySum_rat : (emptySum : Rat) = 0 := rfl
@[simp] theorem less_rat (x y : Rat) : less x y = decide (x < y) := rfl
@[simp] theorem atMost_rat (x y : Rat) : atMost x y = decide (x ≤ y) := rfl
@[simp] theorem isNumber_rat (x : Rat) : isNumber x = true := by simp [isNumber]

theorem larger_rat (x y : Rat) : larger x y = if x ≤ y then y else x := by simp [larger]
theorem smaller_rat (x y : Rat) : smaller x y = if y ≤ x then y else x := by simp [smaller]

end Quantity

end RegionPlanner
