import RegionPlanner.Proofs.Number.Bounded

/-!
# Rounding keeps the order

A sum grows with its terms, a product and a quotient with their first operand, a quotient shrinks as its divisor grows, and
a difference shrinks as more is taken away: the exact results are so ordered, and neither rounding nor the cut at infinity
changes an order.
-/

namespace RegionPlanner

namespace Double

variable {x x' y y' : Float} {n n' : ℕ} {v v' : ℚ}

theorem cutOff_rounded_mono (h : v ≤ v') : cutOff (rounded v) ≤ cutOff (rounded v') := cutOff_mono (rounded_mono h)

theorem cutOff_value (hx : x.isFinite = true) : cutOff (rounded (value x)) = value x := by
  obtain ⟨hlow, hhigh⟩ := abs_lt.mp (isFinite_iff.mp hx).2
  rw [rounded_value hx, cutOff_of_lt hlow.le hhigh.le]

theorem count_mono (h : n ≤ n') (hn : n' < 2 ^ 64) : value (Quantity.count n : Float) ≤ value (Quantity.count n') := by
  rw [(count_value (h.trans_lt hn)).2, (count_value hn).2]
  exact rounded_mono (by exact_mod_cast h)

/-- A sum is not less than its first term. -/
theorem le_add_value (hx : x.isFinite = true) (hx0 : 0 ≤ value x) (hy : IsNumber y) (hy0 : 0 ≤ value y) :
    value x ≤ value (x + y) := by
  rw [(add_value (isFinite_iff.mp hx).1 hy hx0 hy0).2]
  have hmono := cutOff_rounded_mono (le_add_of_nonneg_right hy0 : value x ≤ value x + value y)
  rwa [cutOff_value hx] at hmono

theorem mul_mono (hx : x.isFinite = true) (hx0 : 0 ≤ value x) (hy : y.isFinite = true) (hy' : y'.isFinite = true)
    (h : value y ≤ value y') : value (x * y) ≤ value (x * y') := by
  rw [(mul_value hx hy).2, (mul_value hx hy').2]
  exact cutOff_rounded_mono (mul_le_mul_of_nonneg_left h hx0)

theorem div_mono (hx : x.isFinite = true) (hx' : x'.isFinite = true) (hy : y.isFinite = true) (hpos : 0 < value y)
    (h : value x ≤ value x') : value (x / y) ≤ value (x' / y) := by
  rw [(div_value hx hy hpos.ne').2, (div_value hx' hy hpos.ne').2]
  exact cutOff_rounded_mono (div_le_div_of_nonneg_right h hpos.le)

theorem div_anti (hx : x.isFinite = true) (hx0 : 0 ≤ value x) (hy : y.isFinite = true) (hy' : y'.isFinite = true)
    (hpos : 0 < value y) (h : value y ≤ value y') : value (x / y') ≤ value (x / y) := by
  have hpos' : 0 < value y' := hpos.trans_le h
  rw [(div_value hx hy hpos.ne').2, (div_value hx hy' hpos'.ne').2]
  exact cutOff_rounded_mono (div_le_div_of_nonneg_left hx0 hpos h)

theorem sub_anti (hx : x.isFinite = true) (hy : y.isFinite = true) (hy' : y'.isFinite = true)
    (h : value y ≤ value y') : value (x - y') ≤ value (x - y) := by
  rw [(sub_value hx hy).2, (sub_value hx hy').2]
  exact cutOff_rounded_mono (sub_le_sub_left h _)

theorem larger_mono (hx : IsNumber x) (hx' : IsNumber x') (hy : IsNumber y) (hy' : IsNumber y')
    (h : value x ≤ value x') (h' : value y ≤ value y') :
    value (Quantity.larger x y) ≤ value (Quantity.larger x' y') := by
  rw [(larger_value hx hy).2, (larger_value hx' hy').2]
  exact max_le_max h h'

/-- The more is taken away, the less is left. -/
theorem rest_anti (hx : x.isFinite = true) (hy : y.isFinite = true) (hy' : y'.isFinite = true) (h : value y ≤ value y') :
    value (Quantity.larger (x - y') (Quantity.count 0)) ≤ value (Quantity.larger (x - y) (Quantity.count 0)) :=
  larger_mono (sub_value hx hy').1 (sub_value hx hy).1 zero_value.1 zero_value.1 (sub_anti hx hy hy' h) le_rfl

end Double

end RegionPlanner
