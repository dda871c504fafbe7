import RegionPlanner.Proofs.Number.Monotone

/-!
# Zeros

Zero is the one value that two doubles share. A zero of either sign leaves a double as it is that is not
negative and not the negative zero itself; so nothing that is added to a time tells the signs of zero apart.
-/

namespace RegionPlanner

namespace Double

open Float.Model Float.Model.UnpackedFloat

variable {x y z : Float} {n : ℕ}

/-- A zero of either sign. -/
def IsZero (x : Float) : Prop := IsNumber x ∧ value x = 0

theorem IsZero.isFinite (hx : IsZero x) : x.isFinite = true := by
  refine isFinite_iff.mpr ⟨hx.1, ?_⟩
  rw [hx.2, abs_zero]
  exact tooLarge_pos

theorem cutOff_rounded_zero : cutOff (rounded 0) = 0 := by
  have hfixed := cutOff_value (IsZero.isFinite zero_value)
  rwa [zero_value.2] at hfixed

theorem IsZero.add (hx : IsZero x) (hy : IsZero y) : IsZero (x + y) := by
  obtain ⟨hnumber, hvalue⟩ := add_value hx.1 hy.1 hx.2.ge hy.2.ge
  rw [hx.2, hy.2, add_zero, cutOff_rounded_zero] at hvalue
  exact ⟨hnumber, hvalue⟩

theorem IsZero.mul (hx : IsZero x) (hy : y.isFinite = true) : IsZero (x * y) := by
  obtain ⟨hnumber, hvalue⟩ := mul_value hx.isFinite hy
  rw [hx.2, zero_mul, cutOff_rounded_zero] at hvalue
  exact ⟨hnumber, hvalue⟩

theorem IsZero.div (hx : IsZero x) (hy : y.isFinite = true) (hpos : 0 < value y) : IsZero (x / y) := by
  obtain ⟨hnumber, hvalue⟩ := div_value hx.isFinite hy hpos.ne'
  rw [hx.2, zero_div, cutOff_rounded_zero] at hvalue
  exact ⟨hnumber, hvalue⟩

theorem total_isZero {terms : List Float} (h : ∀ term ∈ terms, IsZero term) : IsZero (Quantity.total terms) := by
  induction terms using List.reverseRecOn with
  | nil => exact emptySum_value
  | append_singleton terms term ih =>
    rw [Quantity.total_append_singleton]
    exact (ih fun other ho => h other (List.mem_append_left _ ho)).add (h term (by simp))

/-! ### Doubles without a sign -/

/-- A finite double that is not negative; its zero is the positive one. -/
structure Unsigned (x : Float) : Prop where
  finite : x.isFinite = true
  nonneg : 0 ≤ value x
  zero : value x = 0 → x = Quantity.count 0

theorem zero_unpack : (Quantity.count 0 : Float).toModel.unpack = .zero .positive := rfl

theorem Unsigned.zero_or_pos (hx : Unsigned x) : x = Quantity.count 0 ∨ 0 < value x := by
  rcases hx.nonneg.eq_or_lt with hzero | hpos
  · exact .inl (hx.zero hzero.symm)
  · exact .inr hpos

theorem unsigned_of_pos (hx : x.isFinite = true) (hpos : 0 < value x) : Unsigned x :=
  ⟨hx, hpos.le, fun hzero => absurd hzero hpos.ne'⟩

theorem count_unsigned (hn : n < 2 ^ 64) : Unsigned (Quantity.count n) := by
  refine ⟨count_isFinite hn, (count_upTo hn).nonneg, ?_⟩
  intro hzero
  rcases n.eq_zero_or_pos with rfl | hpos
  · rfl
  · have hone := one_le_count hpos hn
    linarith

/-- The sum of a positive and a negative zero is the positive one. -/
theorem count_zero_add_isZero (hz : IsZero z) : Quantity.count 0 + z = Quantity.count 0 := by
  obtain ⟨s, hs⟩ := eq_zero_of_value hz.1 hz.2
  refine eq_of_unpack ?_
  rw [unpack_add, zero_unpack, hs]
  cases s <;> rfl

theorem Unsigned.add_isZero (hx : Unsigned x) (hz : IsZero z) : x + z = x := by
  rcases hx.zero_or_pos with rfl | hpos
  · exact count_zero_add_isZero hz
  · have hnumber := (isFinite_iff.mp hx.finite).1
    obtain ⟨hsum, hvalue⟩ := add_value hnumber hz.1 hx.nonneg hz.2.ge
    rw [hz.2, add_zero, cutOff_value hx.finite] at hvalue
    exact eq_of_value hsum hnumber hvalue (hvalue ▸ hpos.ne')

theorem Unsigned.add (hx : Unsigned x) (hy : Unsigned y) (hfinite : (x + y).isFinite = true) : Unsigned (x + y) := by
  have hnumber := (isFinite_iff.mp hx.finite).1
  have hnumber' := (isFinite_iff.mp hy.finite).1
  have hvalue := (add_value hnumber hnumber' hx.nonneg hy.nonneg).2
  refine ⟨hfinite, ?_, ?_⟩
  · rw [hvalue]
    exact cutOff_nonneg (rounded_nonneg (add_nonneg hx.nonneg hy.nonneg))
  · intro hzero
    have hle := le_add_value hx.finite hx.nonneg hnumber' hy.nonneg
    have hx0 : value x = 0 := le_antisymm (hle.trans hzero.le) hx.nonneg
    rw [hx0, zero_add, cutOff_value hy.finite] at hvalue
    rw [hx.zero hx0]
    exact count_zero_add_isZero ⟨hnumber', hvalue.symm.trans hzero⟩

theorem Unsigned.mul_count_zero (hx : Unsigned x) : x * Quantity.count 0 = Quantity.count 0 := by
  rcases hx.zero_or_pos with rfl | hpos
  · exact eq_of_unpack rfl
  · obtain ⟨m, e, h, hu⟩ := positive_of_pos hx.finite hpos
    refine eq_of_unpack ?_
    change (Float.Model.pack (UnpackedFloat.mul Format.binary64 x.toModel.unpack _)).unpack = _
    rw [hu, zero_unpack]
    exact unpack_packedZero

theorem count_zero_div (hy : y.isFinite = true) (hpos : 0 < value y) : Quantity.count 0 / y = Quantity.count 0 := by
  obtain ⟨m, e, h, hu⟩ := positive_of_pos hy hpos
  refine eq_of_unpack ?_
  change (Float.Model.pack (UnpackedFloat.div Format.binary64 _ y.toModel.unpack)).unpack = _
  rw [hu, zero_unpack]
  exact unpack_packedZero

theorem Unsigned.larger_count_zero (hx : Unsigned x) : Quantity.larger x (Quantity.count 0) = x := by
  have hnumber := (isFinite_iff.mp hx.finite).1
  unfold Quantity.larger
  rw [isNumber_of_self hnumber, Bool.not_true, Bool.or_false]
  split
  · next hle =>
    rw [atMost_eq_true, le_iff hnumber zero_value.1, zero_value.2] at hle
    exact (hx.zero (le_antisymm hle hx.nonneg)).symm
  · rfl

/-- Where no more is there than is taken away, nothing is left. -/
theorem rest_of_zero (hz : IsZero z) (hy : y.isFinite = true) (hnonneg : 0 ≤ value y) :
    Quantity.larger (z - y) (Quantity.count 0) = Quantity.count 0 := by
  obtain ⟨hnumber, hvalue⟩ := sub_value hz.isFinite hy
  have hle : value (z - y) ≤ 0 := by
    have hmono := cutOff_rounded_mono (sub_nonpos.mpr (hz.2.trans_le hnonneg))
    rwa [← hvalue, cutOff_rounded_zero] at hmono
  unfold Quantity.larger
  rw [if_pos]
  rw [isNumber_of_self hnumber, Bool.not_true, Bool.or_false, atMost_eq_true, le_iff hnumber zero_value.1, zero_value.2]
  exact hle

end Double

end RegionPlanner
