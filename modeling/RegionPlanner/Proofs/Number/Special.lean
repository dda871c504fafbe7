import RegionPlanner.Proofs.Number.Zero

/-!
# Infinite terms and terms that are not numbers

A term that is added on both sides turns no order around, whatever double it is, and what is taken away from
itself leaves nothing that is more than zero.
-/

namespace RegionPlanner

namespace Double

open Float.Model Float.Model.UnpackedFloat

variable {x y term : Float}

theorem unpack_packedNaN {u : UnpackedFloat} (hu : u = .notANumber) : (Float.Model.pack u).unpack = .notANumber := by
  rw [hu]
  rfl

theorem lt_isNumber (h : x < y) : IsNumber x ∧ IsNumber y := by
  rw [lt_iff_compare] at h
  constructor
  · intro hx
    rw [hx] at h
    cases h
  · intro hy
    rw [hy] at h
    cases hx : x.toModel.unpack <;> rw [hx] at h <;> cases h

/-! ### Sums -/

theorem add_finite_value (hx : x.isFinite = true) (hy : y.isFinite = true) :
    IsNumber (x + y) ∧ value (x + y) = cutOff (rounded (value x + value y)) :=
  (add_stands (canonical x).1 (canonical y).1 hx hy).pack

theorem add_infinite {s : Sign} (hx : x.isFinite = true) (hterm : term.toModel.unpack = .infinity s) :
    (x + term).toModel.unpack = .infinity s := by
  rw [unpack_add, hterm]
  rcases finite_cases hx with ⟨s', hu⟩ | ⟨s', m, e, h, hu⟩
  · rw [hu]
    exact unpack_packedInfinity s
  · rw [hu]
    exact unpack_packedInfinity s

theorem add_not_isNumber (hterm : ¬ IsNumber term) : ¬ IsNumber (x + term) := by
  unfold IsNumber at hterm ⊢
  rw [not_not] at hterm ⊢
  rw [unpack_add, hterm]
  exact unpack_packedNaN (by cases x.toModel.unpack <;> rfl)

/-- Any double at all may be added on both sides. -/
theorem not_add_lt (hx : x.isFinite = true) (hy : y.isFinite = true) (h : value x ≤ value y) (term : Float) :
    ¬ y + term < x + term := by
  by_cases hnumber : IsNumber term
  · by_cases hfinite : term.isFinite = true
    · obtain ⟨hsum, hvalue⟩ := add_finite_value hx hfinite
      obtain ⟨hsum', hvalue'⟩ := add_finite_value hy hfinite
      rw [lt_iff hsum' hsum, not_lt, hvalue, hvalue']
      exact cutOff_rounded_mono (by linarith)
    · obtain ⟨s, hs⟩ := infinite_of_not_finite hnumber hfinite
      have hsame : x + term = y + term := eq_of_unpack ((add_infinite hx hs).trans (add_infinite hy hs).symm)
      rw [hsame]
      intro hlt
      obtain ⟨hsum, -⟩ := lt_isNumber hlt
      exact lt_irrefl _ ((lt_iff hsum hsum).mp hlt)
  · exact fun hlt => add_not_isNumber hnumber (lt_isNumber hlt).2

/-! ### Differences -/

theorem div_one_infinite {s : Sign} (hx : x.toModel.unpack = .infinity s) :
    (x / Quantity.count 1).toModel.unpack = .infinity s := by
  have hunpack : (x / Quantity.count 1).toModel.unpack = (Float.Model.pack
      (UnpackedFloat.div Format.binary64 x.toModel.unpack (Quantity.count 1 : Float).toModel.unpack)).unpack := rfl
  rw [hunpack, hx]
  cases s <;> rfl

theorem unpack_sub (x y : Float) :
    (x - y).toModel.unpack =
      (Float.Model.pack (UnpackedFloat.sub Format.binary64 x.toModel.unpack y.toModel.unpack)).unpack := rfl

theorem sub_div_one_value (hx : x.isFinite = true) :
    IsNumber (x - x / Quantity.count 1) ∧ value (x - x / Quantity.count 1) = 0 := by
  obtain ⟨hone, hvalueOne⟩ := one_value
  obtain ⟨hnumber, hvalue⟩ := div_value hx hone (by rw [hvalueOne]; exact one_ne_zero)
  rw [hvalueOne, div_one, cutOff_value hx] at hvalue
  have hquotient : (x / Quantity.count 1).isFinite = true :=
    isFinite_iff.mpr ⟨hnumber, hvalue ▸ (isFinite_iff.mp hx).2⟩
  obtain ⟨hrest, hrestValue⟩ := sub_value hx hquotient
  rw [hvalue, sub_self, cutOff_rounded_zero] at hrestValue
  exact ⟨hrest, hrestValue⟩

theorem sub_div_one_not_isNumber (hx : ¬ x.isFinite = true) : ¬ IsNumber (x - x / Quantity.count 1) := by
  unfold IsNumber
  rw [not_not, unpack_sub]
  refine unpack_packedNaN ?_
  by_cases hnumber : IsNumber x
  · obtain ⟨s, hs⟩ := infinite_of_not_finite hnumber hx
    rw [div_one_infinite hs, hs]
    cases s <;> rfl
  · unfold IsNumber at hnumber
    rw [not_not] at hnumber
    rw [hnumber]
    rfl

/-- At a speedup of one, nothing is left that is more than zero. -/
theorem nothing_left (x : Float) :
    ¬ Quantity.count 0 < Quantity.larger (x - x / Quantity.count 1) (Quantity.count 0) := by
  obtain ⟨hzero, hvalueZero⟩ := zero_value
  by_cases hx : x.isFinite = true
  · obtain ⟨hrest, hrestValue⟩ := sub_div_one_value hx
    obtain ⟨hlarger, hmax⟩ := larger_value hrest hzero
    rw [lt_iff hzero hlarger, hmax, hrestValue, hvalueZero, max_self]
    exact lt_irrefl 0
  · have hself : Quantity.isNumber (x - x / Quantity.count 1) = false := by
      rw [Bool.eq_false_iff]
      exact fun hle => sub_div_one_not_isNumber hx (isNumber_of_le (atMost_eq_true.mp hle)).1
    unfold Quantity.larger
    rw [hself, Bool.not_false, Bool.or_true, if_pos rfl, lt_iff hzero hzero]
    exact lt_irrefl _

end Double

end RegionPlanner
