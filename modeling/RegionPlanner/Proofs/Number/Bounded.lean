import RegionPlanner.Proofs.Number.Exact

/-!
# Doubles within bounds

Counts are below `2 ^ 64`, so sums and products of a few of them stay finite, and a quotient by at least one does not
grow. Products and quotients of doubles that are not negative are not negative, as long as no infinity meets a zero.
-/

namespace RegionPlanner

namespace Double

open Float.Model Float.Model.UnpackedFloat

/-- A number from zero to `2 ^ k`. -/
structure UpTo (k : ℤ) (x : Float) : Prop where
  number : IsNumber x
  nonneg : 0 ≤ value x
  le : value x ≤ 2 ^ k

variable {x y : Float} {j k : ℤ} {n : ℕ} {v : ℚ}

theorem abs_rounded_le (hk : -1022 ≤ k) (hv : |v| ≤ 2 ^ k) : |rounded v| ≤ 2 ^ k := by
  obtain ⟨hlow, hhigh⟩ := abs_le.mp hv
  have hleast := rounded_mono hlow
  have hmost := rounded_mono hhigh
  rw [rounded_neg, rounded_two_zpow hk] at hleast
  rw [rounded_two_zpow hk] at hmost
  exact abs_le.mpr ⟨hleast, hmost⟩

/-- A result that is not too great is not cut off. -/
theorem finite_of_abs_le (hk : -1022 ≤ k) (hlt : k < 1024) (hv : |v| ≤ 2 ^ k)
    (hx : IsNumber x ∧ value x = cutOff (rounded v)) : x.isFinite = true ∧ value x = rounded v := by
  obtain ⟨hnumber, hvalue⟩ := hx
  have hbound := (abs_rounded_le hk hv).trans_lt (two_zpow_lt_tooLarge hlt)
  obtain ⟨hlow, hhigh⟩ := abs_lt.mp hbound
  rw [cutOff_of_lt hlow.le hhigh.le] at hvalue
  exact ⟨isFinite_iff.mpr ⟨hnumber, hvalue ▸ hbound⟩, hvalue⟩

theorem sub_exact (hx : x.isFinite = true) (hy : y.isFinite = true) (hk : -1022 ≤ k) (hlt : k < 1024)
    (hv : |value x - value y| ≤ 2 ^ k) : (x - y).isFinite = true ∧ value (x - y) = rounded (value x - value y) :=
  finite_of_abs_le hk hlt hv (sub_value hx hy)

theorem mul_exact (hx : x.isFinite = true) (hy : y.isFinite = true) (hk : -1022 ≤ k) (hlt : k < 1024)
    (hv : |value x * value y| ≤ 2 ^ k) : (x * y).isFinite = true ∧ value (x * y) = rounded (value x * value y) :=
  finite_of_abs_le hk hlt hv (mul_value hx hy)

theorem div_exact (hx : x.isFinite = true) (hy : y.isFinite = true) (hnonzero : value y ≠ 0) (hk : -1022 ≤ k)
    (hlt : k < 1024) (hv : |value x / value y| ≤ 2 ^ k) :
    (x / y).isFinite = true ∧ value (x / y) = rounded (value x / value y) :=
  finite_of_abs_le hk hlt hv (div_value hx hy hnonzero)

theorem UpTo.isFinite (hx : UpTo k x) (hk : k < 1024) : x.isFinite = true := by
  refine isFinite_iff.mpr ⟨hx.number, ?_⟩
  rw [abs_of_nonneg hx.nonneg]
  exact hx.le.trans_lt (two_zpow_lt_tooLarge hk)

theorem UpTo.nonNegative (hx : UpTo k x) : Quantity.NonNegative x := nonNegative_iff.mpr ⟨hx.number, hx.nonneg⟩

theorem UpTo.mono (hx : UpTo j x) (hjk : j ≤ k) : UpTo k x :=
  ⟨hx.number, hx.nonneg, hx.le.trans (two_zpow_le hjk)⟩

/-! ### Sums, products and quotients -/

theorem UpTo.of_value (hk : -1022 ≤ k) (hlt : k < 1024) (h : 0 ≤ v) (hv : v ≤ 2 ^ k)
    (hx : IsNumber x ∧ value x = cutOff (rounded v)) : UpTo k x := by
  have habs : |v| ≤ 2 ^ k := (abs_of_nonneg h).trans_le hv
  obtain ⟨-, hvalue⟩ := finite_of_abs_le hk hlt habs hx
  have hbound := abs_rounded_le hk habs
  rw [← hvalue] at hbound
  exact ⟨hx.1, hvalue ▸ rounded_nonneg h, (le_abs_self _).trans hbound⟩

theorem UpTo.add (hx : UpTo k x) (hy : UpTo k y) (hk : 0 ≤ k) (hlt : k < 1023) : UpTo (k + 1) (x + y) := by
  have hdouble : (2 : ℚ) ^ (k + 1) = 2 ^ k + 2 ^ k := by
    rw [two_zpow_add, zpow_one, mul_two]
  refine .of_value (by omega) (by omega) (add_nonneg hx.nonneg hy.nonneg) ?_
    (add_value hx.number hy.number hx.nonneg hy.nonneg)
  rw [hdouble]
  linarith [hx.le, hy.le]

theorem UpTo.mul (hx : UpTo j x) (hy : UpTo k y) (hj : 0 ≤ j) (hk : 0 ≤ k) (hlt : j + k < 1024) :
    UpTo (j + k) (x * y) := by
  refine .of_value (by omega) hlt (mul_nonneg hx.nonneg hy.nonneg) ?_
    (mul_value (hx.isFinite (by omega)) (hy.isFinite (by omega)))
  rw [two_zpow_add]
  exact mul_le_mul hx.le hy.le hy.nonneg (by positivity)

theorem UpTo.div (hx : UpTo k x) (hy : y.isFinite = true) (hone : 1 ≤ value y) (hk : 0 ≤ k) (hlt : k < 1024) :
    UpTo k (x / y) := by
  have hpos : 0 < value y := by linarith
  refine .of_value (by omega) hlt (div_nonneg hx.nonneg hpos.le) ?_ (div_value (hx.isFinite hlt) hy hpos.ne')
  rw [div_le_iff₀ hpos]
  exact hx.le.trans (le_mul_of_one_le_right (by positivity) hone)

/-! ### The larger and the smaller -/

theorem isNumber_of_self (hx : IsNumber x) : Quantity.isNumber x = true := by
  unfold Quantity.isNumber
  rw [atMost_eq_true, le_iff hx hx]

theorem larger_value (hx : IsNumber x) (hy : IsNumber y) :
    IsNumber (Quantity.larger x y) ∧ value (Quantity.larger x y) = max (value x) (value y) := by
  unfold Quantity.larger
  rw [isNumber_of_self hx, Bool.not_true, Bool.or_false]
  by_cases hle : Quantity.atMost x y = true
  · rw [if_pos hle]
    rw [atMost_eq_true, le_iff hx hy] at hle
    exact ⟨hy, (max_eq_right hle).symm⟩
  · rw [if_neg hle]
    rw [atMost_eq_true, le_iff hx hy, not_le] at hle
    exact ⟨hx, (max_eq_left hle.le).symm⟩

theorem smaller_value (hx : IsNumber x) (hy : IsNumber y) :
    IsNumber (Quantity.smaller x y) ∧ value (Quantity.smaller x y) = min (value x) (value y) := by
  unfold Quantity.smaller
  rw [isNumber_of_self hx, Bool.not_true, Bool.or_false]
  by_cases hle : Quantity.atMost y x = true
  · rw [if_pos hle]
    rw [atMost_eq_true, le_iff hy hx] at hle
    exact ⟨hy, (min_eq_right hle).symm⟩
  · rw [if_neg hle]
    rw [atMost_eq_true, le_iff hy hx, not_le] at hle
    exact ⟨hx, (min_eq_left hle.le).symm⟩

/-- What is left of a quantity, none if more is taken away than there is. -/
theorem UpTo.rest (hx : UpTo k x) (hy : UpTo k y) (hk : 0 ≤ k) (hlt : k < 1024) :
    UpTo k (Quantity.larger (x - y) (Quantity.count 0)) := by
  have hlarge := two_zpow_lt_tooLarge hlt
  have hpower : (0 : ℚ) < 2 ^ k := by positivity
  obtain ⟨hzero, hzeroValue⟩ := zero_value
  obtain ⟨hnumber, hvalue⟩ := sub_value (hx.isFinite hlt) (hy.isFinite hlt)
  obtain ⟨hlarger, hmax⟩ := larger_value hnumber hzero
  have hhigh : value (x - y) ≤ 2 ^ k := by
    have hexact : value x - value y ≤ 2 ^ k := by linarith [hx.le, hy.nonneg]
    have hrounded := cutOff_mono (rounded_mono hexact)
    rw [← hvalue, rounded_two_zpow (by omega), cutOff_of_lt (by linarith) hlarge.le] at hrounded
    exact hrounded
  rw [hzeroValue] at hmax
  exact ⟨hlarger, hmax ▸ le_max_right _ _, hmax ▸ max_le hhigh hpower.le⟩

/-! ### Counts -/

theorem count_upTo (hn : n < 2 ^ 64) : UpTo 64 (Quantity.count n) := by
  obtain ⟨hnumber, hvalue⟩ := count_value hn
  obtain ⟨hlow, hhigh⟩ := rounded_count hn
  exact ⟨hnumber, hvalue ▸ hlow, hvalue ▸ hhigh⟩

theorem one_le_count (hpos : 0 < n) (hn : n < 2 ^ 64) : 1 ≤ value (Quantity.count n : Float) := by
  rw [(count_value hn).2]
  exact one_le_rounded (by exact_mod_cast hpos)

theorem one_value : (Quantity.count 1 : Float).isFinite = true ∧ value (Quantity.count 1 : Float) = 1 := by
  have hvalue := (count_value (n := 1) (by norm_num)).2
  rw [Nat.cast_one, rounded_one] at hvalue
  exact ⟨count_isFinite (by norm_num), hvalue⟩

theorem one_eq_count : (1 : Float) = Quantity.count 1 := by decide +kernel

theorem word_upTo (w : UInt64) : UpTo 64 (Quantity.count w.toNat) := count_upTo w.toNat_lt

theorem halfWord_lt (w : UInt32) : w.toNat < 2 ^ 64 := w.toNat_lt.trans (by norm_num)

theorem halfWord_upTo (w : UInt32) : UpTo 64 (Quantity.count w.toNat) := count_upTo (halfWord_lt w)

/-! ### Infinities -/

theorem positive_of_pos (hx : x.isFinite = true) (hpos : 0 < value x) :
    ∃ m e h, x.toModel.unpack = .finite .positive m e h := by
  unfold value at hpos
  rcases finite_cases hx with ⟨s, hu⟩ | ⟨s, m, e, h, hu⟩
  · rw [hu, valueOf_zero] at hpos
    exact absurd hpos (lt_irrefl _)
  · cases s with
    | positive => exact ⟨m, e, h, hu⟩
    | negative =>
      have hsize : (0 : ℚ) < m * 2 ^ e := magnitude_pos h
      rw [hu, valueOf_finite, signOf_negative] at hpos
      linarith

theorem infinite_nonNegative {u : UnpackedFloat} (hx : x.toModel.unpack = (Float.Model.pack u).unpack)
    (hu : u = .infinity .positive) : Quantity.NonNegative x := by
  have hlarge := tooLarge_pos
  obtain ⟨hnumber, hvalue⟩ := @value_pack (.infinity .positive) trivial (by simp)
  rw [nonNegative_iff]
  unfold IsNumber value
  rw [hx, hu]
  refine ⟨hnumber, ?_⟩
  rw [hvalue]
  exact cutOff_nonneg (by rw [valueOf_infinity, signOf_positive]; linarith)

theorem eq_zero_of_value (hx : IsNumber x) (hzero : value x = 0) : ∃ s, x.toModel.unpack = .zero s := by
  have hlarge := tooLarge_pos
  unfold IsNumber value at *
  cases hu : x.toModel.unpack with
  | notANumber => exact absurd hu hx
  | infinity s => rw [hu] at hzero; cases s <;> simp [hlarge.ne'] at hzero
  | zero s => exact ⟨s, rfl⟩
  | finite s m e h =>
    have hpos : (0 : ℚ) < m * 2 ^ e := magnitude_pos h
    rw [hu, valueOf_finite] at hzero
    cases s <;> simp only [signOf_negative, signOf_positive] at hzero <;> linarith

theorem infinite_of_not_finite (hx : IsNumber x) (hinfinite : ¬ x.isFinite = true) :
    ∃ s, x.toModel.unpack = .infinity s := by
  change ¬ x.toModel.unpack.isFinite = true at hinfinite
  unfold IsNumber at hx
  cases hu : x.toModel.unpack with
  | notANumber => exact absurd hu hx
  | infinity s => exact ⟨s, rfl⟩
  | zero s => rw [hu] at hinfinite; exact absurd rfl hinfinite
  | finite s m e h => rw [hu] at hinfinite; exact absurd rfl hinfinite

/-- Something over nothing is infinite. -/
theorem div_zero_infinite (hx : x.isFinite = true) (hnonzero : value x ≠ 0) (hy : IsNumber y) (hzero : value y = 0) :
    IsNumber (x / y) ∧ ¬ (x / y).isFinite = true := by
  obtain ⟨s', hs'⟩ := eq_zero_of_value hy hzero
  have hinfinite : ∃ s, (x / y).toModel.unpack = .infinity s := by
    have hunpack : (x / y).toModel.unpack =
      (Float.Model.pack (UnpackedFloat.div Format.binary64 x.toModel.unpack y.toModel.unpack)).unpack := rfl
    unfold value at hnonzero
    rcases finite_cases hx with ⟨s, hu⟩ | ⟨s, m, e, h, hu⟩
    · rw [hu, valueOf_zero] at hnonzero
      exact absurd rfl hnonzero
    · rw [hunpack, hs', hu]
      exact ⟨s / s', unpack_packedInfinity _⟩
  obtain ⟨s, hs⟩ := hinfinite
  constructor
  · unfold IsNumber
    rw [hs]
    simp
  · change ¬ (x / y).toModel.unpack.isFinite = true
    rw [hs]
    simp [UnpackedFloat.isFinite]

theorem div_infinite_zero (hx : x.isFinite = true) (hy : IsNumber y) (hinfinite : ¬ y.isFinite = true) :
    (x / y).isFinite = true ∧ value (x / y) = 0 := by
  obtain ⟨s', hs'⟩ := infinite_of_not_finite hy hinfinite
  have hzero : ∃ s, (x / y).toModel.unpack = .zero s := by
    have hunpack : (x / y).toModel.unpack =
      (Float.Model.pack (UnpackedFloat.div Format.binary64 x.toModel.unpack y.toModel.unpack)).unpack := rfl
    rcases finite_cases hx with ⟨s, hu⟩ | ⟨s, m, e, h, hu⟩
    · rw [hunpack, hs', hu]
      exact ⟨s / s', unpack_packedZero⟩
    · rw [hunpack, hs', hu]
      exact ⟨s / s', unpack_packedZero⟩
  obtain ⟨s, hs⟩ := hzero
  constructor
  · change (x / y).toModel.unpack.isFinite = true
    rw [hs]
    rfl
  · unfold value
    rw [hs, valueOf_zero]

theorem mul_nonNegative (hx : Quantity.NonNegative x) (hy : Quantity.NonNegative y) (hfx : x.isFinite = true)
    (hfy : y.isFinite = true) : Quantity.NonNegative (x * y) := by
  rw [nonNegative_iff] at hx hy ⊢
  obtain ⟨hnumber, hvalue⟩ := mul_value hfx hfy
  exact ⟨hnumber, hvalue ▸ cutOff_nonneg (rounded_nonneg (mul_nonneg hx.2 hy.2))⟩

/-- The first factor may be infinite if the second is not zero. -/
theorem mul_pos_nonNegative (hx : Quantity.NonNegative x) (hy : y.isFinite = true) (hpos : 0 < value y) :
    Quantity.NonNegative (x * y) := by
  have hnumber := (isFinite_iff.mp hy).1
  rcases finite_or_infinite (nonNegative_iff.mp hx).1 (nonNegative_iff.mp hx).2 with hfinite | hinfinite
  · exact mul_nonNegative hx (nonNegative_iff.mpr ⟨hnumber, hpos.le⟩) hfinite hy
  · obtain ⟨m, e, h, hunpack⟩ := positive_of_pos hy hpos
    refine @infinite_nonNegative (x * y) (UnpackedFloat.mul Format.binary64 x.toModel.unpack y.toModel.unpack) rfl ?_
    rw [hinfinite, hunpack]
    rfl

theorem div_nonNegative (hx : Quantity.NonNegative x) (hy : y.isFinite = true) (hpos : 0 < value y) :
    Quantity.NonNegative (x / y) := by
  rcases finite_or_infinite (nonNegative_iff.mp hx).1 (nonNegative_iff.mp hx).2 with hfinite | hinfinite
  · rw [nonNegative_iff] at hx ⊢
    obtain ⟨hnumber, hvalue⟩ := div_value hfinite hy hpos.ne'
    exact ⟨hnumber, hvalue ▸ cutOff_nonneg (rounded_nonneg (div_nonneg hx.2 hpos.le))⟩
  · obtain ⟨m, e, h, hunpack⟩ := positive_of_pos hy hpos
    refine @infinite_nonNegative (x / y) (UnpackedFloat.div Format.binary64 x.toModel.unpack y.toModel.unpack) rfl ?_
    rw [hinfinite, hunpack]
    rfl

end Double

end RegionPlanner
