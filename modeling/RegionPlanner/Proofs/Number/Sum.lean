import RegionPlanner.Number.Quantity
import RegionPlanner.Proofs.Number.Mantissa

/-!
# Sums of doubles

A sum of doubles has the value of the exact sum, rounded and cut off, as long as no infinities of different
signs meet. So sums of doubles that are not negative grow with their terms.
-/

namespace RegionPlanner

namespace Double

open Float.Model Float.Model.UnpackedFloat

variable {u w : UnpackedFloat} {s s' : Sign} {m m' : ℕ} {e e' : ℤ} {h : 0 < m} {h' : 0 < m'}

/-! ### Sums of what was taken apart -/

theorem rounded_signed (s : Sign) (x : ℚ) : rounded (signOf s * x) = signOf s * rounded x := by
  cases s
  · rw [signOf_negative, neg_one_mul, neg_one_mul, rounded_neg]
  · rw [signOf_positive, one_mul, one_mul]

theorem rounded_finite (hc : Canonical (.finite s m e h)) :
    rounded (valueOf (.finite s m e h)) = valueOf (.finite s m e h) := by
  rw [valueOf_finite, rounded_signed, rounded_fixed hc.1 hc.2.1 hc.2.2]

theorem signed_apply (s : Sign) (n : ℕ) : ((s.apply n : ℤ) : ℚ) = signOf s * n := by
  cases s
  · change ((-(n : ℤ) : ℤ) : ℚ) = _
    rw [signOf_negative]
    push_cast
    ring
  · change ((n : ℤ) : ℚ) = _
    rw [signOf_positive, Int.cast_natCast, one_mul]

theorem decreaseExponent_value (m : ℕ) {e low : ℤ} (hle : low ≤ e) :
    ((decreaseExponent m e low).1 : ℚ) * 2 ^ low = m * 2 ^ e := by
  obtain ⟨n, hn⟩ : ∃ n : ℕ, e - low = n := ⟨(e - low).toNat, by omega⟩
  have hexponent : e = n + low := by omega
  unfold decreaseExponent
  simp only [hn, Int.toNat_natCast]
  rw [Nat.shiftLeft_eq, hexponent, two_zpow_add, zpow_natCast]
  push_cast
  ring

theorem add_stands (hu : Canonical u) (hw : Canonical w) (hfu : u.isFinite) (hfw : w.isFinite) :
    Stands (UnpackedFloat.add Format.binary64 u w) (rounded (valueOf u + valueOf w)) := by
  have hzero : rounded 0 = 0 := by rw [rounded_of_nonneg le_rfl, roundedUp_zero]
  cases u with
  | notANumber => cases hfu
  | infinity => cases hfu
  | zero s =>
    cases w with
    | notANumber => cases hfw
    | infinity => cases hfw
    | zero s' =>
      obtain ⟨z, hz⟩ : ∃ z, UnpackedFloat.add Format.binary64 (.zero s) (.zero s') = .zero z := by
        cases s <;> cases s' <;> exact ⟨_, rfl⟩
      rw [hz, valueOf_zero, valueOf_zero, add_zero, hzero]
      exact ⟨trivial, by simp, rfl⟩
    | finite s' m' e' h' =>
      rw [valueOf_zero, zero_add, rounded_finite hw]
      exact ⟨hw, by simp [UnpackedFloat.add], rfl⟩
  | finite s m e h =>
    cases w with
    | notANumber => cases hfw
    | infinity => cases hfw
    | zero s' =>
      rw [valueOf_zero, add_zero, rounded_finite hu]
      exact ⟨hu, by simp [UnpackedFloat.add], rfl⟩
    | finite s' m' e' h' =>
      have hsum : valueOf (.finite s m e h) + valueOf (.finite s' m' e' h') =
          ((s.apply (decreaseExponent m e (min e e')).1 + s'.apply (decreaseExponent m' e' (min e e')).1 : ℤ) : ℚ) *
            2 ^ min e e' := by
        rw [valueOf_finite, valueOf_finite, Int.cast_add, signed_apply, signed_apply, add_mul, mul_assoc, mul_assoc,
          decreaseExponent_value m (min_le_left e e'), decreaseExponent_value m' (min_le_right e e')]
      rw [hsum]
      exact normalize_stands _ _ _

/-! ### Doubles -/

def IsNumber (x : Float) : Prop := x.toModel.unpack ≠ .notANumber

def value (x : Float) : ℚ := valueOf x.toModel.unpack

variable {x y x' y' : Float}

theorem canonical (x : Float) : Canonical x.toModel.unpack ∧ InRange x.toModel.unpack := unpack_canonical _

theorem unpack_add (x y : Float) : (x + y).toModel.unpack =
    (Float.Model.pack (UnpackedFloat.add Format.binary64 x.toModel.unpack y.toModel.unpack)).unpack := rfl

theorem compare_value (hx : IsNumber x) (hy : IsNumber y) :
    x.toModel.unpack.compare y.toModel.unpack = some (compare (value x) (value y)) :=
  compare_eq (canonical x) (canonical y) hx hy

theorem le_iff_compare : x ≤ y ↔ (x.toModel.unpack.compare y.toModel.unpack).any (·.isLE) = true := by
  change decide (UnpackedFloat.le x.toModel.unpack y.toModel.unpack = true) = true ↔ _
  rw [decide_eq_true_iff]
  rfl

theorem lt_iff_compare : x < y ↔ (x.toModel.unpack.compare y.toModel.unpack == some .lt) = true := by
  change decide (UnpackedFloat.lt x.toModel.unpack y.toModel.unpack = true) = true ↔ _
  rw [decide_eq_true_iff]
  rfl

theorem isNumber_of_le (hle : x ≤ y) : IsNumber x ∧ IsNumber y := by
  rw [le_iff_compare] at hle
  constructor
  · intro hx
    rw [hx] at hle
    cases hle
  · intro hy
    rw [hy] at hle
    cases hx : x.toModel.unpack <;> rw [hx] at hle <;> cases hle

theorem le_iff (hx : IsNumber x) (hy : IsNumber y) : x ≤ y ↔ value x ≤ value y := by
  rw [le_iff_compare, compare_value hx hy, Option.any_some, Ordering.isLE_iff_ne_gt]
  exact compare_le_iff_le

theorem lt_iff (hx : IsNumber x) (hy : IsNumber y) : x < y ↔ value x < value y := by
  rw [lt_iff_compare, compare_value hx hy]
  rw [beq_iff_eq, Option.some.injEq, compare_lt_iff_lt]

theorem cutOff_rounded_large {v : ℚ} (hv : tooLarge ≤ v) : cutOff (rounded v) = tooLarge := by
  have hfixed : rounded tooLarge = tooLarge := by
    have hsplit : tooLarge = ((2 ^ 52 : ℕ) : ℚ) * 2 ^ (972 : ℤ) := by
      have hsum : (1024 : ℤ) = 52 + 972 := by decide
      have hcast : ((2 ^ 52 : ℕ) : ℚ) = 2 ^ (52 : ℤ) := by norm_num
      unfold tooLarge
      rw [hsum, two_zpow_add, hcast]
    rw [hsplit]
    exact rounded_fixed (by norm_num) (by norm_num) (.inl le_rfl)
  have hge := rounded_mono hv
  rw [hfixed] at hge
  have hlarge := tooLarge_pos
  unfold cutOff
  rw [min_eq_right hge, max_eq_right (by linarith)]

theorem finite_or_infinite (hx : IsNumber x) (hx0 : 0 ≤ value x) :
    x.toModel.unpack.isFinite = true ∨ x.toModel.unpack = .infinity .positive := by
  unfold IsNumber value at *
  cases hu : x.toModel.unpack with
  | notANumber => exact absurd hu hx
  | infinity s =>
    cases s with
    | positive => exact .inr rfl
    | negative =>
      have hlarge := tooLarge_pos
      rw [hu, valueOf_infinity, signOf_negative] at hx0
      linarith
  | zero s => exact .inl rfl
  | finite s m e h => exact .inl rfl

theorem add_infinity {u : UnpackedFloat} (hu : u.isFinite = true ∨ u = .infinity .positive) :
    UnpackedFloat.add Format.binary64 (.infinity .positive) u = .infinity .positive ∧
      UnpackedFloat.add Format.binary64 u (.infinity .positive) = .infinity .positive := by
  rcases hu with hu | rfl
  · cases u with
    | notANumber => cases hu
    | infinity => cases hu
    | zero s => exact ⟨rfl, rfl⟩
    | finite s m e h => exact ⟨rfl, rfl⟩
  · exact ⟨rfl, rfl⟩

/-- The sum of two numbers that are not negative. -/
theorem add_value (hx : IsNumber x) (hy : IsNumber y) (hx0 : 0 ≤ value x) (hy0 : 0 ≤ value y) :
    IsNumber (x + y) ∧ value (x + y) = cutOff (rounded (value x + value y)) := by
  have hlarge : value x = tooLarge ∨ value y = tooLarge → value (x + y) = tooLarge →
      value (x + y) = cutOff (rounded (value x + value y)) := by
    intro hone hsum
    rw [hsum, cutOff_rounded_large]
    rcases hone with heq | heq <;> linarith
  have hinfinite : UnpackedFloat.add Format.binary64 x.toModel.unpack y.toModel.unpack = .infinity .positive →
      IsNumber (x + y) ∧ value (x + y) = tooLarge := by
    intro hsum
    obtain ⟨hnumber, hvalue⟩ := @value_pack (.infinity .positive) trivial (by simp)
    unfold IsNumber value
    rw [unpack_add, hsum]
    refine ⟨hnumber, ?_⟩
    have hpos := tooLarge_pos
    rw [hvalue, valueOf_infinity, signOf_positive, one_mul, cutOff_of_lt (by linarith) le_rfl]
  rcases finite_or_infinite hx hx0 with hfx | hix
  · rcases finite_or_infinite hy hy0 with hfy | hiy
    · have hstands := add_stands (canonical x).1 (canonical y).1 hfx hfy
      obtain ⟨hnumber, hvalue⟩ := value_pack hstands.canonical hstands.number
      rw [hstands.value] at hvalue
      exact ⟨hnumber, hvalue⟩
    · obtain ⟨hnumber, hvalue⟩ := hinfinite (by rw [hiy]; exact (add_infinity (.inl hfx)).2)
      refine ⟨hnumber, hlarge (.inr ?_) hvalue⟩
      unfold value
      rw [hiy, valueOf_infinity, signOf_positive, one_mul]
  · obtain ⟨hnumber, hvalue⟩ := hinfinite (by rw [hix]; exact (add_infinity (finite_or_infinite hy hy0)).1)
    refine ⟨hnumber, hlarge (.inl ?_) hvalue⟩
    unfold value
    rw [hix, valueOf_infinity, signOf_positive, one_mul]

end Double

end RegionPlanner
