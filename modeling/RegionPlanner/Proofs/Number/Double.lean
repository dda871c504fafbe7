import Mathlib
import RegionPlanner.Proofs.Number.Nearest

/-!
# The value of a double

A double that is a number stands for a fraction; an infinity counts as the first power of two that is too
large. Doubles that are numbers compare as their values do.
-/

namespace RegionPlanner

namespace Double

open Float.Model Float.Model.UnpackedFloat

/-! ### Values -/

def signOf : Sign → ℚ
  | .negative => -1
  | .positive => 1

/-- What counts as infinite. -/
def tooLarge : ℚ := 2 ^ (1024 : ℤ)

/-- The value of a double that was taken apart. -/
def valueOf : UnpackedFloat → ℚ
  | .notANumber => 0
  | .infinity sign => signOf sign * tooLarge
  | .zero _ => 0
  | .finite sign mantissa exponent _ => signOf sign * (mantissa * 2 ^ exponent)

@[simp] theorem signOf_negative : signOf .negative = -1 := rfl
@[simp] theorem signOf_positive : signOf .positive = 1 := rfl
@[simp] theorem valueOf_infinity (s : Sign) : valueOf (.infinity s) = signOf s * tooLarge := rfl
@[simp] theorem valueOf_zero (s : Sign) : valueOf (.zero s) = 0 := rfl
@[simp] theorem valueOf_finite {s : Sign} {m : ℕ} {e : ℤ} {h : 0 < m} :
    valueOf (.finite s m e h) = signOf s * (m * 2 ^ e) := rfl

/-- A mantissa has 53 bits, or fewer at the lowest exponent. -/
def Canonical : UnpackedFloat → Prop
  | .finite _ mantissa exponent _ =>
    mantissa < 2 ^ 53 ∧ -1074 ≤ exponent ∧ (2 ^ 52 ≤ mantissa ∨ exponent = -1074)
  | _ => True

/-- An exponent can be written with eleven bits. -/
def InRange : UnpackedFloat → Prop
  | .finite _ _ exponent _ => exponent ≤ 971
  | _ => True

variable {u w : UnpackedFloat}

/-! ### Taking apart -/

theorem canonical_finite {s : Sign} {m : ℕ} {e : ℤ} {h : 0 < m} :
    Canonical (.finite s m e h) ↔ m < 2 ^ 53 ∧ -1074 ≤ e ∧ (2 ^ 52 ≤ m ∨ e = -1074) := Iff.rfl

theorem inRange_finite {s : Sign} {m : ℕ} {e : ℤ} {h : 0 < m} : InRange (.finite s m e h) ↔ e ≤ 971 := Iff.rfl

theorem exponentBias_eq : (Format.binary64.exponentBias : ℤ) = 1023 := rfl

theorem toNat_implicit (b : BitVec 52) : (1#1 ++ b).toNat = 2 ^ 52 + b.toNat := by
  rw [BitVec.toNat_append, Nat.shiftLeft_eq]
  have hdisjoint := Nat.two_pow_add_eq_or_of_lt b.isLt 1
  rw [Nat.mul_one] at hdisjoint
  exact hdisjoint.symm

theorem unpack_canonical (b : BitVec 64) :
    Canonical (UnpackedFloat.unpack Format.binary64 b) ∧ InRange (UnpackedFloat.unpack Format.binary64 b) := by
  have hmantissa : (@unpackMantissa Format.binary64 b).toNat < 2 ^ 52 := BitVec.isLt _
  have hexponent : (@unpackExponent Format.binary64 b).toNat < 2 ^ 11 := BitVec.isLt _
  have himplicit := toNat_implicit (@unpackMantissa Format.binary64 b)
  have hbias := exponentBias_eq
  unfold UnpackedFloat.unpack
  simp only
  split
  · split <;> exact ⟨trivial, trivial⟩
  · next hinfinite =>
    rw [← BitVec.toNat_inj] at hinfinite
    have hnotAll : (@unpackExponent Format.binary64 b).toNat ≠ 2047 := hinfinite
    split
    · next hzero =>
      have hlow : (@unpackExponent Format.binary64 b).toNat = 0 := by rw [hzero]; rfl
      split
      · exact ⟨trivial, trivial⟩
      · rw [canonical_finite, inRange_finite]
        omega
    · next hzero =>
      rw [← BitVec.toNat_inj] at hzero
      have hlow : (@unpackExponent Format.binary64 b).toNat ≠ 0 := hzero
      rw [canonical_finite, inRange_finite]
      omega

/-! ### Comparing -/

section
variable {m m' : ℕ} {e e' : ℤ}

/-- Below a greater exponent every mantissa is smaller. -/
theorem lt_of_exponent_lt (hm : m < 2 ^ 53) (he : -1074 ≤ e) (hlt : e < e') (hc : 2 ^ 52 ≤ m' ∨ e' = -1074) :
    (m : ℚ) * 2 ^ e < m' * 2 ^ e' := by
  have hpower : (0 : ℚ) < 2 ^ e := by positivity
  have hnormal : 2 ^ 52 ≤ m' := by omega
  have hcast : (m : ℚ) < 2 ^ (53 : ℤ) := by exact_mod_cast hm
  have hcast' : (2 : ℚ) ^ (52 : ℤ) ≤ m' := by exact_mod_cast hnormal
  calc (m : ℚ) * 2 ^ e < 2 ^ (53 : ℤ) * 2 ^ e := mul_lt_mul_of_pos_right hcast hpower
    _ = 2 ^ (53 + e) := (two_zpow_add 53 e).symm
    _ ≤ 2 ^ (52 + e') := two_zpow_le (by omega)
    _ = 2 ^ (52 : ℤ) * 2 ^ e' := two_zpow_add 52 e'
    _ ≤ m' * 2 ^ e' := mul_le_mul_of_nonneg_right hcast' (by positivity)

theorem compare_magnitude (hm : m < 2 ^ 53) (hm' : m' < 2 ^ 53) (he : -1074 ≤ e) (he' : -1074 ≤ e')
    (hc : 2 ^ 52 ≤ m ∨ e = -1074) (hc' : 2 ^ 52 ≤ m' ∨ e' = -1074) :
    (compare e e').then (compare m m') = compare ((m : ℚ) * 2 ^ e) (m' * 2 ^ e') := by
  rcases lt_trichotomy e e' with hlt | rfl | hgt
  · rw [compare_lt_iff_lt.mpr hlt, compare_lt_iff_lt.mpr (lt_of_exponent_lt hm he hlt hc')]
    rfl
  · have hpower : (0 : ℚ) < 2 ^ e := by positivity
    rw [compare_eq_iff_eq.mpr rfl]
    change compare m m' = _
    rcases lt_trichotomy m m' with hlt | rfl | hgt
    · have hcast : (m : ℚ) < m' := by exact_mod_cast hlt
      rw [compare_lt_iff_lt.mpr hlt, compare_lt_iff_lt.mpr (mul_lt_mul_of_pos_right hcast hpower)]
    · rw [compare_eq_iff_eq.mpr rfl, compare_eq_iff_eq.mpr rfl]
    · have hcast : (m' : ℚ) < m := by exact_mod_cast hgt
      rw [compare_gt_iff_gt.mpr hgt, compare_gt_iff_gt.mpr (mul_lt_mul_of_pos_right hcast hpower)]
  · rw [compare_gt_iff_gt.mpr hgt, compare_gt_iff_gt.mpr (lt_of_exponent_lt hm' he' hgt hc)]
    rfl

theorem magnitude_pos (h : 0 < m) : (0 : ℚ) < m * 2 ^ e := by positivity

theorem magnitude_lt (hm : m < 2 ^ 53) (he : e ≤ 971) : (m : ℚ) * 2 ^ e < tooLarge := by
  have hpower : (0 : ℚ) < 2 ^ e := by positivity
  have hcast : (m : ℚ) < 2 ^ (53 : ℤ) := by exact_mod_cast hm
  calc (m : ℚ) * 2 ^ e < 2 ^ (53 : ℤ) * 2 ^ e := mul_lt_mul_of_pos_right hcast hpower
    _ = 2 ^ (53 + e) := (two_zpow_add 53 e).symm
    _ ≤ tooLarge := two_zpow_le (by omega)

end

theorem tooLarge_pos : 0 < tooLarge := by
  unfold tooLarge
  positivity

theorem compare_neg (x y : ℚ) : compare (-x) (-y) = (compare x y).swap := by
  rcases lt_trichotomy x y with hlt | rfl | hgt
  · rw [compare_lt_iff_lt.mpr hlt, compare_gt_iff_gt.mpr (neg_lt_neg hlt)]
    rfl
  · rw [compare_eq_iff_eq.mpr rfl, compare_eq_iff_eq.mpr rfl]
    rfl
  · rw [compare_gt_iff_gt.mpr hgt, compare_lt_iff_lt.mpr (neg_lt_neg hgt)]
    rfl

theorem some_lt {x y : ℚ} (h : x < y) : some Ordering.lt = some (compare x y) := by
  rw [compare_lt_iff_lt.mpr h]

theorem some_gt {x y : ℚ} (h : y < x) : some Ordering.gt = some (compare x y) := by
  rw [compare_gt_iff_gt.mpr h]

theorem some_eq {x y : ℚ} (h : x = y) : some Ordering.eq = some (compare x y) := by
  rw [compare_eq_iff_eq.mpr h]

/-- Only two finite doubles of one sign need their mantissas. -/
theorem compare_finite {m m' : ℕ} {e e' : ℤ} {hm : 0 < m} {hm' : 0 < m'} (s s' : Sign)
    (hu : Canonical (.finite s m e hm)) (hw : Canonical (.finite s' m' e' hm')) :
    (UnpackedFloat.finite s m e hm).compare (.finite s' m' e' hm') =
      some (compare (valueOf (.finite s m e hm)) (valueOf (.finite s' m' e' hm'))) := by
  have hpos : (0 : ℚ) < m * 2 ^ e := magnitude_pos hm
  have hpos' : (0 : ℚ) < m' * 2 ^ e' := magnitude_pos hm'
  have hsame := compare_magnitude hu.1 hw.1 hu.2.1 hw.2.1 hu.2.2 hw.2.2
  cases s <;> cases s'
  · rw [valueOf_finite, valueOf_finite, signOf_negative, neg_one_mul, neg_one_mul, compare_neg, ← hsame]
    rfl
  · exact some_lt (by simp; linarith)
  · exact some_gt (by simp; linarith)
  · rw [valueOf_finite, valueOf_finite, signOf_positive, one_mul, one_mul, ← hsame]
    rfl

/-- Doubles that are numbers compare as their values. -/
theorem compare_eq (hu : Canonical u ∧ InRange u) (hw : Canonical w ∧ InRange w) (hnu : u ≠ .notANumber)
    (hnw : w ≠ .notANumber) : u.compare w = some (compare (valueOf u) (valueOf w)) := by
  have hlarge := tooLarge_pos
  cases u with
  | notANumber => exact absurd rfl hnu
  | infinity s =>
    cases w with
    | notANumber => exact absurd rfl hnw
    | infinity s' =>
      cases s <;> cases s'
      · exact some_eq rfl
      · exact some_lt (by simp; linarith)
      · exact some_gt (by simp; linarith)
      · exact some_eq rfl
    | zero s' =>
      cases s
      · exact some_lt (by simp; linarith)
      · exact some_gt (by simp; linarith)
    | finite s' m' e' hm' =>
      have hpos : (0 : ℚ) < m' * 2 ^ e' := magnitude_pos hm'
      have hsmall := magnitude_lt hw.1.1 hw.2
      cases s <;> cases s'
      · exact some_lt (by simp; linarith)
      · exact some_lt (by simp; linarith)
      · exact some_gt (by simp; linarith)
      · exact some_gt (by simp; linarith)
  | zero s =>
    cases w with
    | notANumber => exact absurd rfl hnw
    | infinity s' =>
      cases s'
      · exact some_gt (by simp; linarith)
      · exact some_lt (by simp; linarith)
    | zero s' => exact some_eq rfl
    | finite s' m' e' hm' =>
      have hpos : (0 : ℚ) < m' * 2 ^ e' := magnitude_pos hm'
      cases s'
      · exact some_gt (by simp; linarith)
      · exact some_lt (by simp; linarith)
  | finite s m e hm =>
    have hpos : (0 : ℚ) < m * 2 ^ e := magnitude_pos hm
    have hsmall := magnitude_lt hu.1.1 hu.2
    cases w with
    | notANumber => exact absurd rfl hnw
    | infinity s' =>
      cases s <;> cases s'
      · exact some_gt (by simp; linarith)
      · exact some_lt (by simp; linarith)
      · exact some_gt (by simp; linarith)
      · exact some_lt (by simp; linarith)
    | zero s' =>
      cases s
      · exact some_lt (by simp; linarith)
      · exact some_gt (by simp; linarith)
    | finite s' m' e' hm' =>
      exact compare_finite s s' hu.1 hw.1

end Double

end RegionPlanner
