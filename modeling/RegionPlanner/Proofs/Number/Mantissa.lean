import RegionPlanner.Proofs.Number.Packing

/-!
# Mantissas with a rest

While a mantissa is shifted to its last place, two bits keep what is lost of it. They are enough to find the
nearest mantissa, so rounding a double that was taken apart rounds its value.
-/

namespace RegionPlanner

namespace Double

open Float.Model Float.Model.UnpackedFloat

/-- The fractions that a mantissa with its two rest bits may stand for. -/
def Represents : ExtendedMantissa → ℚ → Prop
  | ⟨m, false, false⟩, x => x = m
  | ⟨m, false, true⟩, x => m < x ∧ x < m + 1 / 2
  | ⟨m, true, false⟩, x => x = m + 1 / 2
  | ⟨m, true, true⟩, x => m + 1 / 2 < x ∧ x < m + 1

variable {em : ExtendedMantissa} {x : ℚ} {m : ℕ} {e : ℤ} {s : Sign} {accuracy : Accuracy}

/-! ### Shifting -/

theorem Represents.shiftRightOne (h : Represents em x) : Represents em.shiftRightOne (x / 2) := by
  obtain ⟨m, round, sticky⟩ := em
  have hsplit := Nat.div_add_mod m 2
  have hcast : (2 : ℚ) * (m / 2 : ℕ) + (m % 2 : ℕ) = m := by exact_mod_cast hsplit
  unfold ExtendedMantissa.shiftRightOne
  rcases Nat.mod_two_eq_zero_or_one m with hbit | hbit
  · rw [hbit, Nat.cast_zero] at hcast
    simp only [hbit, bne_self_eq_false]
    cases round <;> cases sticky <;> simp only [Represents, Bool.or_false, Bool.or_true] at h ⊢
    · linarith
    · constructor <;> linarith
    · constructor <;> linarith
    · constructor <;> linarith
  · rw [hbit, Nat.cast_one] at hcast
    have hodd : (1 != 0) = true := rfl
    simp only [hbit, hodd]
    cases round <;> cases sticky <;> simp only [Represents, Bool.or_false, Bool.or_true] at h ⊢
    · linarith
    · constructor <;> linarith
    · constructor <;> linarith
    · constructor <;> linarith

theorem Represents.shiftRight (h : Represents em x) (n : ℕ) : Represents (em >>> n) (x / 2 ^ n) := by
  change Represents (n.repeat ExtendedMantissa.shiftRightOne em) (x / 2 ^ n)
  induction n with
  | zero =>
    rw [pow_zero, div_one]
    exact h
  | succ n ih =>
    rw [pow_succ, ← div_div]
    exact ih.shiftRightOne

/-! ### Rounding -/

theorem Represents.floor (h : Represents em x) : ⌊x⌋ = (em.mantissa : ℤ) := by
  obtain ⟨m, round, sticky⟩ := em
  rw [Int.floor_eq_iff, Int.cast_natCast]
  cases round <;> cases sticky <;> simp only [Represents] at h
  · constructor <;> linarith
  · constructor <;> linarith
  · constructor <;> linarith
  · constructor <;> linarith

theorem Represents.rounded (h : Represents em x) : (em.roundedMantissa : ℤ) = nearestEven x := by
  have hfloor := h.floor
  obtain ⟨m, round, sticky⟩ := em
  change ⌊x⌋ = (m : ℤ) at hfloor
  unfold nearestEven
  rw [hfloor, Int.cast_natCast]
  cases round <;> cases sticky <;> simp only [Represents] at h
  · rw [if_pos (by linarith)]
    rfl
  · rw [if_pos (by linarith)]
    rfl
  · rw [if_neg (by linarith), if_neg (by linarith)]
    change ((m + m % 2 : ℕ) : ℤ) = _
    push_cast
    rfl
  · rw [if_neg (by linarith), if_pos (by linarith)]
    rfl

/-! ### The target exponent -/

theorem targetExponent_eq (m : ℕ) (e : ℤ) :
    Format.binary64.targetExponent (totalExponent m e) = max (m.log2 + e - 52) (-1074) := by
  have hbits : (Format.binary64.mantissaBits : ℤ) = 53 := rfl
  have hleast : Format.binary64.minExponent = -1074 := rfl
  unfold Format.targetExponent totalExponent
  rw [hbits, hleast]
  omega

theorem log_magnitude (h : 0 < m) : Int.log 2 ((m : ℚ) * 2 ^ e) = m.log2 + e := by
  have hpower : (0 : ℚ) < 2 ^ e := by positivity
  have hlow : (2 : ℚ) ^ (m.log2 : ℤ) ≤ m := by exact_mod_cast Nat.log2_self_le h.ne'
  have hhigh : (m : ℚ) < 2 ^ ((m.log2 : ℤ) + 1) := by exact_mod_cast Nat.lt_log2_self
  refine log_eq ?_ ?_
  · rw [two_zpow_add]
    exact mul_le_mul_of_nonneg_right hlow hpower.le
  · rw [add_right_comm, two_zpow_add]
    exact mul_lt_mul_of_pos_right hhigh hpower

theorem targetExponent_lastPlace (h : 0 < m) :
    Format.binary64.targetExponent (totalExponent m e) = lastPlace (m * 2 ^ e) := by
  rw [targetExponent_eq]
  unfold lastPlace
  rw [log_magnitude h]

/-- A mantissa that has 53 bits already stays as it is. -/
theorem shift_settled (hm : m < 2 ^ 53) (he : -1074 ≤ e) :
    shiftToTargetExponent Format.binary64 m e .exact = (⟨m, false, false⟩, e) := by
  have hlog : m.log2 ≤ 52 := by
    rcases Nat.eq_zero_or_pos m with rfl | hpos
    · rw [Nat.log2_zero]
      omega
    · have hlt := (Nat.log2_lt hpos.ne').mpr hm
      omega
  unfold shiftToTargetExponent
  rw [targetExponent_eq]
  have hnone : (max ((m.log2 : ℤ) + e - 52) (-1074) - e).toNat = 0 := by omega
  unfold shiftToExponent
  simp only [hnone]
  refine Prod.ext rfl ?_
  exact Int.add_zero e

/-- A mantissa that was rounded up to 54 bits is one shift away. -/
theorem shift_carried (he : -1074 ≤ e) :
    shiftToTargetExponent Format.binary64 (2 ^ 53) e .exact = (⟨2 ^ 52, false, false⟩, e + 1) := by
  unfold shiftToTargetExponent
  rw [targetExponent_eq, Nat.log2_two_pow]
  have hone : (max (((53 : ℕ) : ℤ) + e - 52) (-1074) - e).toNat = 1 := by omega
  unfold shiftToExponent
  simp only [hone]
  rfl

/-! ### Rounded doubles -/

/-- A double, taken apart, that stands for a value. -/
structure Stands (u : UnpackedFloat) (x : ℚ) : Prop where
  canonical : Canonical u
  number : u ≠ .notANumber
  value : valueOf u = x

theorem roundWithAccuracy_stands (h : 0 < x)
    (hx : Represents (ExtendedMantissa.ofMantissaAndAccuracy m accuracy) (x / 2 ^ e)) (hle : e ≤ lastPlace x)
    (ht : Format.binary64.targetExponent (totalExponent m e) = lastPlace x) :
    Stands (roundWithAccuracy Format.binary64 s m e accuracy) (signOf s * roundedUp x) := by
  have hplace := lastPlace_ge x
  have hpower : (0 : ℚ) < 2 ^ lastPlace x := by positivity
  obtain ⟨n, hn⟩ : ∃ n : ℕ, lastPlace x - e = n := ⟨(lastPlace x - e).toNat, by omega⟩
  have hfirst : shiftToTargetExponent Format.binary64 m e accuracy =
      (ExtendedMantissa.ofMantissaAndAccuracy m accuracy >>> n, lastPlace x) := by
    unfold shiftToTargetExponent shiftToExponent
    simp only [ht, hn, Int.toNat_natCast]
    refine Prod.ext rfl ?_
    change e + (n : ℤ) = lastPlace x
    omega
  have hshifted := hx.shiftRight n
  have hscale : x / 2 ^ e / 2 ^ n = x / 2 ^ lastPlace x := by
    have hexponent : lastPlace x = e + n := by omega
    rw [div_div, hexponent, two_zpow_add, zpow_natCast]
  rw [hscale] at hshifted
  have hnearest := hshifted.rounded
  unfold roundWithAccuracy
  rw [hfirst]
  simp only
  generalize ExtendedMantissa.roundedMantissa (ExtendedMantissa.ofMantissaAndAccuracy m accuracy >>> n) = r at hnearest
  have hvalue : roundedUp x = r * 2 ^ lastPlace x := by
    unfold roundedUp
    rw [← hnearest, Int.cast_natCast]
  have hhigh : r ≤ 2 ^ 53 := by
    have hle := roundedUp_le h
    rw [hvalue, add_comm, two_zpow_add] at hle
    have hcast := le_of_mul_le_mul_right hle hpower
    exact_mod_cast hcast
  have hlow : 2 ^ 52 ≤ r ∨ lastPlace x = -1074 := by
    by_cases hmin : lastPlace x = -1074
    · exact .inr hmin
    · have hle := le_roundedUp h hmin
      rw [hvalue, add_comm, two_zpow_add] at hle
      have hcast := le_of_mul_le_mul_right hle hpower
      exact .inl (by exact_mod_cast hcast)
  -- Rounding up may carry into one more binary place; then the mantissa is shifted once more, and is even.
  rcases hhigh.lt_or_eq with hlt | rfl
  · rw [shift_settled hlt hplace]
    simp only
    by_cases hzero : r = 0
    · rw [dif_pos hzero]
      refine ⟨trivial, by simp, ?_⟩
      rw [valueOf_zero, hvalue, hzero, Nat.cast_zero, zero_mul, mul_zero]
    · rw [dif_neg hzero]
      refine ⟨⟨hlt, hplace, hlow⟩, by simp, ?_⟩
      rw [valueOf_finite, hvalue]
  · rw [shift_carried hplace]
    simp only
    rw [dif_neg (by decide)]
    refine ⟨⟨by decide, by omega, .inl le_rfl⟩, by simp, ?_⟩
    rw [valueOf_finite, hvalue, two_zpow_add]
    push_cast
    ring

theorem round_stands (h : 0 < m) :
    Stands (UnpackedFloat.round Format.binary64 s m e) (signOf s * roundedUp (m * 2 ^ e)) := by
  have hpos : (0 : ℚ) < m * 2 ^ e := magnitude_pos h
  have htarget := targetExponent_lastPlace (e := e) h
  unfold UnpackedFloat.round decreaseExponent
  rw [htarget]
  simp only
  generalize hn : (e - lastPlace ((m : ℚ) * 2 ^ e)).toNat = n
  have hshift : m <<< n = m * 2 ^ n := Nat.shiftLeft_eq m n
  have hsame : ((m <<< n : ℕ) : ℚ) * 2 ^ (e - n : ℤ) = m * 2 ^ e := by
    have hsum : (2 : ℚ) ^ e = 2 ^ n * 2 ^ (e - n : ℤ) := by
      rw [← zpow_natCast, ← two_zpow_add]
      congr 1
      omega
    rw [hshift, hsum]
    push_cast
    ring
  have hpower : (0 : ℚ) < 2 ^ (e - n : ℤ) := by positivity
  have hshifted : 0 < m <<< n := by
    rw [hshift]
    positivity
  refine roundWithAccuracy_stands hpos ?_ (by omega) ?_
  · change (m : ℚ) * 2 ^ e / 2 ^ (e - n : ℤ) = ((m <<< n : ℕ) : ℚ)
    rw [← hsame, mul_div_cancel_right₀ _ hpower.ne']
  · rw [targetExponent_lastPlace hshifted, hsame]

theorem normalize_stands (n : ℤ) (e : ℤ) (zero : Sign) :
    Stands (UnpackedFloat.normalize Format.binary64 n e zero) (rounded (n * 2 ^ e)) := by
  unfold UnpackedFloat.normalize
  rcases lt_trichotomy n 0 with hneg | rfl | hpos
  · rw [compare_lt_iff_lt.mpr hneg]
    obtain ⟨k, hk⟩ : ∃ k : ℕ, -n = k := ⟨(-n).toNat, by omega⟩
    have hn : (n : ℚ) * 2 ^ e = -(k * 2 ^ e) := by
      have hcast : -(n : ℚ) = k := by exact_mod_cast hk
      rw [← hcast]
      ring
    have hround := round_stands (s := .negative) (m := k) (e := e) (by omega)
    rw [signOf_negative, neg_one_mul] at hround
    rw [hn, rounded_neg, rounded_of_nonneg (by positivity)]
    simp only [hk, Int.toNat_natCast]
    exact hround
  · rw [compare_eq_iff_eq.mpr rfl, Int.cast_zero, zero_mul, rounded_of_nonneg le_rfl, roundedUp_zero]
    exact ⟨trivial, by simp, rfl⟩
  · rw [compare_gt_iff_gt.mpr hpos]
    obtain ⟨k, rfl⟩ : ∃ k : ℕ, n = k := ⟨n.toNat, by omega⟩
    have hround := round_stands (s := .positive) (m := k) (e := e) (by omega)
    rw [signOf_positive, one_mul] at hround
    rw [Int.cast_natCast, rounded_of_nonneg (by positivity)]
    simp only [Int.toNat_natCast]
    exact hround

end Double

end RegionPlanner
