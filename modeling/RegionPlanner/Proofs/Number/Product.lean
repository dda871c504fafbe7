import RegionPlanner.Proofs.Number.Ordered

/-!
# Products, quotients and differences of doubles

For finite doubles each of them has the value of the exact one, rounded and cut off. A quotient is computed as a
truncated mantissa and the comparison of the rest with half the divisor, which is as much as rounding looks at.
-/

namespace RegionPlanner

namespace Double

open Float.Model Float.Model.UnpackedFloat

variable {u w : UnpackedFloat} {s s' : Sign} {m m' : ℕ} {e e' : ℤ} {h : 0 < m} {h' : 0 < m'} {x : ℚ}

theorem rounded_zero : rounded 0 = 0 := by
  rw [rounded_of_nonneg le_rfl, roundedUp_zero]

theorem signOf_mul (s s' : Sign) : signOf (s * s') = signOf s * signOf s' := by
  cases s <;> cases s'
  · exact (neg_mul_neg 1 1).trans (mul_one 1) |>.symm
  · exact (mul_one (-1)).symm
  · exact (one_mul (-1)).symm
  · exact (one_mul 1).symm

theorem sign_div (s s' : Sign) : s / s' = s * s' := by
  cases s <;> cases s' <;> rfl

theorem signOf_mul_self (s : Sign) : signOf s * signOf s = 1 := by
  cases s <;> norm_num [signOf]

/-! ### Products of what was taken apart -/

theorem log2_mul_ge (hm : m ≠ 0) (hm' : m' ≠ 0) : m.log2 + m'.log2 ≤ (m * m').log2 := by
  rw [Nat.le_log2 (Nat.mul_ne_zero hm hm'), pow_add]
  exact Nat.mul_le_mul (Nat.log2_self_le hm) (Nat.log2_self_le hm')

/-- The exact product of two mantissas reaches at least as low as its last place. -/
theorem product_lastPlace (hu : Canonical (.finite s m e h)) (hw : Canonical (.finite s' m' e' h')) :
    e + e' ≤ lastPlace (((m * m' : ℕ) : ℚ) * 2 ^ (e + e')) := by
  obtain ⟨-, he, hc⟩ := hu
  obtain ⟨-, he', hc'⟩ := hw
  have hlog := log2_mul_ge h.ne' h'.ne'
  have hnormal : ∀ {n : ℕ}, 0 < n → 2 ^ 52 ≤ n → 52 ≤ n.log2 := fun hpos hle => (Nat.le_log2 hpos.ne').mpr hle
  rw [← targetExponent_lastPlace (Nat.mul_pos h h'), targetExponent_eq]
  rcases hc with hc | hc <;> rcases hc' with hc' | hc'
  · have hone := hnormal h hc
    omega
  · have hone := hnormal h hc
    omega
  · have hone := hnormal h' hc'
    omega
  · omega

theorem mul_stands (hu : Canonical u) (hw : Canonical w) (hfu : u.isFinite) (hfw : w.isFinite) :
    Stands (UnpackedFloat.mul Format.binary64 u w) (rounded (valueOf u * valueOf w)) := by
  have hnone : ∀ z, Stands (.zero z) (rounded 0) := by
    intro z
    rw [rounded_zero]
    exact ⟨trivial, by simp, rfl⟩
  cases u with
  | notANumber => cases hfu
  | infinity => cases hfu
  | zero s =>
    rw [valueOf_zero, zero_mul]
    cases w with
    | notANumber => cases hfw
    | infinity => cases hfw
    | zero s' => exact hnone _
    | finite s' m' e' h' => exact hnone _
  | finite s m e h =>
    cases w with
    | notANumber => cases hfw
    | infinity => cases hfw
    | zero s' =>
      rw [valueOf_zero, mul_zero]
      exact hnone _
    | finite s' m' e' h' =>
      have hpos : 0 < m * m' := Nat.mul_pos h h'
      have hproduct : valueOf (.finite s m e h) * valueOf (.finite s' m' e' h') =
          signOf (s * s') * (((m * m' : ℕ) : ℚ) * 2 ^ (e + e')) := by
        rw [valueOf_finite, valueOf_finite, signOf_mul, two_zpow_add, Nat.cast_mul]
        ring
      rw [hproduct, rounded_signed, rounded_of_nonneg (magnitude_pos hpos).le]
      have hexact : Represents (ExtendedMantissa.ofMantissaAndAccuracy (m * m') .exact)
          (((m * m' : ℕ) : ℚ) * 2 ^ (e + e') / 2 ^ (e + e')) := by
        rw [mul_div_cancel_right₀ _ (by positivity)]
        exact rfl
      exact roundWithAccuracy_stands (magnitude_pos hpos) hexact (product_lastPlace hu hw)
        (targetExponent_lastPlace hpos)

/-! ### Quotients of what was taken apart -/

theorem represents_quotient {a b : ℕ} (hb : 0 < b) :
    Represents (ExtendedMantissa.ofMantissaAndAccuracy (a / b) (accuracyOfFraction (a % b) b)) ((a : ℚ) / b) := by
  have hrest := Nat.mod_lt a hb
  have hposb : (0 : ℚ) < b := by exact_mod_cast hb
  have hsplit : (b : ℚ) * (a / b : ℕ) + (a % b : ℕ) = a := by exact_mod_cast Nat.div_add_mod a b
  have hquotient : (a : ℚ) / b = (a / b : ℕ) + ((a % b : ℕ) : ℚ) / b := by
    rw [← hsplit]
    field_simp
  rw [hquotient]
  generalize a / b = low
  generalize a % b = rest at hrest
  have hcast : (rest : ℚ) < b := by exact_mod_cast hrest
  unfold accuracyOfFraction
  by_cases hzero : rest = 0
  · rw [if_pos hzero, hzero, Nat.cast_zero, zero_div, add_zero]
    exact rfl
  · rw [if_neg hzero]
    have hpos : (0 : ℚ) < rest := by exact_mod_cast Nat.pos_of_ne_zero hzero
    have hless : (rest : ℚ) / b < 1 := (div_lt_one hposb).mpr hcast
    have hmore : (0 : ℚ) < rest / b := by positivity
    rcases lt_trichotomy (2 * rest) b with hlt | heq | hgt
    · rw [compare_lt_iff_lt.mpr hlt]
      have hdouble : (2 : ℚ) * rest < b := by exact_mod_cast hlt
      have hhalf : (rest : ℚ) / b < 1 / 2 := by
        rw [div_lt_iff₀ hposb]
        linarith
      change _ < _ ∧ _ < _
      constructor <;> linarith
    · rw [compare_eq_iff_eq.mpr heq]
      have hdouble : (2 : ℚ) * rest = b := by exact_mod_cast heq
      change _ = _
      rw [← hdouble]
      field_simp
    · rw [compare_gt_iff_gt.mpr hgt]
      have hdouble : (b : ℚ) < 2 * rest := by exact_mod_cast hgt
      have hhalf : (1 : ℚ) / 2 < rest / b := by
        rw [lt_div_iff₀ hposb]
        linarith
      change _ < _ ∧ _ < _
      constructor <;> linarith

/-- The target of a truncated mantissa is that of the fraction, unless nothing is left of it. -/
theorem targetExponent_floor (hx : 0 < x) (hlow : (m : ℚ) ≤ x / 2 ^ e) (hhigh : x / 2 ^ e < m + 1)
    (hm : m = 0 → e ≤ -1074) : Format.binary64.targetExponent (totalExponent m e) = lastPlace x := by
  have hpower : (0 : ℚ) < 2 ^ e := by positivity
  rw [targetExponent_eq]
  rcases Nat.eq_zero_or_pos m with rfl | hpos
  · have hsmall : x < 2 ^ e := by
      rw [Nat.cast_zero, zero_add, div_lt_one hpower] at hhigh
      exact hhigh
    have hlog := (Int.lt_zpow_iff_log_lt (b := 2) one_lt_two hx).mp (by exact_mod_cast hsmall)
    have hleast := hm rfl
    unfold lastPlace
    rw [Nat.log2_zero]
    omega
  · have hlog : Int.log 2 x = m.log2 + e := by
      have hself : (2 : ℚ) ^ (m.log2 : ℤ) ≤ m := by exact_mod_cast Nat.log2_self_le hpos.ne'
      have hnext : (m : ℚ) + 1 ≤ 2 ^ ((m.log2 : ℤ) + 1) := by exact_mod_cast Nat.lt_log2_self (n := m)
      refine log_eq ?_ ?_
      · rw [two_zpow_add]
        exact (le_div_iff₀ hpower).mp (hself.trans hlow)
      · rw [add_right_comm, two_zpow_add]
        exact (div_lt_iff₀ hpower).mp (hhigh.trans_le hnext)
    unfold lastPlace
    rw [hlog]

/-- The exponents of two mantissas give that of their quotient, up to one. -/
theorem log_quotient (hm : 0 < m) (hm' : 0 < m') :
    (m.log2 : ℤ) + e - (m'.log2 + e') - 1 ≤ Int.log 2 ((m * 2 ^ e : ℚ) / (m' * 2 ^ e')) := by
  have hpos : (0 : ℚ) < m * 2 ^ e := magnitude_pos hm
  have hpos' : (0 : ℚ) < m' * 2 ^ e' := magnitude_pos hm'
  have hlow := (log_spec hpos).1
  have hhigh := (log_spec hpos').2
  rw [log_magnitude hm] at hlow
  rw [log_magnitude hm'] at hhigh
  refine (Int.zpow_le_iff_le_log (b := 2) one_lt_two (div_pos hpos hpos')).mp ?_
  rw [Nat.cast_ofNat, le_div_iff₀ hpos']
  calc (2 : ℚ) ^ ((m.log2 : ℤ) + e - (m'.log2 + e') - 1) * (m' * 2 ^ e')
      ≤ 2 ^ ((m.log2 : ℤ) + e - (m'.log2 + e') - 1) * 2 ^ ((m'.log2 : ℤ) + e' + 1) :=
        mul_le_mul_of_nonneg_left hhigh.le (by positivity)
    _ = 2 ^ ((m.log2 : ℤ) + e) := by
        rw [← two_zpow_add]
        congr 1
        omega
    _ ≤ m * 2 ^ e := hlow

/-- A mantissa is shifted until the quotient has enough bits, and the rest of the division is kept. -/
theorem divCore_eq (m : ℕ) (e : ℤ) (m' : ℕ) (e' : ℤ) : ∃ (n : ℕ) (t : ℤ), e = n + t + e' ∧
    t ≤ max ((m.log2 : ℤ) + e - (m'.log2 + e') - 53) (-1074) ∧
    divCore Format.binary64 m e m' e' = ((m <<< n) / m', t, accuracyOfFraction ((m <<< n) % m') m') := by
  have hbits : (Format.binary64.mantissaBits : ℤ) = 53 := rfl
  have hleast : Format.binary64.minExponent = -1074 := rfl
  obtain ⟨t, ht⟩ : ∃ t, min (e - e') (Format.binary64.targetExponent (totalExponent m e - totalExponent m' e')) = t :=
    ⟨_, rfl⟩
  have htarget : t ≤ e - e' ∧ t ≤ max ((m.log2 : ℤ) + e - (m'.log2 + e') - 53) (-1074) := by
    unfold Format.targetExponent totalExponent at ht
    rw [hbits, hleast] at ht
    omega
  obtain ⟨n, hn⟩ : ∃ n : ℕ, e - e' - t = n := ⟨(e - e' - t).toNat, by omega⟩
  refine ⟨n, t, by omega, htarget.2, ?_⟩
  unfold divCore
  simp only [ht, hn, Int.toNat_natCast]

theorem div_stands_finite : Stands (UnpackedFloat.div Format.binary64 (.finite s m e h) (.finite s' m' e' h'))
    (rounded (valueOf (.finite s m e h) / valueOf (.finite s' m' e' h'))) := by
  have hpos : (0 : ℚ) < m * 2 ^ e := magnitude_pos h
  have hpos' : (0 : ℚ) < m' * 2 ^ e' := magnitude_pos h'
  have hquotient : valueOf (.finite s m e h) / valueOf (.finite s' m' e' h') =
      signOf (s / s') * ((m * 2 ^ e : ℚ) / (m' * 2 ^ e')) := by
    have hself : (signOf s')⁻¹ = signOf s' := inv_eq_of_mul_eq_one_left (signOf_mul_self s')
    rw [valueOf_finite, valueOf_finite, sign_div, signOf_mul, mul_div_mul_comm, div_eq_mul_inv (signOf s), hself]
  have hlog : (m.log2 : ℤ) + e - (m'.log2 + e') - 1 ≤ Int.log 2 ((m * 2 ^ e : ℚ) / (m' * 2 ^ e')) := log_quotient h h'
  have hexact := div_pos hpos hpos'
  rw [hquotient, rounded_signed, rounded_of_nonneg hexact.le]
  generalize hx : (m * 2 ^ e : ℚ) / (m' * 2 ^ e') = x at hlog hexact
  have hplace : Int.log 2 x - 52 ≤ lastPlace x := le_max_left _ _
  obtain ⟨n, t, hexponent, htarget, hcore⟩ := divCore_eq m e m' e'
  have hpower : (0 : ℚ) < 2 ^ t := by positivity
  have hscaled : x / 2 ^ t = ((m <<< n : ℕ) : ℚ) / m' := by
    have hnonzero : (m' : ℚ) ≠ 0 := by positivity
    rw [← hx, hexponent, two_zpow_add, two_zpow_add, zpow_natCast, Nat.shiftLeft_eq]
    push_cast
    field_simp
  have hrepresents := represents_quotient (a := m <<< n) h'
  rw [← hscaled] at hrepresents
  have hfloor := Nat.floor_div_eq_div (K := ℚ) (m <<< n) m'
  rw [← hscaled] at hfloor
  have hbracket := (Nat.floor_eq_iff (div_pos hexact hpower).le).mp hfloor
  change Stands (roundWithAccuracy Format.binary64 (s / s') (divCore Format.binary64 m e m' e').1
    (divCore Format.binary64 m e m' e').2.1 (divCore Format.binary64 m e m' e').2.2) _
  rw [hcore]
  simp only
  refine roundWithAccuracy_stands hexact hrepresents ?_ ?_
  · have hge := lastPlace_ge x
    omega
  · refine targetExponent_floor hexact hbracket.1 hbracket.2 ?_
    -- A quotient of which nothing is left is below its first place, which the target exponent allows at the end only.
    intro hnone
    have hsmall := hbracket.2
    rw [hnone, Nat.cast_zero, zero_add, div_lt_one hpower] at hsmall
    have hlt := (Int.lt_zpow_iff_log_lt (b := 2) one_lt_two hexact).mp (by exact_mod_cast hsmall)
    omega

theorem div_stands (hu : u.isFinite) (hw : w.isFinite) (hnonzero : valueOf w ≠ 0) :
    Stands (UnpackedFloat.div Format.binary64 u w) (rounded (valueOf u / valueOf w)) := by
  cases w with
  | notANumber => cases hw
  | infinity => cases hw
  | zero s' => exact absurd rfl hnonzero
  | finite s' m' e' h' =>
    cases u with
    | notANumber => cases hu
    | infinity => cases hu
    | zero s =>
      rw [valueOf_zero, zero_div, rounded_zero]
      exact ⟨trivial, by simp [UnpackedFloat.div], rfl⟩
    | finite s m e h => exact div_stands_finite

/-! ### Differences of what was taken apart -/

theorem signOf_neg (s : Sign) : signOf (-s) = -signOf s := by
  cases s
  · change (1 : ℚ) = -(-1)
    norm_num
  · rfl

theorem valueOf_neg (u : UnpackedFloat) : valueOf u.neg = -valueOf u := by
  cases u with
  | notANumber => exact neg_zero.symm
  | infinity s =>
    change signOf (-s) * tooLarge = _
    rw [signOf_neg, valueOf_infinity, neg_mul]
  | zero s => exact neg_zero.symm
  | finite s m e h =>
    change signOf (-s) * _ = _
    rw [signOf_neg, valueOf_finite, neg_mul]

theorem neg_canonical (hu : Canonical u) : Canonical u.neg := by
  cases u <;> exact hu

theorem neg_isFinite (hu : u.isFinite) : u.neg.isFinite := by
  cases u <;> exact hu

/-- Taking away is adding the opposite. -/
theorem sub_eq_add (u w : UnpackedFloat) :
    UnpackedFloat.sub Format.binary64 u w = UnpackedFloat.add Format.binary64 u w.neg := by
  cases u <;> cases w <;> try rfl
  next s m e h s' m' e' h' =>
    have happly : ∀ n : ℤ, (-s').apply n = -s'.apply n := by
      intro n
      cases s'
      · exact (neg_neg n).symm
      · rfl
    have hsum : ∀ a b : ℕ, s.apply a - s'.apply b = s.apply a + (-s').apply b := by
      intro a b
      rw [happly, sub_eq_add_neg]
    exact congrArg (UnpackedFloat.normalize Format.binary64 · (min e e') .positive) (hsum _ _)

theorem sub_stands (hu : Canonical u) (hw : Canonical w) (hfu : u.isFinite) (hfw : w.isFinite) :
    Stands (UnpackedFloat.sub Format.binary64 u w) (rounded (valueOf u - valueOf w)) := by
  rw [sub_eq_add, sub_eq_add_neg, ← valueOf_neg]
  exact add_stands hu (neg_canonical hw) hfu (neg_isFinite hfw)

/-! ### Doubles -/

variable {a b : Float}

theorem Stands.pack {u : UnpackedFloat} {x : ℚ} (hu : Stands u x) :
    (Float.Model.pack u).unpack ≠ .notANumber ∧ valueOf (Float.Model.pack u).unpack = cutOff x := by
  obtain ⟨hnumber, hvalue⟩ := value_pack hu.canonical hu.number
  rw [hu.value] at hvalue
  exact ⟨hnumber, hvalue⟩

theorem mul_value (ha : a.isFinite) (hb : b.isFinite) :
    IsNumber (a * b) ∧ value (a * b) = cutOff (rounded (value a * value b)) :=
  (mul_stands (canonical a).1 (canonical b).1 ha hb).pack

theorem div_value (ha : a.isFinite) (hb : b.isFinite) (hnonzero : value b ≠ 0) :
    IsNumber (a / b) ∧ value (a / b) = cutOff (rounded (value a / value b)) :=
  (div_stands ha hb hnonzero).pack

theorem sub_value (ha : a.isFinite) (hb : b.isFinite) :
    IsNumber (a - b) ∧ value (a - b) = cutOff (rounded (value a - value b)) :=
  (sub_stands (canonical a).1 (canonical b).1 ha hb).pack

end Double

end RegionPlanner
