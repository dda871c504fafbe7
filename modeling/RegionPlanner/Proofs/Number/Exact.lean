import RegionPlanner.Number.Exact
import RegionPlanner.Proofs.Number.Neighbours
import RegionPlanner.Proofs.Number.Product

/-!
# Doubles that are exact

A count below `2 ^ 53` is its own double, and any other count is close to one. The fraction that a finite double reads
as is its value, and a value other than zero belongs to one double only.
-/

namespace RegionPlanner

namespace Double

open Float.Model Float.Model.UnpackedFloat

variable {x y : Float} {n : ℕ} {v : ℚ}

/-! ### Finite doubles -/

theorem isFinite_iff : x.isFinite = true ↔ IsNumber x ∧ |value x| < tooLarge := by
  have hlarge := tooLarge_pos
  have hsize : ∀ (s : Sign) (v : ℚ), |signOf s * v| = |v| := by
    intro s v
    cases s
    · rw [signOf_negative, neg_one_mul, abs_neg]
    · rw [signOf_positive, one_mul]
  obtain ⟨hcanonical, hrange⟩ := canonical x
  change x.toModel.unpack.isFinite = true ↔ _
  unfold IsNumber value
  cases hu : x.toModel.unpack with
  | notANumber => simp [UnpackedFloat.isFinite]
  | infinity s => simp [UnpackedFloat.isFinite, hsize, abs_of_pos hlarge]
  | zero s => simp [UnpackedFloat.isFinite, hlarge]
  | finite s m e h =>
    rw [hu] at hcanonical hrange
    have hsmall := magnitude_lt hcanonical.1 hrange
    have hpos : (0 : ℚ) < m * 2 ^ e := magnitude_pos h
    rw [valueOf_finite, hsize, abs_of_pos hpos]
    exact iff_of_true rfl ⟨by simp, hsmall⟩

theorem isNaN_iff : x.isNaN = true ↔ ¬ IsNumber x := by
  change x.toModel.unpack.isNaN = true ↔ _
  unfold IsNumber
  cases x.toModel.unpack <;> simp [UnpackedFloat.isNaN]

theorem finite_cases (hx : x.isFinite = true) :
    (∃ s, x.toModel.unpack = .zero s) ∨ ∃ s m e h, x.toModel.unpack = .finite s m e h := by
  change x.toModel.unpack.isFinite = true at hx
  cases hu : x.toModel.unpack with
  | notANumber => rw [hu] at hx; cases hx
  | infinity s => rw [hu] at hx; cases hx
  | zero s => exact .inl ⟨s, rfl⟩
  | finite s m e h => exact .inr ⟨s, m, e, h, rfl⟩

theorem rounded_value (hx : x.isFinite = true) : rounded (value x) = value x := by
  have hcanonical := (canonical x).1
  unfold value
  rcases finite_cases hx with ⟨s, hu⟩ | ⟨s, m, e, h, hu⟩
  · rw [hu, valueOf_zero, rounded_zero]
  · rw [hu] at hcanonical ⊢
    exact rounded_finite hcanonical

theorem two_zpow_lt_tooLarge {k : ℤ} (hk : k < 1024) : (2 : ℚ) ^ k < tooLarge :=
  zpow_lt_zpow_right₀ (by norm_num) hk

theorem rounded_two_zpow {k : ℤ} (hk : -1022 ≤ k) : rounded (2 ^ k) = 2 ^ k := by
  have hscaled := rounded_scaled (m := 1) (e := k) (by norm_num) (by omega)
  rw [Nat.cast_one, one_mul] at hscaled
  exact hscaled

theorem rounded_one : rounded 1 = 1 := by
  have hpower := rounded_two_zpow (k := 0) (by norm_num)
  rwa [zpow_zero] at hpower

theorem one_le_rounded (hv : 1 ≤ v) : 1 ≤ rounded v := by
  have hmono := rounded_mono hv
  rwa [rounded_one] at hmono

/-! ### Counts -/

theorem rounded_count (hn : n < 2 ^ 64) : 0 ≤ rounded n ∧ rounded n ≤ 2 ^ (64 : ℤ) := by
  have hcast : (n : ℚ) ≤ 2 ^ (64 : ℤ) := by exact_mod_cast hn.le
  have hhigh := rounded_mono hcast
  rw [rounded_two_zpow (by norm_num)] at hhigh
  exact ⟨rounded_nonneg (Nat.cast_nonneg n), hhigh⟩

theorem count_value (hn : n < 2 ^ 64) :
    IsNumber (Quantity.count n : Float) ∧ value (Quantity.count n) = rounded n := by
  have hunpack : (Quantity.count n : Float).toModel.unpack =
      (Float.Model.pack (UnpackedFloat.normalize Format.binary64 (n.toUInt64.toNat : ℤ) 0 .positive)).unpack := rfl
  have hsame : n.toUInt64.toNat = n := UInt64.toNat_ofNat_of_lt' hn
  have hstands := (normalize_stands n 0 .positive).pack
  rw [hsame] at hunpack
  rw [zpow_zero, mul_one, Int.cast_natCast] at hstands
  unfold IsNumber value
  rw [hunpack]
  refine ⟨hstands.1, hstands.2.trans ?_⟩
  have hlarge : (2 : ℚ) ^ (64 : ℤ) < tooLarge := two_zpow_lt_tooLarge (by norm_num)
  obtain ⟨hlow, hhigh⟩ := rounded_count hn
  exact cutOff_of_lt (by linarith [tooLarge_pos]) (hhigh.trans hlarge.le)

theorem count_isFinite (hn : n < 2 ^ 64) : (Quantity.count n : Float).isFinite = true := by
  obtain ⟨hnumber, hvalue⟩ := count_value hn
  refine isFinite_iff.mpr ⟨hnumber, ?_⟩
  obtain ⟨hlow, hhigh⟩ := rounded_count hn
  rw [hvalue, abs_of_nonneg hlow]
  exact hhigh.trans_lt (two_zpow_lt_tooLarge (by norm_num))

/-! ### One double for a value -/

theorem eq_of_unpack (h : x.toModel.unpack = y.toModel.unpack) : x = y := by
  have hbits := (unpack_inj_of_valid x.toModel.valid y.toModel.valid).mp h
  obtain ⟨⟨⟨a⟩, ha⟩⟩ := x
  obtain ⟨⟨⟨b⟩, hb⟩⟩ := y
  cases hbits
  rfl

theorem finite_inj {s s' : Sign} {m m' : ℕ} {e e' : ℤ} {h : 0 < m} {h' : 0 < m'} (hu : Canonical (.finite s m e h))
    (hw : Canonical (.finite s' m' e' h')) (hvalue : valueOf (.finite s m e h) = valueOf (.finite s' m' e' h')) :
    UnpackedFloat.finite s m e h = .finite s' m' e' h' := by
  have hpos : (0 : ℚ) < m * 2 ^ e := magnitude_pos h
  have hpos' : (0 : ℚ) < m' * 2 ^ e' := magnitude_pos h'
  have hsame : s = s' ∧ (m : ℚ) * 2 ^ e = m' * 2 ^ e' := by
    rw [valueOf_finite, valueOf_finite] at hvalue
    cases s <;> cases s' <;> simp only [signOf_negative, signOf_positive] at hvalue
    · exact ⟨rfl, by linarith⟩
    · exact absurd hvalue (by linarith)
    · exact absurd hvalue (by linarith)
    · exact ⟨rfl, by linarith⟩
  have hcompare := compare_magnitude hu.1 hw.1 hu.2.1 hw.2.1 hu.2.2 hw.2.2
  rw [compare_eq_iff_eq.mpr hsame.2, Ordering.then_eq_eq, compare_eq_iff_eq, compare_eq_iff_eq] at hcompare
  exact finite_congr hsame.1 hcompare.2 hcompare.1

/-- Two numbers of one value are the same double; only zero has two. -/
theorem eq_of_value (hx : IsNumber x) (hy : IsNumber y) (h : value x = value y) (hnonzero : value x ≠ 0) : x = y := by
  have hlarge := tooLarge_pos
  -- An infinity is no finite double, since it counts as more than all of them.
  have hsame : x.isFinite = y.isFinite := by
    rw [Bool.eq_iff_iff, isFinite_iff, isFinite_iff, h]
    exact and_congr_left fun _ => iff_of_true hx hy
  obtain ⟨hcx, -⟩ := canonical x
  obtain ⟨hcy, -⟩ := canonical y
  refine eq_of_unpack ?_
  change x.toModel.unpack.isFinite = y.toModel.unpack.isFinite at hsame
  unfold IsNumber value at *
  cases hu : x.toModel.unpack with
  | notANumber => exact absurd hu hx
  | zero s => exact absurd (by rw [hu, valueOf_zero]) hnonzero
  | infinity s =>
    cases hw : y.toModel.unpack with
    | notANumber => exact absurd hw hy
    | zero s' => rw [hu, hw] at hsame; cases hsame
    | finite s' m' e' h' => rw [hu, hw] at hsame; cases hsame
    | infinity s' =>
      rw [hu, hw, valueOf_infinity, valueOf_infinity] at h
      cases s <;> cases s' <;> simp only [signOf_negative, signOf_positive] at h
      · rfl
      · exact absurd h (by linarith)
      · exact absurd h (by linarith)
      · rfl
  | finite s m e hm =>
    cases hw : y.toModel.unpack with
    | notANumber => exact absurd hw hy
    | zero s' => exact absurd (by rw [h, hw, valueOf_zero]) hnonzero
    | infinity s' => rw [hu, hw] at hsame; cases hsame
    | finite s' m' e' h' =>
      rw [hu] at hcx
      rw [hw] at hcy
      rw [hu, hw] at h
      exact finite_inj hcx hcy h

/-! ### The fraction a double reads as -/

/-- A positive exponent as a factor and a negative one as a divisor. -/
theorem magnitude_split (m : ℕ) (e : ℤ) : (m * 2 ^ e.toNat : ℚ) / 2 ^ (-e).toNat = m * 2 ^ e := by
  rw [mul_div_assoc, ← zpow_natCast, ← zpow_natCast, ← zpow_sub₀ (by norm_num)]
  congr 2
  omega

theorem toRat_finite (negative : Bool) (m : ℕ) (e : ℤ) :
    (Reading.finite negative m e).toRat = (if negative then -1 else 1) * (m * 2 ^ e) := by
  have hden : ((1 <<< (-e).toNat : ℕ) : ℚ) = 2 ^ (-e).toNat := by
    rw [Nat.one_shiftLeft]
    push_cast
    rfl
  have hnum : ((m <<< e.toNat : ℕ) : ℚ) = m * 2 ^ e.toNat := by
    rw [Nat.shiftLeft_eq]
    push_cast
    rfl
  generalize hn : m <<< e.toNat = n at hnum
  have hread : (Reading.finite negative m e).toRat = mkRat (if negative then -(n : ℤ) else n) (1 <<< (-e).toNat) := by
    rw [← hn]
    rfl
  rw [hread, Rat.mkRat_eq_div, hden, ← magnitude_split, ← hnum]
  cases negative
  · simp
  · simp [neg_div]

section
variable (b : BitVec 64)

theorem toNat_unpackExponent : (@unpackExponent Format.binary64 b).toNat = b.toNat / 2 ^ 52 % 2 ^ 11 := by
  unfold unpackExponent
  rw [BitVec.toNat_cast, BitVec.extractLsb_toNat, Nat.shiftRight_eq_div_pow]
  rfl

theorem toNat_unpackMantissa : (@unpackMantissa Format.binary64 b).toNat = b.toNat % 2 ^ 52 := by
  unfold unpackMantissa
  rw [BitVec.toNat_cast, BitVec.extractLsb_toNat, Nat.shiftRight_zero]
  rfl

theorem toNat_unpackSign : (@unpackSign Format.binary64 b).toNat = b.toNat / 2 ^ 63 % 2 := by
  unfold unpackSign
  rw [BitVec.toNat_cast, BitVec.extractLsb_toNat, Nat.shiftRight_eq_div_pow]
  rfl

end

/-- The sign that is read is that of the value. -/
theorem sign_bit (b : UInt64) :
    (if (b >>> 63 == 1) = true then -1 else 1 : ℚ) = signOf (Sign.ofBitVec (@unpackSign Format.binary64 b.toBitVec)) := by
  have hhalf : (b >>> 63).toNat = b.toNat / 2 ^ 63 := by
    rw [UInt64.toNat_shiftRight, Nat.shiftRight_eq_div_pow]
    rfl
  have hlt := b.toNat_lt
  have hsign : (@unpackSign Format.binary64 b.toBitVec).toNat = b.toNat / 2 ^ 63 % 2 := toNat_unpackSign b.toBitVec
  unfold Sign.ofBitVec
  by_cases hone : b.toNat / 2 ^ 63 = 1
  · have hbit : b >>> 63 = 1 := UInt64.toNat_inj.mp (hhalf.trans hone)
    rw [if_pos (beq_iff_eq.mpr hbit), if_neg, signOf_negative]
    rw [← BitVec.toNat_inj, hsign, hone]
    decide
  · have hbit : b >>> 63 ≠ 1 := fun h => hone (hhalf.symm.trans (congrArg UInt64.toNat h))
    rw [if_neg (by rwa [beq_iff_eq]), if_pos, signOf_positive]
    rw [← BitVec.toNat_inj, hsign]
    change _ = 0
    omega

/-- A finite double reads as its value. -/
theorem toRat_ofFloat (hx : x.isFinite = true) : (Reading.ofFloat x).toRat = value x := by
  have hpower : ((x.toBits >>> 52) &&& 0x7FF).toNat = (@unpackExponent Format.binary64 x.toBits.toBitVec).toNat := by
    rw [toNat_unpackExponent, UInt64.toNat_and, UInt64.toNat_shiftRight]
    exact (Nat.and_two_pow_sub_one_eq_mod _ 11).trans (by rw [Nat.shiftRight_eq_div_pow]; rfl)
  have hfraction : (x.toBits &&& 0xFFFFFFFFFFFFF).toNat = (@unpackMantissa Format.binary64 x.toBits.toBitVec).toNat := by
    rw [toNat_unpackMantissa, UInt64.toNat_and]
    exact Nat.and_two_pow_sub_one_eq_mod _ 52
  have himplicit := toNat_implicit (@unpackMantissa Format.binary64 x.toBits.toBitVec)
  have hsign := sign_bit x.toBits
  have hall : (-1#11).toNat = 2047 := rfl
  have hnone : (0#11).toNat = 0 := rfl
  have hempty : (0#52).toNat = 0 := rfl
  have hunpack : x.toModel.unpack = UnpackedFloat.unpack Format.binary64 x.toBits.toBitVec := rfl
  change x.toModel.unpack.isFinite = true at hx
  unfold value
  rw [hunpack] at hx ⊢
  unfold Reading.ofFloat Reading.ofBits
  simp only [hpower, hfraction]
  unfold UnpackedFloat.unpack at hx ⊢
  simp only [← BitVec.toNat_inj, hall, hnone, hempty] at hx ⊢
  split at hx
  · split at hx <;> cases hx
  · next hfinite =>
    rw [if_neg hfinite, if_neg hfinite]
    split
    · next hlow =>
      rw [toRat_finite, hsign]
      split
      · next hzero => rw [hzero, Nat.cast_zero, zero_mul, mul_zero, valueOf_zero]
      · rw [valueOf_finite, hlow, exponentBias_eq]
        norm_num
    · rw [toRat_finite, hsign, valueOf_finite, himplicit, exponentBias_eq]
      norm_num

end Double

end RegionPlanner
