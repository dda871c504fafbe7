import RegionPlanner.Proofs.Number.Exact

/-!
# Doubles cut down to whole numbers

What a double that is not negative becomes as a 32-bit count: its fraction is dropped, and what is past the end of the
range goes to the end.
-/

namespace RegionPlanner

namespace Double

open Float.Model Float.Model.UnpackedFloat

variable {x : Float}

/-- The bits below the point are shifted out of the mantissa, after it was shifted up to the point if it ends above. -/
theorem roundToInt_eq (s : Sign) (m : ℕ) (e : ℤ) : roundToInt s m e = s.apply ⌊(m : ℚ) * 2 ^ e⌋ := by
  have hstart : Represents (ExtendedMantissa.ofMantissaAndAccuracy (m <<< e.toNat) .exact) (m * 2 ^ e.toNat) := by
    change (m * 2 ^ e.toNat : ℚ) = (m <<< e.toNat : ℕ)
    rw [Nat.shiftLeft_eq]
    push_cast
    rfl
  have hshifted := hstart.shiftRight (-e).toNat
  rw [magnitude_split] at hshifted
  have hamount : (0 - (e - (e.toNat : ℤ))).toNat = (-e).toNat := by omega
  rw [hshifted.floor]
  unfold roundToInt decreaseExponent shiftToExponent
  simp only [sub_zero, hamount]

theorem toNat_ofNatClamp (n : ℕ) : (UInt32.ofNatClamp n).toNat = min n (2 ^ 32 - 1) := by
  unfold UInt32.ofNatClamp
  split
  · next hlt =>
    change n < 2 ^ 32 at hlt
    change n = _
    omega
  · next hge =>
    change ¬ n < 2 ^ 32 at hge
    change 2 ^ 32 - 1 = _
    omega

/-- A finite double that is not negative is rounded down. -/
theorem toUInt32_eq (hx : x.isFinite = true) (hnonneg : 0 ≤ value x) :
    (x.toUInt32.toNat : ℤ) = min ⌊value x⌋ (2 ^ 32 - 1) := by
  have hwhole : x.toModel.unpack.toInt 0 (UInt32.size - 1) = ⌊value x⌋ := by
    unfold value at hnonneg ⊢
    rcases finite_cases hx with ⟨s, hu⟩ | ⟨s, m, e, h, hu⟩
    · rw [hu, valueOf_zero, Int.floor_zero]
      rfl
    · rw [hu, valueOf_finite] at hnonneg ⊢
      have hpos : (0 : ℚ) < m * 2 ^ e := magnitude_pos h
      cases s with
      | negative =>
        rw [signOf_negative] at hnonneg
        linarith
      | positive =>
        rw [signOf_positive, one_mul]
        exact roundToInt_eq .positive m e
  have hfloor := Int.floor_nonneg.mpr hnonneg
  have hcount : x.toUInt32.toNat = min ⌊value x⌋.toNat (2 ^ 32 - 1) := by
    rw [← hwhole]
    exact toNat_ofNatClamp _
  rw [hcount]
  omega

end Double

end RegionPlanner
