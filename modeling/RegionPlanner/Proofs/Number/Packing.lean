import RegionPlanner.Proofs.Number.Double

/-!
# Putting doubles together

Packing keeps a double whose exponent is in range, and makes an infinity of one whose exponent is too great;
so the value of the result is the value put in, cut off where doubles end.
-/

namespace RegionPlanner

namespace Double

open Float.Model Float.Model.UnpackedFloat

/-- Values cut off where doubles end. -/
def cutOff (x : ℚ) : ℚ := max (-tooLarge) (min x tooLarge)

variable {s s' : Sign} {m m' : ℕ} {e e' : ℤ} {h : 0 < m} {h' : 0 < m'} {u : UnpackedFloat}

theorem finite_congr (hs : s = s') (hm : m = m') (he : e = e') :
    UnpackedFloat.finite s m e h = .finite s' m' e' h' := by
  subst hs hm he
  rfl

theorem biased_eq (e : ℤ) : (e + Format.binary64.exponentBias + (52 : ℕ)).toNat = (e + 1075).toNat := by
  have hbias := exponentBias_eq
  omega

theorem unpack_pack_normal (hm : m < 2 ^ 53) (hn : 2 ^ 52 ≤ m) (he : -1074 ≤ e) (hr : e ≤ 971) :
    UnpackedFloat.unpack Format.binary64 (UnpackedFloat.pack Format.binary64 (.finite s m e h)) =
      .finite s m e h := by
  have hlog : m.log2 = 52 := (Nat.log2_eq_iff (by omega)).mpr ⟨hn, hm⟩
  have hexponent : (BitVec.ofNat 11 (e + 1075).toNat).toNat = (e + 1075).toNat := by
    rw [BitVec.toNat_ofNat, Nat.mod_eq_of_lt (by omega)]
  have hmantissa : (BitVec.ofNat 52 m).toNat = m - 2 ^ 52 := by
    rw [BitVec.toNat_ofNat]
    omega
  have hbias := exponentBias_eq
  unfold UnpackedFloat.pack
  simp only [hlog, biased_eq]
  rw [if_neg (by omega), if_pos (by rfl)]
  unfold UnpackedFloat.unpack
  simp only [unpackExponent_packComponents, unpackMantissa_packComponents, unpackSign_packComponents]
  rw [if_neg, if_neg]
  · refine finite_congr (Sign.ofBitVec_toBitVec s) ?_ ?_
    · have himplicit := toNat_implicit (BitVec.ofNat 52 m)
      rw [hmantissa] at himplicit
      exact himplicit.trans (by omega)
    · rw [hexponent]
      omega
  · rw [← BitVec.toNat_inj, hexponent]
    change _ ≠ 0
    omega
  · rw [← BitVec.toNat_inj, hexponent]
    change _ ≠ 2047
    omega

theorem unpack_pack_subnormal (hm : m < 2 ^ 52) :
    UnpackedFloat.unpack Format.binary64 (UnpackedFloat.pack Format.binary64 (.finite s m (-1074) h)) =
      .finite s m (-1074) h := by
  have hlog : m.log2 < 52 := (Nat.log2_lt (by omega)).mpr hm
  have hmantissa : (BitVec.ofNat 52 m).toNat = m := by
    rw [BitVec.toNat_ofNat, Nat.mod_eq_of_lt hm]
  have hbits : Format.binary64.mantissaBits = 53 := rfl
  have hbias := exponentBias_eq
  unfold UnpackedFloat.pack
  simp only [biased_eq]
  rw [if_neg (by omega), if_neg (by omega)]
  unfold UnpackedFloat.unpack
  simp only [unpackExponent_packComponents, unpackMantissa_packComponents, unpackSign_packComponents]
  rw [if_neg (by decide), if_pos trivial, dif_neg]
  · refine finite_congr (Sign.ofBitVec_toBitVec s) hmantissa ?_
    have hzero : (0#11).toNat = 0 := rfl
    rw [hzero]
    omega
  · rw [← BitVec.toNat_inj, hmantissa]
    change _ ≠ 0
    omega

theorem unpack_packedInfinity (s : Sign) :
    UnpackedFloat.unpack Format.binary64 (packedInfinity Format.binary64 s) = .infinity s := by
  unfold UnpackedFloat.unpack packedInfinity
  simp only [unpackExponent_packComponents, unpackMantissa_packComponents, unpackSign_packComponents]
  rw [if_pos trivial, if_pos (by rfl), Sign.ofBitVec_toBitVec]

theorem unpack_pack_large (hr : 971 < e) :
    UnpackedFloat.unpack Format.binary64 (UnpackedFloat.pack Format.binary64 (.finite s m e h)) = .infinity s := by
  unfold UnpackedFloat.pack
  simp only [biased_eq]
  rw [if_pos (by omega), unpack_packedInfinity]

/-! ### Values -/

theorem cutOff_of_lt {x : ℚ} (hlow : -tooLarge ≤ x) (hhigh : x ≤ tooLarge) : cutOff x = x := by
  unfold cutOff
  rw [min_eq_left hhigh, max_eq_right hlow]

theorem cutOff_mono {x y : ℚ} (hxy : x ≤ y) : cutOff x ≤ cutOff y :=
  max_le_max le_rfl (min_le_min hxy le_rfl)

theorem cutOff_nonneg {x : ℚ} (hx : 0 ≤ x) : 0 ≤ cutOff x :=
  le_max_of_le_right (le_min hx tooLarge_pos.le)

theorem pack_eq (u : UnpackedFloat) :
    (Float.Model.pack u).unpack = UnpackedFloat.unpack Format.binary64 (UnpackedFloat.pack Format.binary64 u) := rfl

theorem value_pack (hc : Canonical u) (hn : u ≠ .notANumber) :
    (Float.Model.pack u).unpack ≠ .notANumber ∧ valueOf (Float.Model.pack u).unpack = cutOff (valueOf u) := by
  have hlarge := tooLarge_pos
  have hsign : ∀ {s : Sign} {x : ℚ}, 0 ≤ x → x ≤ tooLarge → cutOff (signOf s * x) = signOf s * x := by
    intro s x hpos hle
    cases s
    · exact cutOff_of_lt (by simp; linarith) (by simp; linarith)
    · exact cutOff_of_lt (by simp; linarith) (by simp; linarith)
  rw [pack_eq]
  cases u with
  | notANumber => exact absurd rfl hn
  | infinity s =>
    have heq : UnpackedFloat.pack Format.binary64 (.infinity s) = packedInfinity Format.binary64 s := rfl
    rw [heq, unpack_packedInfinity]
    exact ⟨by simp, (hsign hlarge.le le_rfl).symm⟩
  | zero s =>
    have heq : UnpackedFloat.pack Format.binary64 (.zero s) = packedZero Format.binary64 s := rfl
    rw [heq, unpack_packedZero, valueOf_zero, cutOff_of_lt (by linarith) hlarge.le]
    exact ⟨by simp, rfl⟩
  | finite s m e h =>
    obtain ⟨hm, he, hmin⟩ := hc
    have hpos : (0 : ℚ) < m * 2 ^ e := magnitude_pos h
    by_cases hr : e ≤ 971
    · have hsmall := magnitude_lt hm hr
      have hsame : UnpackedFloat.unpack Format.binary64 (UnpackedFloat.pack Format.binary64 (.finite s m e h)) =
          .finite s m e h := by
        by_cases hnormal : 2 ^ 52 ≤ m
        · exact unpack_pack_normal hm hnormal he hr
        · obtain rfl : e = -1074 := by omega
          exact unpack_pack_subnormal (by omega)
      rw [hsame]
      exact ⟨by simp, (hsign hpos.le hsmall.le).symm⟩
    · rw [unpack_pack_large (by omega)]
      refine ⟨by simp, ?_⟩
      have hnormal : 2 ^ 52 ≤ m := by omega
      have hcast : (2 : ℚ) ^ (52 : ℤ) ≤ m := by exact_mod_cast hnormal
      have hge : tooLarge ≤ m * 2 ^ e := by
        calc tooLarge ≤ 2 ^ (52 + e) := two_zpow_le (by omega)
          _ = 2 ^ (52 : ℤ) * 2 ^ e := two_zpow_add 52 e
          _ ≤ m * 2 ^ e := mul_le_mul_of_nonneg_right hcast (by positivity)
      unfold cutOff
      cases s
      · rw [valueOf_finite, valueOf_infinity, signOf_negative, min_eq_left (by linarith), max_eq_left (by linarith)]
        ring
      · rw [valueOf_finite, valueOf_infinity, signOf_positive, min_eq_right (by linarith), max_eq_right (by linarith)]
        ring

end Double

end RegionPlanner
