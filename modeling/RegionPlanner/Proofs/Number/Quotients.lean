import RegionPlanner.Proofs.Number.Neighbours
import Mathlib.Data.Nat.Prime.Basic
import Mathlib.Tactic.FieldSimp

/-!
# Dividing back

Dividing `w` by a quotient `w / s` gives `s` or one of its neighbours, since both quotients are rounded. Dividing `w` by
that neighbour gives the first quotient again.
-/

namespace RegionPlanner

variable {w s r x : ℚ}

/-! ### Powers of two -/

theorem Normal.div_two_zpow (hw : Normal w) {k : ℤ} (hq : 2 ^ (-1022 : ℤ) ≤ w / 2 ^ k) : Normal (w / 2 ^ k) := by
  obtain ⟨m, e, hlow, hhigh, -, rfl⟩ := hw
  have hquotient : (m : ℚ) * 2 ^ e / 2 ^ k = m * 2 ^ (e - k) := by
    rw [mul_div_assoc, ← zpow_sub₀ (by norm_num)]
  rw [hquotient] at hq ⊢
  have hcast : (m : ℚ) < 2 ^ (53 : ℤ) := by exact_mod_cast hhigh
  have hpower : (0 : ℚ) < 2 ^ (e - k) := by positivity
  have hlt : (2 : ℚ) ^ (-1022 : ℤ) < 2 ^ (53 + (e - k)) := by
    rw [two_zpow_add 53]
    exact hq.trans_lt (mul_lt_mul_of_pos_right hcast hpower)
  have hle : -1022 < 53 + (e - k) := (zpow_lt_zpow_iff_right₀ (by norm_num)).mp hlt
  exact ⟨m, e - k, hlow, hhigh, by omega, rfl⟩

theorem rounded_div_power (hw : Normal w) {e : ℤ} (hs : s = ((2 ^ 52 : ℕ) : ℚ) * 2 ^ e) (hq : 2 ^ (-1022 : ℤ) ≤ w / s) :
    rounded (w / s) = w / s := by
  have hpower : s = 2 ^ (52 + e) := by
    rw [hs, two_zpow_add]
    norm_num
  rw [hpower] at hq ⊢
  exact (hw.div_two_zpow hq).rounded

theorem odd_le_of_scaled {a b c : ℕ} {k l : ℤ} (ha : 0 < a) (hodd : c % 2 = 1)
    (h : (a : ℚ) * 2 ^ k = ((b * c : ℕ) : ℚ) * 2 ^ l) : c ≤ a := by
  have hdivides : ∀ {n : ℕ}, a * 2 ^ n = b * c → c ≤ a := by
    intro n hn
    have hcoprime : Nat.Coprime c (2 ^ n) := Nat.Coprime.pow_right n (Nat.coprime_two_right.mpr (Nat.odd_iff.mpr hodd))
    exact Nat.le_of_dvd ha (hcoprime.dvd_of_dvd_mul_right ⟨b, by rw [hn, mul_comm]⟩)
  rcases le_total l k with hle | hle
  · obtain ⟨n, hn⟩ : ∃ n : ℕ, k = n + l := ⟨(k - l).toNat, by omega⟩
    have hpower : (2 : ℚ) ^ l ≠ 0 := by positivity
    rw [hn, two_zpow_add, zpow_natCast, ← mul_assoc] at h
    have hcast := mul_right_cancel₀ hpower h
    exact hdivides (by exact_mod_cast hcast)
  · obtain ⟨n, hn⟩ : ∃ n : ℕ, l = n + k := ⟨(l - k).toNat, by omega⟩
    have hpower : (2 : ℚ) ^ k ≠ 0 := by positivity
    rw [hn, two_zpow_add, zpow_natCast, ← mul_assoc] at h
    have hcast := mul_right_cancel₀ hpower h
    have hwhole : a = b * 2 ^ n * c := by
      rw [mul_right_comm]
      exact_mod_cast hcast
    exact Nat.le_of_dvd ha ⟨b * 2 ^ n, by rw [hwhole, mul_comm]⟩

/-! ### The neighbour in between -/

/-- The rounding error of a quotient moves the divisor by less than its last place. -/
theorem divisor_close (hw : Normal w) (hs : 0 < s) {b : ℕ} {e : ℤ} (hb : b < 2 ^ 53) (hbe : s = b * 2 ^ e)
    (hr : rounded (w / s) = r) (hq : 2 ^ (-1022 : ℤ) ≤ w / s) : |w / r - s| < 2 ^ e := by
  have hquotient : Normal r := hr ▸ rounded_normal hq
  have hrpos := hquotient.pos
  obtain ⟨m, k, hm, hm', hk, hmk⟩ := hquotient
  have hnear := near_of_rounded (div_pos hw.pos hs) hm' hk (hr.trans hmk)
  rw [← hmk] at hnear
  have hcast : (2 : ℚ) ^ 52 ≤ m := by exact_mod_cast hm
  have hcastb : (b : ℚ) < 2 ^ 53 := by exact_mod_cast hb
  have hscale : (0 : ℚ) < 2 ^ k * 2 ^ e := by positivity
  have hfactor : w / r - s = (w / s - r) * s / r := by
    field_simp
  rw [hfactor, abs_div, abs_mul, abs_of_pos hs, abs_of_pos hrpos, div_lt_iff₀ hrpos]
  calc |w / s - r| * s ≤ 2 ^ k / 2 * s := by
        rw [abs_sub_comm]
        exact mul_le_mul_of_nonneg_right hnear hs.le
    _ = b / 2 * (2 ^ k * 2 ^ e) := by
        rw [hbe]
        ring
    _ < m * (2 ^ k * 2 ^ e) := mul_lt_mul_of_pos_right (by linarith) hscale
    _ = 2 ^ e * r := by
        rw [hmk]
        ring

/-- The divisor that is found in between is at most one last place away, and a power of two is found exactly. -/
theorem divide_back_neighbour (hw : Normal w) {b : ℕ} {e : ℤ} (hlow : 2 ^ 52 ≤ b) (hhigh : b < 2 ^ 53)
    (he : -1074 ≤ e) (hs : s = b * 2 ^ e) (hr : rounded (w / s) = r) (hq : 2 ^ (-1022 : ℤ) ≤ w / s)
    (hq' : 2 ^ (-1022 : ℤ) ≤ w / r) :
    ∃ step : ℤ, |step| ≤ 1 ∧ rounded (w / r) = (b + step) * 2 ^ e ∧ (b = 2 ^ 52 → step = 0) := by
  have hnormal : Normal s := ⟨b, e, hlow, hhigh, he, hs⟩
  rcases hlow.eq_or_lt with hpow | hlow
  · -- The quotient by a power of two is exact, so the power is found again.
    have hfixed := rounded_div_power hw (hs.trans (by rw [hpow])) hq
    refine ⟨0, by norm_num, ?_, fun _ => rfl⟩
    rw [← hr, hfixed, div_div_cancel₀ hw.pos.ne', hnormal.rounded, Int.cast_zero, add_zero]
    exact hs
  · have hclose := divisor_close hw hnormal.pos hhigh hs hr hq
    rw [hs] at hclose
    obtain ⟨step, hstep, hsum⟩ := rounded_neighbour hlow hhigh he hq' hclose
    exact ⟨step, hstep, hsum, by omega⟩

/-! ### Back again -/

variable {a h : ℚ}

/-- If the second quotient fell below the first one, the divisors would be closer to `w / r` than they can be. -/
theorem not_below (ha : 0 < a) (hs : 0 < s) (hh : 0 < h) (hhr : h < r) (hbelow : w / a ≤ r - h)
    (habove : w / s ≤ r + h) : ¬ a + s ≤ 2 * (w / r) := by
  intro hsum
  have hr : 0 < r := hh.trans hhr
  rw [div_le_iff₀ ha] at hbelow
  rw [div_le_iff₀ hs] at habove
  have hscaled : (a + s) * r ≤ 2 * w := by
    have hstep := mul_le_mul_of_nonneg_right hsum hr.le
    rw [mul_assoc, div_mul_cancel₀ _ hr.ne'] at hstep
    exact hstep
  have hleft : w * (r + h) ≤ (r - h) * a * (r + h) := mul_le_mul_of_nonneg_right hbelow (by linarith)
  have hright : w * (r - h) ≤ (r + h) * s * (r - h) := mul_le_mul_of_nonneg_right habove (by linarith)
  have hboth : 2 * (w * r) ≤ (r * r - h * h) * (a + s) := by
    calc 2 * (w * r) = w * (r + h) + w * (r - h) := by ring
      _ ≤ (r - h) * a * (r + h) + (r + h) * s * (r - h) := add_le_add hleft hright
      _ = (r * r - h * h) * (a + s) := by ring
  have hsmaller : (r * r - h * h) * (a + s) < r * r * (a + s) :=
    mul_lt_mul_of_pos_right (by linarith [mul_pos hh hh]) (by linarith)
  have hlarger : r * r * (a + s) ≤ 2 * (w * r) := by
    calc r * r * (a + s) = r * ((a + s) * r) := by ring
      _ ≤ r * (2 * w) := mul_le_mul_of_nonneg_left hscaled hr.le
      _ = 2 * (w * r) := by ring
  linarith

/-- If it rose above the first one, the dividend would be a product of a mantissa and an odd number of 54 bits. -/
theorem odd_product {b c m : ℕ} (hb : b < 2 ^ 53) (hbc : b < c) (hm : 2 ^ 52 < m) {n : ℚ}
    (hlow : ((2 * m + 1) * b : ℚ) ≤ n) (hhigh : ((2 * m - 1) * c : ℚ) ≤ n) (hsum : n ≤ m * (b + c)) :
    n = ((m * (2 * b + 1) : ℕ) : ℚ) := by
  have hfirst : (m : ℤ) * b + b ≤ m * c := by
    have hcast : ((m * b + b : ℕ) : ℚ) ≤ (m * c : ℕ) := by
      push_cast
      linarith
    exact_mod_cast hcast
  have hsecond : (m : ℤ) * c - c ≤ m * b := by
    have hcast : (m * c : ℚ) - c ≤ m * b := by linarith
    exact_mod_cast hcast
  -- The two divisors are next to each other, and the mantissa of the quotient is one of theirs.
  have hnext : c = b + 1 := by
    by_contra hne
    obtain ⟨d, hd⟩ : ∃ d : ℕ, c = b + 2 + d := ⟨c - b - 2, by omega⟩
    have hlt : (b : ℤ) < 2 ^ 53 := by exact_mod_cast hb
    have hmore : (2 : ℤ) ^ 52 ≤ m - 1 := by
      have hcast : (2 : ℤ) ^ 52 < m := by exact_mod_cast hm
      omega
    have hgap : ((m : ℤ) - 1) * (2 + d) ≤ b := by
      have hcast : (c : ℤ) = b + 2 + d := by exact_mod_cast hd
      rw [hcast] at hsecond
      linarith
    have hwide : (2 : ℤ) ^ 52 * 2 ≤ (m - 1) * (2 + d) :=
      mul_le_mul hmore (by omega) (by norm_num) (by omega)
    norm_num at hwide hlt
    linarith
  subst hnext
  push_cast at hfirst hsecond
  have hone : b = m ∨ b + 1 = m := by
    have hle : (b : ℤ) ≤ m := by linarith
    have hge : (m : ℤ) ≤ b + 1 := by linarith
    omega
  push_cast at hlow hhigh hsum ⊢
  rcases hone with rfl | rfl
  · linarith
  · push_cast at hlow hhigh hsum ⊢
    linarith

/-- The quotient `r` of `w` by `s`, and `a` from dividing `w` by that again, which gives something else than `r` in the
end. -/
structure Strays (w s r a : ℚ) : Prop where
  dividend : Normal w
  divisor : Normal s
  quotient : Normal r
  back : Normal a
  rounds : rounded (w / s) = r
  closest : |a - w / r| ≤ |s - w / r|
  strays : rounded (w / a) ≠ r

/-- Then `a` and `s` lie on different sides of the exact divisor, as quotients keep their order when rounded. -/
theorem Strays.side_of_lt (h : Strays w s r a) (hlt : w / a < r) : w / r < a ∧ s < w / r := by
  have hw := h.dividend.pos
  have ha := h.back.pos
  have hr := h.quotient.pos
  have hclosest := h.closest
  have hbig : w / r < a := by
    rw [div_lt_iff₀ ha] at hlt
    rw [div_lt_iff₀ hr]
    linarith
  refine ⟨hbig, ?_⟩
  by_contra hle
  rw [abs_of_pos (by linarith), abs_of_nonneg (by linarith)] at hclosest
  have hmono := rounded_mono (div_le_div_of_nonneg_left hw.le ha (by linarith : a ≤ s))
  have hmono' := rounded_mono hlt.le
  rw [h.rounds] at hmono
  rw [h.quotient.rounded] at hmono'
  exact h.strays (le_antisymm hmono' hmono)

theorem Strays.side_of_gt (h : Strays w s r a) (hgt : r < w / a) : a < w / r ∧ w / r < s := by
  have hw := h.dividend.pos
  have hs := h.divisor.pos
  have ha := h.back.pos
  have hr := h.quotient.pos
  have hclosest := h.closest
  have hsmall : a < w / r := by
    rw [lt_div_iff₀ ha] at hgt
    rw [lt_div_iff₀ hr]
    linarith
  refine ⟨hsmall, ?_⟩
  by_contra hle
  rw [abs_of_neg (by linarith), abs_of_nonpos (by linarith)] at hclosest
  have hmono := rounded_mono (div_le_div_of_nonneg_left hw.le hs (by linarith : s ≤ a))
  have hmono' := rounded_mono hgt.le
  rw [h.rounds] at hmono
  rw [h.quotient.rounded] at hmono'
  exact h.strays (le_antisymm hmono hmono')

/-- In last places, those of `a` for the divisors and those of `r` for the quotients, `w` is an odd product. -/
theorem Strays.not_above (h : Strays w s r a) {m : ℕ} {k : ℤ} (hm : 2 ^ 52 < m) (hr : r = m * 2 ^ k)
    (habove : r + 2 ^ k / 2 ≤ w / a) (hbelow : r - 2 ^ k / 2 ≤ w / s) (hside : a < s) (hsum : 2 * (w / r) ≤ a + s) :
    False := by
  have hs := h.divisor.pos
  have ha := h.back.pos
  have hrpos := h.quotient.pos
  have hkpos : (0 : ℚ) < 2 ^ k := by positivity
  obtain ⟨b, e, hb, hb', -, rfl⟩ := h.back
  have hepos : (0 : ℚ) < 2 ^ e := by positivity
  have hbottom : (2 : ℚ) ^ (e + 52) ≤ s := by
    have hcast : (2 : ℚ) ^ (52 : ℤ) ≤ b := by exact_mod_cast hb
    rw [add_comm, two_zpow_add]
    exact (mul_le_mul_of_nonneg_right hcast hepos.le).trans hside.le
  obtain ⟨c, rfl⟩ := h.divisor.multiple hbottom
  have hbc : b < c := by exact_mod_cast lt_of_mul_lt_mul_right hside hepos.le
  have hunit : (0 : ℚ) < 2 ^ k / 2 * 2 ^ e := by positivity
  have hlow : ((2 * m + 1) * b : ℚ) ≤ w / (2 ^ k / 2 * 2 ^ e) := by
    rw [le_div_iff₀ hunit]
    rw [le_div_iff₀ ha, hr] at habove
    calc (2 * m + 1 : ℚ) * b * (2 ^ k / 2 * 2 ^ e) = (m * 2 ^ k + 2 ^ k / 2) * (b * 2 ^ e) := by ring
      _ ≤ w := habove
  have hhigh : ((2 * m - 1) * c : ℚ) ≤ w / (2 ^ k / 2 * 2 ^ e) := by
    rw [le_div_iff₀ hunit]
    rw [le_div_iff₀ hs, hr] at hbelow
    calc (2 * m - 1 : ℚ) * c * (2 ^ k / 2 * 2 ^ e) = (m * 2 ^ k - 2 ^ k / 2) * (c * 2 ^ e) := by ring
      _ ≤ w := hbelow
  have hproduct : w / (2 ^ k / 2 * 2 ^ e) ≤ m * (b + c) := by
    have hscaled := mul_le_mul_of_nonneg_right hsum hrpos.le
    rw [mul_assoc, div_mul_cancel₀ _ hrpos.ne', hr] at hscaled
    rw [div_le_iff₀ hunit]
    calc w = 2 * w / 2 := by ring
      _ ≤ (b * 2 ^ e + c * 2 ^ e) * (m * 2 ^ k) / 2 := by linarith
      _ = m * (b + c) * (2 ^ k / 2 * 2 ^ e) := by ring
  have hodd := odd_product hb' hbc hm hlow hhigh hproduct
  obtain ⟨wm, we, hwm, hwm', -, rfl⟩ := h.dividend
  have hscale : (2 : ℚ) ^ k / 2 * 2 ^ e = 2 ^ (k - 1 + e) := by
    rw [two_zpow_add, zpow_sub_one₀ (by norm_num)]
    rfl
  rw [div_eq_iff hunit.ne', hscale] at hodd
  have hle := odd_le_of_scaled (by omega) (by omega) hodd
  omega

/-- Dividing by the divisor that was found in between gives the first quotient again. -/
theorem divide_back (hw : Normal w) (hs : Normal s) (hr : rounded (w / s) = r) (ha : rounded (w / r) = a)
    (hq : 2 ^ (-1022 : ℤ) ≤ w / s) (hq' : 2 ^ (-1022 : ℤ) ≤ w / r) : rounded (w / a) = r := by
  have hnormal : Normal r := hr ▸ rounded_normal hq
  by_contra hne
  have hstrays : Strays w s r a := ⟨hw, hs, hnormal, ha ▸ rounded_normal hq', hr, ha ▸ rounded_nearest hq' hs, hne⟩
  obtain ⟨m, k, hm, hm', hk, hmk⟩ := hnormal
  have hnear := near_of_rounded (div_pos hw.pos hs.pos) hm' hk (hr.trans hmk)
  rw [← hmk] at hnear
  obtain ⟨hleft, hright⟩ := abs_le.mp hnear
  rcases hm.eq_or_lt with hpow | hm
  · -- A quotient that is a power of two divides without a rest.
    have hsame := rounded_div_power hw (hmk.trans (by rw [hpow])) hq'
    rw [← ha, hsame, div_div_cancel₀ hw.pos.ne', hstrays.quotient.rounded] at hne
    exact hne rfl
  have hkpos : (0 : ℚ) < 2 ^ k := by positivity
  have hhalf : (2 : ℚ) ^ k / 2 < r := by
    have hcast : (1 : ℚ) < m := by exact_mod_cast lt_trans (by norm_num) hm
    rw [hmk]
    linarith [mul_lt_mul_of_pos_right hcast hkpos]
  have hfar : ¬ |w / a - r| < 2 ^ k / 2 := by
    intro hlt
    rw [hmk] at hlt
    exact hne ((rounded_of_near hm hm' hk hlt).trans hmk.symm)
  have hclosest := hstrays.closest
  rcases lt_trichotomy (w / a) r with hlt | heq | hgt
  · obtain ⟨hbig, hside⟩ := hstrays.side_of_lt hlt
    rw [abs_of_neg (by linarith)] at hfar
    rw [abs_of_pos (by linarith), abs_of_neg (by linarith)] at hclosest
    have hbelow : w / a ≤ r - 2 ^ k / 2 := by linarith
    have habove : w / s ≤ r + 2 ^ k / 2 := by linarith
    exact not_below hstrays.back.pos hs.pos (by positivity) hhalf hbelow habove (by linarith)
  · exact hne (heq ▸ hstrays.quotient.rounded)
  · obtain ⟨hsmall, hside⟩ := hstrays.side_of_gt hgt
    rw [abs_of_pos (by linarith)] at hfar
    rw [abs_of_neg (by linarith), abs_of_pos (by linarith)] at hclosest
    exact hstrays.not_above hm hmk (by linarith) (by linarith) (by linarith) (by linarith)

end RegionPlanner
