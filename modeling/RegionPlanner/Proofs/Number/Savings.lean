import RegionPlanner.Proofs.Number.Quotients

/-!
# Taking savings away

The recurrence for self-parallelism at one depth: from the work `w` its time in parallel `a`, which is `w` over the
quotient `r`, is taken, and what is saved is taken from the work again. What is left is `a`, or the critical path `s`
that the quotient came from, as long as the work has few enough bits or is not much greater than the critical path.
-/

namespace RegionPlanner

variable {w s r a : ℚ} {work critical : ℕ}

/-- Work less savings, where the savings are the work less the time in parallel. -/
def remaining (w a : ℚ) : ℚ := rounded (w - rounded (w - a))

theorem rounded_two_mul {x : ℚ} (hx : 2 ^ (-1022 : ℤ) ≤ x) : rounded (2 * x) = 2 * rounded x := by
  obtain ⟨e, he, hplace, hlow, hhigh⟩ := place_bounds hx
  have hpos : 0 < x := lt_of_lt_of_le (by positivity) hx
  have hdouble : ∀ k : ℤ, (2 : ℚ) ^ (k + 1) = 2 * 2 ^ k := by
    intro k
    rw [two_zpow_add, zpow_one, mul_comm]
  have hnext : lastPlace (2 * x) = e + 1 := by
    refine lastPlace_of_bounds (by omega) ?_ ?_
    · rw [add_right_comm, hdouble]
      linarith
    · rw [add_right_comm, hdouble]
      linarith
  rw [rounded_eq (by linarith) hnext, rounded_eq hpos.le hplace, hdouble, mul_div_mul_left _ _ two_ne_zero]
  ring

/-! ### Differences that are exact -/

theorem remaining_of_exact (ha : Normal a) (h : rounded (w - a) = w - a) : remaining w a = a := by
  unfold remaining
  rw [h, sub_sub_cancel, ha.rounded]

theorem remaining_near (hw : Normal w) (ha : Normal a) (hwa : w ≤ 2 * a) (haw : a ≤ 2 * w) : remaining w a = a :=
  remaining_of_exact ha (rounded_sub_exact hw ha hwa haw)

theorem remaining_above (hw : Normal w) (haw : 2 * w < a) (hrange : 2 ^ (-1022 : ℤ) ≤ w) : 2 * w ≤ remaining w a := by
  have hback := rounded_mono (by linarith : w ≤ a - w)
  rw [hw.rounded] at hback
  have hnegative : rounded (w - a) ≤ -w := by
    rw [← neg_sub, rounded_neg]
    linarith
  have hmono := rounded_mono (by linarith : 2 * w ≤ w - rounded (w - a))
  rw [rounded_two_mul hrange, hw.rounded] at hmono
  exact hmono

/-- Work that is at most twice the critical path, and a time in parallel that is not above twice the work. -/
theorem remaining_moderate (hw : Normal w) (hr : rounded (w / s) = r) (ha : rounded (w / r) = a) (hs : 0 < s)
    (hrange : 2 ^ (-1021 : ℤ) ≤ w) (hq : 2 ^ (-1022 : ℤ) ≤ w / s) (hq' : 2 ^ (-1022 : ℤ) ≤ w / r) (hws : w ≤ 2 * s)
    (haw : a ≤ 2 * w) : remaining w a = a := by
  have hback : Normal a := ha ▸ rounded_normal hq'
  have hrpos : 0 < r := (hr ▸ rounded_normal hq : Normal r).pos
  have htwo : r ≤ 2 := by
    have hmono := rounded_mono ((div_le_iff₀ hs).mpr hws)
    have hfixed := rounded_natCast (m := 2) (by norm_num)
    rw [Nat.cast_ofNat] at hfixed
    rwa [hr, hfixed] at hmono
  have hhalf : w / 2 ^ (1 : ℤ) ≤ w / r := by
    rw [zpow_one]
    exact div_le_div_of_nonneg_left hw.pos.le hrpos htwo
  have hsmall : (2 : ℚ) ^ (-1022 : ℤ) ≤ w / 2 ^ (1 : ℤ) := by
    rw [le_div_iff₀ (by positivity), ← two_zpow_add]
    exact hrange
  have hmono := rounded_mono hhalf
  rw [ha, (hw.div_two_zpow hsmall).rounded, zpow_one] at hmono
  exact remaining_near hw hback (by linarith) haw

/-- The recurrence finds the quotient again if the time in parallel or the critical path is left. -/
theorem divide_remaining (hw : Normal w) (hs : Normal s) (hr : rounded (w / s) = r) (ha : rounded (w / r) = a)
    (hq : 2 ^ (-1022 : ℤ) ≤ w / s) (hq' : 2 ^ (-1022 : ℤ) ≤ w / r) (h : remaining w a = a ∨ remaining w a = s) :
    rounded (w / remaining w a) = r := by
  rcases h with h | h <;> rw [h]
  · exact divide_back hw hs hr ha hq hq'
  · exact hr

/-! ### Whole numbers -/

theorem exists_scaled {f : ℤ} (hf : f ≤ 0) (d : ℕ) : ∃ n : ℕ, f = -n ∧ (d : ℚ) = ((d * 2 ^ n : ℕ) : ℚ) * 2 ^ f := by
  obtain ⟨n, rfl⟩ : ∃ n : ℕ, f = -n := ⟨(-f).toNat, by omega⟩
  refine ⟨n, rfl, ?_⟩
  rw [zpow_neg, zpow_natCast]
  push_cast
  rw [mul_inv_cancel_right₀ (by positivity)]

/-- A difference that is a whole number, but for half of its last place at most, is rounded to it. -/
theorem rounded_near_whole {d : ℕ} {step x : ℚ} {e f : ℤ} (hplace : lastPlace x = f) (hx : 0 ≤ x) (hf : f ≤ 0)
    (hstep : |step| = 1) (hsum : x = d - step * 2 ^ e) (hef : e < f) (htie : f = 0 → e < -1) : rounded x = d := by
  have hpower : (0 : ℚ) < 2 ^ f := by positivity
  obtain ⟨n, hn, hsplit⟩ := exists_scaled hf d
  have hscaled : (d : ℚ) / 2 ^ f = ((d * 2 ^ n : ℕ) : ℤ) := by
    rw [div_eq_iff hpower.ne', Int.cast_natCast]
    exact hsplit
  have hoff : |x / 2 ^ f - ((d * 2 ^ n : ℕ) : ℤ)| = 2 ^ (e - f) := by
    have hquotient : x / 2 ^ f - ((d * 2 ^ n : ℕ) : ℤ) = -step * 2 ^ (e - f) := by
      rw [← hscaled, hsum, sub_div, sub_sub_cancel_left, mul_div_assoc, ← zpow_sub₀ (by norm_num), neg_mul]
    rw [hquotient, abs_mul, abs_neg, hstep, one_mul, abs_of_pos (by positivity)]
  have hnearest : nearestEven (x / 2 ^ f) = ((d * 2 ^ n : ℕ) : ℤ) := by
    rcases (show e - f ≤ -1 by omega).lt_or_eq with hlt | heq
    · refine nearestEven_of_near ?_
      rw [hoff]
      calc (2 : ℚ) ^ (e - f) ≤ 2 ^ (-2 : ℤ) := two_zpow_le (by omega)
        _ < 1 / 2 := by norm_num
    · refine nearestEven_of_half ?_ ?_
      · rw [hoff, heq]
        norm_num
      · -- The place is below one, since the other case of a tie was excluded.
        obtain ⟨k, rfl⟩ : ∃ k, n = k + 1 := ⟨n - 1, by omega⟩
        push_cast
        rw [pow_succ, ← mul_assoc, Int.mul_emod_left]
  rw [rounded_eq hx hplace, hnearest, ← hscaled, div_mul_cancel₀ _ hpower.ne']

theorem normal_natCast (hpos : 0 < work) (hlt : work ≤ 2 ^ 53) : Normal work := by
  have hone : (2 : ℚ) ^ (-1022 : ℤ) ≤ 1 := by
    rw [← zpow_zero (2 : ℚ)]
    exact two_zpow_le (by norm_num)
  have hcast : (1 : ℚ) ≤ work := by exact_mod_cast hpos
  have hnormal := rounded_normal (hone.trans hcast)
  rwa [rounded_natCast hlt] at hnormal

theorem rounded_scaled_int {k e : ℤ} (hk : |k| ≤ 2 ^ 53) (he : -1074 ≤ e) : rounded (k * 2 ^ e) = k * 2 ^ e := by
  obtain ⟨hlow, hhigh⟩ := abs_le.mp hk
  rcases le_total 0 k with hsign | hsign
  · obtain ⟨c, rfl⟩ := Int.eq_ofNat_of_zero_le hsign
    rw [Int.cast_natCast]
    exact rounded_scaled (by omega) he
  · obtain ⟨c, hc⟩ := Int.exists_eq_neg_ofNat hsign
    rw [hc, Int.cast_neg, Int.cast_natCast, neg_mul, rounded_neg, rounded_scaled (by omega) he]

theorem place_nonpos {b : ℕ} {e : ℤ} (hb : 2 ^ 52 ≤ b) (h : (critical : ℚ) = b * 2 ^ e) (hlt : critical < 2 ^ 53) :
    e ≤ 0 := by
  by_contra hgt
  have hlow : (2 : ℚ) ^ (52 : ℤ) ≤ b := by exact_mod_cast hb
  have htwo : (2 : ℚ) ^ (1 : ℤ) ≤ 2 ^ e := two_zpow_le (by omega)
  have hproduct := mul_le_mul hlow htwo (by positivity) (by positivity)
  rw [← h, ← two_zpow_add] at hproduct
  have hhigh : (critical : ℚ) < 2 ^ (53 : ℤ) := by exact_mod_cast hlt
  norm_num at hproduct hhigh
  linarith

/-- A difference with more bits than fit is rounded to that from the critical path. -/
theorem rounded_sub_beyond {b : ℕ} {e step : ℤ} (hle : critical ≤ work) (hwork : work < 3 * 2 ^ 51)
    (hb : 2 ^ 52 < b) (he : -1074 ≤ e) (hbelow : e ≤ 0) (hbe : (critical : ℚ) = b * 2 ^ e) (hstep : |step| = 1)
    (ha : a = (b + step) * 2 ^ e) (hbig : 2 ^ (e + 53) < work - a) :
    rounded (work - a) = ((work - critical : ℕ) : ℚ) := by
  have hpower : (0 : ℚ) < 2 ^ e := by positivity
  have hstepLe := abs_le.mp hstep.le
  have hmore : (2 : ℚ) ^ (52 : ℤ) ≤ b + step := by exact_mod_cast (by omega : (2 : ℤ) ^ 52 ≤ b + step)
  have hapos : (2 : ℚ) ^ (e + 52) ≤ a := by
    rw [ha, add_comm, two_zpow_add]
    exact mul_le_mul_of_nonneg_right hmore hpower.le
  have hbottom : (0 : ℚ) < 2 ^ (e + 52) := by positivity
  have hcast : (work : ℚ) < 3 * 2 ^ (51 : ℤ) := by exact_mod_cast hwork
  have htop : (3 : ℚ) * 2 ^ (51 : ℤ) < 2 ^ (53 : ℤ) := by norm_num
  obtain ⟨f, -, hplace, hlow, hhigh⟩ := place_bounds ((two_zpow_le (by omega)).trans hbig.le)
  have hfTop : f + 52 < 53 := (zpow_lt_zpow_iff_right₀ (by norm_num)).mp (hlow.trans_lt (by linarith))
  have hfBottom : e + 53 < f + 53 := (zpow_lt_zpow_iff_right₀ (by norm_num)).mp (hbig.trans hhigh)
  have hdifference : (work : ℚ) - a = ((work - critical : ℕ) : ℚ) - step * 2 ^ e := by
    rw [Nat.cast_sub hle, hbe, ha]
    ring
  have hnonneg : 0 ≤ (work : ℚ) - a := le_trans (by positivity) hbig.le
  refine rounded_near_whole hplace hnonneg (by omega) (by exact_mod_cast hstep) hdifference (by omega) ?_
  -- A last place of one half and a difference of 53 bits would make the work too great.
  intro hfZero
  by_contra hge
  have hlow' : (2 : ℚ) ^ (52 : ℤ) ≤ (work : ℚ) - a := (two_zpow_le (by omega)).trans hlow
  have hhalf : (2 : ℚ) ^ (51 : ℤ) ≤ a := (two_zpow_le (by omega)).trans hapos
  have hsum : (2 : ℚ) ^ (52 : ℤ) + 2 ^ (51 : ℤ) = 3 * 2 ^ (51 : ℤ) := by norm_num
  linarith

/-- A time in parallel that is a neighbour of the critical path: the difference from the work has few enough bits, or is
rounded to that from the critical path. -/
theorem rounded_sub_neighbour {b : ℕ} {e step : ℤ} (hle : critical ≤ work) (hwork : work < 3 * 2 ^ 51)
    (hb : 2 ^ 52 < b) (hb' : b < 2 ^ 53) (he : -1074 ≤ e) (hbe : (critical : ℚ) = b * 2 ^ e) (hstep : |step| = 1)
    (ha : a = (b + step) * 2 ^ e) :
    rounded (work - a) = work - a ∨ rounded (work - a) = ((work - critical : ℕ) : ℚ) := by
  have hpower : (0 : ℚ) < 2 ^ e := by positivity
  have hbelow := place_nonpos hb.le hbe (by omega)
  have hstepLe := abs_le.mp hstep.le
  obtain ⟨n, -, hscaledWork⟩ := exists_scaled hbelow work
  obtain ⟨k, hk⟩ : ∃ k : ℤ, (work * 2 ^ n : ℕ) - (b + step) = k := ⟨_, rfl⟩
  have hscaled : (work : ℚ) - a = k * 2 ^ e := by
    rw [ha, ← hk]
    conv_lhs => rw [hscaledWork]
    push_cast
    ring
  rcases le_or_gt k (2 ^ 53) with hfew | hmany
  · refine .inl ?_
    rw [hscaled]
    exact rounded_scaled_int (abs_le.mpr ⟨by omega, hfew⟩) he
  · refine .inr (rounded_sub_beyond hle hwork hb he hbelow hbe hstep ha ?_)
    have hcast : (2 : ℚ) ^ (53 : ℤ) < k := by exact_mod_cast hmany
    rw [hscaled, add_comm, two_zpow_add]
    exact mul_lt_mul_of_pos_right hcast hpower

/-- Of whole numbers the time in parallel is left, or the critical path itself. -/
theorem remaining_whole (hpos : 0 < critical) (hle : critical ≤ work) (hwork : work < 3 * 2 ^ 51)
    (hr : rounded (work / critical) = r) (ha : rounded (work / r) = a) (hq : 2 ^ (-1022 : ℤ) ≤ (work / critical : ℚ))
    (hq' : 2 ^ (-1022 : ℤ) ≤ work / r) : remaining work a = a ∨ remaining work a = critical := by
  have hdivisor := normal_natCast hpos (by omega)
  have hwhole : rounded ((work : ℚ) - a) = ((work - critical : ℕ) : ℚ) → remaining work a = critical := by
    intro h
    unfold remaining
    rw [h, Nat.cast_sub hle, sub_sub_cancel, hdivisor.rounded]
  obtain ⟨b, e, hb, hb', he, hbe⟩ := id hdivisor
  obtain ⟨step, hstep, hsum, hnone⟩ :=
    divide_back_neighbour (normal_natCast (by omega) (by omega)) hb hb' he hbe hr hq hq'
  rw [ha] at hsum
  have hstepLe := abs_le.mp hstep
  by_cases hzero : step = 0
  · refine .inr (hwhole ?_)
    rw [hsum, hzero, Int.cast_zero, add_zero, ← hbe, ← Nat.cast_sub hle, rounded_natCast (by omega)]
  · have hone : |step| = 1 := by
      rcases abs_cases step with ⟨h, hsign⟩ | ⟨h, hsign⟩ <;> omega
    have hlow : 2 ^ 52 < b := lt_of_le_of_ne hb fun h => hzero (hnone h.symm)
    rcases rounded_sub_neighbour hle hwork hlow hb' he hbe hone hsum with hexact | hrest
    · exact .inl (remaining_of_exact (ha ▸ rounded_normal hq') hexact)
    · exact .inr (hwhole hrest)

end RegionPlanner
