import RegionPlanner.Proofs.Number.Nearest
import Mathlib.Algebra.Order.Archimedean.Basic
import Mathlib.Tactic.NormNum

/-!
# Neighbouring fractions

No fraction with 53 bits is nearer to `x` than `rounded x`. From this: a difference of two fractions that are not far
apart is exact, and a quotient that is divided back once more is found again, although the divisor that is found in
between may be a neighbour of the first one.
-/

namespace RegionPlanner

variable {x y : ℚ} {e : ℤ} {m : ℕ}

/-! ### Whole numbers -/

theorem nearestEven_of_near {n : ℤ} (h : |x - n| < 1 / 2) : nearestEven x = n := by
  rw [abs_lt] at h
  unfold nearestEven
  by_cases hle : (n : ℚ) ≤ x
  · have hfloor : ⌊x⌋ = n := Int.floor_eq_iff.mpr ⟨hle, by linarith⟩
    rw [hfloor, if_pos (by linarith)]
  · have hfloor : ⌊x⌋ = n - 1 := by
      rw [Int.floor_eq_iff]
      push_cast
      constructor <;> linarith
    rw [hfloor, if_neg (by push_cast; linarith), if_pos (by push_cast; linarith)]
    omega

/-- A tie goes to the even one. -/
theorem nearestEven_of_half {n : ℤ} (h : |x - n| = 1 / 2) (heven : n % 2 = 0) : nearestEven x = n := by
  unfold nearestEven
  rcases abs_cases (x - n) with ⟨habs, -⟩ | ⟨habs, -⟩
  · have hfloor : ⌊x⌋ = n := Int.floor_eq_iff.mpr ⟨by linarith, by linarith⟩
    rw [hfloor, if_neg (by linarith), if_neg (by linarith)]
    omega
  · have hfloor : ⌊x⌋ = n - 1 := by
      rw [Int.floor_eq_iff]
      push_cast
      constructor <;> linarith
    rw [hfloor, if_neg (by push_cast; linarith), if_neg (by push_cast; linarith)]
    omega

theorem abs_nearestEven_sub (x : ℚ) : |nearestEven x - x| ≤ 1 / 2 := by
  have hlow := Int.floor_le x
  have hhigh := Int.lt_floor_add_one x
  unfold nearestEven
  rw [abs_le]
  split
  · constructor <;> linarith
  · split
    · push_cast
      constructor <;> linarith
    · have hhalf : x - ⌊x⌋ = 1 / 2 := by linarith
      rcases Int.emod_two_eq_zero_or_one ⌊x⌋ with hbit | hbit
      · rw [hbit, add_zero]
        constructor <;> linarith
      · rw [hbit]
        push_cast
        constructor <;> linarith

theorem nearestEven_nearest (x : ℚ) (n : ℤ) : |nearestEven x - x| ≤ |n - x| := by
  rcases lt_or_ge |x - n| (1 / 2) with hnear | hfar
  · rw [nearestEven_of_near hnear]
  · rw [abs_sub_comm (n : ℚ)]
    exact (abs_nearestEven_sub x).trans hfar

/-! ### Fractions with 53 bits -/

/-- A positive fraction with 53 bits, none of them lost at the low end. -/
def Normal (x : ℚ) : Prop := ∃ (m : ℕ) (e : ℤ), 2 ^ 52 ≤ m ∧ m < 2 ^ 53 ∧ -1074 ≤ e ∧ x = m * 2 ^ e

theorem Normal.pos (h : Normal x) : 0 < x := by
  obtain ⟨m, e, hlow, -, -, rfl⟩ := h
  have hm : (0 : ℚ) < m := by exact_mod_cast (by omega : 0 < m)
  positivity

theorem Normal.rounded (h : Normal x) : rounded x = x := by
  obtain ⟨m, e, hlow, hhigh, he, rfl⟩ := h
  exact rounded_fixed hhigh he (.inl hlow)

theorem lastPlace_of_bounds (he : -1074 ≤ e) (hlow : 2 ^ (e + 52) ≤ x) (hhigh : x < 2 ^ (e + 53)) : lastPlace x = e := by
  have hlog : Int.log 2 x = e + 52 := log_eq hlow (by rw [add_assoc]; exact hhigh)
  unfold lastPlace
  omega

theorem rounded_eq (hx : 0 ≤ x) (h : lastPlace x = e) : rounded x = nearestEven (x / 2 ^ e) * 2 ^ e := by
  rw [rounded_of_nonneg hx, ← h]
  rfl

/-- The place and the bounds of a fraction that does not lose bits. -/
theorem place_bounds (hx : 2 ^ (-1022 : ℤ) ≤ x) :
    ∃ e, -1074 ≤ e ∧ lastPlace x = e ∧ 2 ^ (e + 52) ≤ x ∧ x < 2 ^ (e + 53) := by
  have hpos : 0 < x := lt_of_lt_of_le (by positivity) hx
  obtain ⟨hlow, hhigh⟩ := log_spec hpos
  have hlog := (Int.zpow_le_iff_le_log (b := 2) one_lt_two hpos).mp (by exact_mod_cast hx)
  refine ⟨Int.log 2 x - 52, by omega, ?_, ?_, ?_⟩
  · unfold lastPlace
    omega
  · rw [sub_add_cancel]
    exact hlow
  · refine hhigh.trans_eq ?_
    congr 1
    omega

theorem rounded_normal (hx : 2 ^ (-1022 : ℤ) ≤ x) : Normal (rounded x) := by
  obtain ⟨e, he, hplace, hlow, hhigh⟩ := place_bounds hx
  have hpower : (0 : ℚ) < 2 ^ e := by positivity
  have hpos : 0 < x := lt_of_lt_of_le (by positivity) hx
  have hbelow : ((2 ^ 52 : ℤ) : ℚ) ≤ x / 2 ^ e := by
    rw [le_div_iff₀ hpower]
    rw [add_comm, two_zpow_add] at hlow
    exact_mod_cast hlow
  have habove : x / 2 ^ e ≤ ((2 ^ 53 : ℤ) : ℚ) := by
    rw [div_le_iff₀ hpower]
    rw [add_comm, two_zpow_add] at hhigh
    exact_mod_cast hhigh.le
  have hleast := nearestEven_mono hbelow
  have hmost := nearestEven_mono habove
  rw [nearestEven_intCast] at hleast hmost
  rw [rounded_eq hpos.le hplace]
  obtain ⟨k, hk⟩ : ∃ k : ℕ, nearestEven (x / 2 ^ e) = k := ⟨(nearestEven (x / 2 ^ e)).toNat, by omega⟩
  rw [hk] at hleast hmost ⊢
  rcases (Int.ofNat_le.mp hmost : k ≤ 2 ^ 53).lt_or_eq with hlt | rfl
  · exact ⟨k, e, by exact_mod_cast hleast, hlt, he, by rw [Int.cast_natCast]⟩
  · refine ⟨2 ^ 52, e + 1, le_rfl, by norm_num, by omega, ?_⟩
    rw [two_zpow_add]
    push_cast
    ring

/-- Above a power of two, all fractions with 53 bits are multiples of its last place. -/
theorem Normal.multiple (h : Normal x) (hx : 2 ^ (e + 52) ≤ x) : ∃ k : ℕ, x = k * 2 ^ e := by
  obtain ⟨m, e', -, hhigh, -, rfl⟩ := h
  have hpower : (0 : ℚ) < 2 ^ e' := by positivity
  have hcast : (m : ℚ) < 2 ^ (53 : ℤ) := by exact_mod_cast hhigh
  have hlt : (2 : ℚ) ^ (e + 52) < 2 ^ (53 + e') := by
    rw [two_zpow_add 53 e']
    exact hx.trans_lt (mul_lt_mul_of_pos_right hcast hpower)
  have hle : e + 52 < 53 + e' := (zpow_lt_zpow_iff_right₀ (by norm_num)).mp hlt
  obtain ⟨n, hn⟩ : ∃ n : ℕ, e' = n + e := ⟨(e' - e).toNat, by omega⟩
  refine ⟨m * 2 ^ n, ?_⟩
  rw [hn, two_zpow_add, zpow_natCast]
  push_cast
  ring

/-- Nothing with 53 bits is nearer. -/
theorem rounded_nearest (hx : 2 ^ (-1022 : ℤ) ≤ x) (hy : Normal y) : |rounded x - x| ≤ |y - x| := by
  obtain ⟨e, he, hplace, hlow, hhigh⟩ := place_bounds hx
  have hpower : (0 : ℚ) < 2 ^ e := by positivity
  have hpos : 0 < x := lt_of_lt_of_le (by positivity) hx
  have hmultiple : ∀ k : ℕ, |rounded x - x| ≤ |k * 2 ^ e - x| := by
    intro k
    have hnearest := nearestEven_nearest (x / 2 ^ e) k
    have hscale : ∀ n : ℚ, |n * 2 ^ e - x| = |n - x / 2 ^ e| * 2 ^ e := by
      intro n
      rw [← abs_of_pos hpower, ← abs_mul, abs_of_pos hpower, sub_mul, div_mul_cancel₀ _ hpower.ne']
    rw [rounded_eq hpos.le hplace, hscale, hscale]
    exact mul_le_mul_of_nonneg_right (by exact_mod_cast hnearest) hpower.le
  rcases le_or_gt (2 ^ (e + 52)) y with hge | hlt
  · obtain ⟨k, rfl⟩ := hy.multiple hge
    exact hmultiple k
  · -- What lies below the power of two is farther away than the power itself.
    have hbottom := hmultiple (2 ^ 52)
    have hsplit : ((2 ^ 52 : ℕ) : ℚ) * 2 ^ e = 2 ^ (e + 52) := by
      rw [add_comm, two_zpow_add]
      norm_num
    rw [hsplit] at hbottom
    refine hbottom.trans ?_
    rw [abs_of_nonpos (by linarith), abs_of_neg (by linarith)]
    linarith

/-! ### Exact results -/

theorem rounded_scaled (hm : m ≤ 2 ^ 53) (he : -1074 ≤ e) : rounded (m * 2 ^ e) = m * 2 ^ e := by
  rcases Nat.eq_zero_or_pos m with rfl | hpos
  · rw [Nat.cast_zero, zero_mul, rounded_of_nonneg le_rfl, roundedUp_zero]
  rcases hm.lt_or_eq with hm | rfl
  · -- The mantissa is shifted up to 53 bits, or to the lowest exponent if that comes first.
    have hlog : m.log2 ≤ 52 := by
      have hlt := (Nat.log2_lt hpos.ne').mpr hm
      omega
    obtain ⟨k, hk⟩ : ∃ k : ℕ, k = min (52 - m.log2) (e + 1074).toNat := ⟨_, rfl⟩
    have hhigh : m * 2 ^ k < 2 ^ 53 := by
      calc m * 2 ^ k < 2 ^ (m.log2 + 1) * 2 ^ k := Nat.mul_lt_mul_of_pos_right Nat.lt_log2_self (by positivity)
        _ = 2 ^ (m.log2 + 1 + k) := (pow_add _ _ _).symm
        _ ≤ 2 ^ 53 := Nat.pow_le_pow_right (by norm_num) (by omega)
    have hlow : 2 ^ 52 ≤ m * 2 ^ k ∨ e - k = -1074 := by
      by_cases hfull : m.log2 + k = 52
      · refine .inl ?_
        rw [← hfull, pow_add]
        exact Nat.mul_le_mul_right _ (Nat.log2_self_le hpos.ne')
      · exact .inr (by omega)
    have hsplit : (m : ℚ) * 2 ^ e = ((m * 2 ^ k : ℕ) : ℚ) * 2 ^ (e - k) := by
      have hexponent : e = k + (e - k) := by omega
      rw [hexponent, two_zpow_add, zpow_natCast, add_sub_cancel_left]
      push_cast
      ring
    rw [hsplit]
    exact rounded_fixed hhigh (by omega) hlow
  · have hsplit : ((2 ^ 53 : ℕ) : ℚ) * 2 ^ e = ((2 ^ 52 : ℕ) : ℚ) * 2 ^ (e + 1) := by
      rw [two_zpow_add]
      push_cast
      ring
    rw [hsplit]
    exact rounded_fixed (by norm_num) (by omega) (.inl le_rfl)

theorem rounded_natCast (hm : m ≤ 2 ^ 53) : rounded m = m := by
  have hscaled := rounded_scaled (e := 0) hm (by norm_num)
  rw [zpow_zero, mul_one] at hscaled
  exact hscaled

/-- Of two fractions that are at most a factor of two apart, the difference is exact. -/
theorem rounded_sub_of_le (hx : Normal x) (hy : Normal y) (hle : y ≤ x) (hhalf : x ≤ 2 * y) : rounded (x - y) = x - y := by
  obtain ⟨n, e', -, hn, he', rfl⟩ := hy
  obtain ⟨m, e, hlow, hm, he, rfl⟩ := hx
  have hpower : (0 : ℚ) < 2 ^ min e e' := by positivity
  obtain ⟨a, ha⟩ : ∃ a : ℕ, e = a + min e e' := ⟨(e - min e e').toNat, by omega⟩
  obtain ⟨b, hb⟩ : ∃ b : ℕ, e' = b + min e e' := ⟨(e' - min e e').toNat, by omega⟩
  have hx : (m : ℚ) * 2 ^ e = ((m * 2 ^ a : ℕ) : ℚ) * 2 ^ min e e' := by
    conv_lhs => rw [ha, two_zpow_add, zpow_natCast]
    push_cast
    ring
  have hy : (n : ℚ) * 2 ^ e' = ((n * 2 ^ b : ℕ) : ℚ) * 2 ^ min e e' := by
    conv_lhs => rw [hb, two_zpow_add, zpow_natCast]
    push_cast
    ring
  rw [hx, hy] at hle hhalf ⊢
  rw [← mul_assoc] at hhalf
  have hle : n * 2 ^ b ≤ m * 2 ^ a := by exact_mod_cast le_of_mul_le_mul_right hle hpower
  have hhalf : m * 2 ^ a ≤ 2 * (n * 2 ^ b) := by exact_mod_cast le_of_mul_le_mul_right hhalf hpower
  have hdifference : ((m * 2 ^ a : ℕ) : ℚ) * 2 ^ min e e' - ((n * 2 ^ b : ℕ) : ℚ) * 2 ^ min e e' =
      ((m * 2 ^ a - n * 2 ^ b : ℕ) : ℚ) * 2 ^ min e e' := by
    rw [Nat.cast_sub hle, sub_mul]
  rw [hdifference]
  -- One of the two has the lower exponent, and the difference is below it.
  refine rounded_scaled ?_ (by omega)
  rcases le_total e e' with hmin | hmin
  · obtain rfl : a = 0 := by omega
    omega
  · obtain rfl : b = 0 := by omega
    omega

theorem rounded_sub_exact (hx : Normal x) (hy : Normal y) (hxy : x ≤ 2 * y) (hyx : y ≤ 2 * x) :
    rounded (x - y) = x - y := by
  rcases le_total y x with hle | hle
  · exact rounded_sub_of_le hx hy hle hxy
  · have hswapped := rounded_sub_of_le hy hx hle hyx
    rw [← neg_sub, rounded_neg, hswapped]

/-! ### Nearness -/

theorem rounded_of_near (hlow : 2 ^ 52 < m) (hm : m < 2 ^ 53) (he : -1074 ≤ e) (h : |x - m * 2 ^ e| < 2 ^ e / 2) :
    rounded x = m * 2 ^ e := by
  have hpower : (0 : ℚ) < 2 ^ e := by positivity
  obtain ⟨hleft, hright⟩ := abs_lt.mp h
  have hcast : (2 : ℚ) ^ (52 : ℤ) + 1 ≤ m := by exact_mod_cast hlow
  have hcast' : (m : ℚ) + 1 ≤ 2 ^ (53 : ℤ) := by exact_mod_cast hm
  have hbelow : (2 : ℚ) ^ (e + 52) ≤ x := by
    rw [add_comm, two_zpow_add]
    have hscaled := mul_le_mul_of_nonneg_right hcast hpower.le
    linarith
  have habove : x < 2 ^ (e + 53) := by
    rw [add_comm, two_zpow_add]
    have hscaled := mul_le_mul_of_nonneg_right hcast' hpower.le
    linarith
  have hnear : |x / 2 ^ e - (m : ℤ)| < 1 / 2 := by
    have hsame : x / 2 ^ e - (m : ℤ) = (x - m * 2 ^ e) / 2 ^ e := by
      rw [sub_div, mul_div_cancel_right₀ _ hpower.ne', Int.cast_natCast]
    rw [hsame, abs_div, abs_of_pos hpower, div_lt_iff₀ hpower]
    linarith
  have hpos : 0 < x := lt_of_lt_of_le (by positivity) hbelow
  rw [rounded_eq hpos.le (lastPlace_of_bounds he hbelow habove), nearestEven_of_near hnear, Int.cast_natCast]

theorem near_of_rounded (hx : 0 < x) (hm : m < 2 ^ 53) (he : -1074 ≤ e) (h : rounded x = m * 2 ^ e) :
    |m * 2 ^ e - x| ≤ 2 ^ e / 2 := by
  have hpower : (0 : ℚ) < 2 ^ e := by positivity
  have hbelow : x < 2 ^ (e + 53) := by
    by_contra hge
    have hmono := rounded_mono (not_lt.mp hge)
    have hfixed := rounded_scaled (m := 2 ^ 53) le_rfl he
    have hsplit : ((2 ^ 53 : ℕ) : ℚ) * 2 ^ e = 2 ^ (e + 53) := by
      rw [add_comm, two_zpow_add]
      norm_num
    have hcast : (m : ℚ) < 2 ^ (53 : ℤ) := by exact_mod_cast hm
    have hlt := mul_lt_mul_of_pos_right hcast hpower
    rw [hsplit] at hfixed
    rw [hfixed, h, add_comm, two_zpow_add] at hmono
    linarith
  have hplace : lastPlace x ≤ e := by
    have hlog := (Int.lt_zpow_iff_log_lt (b := 2) one_lt_two hx).mp (by exact_mod_cast hbelow)
    unfold lastPlace
    omega
  have hplacePower : (0 : ℚ) < 2 ^ lastPlace x := by positivity
  have hhalf := abs_nearestEven_sub (x / 2 ^ lastPlace x)
  have hscale : rounded x - x = (nearestEven (x / 2 ^ lastPlace x) - x / 2 ^ lastPlace x) * 2 ^ lastPlace x := by
    rw [rounded_eq hx.le rfl, sub_mul, div_mul_cancel₀ _ hplacePower.ne']
  rw [← h, hscale, abs_mul, abs_of_pos hplacePower]
  have hstep := mul_le_mul_of_nonneg_right hhalf hplacePower.le
  have hle := two_zpow_le hplace
  linarith

/-- What is less than a last place away from a fraction is rounded to it or to one of its neighbours. -/
theorem rounded_neighbour (hlow : 2 ^ 52 < m) (hm : m < 2 ^ 53) (he : -1074 ≤ e) (hx : 2 ^ (-1022 : ℤ) ≤ x)
    (h : |x - m * 2 ^ e| < 2 ^ e) : ∃ step : ℤ, |step| ≤ 1 ∧ rounded x = (m + step) * 2 ^ e := by
  have hpower : (0 : ℚ) < 2 ^ e := by positivity
  obtain ⟨hleft, hright⟩ := abs_lt.mp h
  have hmost : rounded x ≤ ((m + 1 : ℕ) : ℚ) * 2 ^ e := by
    rw [← rounded_scaled (m := m + 1) (by omega) he]
    refine rounded_mono ?_
    push_cast
    linarith
  have hleast : ((m - 1 : ℕ) : ℚ) * 2 ^ e ≤ rounded x := by
    rw [← rounded_scaled (m := m - 1) (by omega) he]
    refine rounded_mono ?_
    rw [Nat.cast_sub (by omega)]
    push_cast
    linarith
  have hbottom : (2 : ℚ) ^ (e + 52) ≤ rounded x := by
    refine le_trans ?_ hleast
    rw [add_comm, two_zpow_add]
    refine mul_le_mul_of_nonneg_right ?_ hpower.le
    exact_mod_cast (by omega : 2 ^ 52 ≤ m - 1)
  obtain ⟨n, hn⟩ := (rounded_normal hx).multiple hbottom
  rw [hn] at hmost hleast
  have hmost : n ≤ m + 1 := by exact_mod_cast le_of_mul_le_mul_right hmost hpower
  have hleast : m - 1 ≤ n := by exact_mod_cast le_of_mul_le_mul_right hleast hpower
  refine ⟨(n : ℤ) - m, abs_le.mpr ⟨by omega, by omega⟩, ?_⟩
  rw [hn]
  push_cast
  ring

end RegionPlanner
