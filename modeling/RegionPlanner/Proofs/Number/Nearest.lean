import Mathlib.Algebra.Order.Field.Power
import Mathlib.Data.Int.Log
import Mathlib.Data.Rat.Floor
import Mathlib.Tactic.Linarith
import Mathlib.Tactic.Positivity
import Mathlib.Tactic.Ring

/-!
# Rounding to 53 bits

`rounded x` is the fraction with 53 bits that is nearest to `x`, a multiple of `2 ^ (-1074)`; of two that are
equally near it is the one with an even last bit. There is no upper end here.
-/

namespace RegionPlanner

/-! ### To whole numbers -/

/-- The nearest whole number, the even one of two that are equally near. -/
def nearestEven (x : ℚ) : ℤ :=
  if x - ⌊x⌋ < 1 / 2 then ⌊x⌋ else if 1 / 2 < x - ⌊x⌋ then ⌊x⌋ + 1 else ⌊x⌋ + ⌊x⌋ % 2

theorem nearestEven_bounds (x : ℚ) : ⌊x⌋ ≤ nearestEven x ∧ nearestEven x ≤ ⌊x⌋ + 1 := by
  unfold nearestEven
  split
  · omega
  · split <;> omega

theorem nearestEven_intCast (n : ℤ) : nearestEven n = n := by
  unfold nearestEven
  rw [Int.floor_intCast, sub_self, if_pos (by norm_num)]

theorem nearestEven_nonneg {x : ℚ} (h : 0 ≤ x) : 0 ≤ nearestEven x := by
  have hfloor := Int.floor_nonneg.mpr h
  have hbound := nearestEven_bounds x
  omega

theorem nearestEven_mono {x y : ℚ} (h : x ≤ y) : nearestEven x ≤ nearestEven y := by
  have hx := nearestEven_bounds x
  have hy := nearestEven_bounds y
  rcases (Int.floor_le_floor h).lt_or_eq with hlt | heq
  · omega
  · by_cases hlow : x - ⌊x⌋ < 1 / 2
    · have hnearest : nearestEven x = ⌊x⌋ := if_pos hlow
      omega
    · have hfract : x - ⌊x⌋ ≤ y - ⌊y⌋ := by
        rw [heq]
        linarith
      have hylow : ¬ y - ⌊y⌋ < 1 / 2 := by linarith
      unfold nearestEven
      rw [if_neg hlow, if_neg hylow, heq]
      rw [heq] at hfract
      split
      · rw [if_pos (by linarith)]
      · split <;> omega

/-! ### The last place -/

/-- The exponent of the last of the 53 bits of a positive fraction. -/
def lastPlace (x : ℚ) : ℤ := max (Int.log 2 x - 52) (-1074)

variable {x y : ℚ} {e : ℤ}

theorem two_zpow_le {a b : ℤ} (h : a ≤ b) : (2 : ℚ) ^ a ≤ 2 ^ b := zpow_le_zpow_right₀ (by norm_num) h

theorem two_zpow_add (a b : ℤ) : (2 : ℚ) ^ (a + b) = 2 ^ a * 2 ^ b := zpow_add₀ (by norm_num) a b

theorem log_spec (h : 0 < x) : (2 : ℚ) ^ Int.log 2 x ≤ x ∧ x < 2 ^ (Int.log 2 x + 1) := by
  have hlow := Int.zpow_log_le_self (b := 2) one_lt_two h
  have hhigh := Int.lt_zpow_succ_log_self (b := 2) one_lt_two x
  exact ⟨by exact_mod_cast hlow, by exact_mod_cast hhigh⟩

theorem log_eq (hlow : (2 : ℚ) ^ e ≤ x) (hhigh : x < 2 ^ (e + 1)) : Int.log 2 x = e := by
  have hpos : 0 < x := lt_of_lt_of_le (by positivity) hlow
  have hle := (Int.zpow_le_iff_le_log (b := 2) one_lt_two hpos).mp (by exact_mod_cast hlow)
  have hlt := (Int.lt_zpow_iff_log_lt (b := 2) one_lt_two hpos).mp (by exact_mod_cast hhigh)
  omega

theorem lastPlace_ge (x : ℚ) : -1074 ≤ lastPlace x := le_max_right _ _

theorem lastPlace_mono (hx : 0 < x) (h : x ≤ y) : lastPlace x ≤ lastPlace y :=
  max_le_max (sub_le_sub_right (Int.log_mono_right hx h) 52) le_rfl

theorem lt_lastPlace (h : 0 < x) : x < 2 ^ (lastPlace x + 53) := by
  have hlog := (log_spec h).2
  refine lt_of_lt_of_le hlog (two_zpow_le ?_)
  have hle : Int.log 2 x - 52 ≤ lastPlace x := le_max_left _ _
  omega

theorem lastPlace_le (h : 0 < x) (hp : lastPlace x ≠ -1074) : 2 ^ (lastPlace x + 52) ≤ x := by
  refine le_trans (two_zpow_le ?_) (log_spec h).1
  unfold lastPlace at hp ⊢
  omega

/-- The last place of a fraction with 53 bits. -/
theorem lastPlace_eq {m : ℕ} (hpos : 0 < m) (hm : m < 2 ^ 53) (he : -1074 ≤ e) (hc : 2 ^ 52 ≤ m ∨ e = -1074) :
    lastPlace (m * 2 ^ e) = e := by
  have hpower : (0 : ℚ) < 2 ^ e := by positivity
  have hhigh : (m : ℚ) * 2 ^ e < 2 ^ (e + 53) := by
    rw [add_comm, two_zpow_add]
    have hcast : (m : ℚ) < 2 ^ (53 : ℤ) := by exact_mod_cast hm
    exact mul_lt_mul_of_pos_right hcast hpower
  have hx : (0 : ℚ) < m * 2 ^ e := by positivity
  have hlog := (Int.lt_zpow_iff_log_lt (b := 2) one_lt_two hx).mp (by exact_mod_cast hhigh)
  rcases hc with hnormal | hsub
  · have hlow : (2 : ℚ) ^ (e + 52) ≤ m * 2 ^ e := by
      rw [add_comm, two_zpow_add]
      have hcast : (2 : ℚ) ^ (52 : ℤ) ≤ m := by exact_mod_cast hnormal
      exact mul_le_mul_of_nonneg_right hcast hpower.le
    have hle := (Int.zpow_le_iff_le_log (b := 2) one_lt_two hx).mp (by exact_mod_cast hlow)
    unfold lastPlace
    omega
  · unfold lastPlace
    omega

/-! ### To 53 bits -/

/-- The nearest fraction with 53 bits of one that is not negative. -/
def roundedUp (x : ℚ) : ℚ := nearestEven (x / 2 ^ lastPlace x) * 2 ^ lastPlace x

/-- The nearest fraction with 53 bits. -/
def rounded (x : ℚ) : ℚ := if 0 ≤ x then roundedUp x else -roundedUp (-x)

theorem roundedUp_nonneg (h : 0 ≤ x) : 0 ≤ roundedUp x := by
  have hnearest : (0 : ℚ) ≤ nearestEven (x / 2 ^ lastPlace x) := by
    exact_mod_cast nearestEven_nonneg (by positivity)
  exact mul_nonneg hnearest (by positivity)

theorem roundedUp_zero : roundedUp 0 = 0 := by
  unfold roundedUp
  rw [zero_div]
  have hzero := nearestEven_intCast 0
  rw [Int.cast_zero] at hzero
  rw [hzero, Int.cast_zero, zero_mul]

theorem roundedUp_le (h : 0 < x) : roundedUp x ≤ 2 ^ (lastPlace x + 53) := by
  have hpower : (0 : ℚ) < 2 ^ lastPlace x := by positivity
  have hscaled : x / 2 ^ lastPlace x ≤ ((2 ^ 53 : ℤ) : ℚ) := by
    rw [div_le_iff₀ hpower]
    have hlt := lt_lastPlace h
    rw [add_comm, two_zpow_add] at hlt
    exact_mod_cast hlt.le
  have hnearest := nearestEven_mono hscaled
  rw [nearestEven_intCast] at hnearest
  unfold roundedUp
  rw [add_comm, two_zpow_add]
  refine mul_le_mul_of_nonneg_right ?_ hpower.le
  exact_mod_cast hnearest

theorem le_roundedUp (h : 0 < x) (hp : lastPlace x ≠ -1074) : 2 ^ (lastPlace x + 52) ≤ roundedUp x := by
  have hpower : (0 : ℚ) < 2 ^ lastPlace x := by positivity
  have hscaled : ((2 ^ 52 : ℤ) : ℚ) ≤ x / 2 ^ lastPlace x := by
    rw [le_div_iff₀ hpower]
    have hle := lastPlace_le h hp
    rw [add_comm, two_zpow_add] at hle
    exact_mod_cast hle
  have hnearest := nearestEven_mono hscaled
  rw [nearestEven_intCast] at hnearest
  unfold roundedUp
  rw [add_comm, two_zpow_add]
  refine mul_le_mul_of_nonneg_right ?_ hpower.le
  exact_mod_cast hnearest

/-- Within one place rounding follows the whole numbers; between two places a power of two separates. -/
theorem roundedUp_mono (hx : 0 < x) (h : x ≤ y) : roundedUp x ≤ roundedUp y := by
  have hy := lt_of_lt_of_le hx h
  rcases (lastPlace_mono hx h).lt_or_eq with hlt | heq
  · have hge := lastPlace_ge x
    calc roundedUp x ≤ 2 ^ (lastPlace x + 53) := roundedUp_le hx
      _ ≤ 2 ^ (lastPlace y + 52) := two_zpow_le (by omega)
      _ ≤ roundedUp y := le_roundedUp hy (by omega)
  · have hpower : (0 : ℚ) < 2 ^ lastPlace y := by positivity
    unfold roundedUp
    rw [heq]
    refine mul_le_mul_of_nonneg_right ?_ hpower.le
    exact_mod_cast nearestEven_mono (div_le_div_of_nonneg_right h hpower.le)

theorem rounded_of_nonneg (h : 0 ≤ x) : rounded x = roundedUp x := if_pos h

theorem rounded_neg (x : ℚ) : rounded (-x) = -rounded x := by
  unfold rounded
  rcases lt_trichotomy x 0 with hneg | rfl | hpos
  · rw [if_pos (by linarith), if_neg (by linarith), neg_neg]
  · simp [roundedUp_zero]
  · rw [if_neg (by linarith), if_pos hpos.le, neg_neg]

theorem rounded_nonneg (h : 0 ≤ x) : 0 ≤ rounded x := by
  rw [rounded_of_nonneg h]
  exact roundedUp_nonneg h

theorem rounded_mono (h : x ≤ y) : rounded x ≤ rounded y := by
  have hpos : ∀ {a b : ℚ}, 0 ≤ a → a ≤ b → rounded a ≤ rounded b := by
    intro a b ha hab
    rw [rounded_of_nonneg ha, rounded_of_nonneg (ha.trans hab)]
    rcases ha.lt_or_eq with ha | rfl
    · exact roundedUp_mono ha hab
    · rw [roundedUp_zero]
      exact roundedUp_nonneg hab
  rcases le_total 0 x with hx | hx
  · exact hpos hx h
  · rcases le_total 0 y with hy | hy
    · have hminus := rounded_nonneg (neg_nonneg.mpr hx)
      rw [rounded_neg] at hminus
      exact le_trans (by linarith) (rounded_nonneg hy)
    · have hminus := hpos (neg_nonneg.mpr hy) (neg_le_neg h)
      rw [rounded_neg, rounded_neg] at hminus
      linarith

/-- A fraction with 53 bits is its own rounding. -/
theorem rounded_fixed {m : ℕ} (hm : m < 2 ^ 53) (he : -1074 ≤ e) (hc : 2 ^ 52 ≤ m ∨ e = -1074) :
    rounded (m * 2 ^ e) = m * 2 ^ e := by
  rw [rounded_of_nonneg (by positivity)]
  rcases Nat.eq_zero_or_pos m with rfl | hpos
  · rw [Nat.cast_zero, zero_mul, roundedUp_zero]
  · have hpower : (2 : ℚ) ^ e ≠ 0 := by positivity
    unfold roundedUp
    rw [lastPlace_eq hpos hm he hc, mul_div_cancel_right₀ _ hpower]
    have hwhole := nearestEven_intCast m
    rw [Int.cast_natCast] at hwhole
    rw [hwhole, Int.cast_natCast]

end RegionPlanner
