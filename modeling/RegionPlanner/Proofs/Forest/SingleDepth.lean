import RegionPlanner.Proofs.Forest.Counters
import RegionPlanner.Proofs.Number.Monotone
import RegionPlanner.Proofs.Number.Savings

/-!
# One recursion depth

A recursive node with counters at one depth only is measured by the recurrence, and a plain node with the same counters
by their quotient. The two give the same double as long as the work has few enough bits or is at most twice the critical
path. A critical path above the work is refused of a plain node in any case; of a recursive node it is refused only
where the quotient is below one by more than a rounding error and there is work at all.
-/

namespace RegionPlanner

open Double

/-! ### The values that the recurrence goes through -/

section
variable {x y w s r a : ℚ} {i j k l : ℤ}

theorem div_le_two_zpow (hx : x ≤ 2 ^ j) (hy : 2 ^ k ≤ y) : x / y ≤ 2 ^ (j - k) := by
  rw [zpow_sub₀ (by norm_num)]
  exact div_le_div₀ (by positivity) hx (by positivity) hy

theorem div_between (hx : 2 ^ i ≤ x ∧ x ≤ 2 ^ j) (hy : 2 ^ k ≤ y ∧ y ≤ 2 ^ l) :
    2 ^ (i - l) ≤ x / y ∧ x / y ≤ 2 ^ (j - k) := by
  have hypos : 0 < y := lt_of_lt_of_le (by positivity) hy.1
  have hxpos : 0 < x := lt_of_lt_of_le (by positivity) hx.1
  refine ⟨?_, div_le_two_zpow hx.2 hy.1⟩
  rw [zpow_sub₀ (by norm_num)]
  exact div_le_div₀ hxpos.le hx.1 hypos hy.2

theorem rounded_between (hi : -1022 ≤ i) (hij : i ≤ j) (hx : 2 ^ i ≤ x ∧ x ≤ 2 ^ j) :
    2 ^ i ≤ rounded x ∧ rounded x ≤ 2 ^ j := by
  have hlow := rounded_mono hx.1
  have hhigh := rounded_mono hx.2
  rw [rounded_two_zpow hi] at hlow
  rw [rounded_two_zpow (hi.trans hij)] at hhigh
  exact ⟨hlow, hhigh⟩

/-- Work `w` and critical path `s`, their quotient `r` and the time in parallel `a`. -/
structure OneDepth (w s r a : ℚ) : Prop where
  work : Normal w
  critical : Normal s
  work_range : 2 ^ (0 : ℤ) ≤ w ∧ w ≤ 2 ^ (64 : ℤ)
  critical_range : 2 ^ (0 : ℤ) ≤ s ∧ s ≤ 2 ^ (64 : ℤ)
  ratio_eq : rounded (w / s) = r
  time_eq : rounded (w / r) = a

namespace OneDepth

variable (h : OneDepth w s r a)
include h

theorem quotient_range : 2 ^ (-64 : ℤ) ≤ w / s ∧ w / s ≤ 2 ^ (64 : ℤ) := div_between h.work_range h.critical_range

theorem ratio_range : 2 ^ (-64 : ℤ) ≤ r ∧ r ≤ 2 ^ (64 : ℤ) :=
  h.ratio_eq ▸ rounded_between (by norm_num) (by norm_num) h.quotient_range

theorem parallel_range : 2 ^ (-64 : ℤ) ≤ w / r ∧ w / r ≤ 2 ^ (128 : ℤ) := div_between h.work_range h.ratio_range

theorem time_range : 2 ^ (-64 : ℤ) ≤ a ∧ a ≤ 2 ^ (128 : ℤ) :=
  h.time_eq ▸ rounded_between (by norm_num) (by norm_num) h.parallel_range

theorem quotient_low : 2 ^ (-1022 : ℤ) ≤ w / s := (two_zpow_le (by norm_num)).trans h.quotient_range.1

theorem parallel_low : 2 ^ (-1022 : ℤ) ≤ w / r := (two_zpow_le (by norm_num)).trans h.parallel_range.1

/-- Where the time in parallel or the critical path is left, the recurrence gives the quotient. -/
theorem found (hleft : remaining w a = a ∨ remaining w a = s) : rounded (w / remaining w a) = r :=
  divide_remaining h.work h.critical h.ratio_eq h.time_eq h.quotient_low h.parallel_low hleft

theorem moderate (hws : w ≤ 2 * s) (haw : a ≤ 2 * w) : remaining w a = a :=
  remaining_moderate h.work h.ratio_eq h.time_eq h.critical.pos
    ((two_zpow_le (by norm_num)).trans h.work_range.1) h.quotient_low h.parallel_low hws haw

theorem one_le_ratio (hle : s ≤ w) : 1 ≤ r :=
  h.ratio_eq ▸ one_le_rounded ((one_le_div h.critical.pos).mpr hle)

/-- Where far more than the work is left, both are far below one. -/
theorem above (haw : 2 * w < a) :
    r ≤ 1 / 2 ∧ 2 * w ≤ remaining w a ∧ rounded (w / remaining w a) ≤ 1 / 2 := by
  have hw := h.work.pos
  have hlow : (2 : ℚ) ^ (-1022 : ℤ) ≤ w := (two_zpow_le (by norm_num)).trans h.work_range.1
  have hrpos : 0 < r := lt_of_lt_of_le (by positivity) h.ratio_range.1
  have hleft := remaining_above h.work haw hlow
  refine ⟨?_, hleft, ?_⟩
  · by_contra hgt
    rw [not_le] at hgt
    have hquotient : w / r ≤ 2 * w := by
      rw [div_le_iff₀ hrpos]
      linarith [mul_lt_mul_of_pos_left hgt hw]
    have hmono := rounded_mono hquotient
    rw [h.time_eq, rounded_two_mul hlow, h.work.rounded] at hmono
    linarith
  · have hquotient : w / remaining w a ≤ 2 ^ (-1 : ℤ) := by
      rw [div_le_iff₀ (by linarith), zpow_neg_one]
      linarith
    have hmono := rounded_mono hquotient
    rw [rounded_two_zpow (by norm_num), zpow_neg_one] at hmono
    linarith

end OneDepth

end

/-! ### Counters -/

variable {stat : Stat}

theorem count_range {n : ℕ} (hpos : 0 < n) (hn : n < 2 ^ 64) :
    Normal (value (Quantity.count n : Float)) ∧
      2 ^ (0 : ℤ) ≤ value (Quantity.count n : Float) ∧ value (Quantity.count n : Float) ≤ 2 ^ (64 : ℤ) := by
  have hlow : (2 : ℚ) ^ (0 : ℤ) ≤ n := by
    rw [zpow_zero]
    exact_mod_cast hpos
  refine ⟨?_, ?_, (count_upTo hn).le⟩
  · rw [(count_value hn).2]
    exact rounded_normal ((two_zpow_le (by norm_num)).trans hlow)
  · rw [zpow_zero]
    exact one_le_count hpos hn

theorem toNat_pos_of_ne_zero {n : UInt64} (hn : n ≠ 0) : 0 < n.toNat :=
  Nat.pos_of_ne_zero fun h => hn (UInt64.toNat_inj.mp h)

/-- The work of a stat, its critical path, their quotient and the time in parallel, as values. -/
theorem oneDepth_ofStat (hwork : stat.work ≠ 0) (hcritical : stat.selfParallelWork ≠ 0) :
    ∃ r a, OneDepth (value (Quantity.count stat.work.toNat)) (value (Quantity.count stat.selfParallelWork.toNat)) r a := by
  obtain ⟨hnormal, hrange⟩ := count_range (toNat_pos_of_ne_zero hwork) stat.work.toNat_lt
  obtain ⟨hnormal', hrange'⟩ := count_range (toNat_pos_of_ne_zero hcritical) stat.selfParallelWork.toNat_lt
  exact ⟨_, _, hnormal, hnormal', hrange, hrange', rfl, rfl⟩

theorem selfParallelism_eq (hwork : stat.work ≠ 0) :
    stat.selfParallelism = Quantity.count stat.work.toNat / Quantity.count stat.selfParallelWork.toNat := if_neg hwork

theorem recursive_eq (hwork : stat.work ≠ 0) : (recursiveSelfParallelism [Depth.ofStat stat] : Float) =
    Quantity.count stat.work.toNat / (Quantity.count stat.work.toNat - (Quantity.count stat.work.toNat -
      (Quantity.count stat.work.toNat - Quantity.count 0 * stat.weight) / stat.selfParallelism)) := if_neg hwork

/-- Nothing is lost by the weight of a depth without deeper ones. -/
theorem adjusted_value {work weight : Float} (hwork : work.isFinite = true) (hweight : weight.isFinite = true) :
    (work - Quantity.count 0 * weight).isFinite = true ∧ value (work - Quantity.count 0 * weight) = value work := by
  have hfinite : (Quantity.count 0 : Float).isFinite = true := count_isFinite (by norm_num)
  have hnothing : value (Quantity.count 0) * value weight = 0 := by rw [zero_value.2, zero_mul]
  obtain ⟨hproduct, hproductValue⟩ := mul_exact (k := 0) hfinite hweight (by norm_num) (by norm_num)
    (by rw [hnothing, abs_zero]; positivity)
  rw [hnothing, rounded_zero] at hproductValue
  obtain ⟨hnumber, hvalue⟩ := sub_value hwork hproduct
  have hsmall := (isFinite_iff.mp hwork).2
  obtain ⟨hlow, hhigh⟩ := abs_lt.mp hsmall
  rw [hproductValue, sub_zero, rounded_value hwork, cutOff_of_lt hlow.le hhigh.le] at hvalue
  exact ⟨isFinite_iff.mpr ⟨hnumber, hvalue ▸ hsmall⟩, hvalue⟩

theorem remaining_value {work time : Float} (hwork : work.isFinite = true) (htime : time.isFinite = true)
    (hw : 0 ≤ value work ∧ value work ≤ 2 ^ (128 : ℤ)) (ht : 0 ≤ value time ∧ value time ≤ 2 ^ (128 : ℤ)) :
    (work - (work - time)).isFinite = true ∧ value (work - (work - time)) = remaining (value work) (value time) := by
  have hdouble : (2 : ℚ) ^ (129 : ℤ) = 2 ^ (128 : ℤ) + 2 ^ (128 : ℤ) := by norm_num
  have hsaved : |value work - value time| ≤ 2 ^ (128 : ℤ) := abs_le.mpr ⟨by linarith, by linarith⟩
  obtain ⟨hless, hmore⟩ := abs_le.mp (abs_rounded_le (by norm_num) hsaved)
  obtain ⟨hsavings, hsavingsValue⟩ := sub_exact hwork htime (by norm_num) (by norm_num) hsaved
  have hrest : |value work - value (work - time)| ≤ 2 ^ (129 : ℤ) := by
    rw [hsavingsValue]
    exact abs_le.mpr ⟨by linarith, by linarith⟩
  obtain ⟨hfinite, hvalue⟩ := sub_exact hwork hsavings (by norm_num) (by norm_num) hrest
  rw [hsavingsValue] at hvalue
  exact ⟨hfinite, hvalue⟩

section
variable {r a : ℚ} (hwork : stat.work ≠ 0)
  (h : OneDepth (value (Quantity.count stat.work.toNat)) (value (Quantity.count stat.selfParallelWork.toNat)) r a)
include hwork h

theorem selfParallelism_value : stat.selfParallelism.isFinite = true ∧ value stat.selfParallelism = r := by
  obtain ⟨hlow, hhigh⟩ := h.quotient_range
  rw [selfParallelism_eq hwork, ← h.ratio_eq]
  refine div_exact (k := 64) (count_isFinite stat.work.toNat_lt) (count_isFinite stat.selfParallelWork.toNat_lt)
    h.critical.pos.ne' (by norm_num) (by norm_num) ?_
  rw [abs_of_nonneg (le_trans (by positivity) hlow)]
  exact hhigh

theorem recursive_value (hweight : stat.weight.isFinite = true)
    (hleft : 2 ^ (-64 : ℤ) ≤ remaining (value (Quantity.count stat.work.toNat)) a) :
    (recursiveSelfParallelism [Depth.ofStat stat] : Float).isFinite = true ∧
      value (recursiveSelfParallelism [Depth.ofStat stat]) =
        rounded (value (Quantity.count stat.work.toNat) / remaining (value (Quantity.count stat.work.toNat)) a) := by
  have hfinite : (Quantity.count stat.work.toNat : Float).isFinite = true := count_isFinite stat.work.toNat_lt
  obtain ⟨hratio, hratioValue⟩ := selfParallelism_value hwork h
  obtain ⟨hadjusted, hadjustedValue⟩ := adjusted_value hfinite hweight
  obtain ⟨htlow, hthigh⟩ := h.time_range
  rw [recursive_eq hwork]
  generalize (Quantity.count stat.work.toNat : Float) = work at *
  have hwpos := h.work.pos
  have htpos : 0 < a := lt_of_lt_of_le (by positivity) htlow
  have hrpos : 0 < r := lt_of_lt_of_le (by positivity) h.ratio_range.1
  have htimeSize : |value (work - Quantity.count 0 * stat.weight) / value stat.selfParallelism| ≤ 2 ^ (128 : ℤ) := by
    rw [hadjustedValue, hratioValue, abs_of_pos (div_pos hwpos hrpos)]
    exact h.parallel_range.2
  obtain ⟨htime, htimeValue⟩ :=
    div_exact hadjusted hratio (by rw [hratioValue]; exact hrpos.ne') (by norm_num) (by norm_num) htimeSize
  rw [hadjustedValue, hratioValue, h.time_eq] at htimeValue
  have hworkSize : value work ≤ 2 ^ (128 : ℤ) := h.work_range.2.trans (two_zpow_le (by norm_num))
  obtain ⟨hrest, hrestValue⟩ := remaining_value hfinite htime ⟨hwpos.le, hworkSize⟩
    ⟨htimeValue ▸ htpos.le, htimeValue ▸ hthigh⟩
  rw [htimeValue] at hrestValue
  have hleftPos : 0 < remaining (value work) a := lt_of_lt_of_le (by positivity) hleft
  have hquotient := div_le_two_zpow h.work_range.2 hleft
  rw [← hrestValue] at hleftPos hquotient ⊢
  refine div_exact (k := 128) hfinite hrest hleftPos.ne' (by norm_num) (by norm_num) ?_
  rw [abs_of_pos (div_pos hwpos hleftPos)]
  exact hquotient

/-- The two measures are the same double where the time in parallel or the critical path is left. -/
theorem recursive_eq_plain (hweight : stat.weight.isFinite = true)
    (hleft : remaining (value (Quantity.count stat.work.toNat)) a = a ∨
      remaining (value (Quantity.count stat.work.toNat)) a = value (Quantity.count stat.selfParallelWork.toNat)) :
    recursiveSelfParallelism [Depth.ofStat stat] = stat.selfParallelism := by
  have hlow : 2 ^ (-64 : ℤ) ≤ remaining (value (Quantity.count stat.work.toNat)) a := by
    rcases hleft with heq | heq
    · rw [heq]
      exact h.time_range.1
    · rw [heq]
      exact (two_zpow_le (by norm_num)).trans h.critical_range.1
  obtain ⟨hplain, hplainValue⟩ := selfParallelism_value hwork h
  obtain ⟨hrecursive, hrecursiveValue⟩ := recursive_value hwork h hweight hlow
  rw [h.found hleft] at hrecursiveValue
  have hrpos : 0 < r := lt_of_lt_of_le (by positivity) h.ratio_range.1
  exact eq_of_value (isFinite_iff.mp hrecursive).1 (isFinite_iff.mp hplain).1 (hrecursiveValue.trans hplainValue.symm)
    (by rw [hrecursiveValue]; exact hrpos.ne')

omit hwork in
theorem left_of_le (hle : stat.selfParallelWork ≤ stat.work)
    (hsize : stat.work.toNat < 3 * 2 ^ 51 ∨ stat.work.toNat ≤ 2 * stat.selfParallelWork.toNat) :
    remaining (value (Quantity.count stat.work.toNat)) a = a ∨
      remaining (value (Quantity.count stat.work.toNat)) a = value (Quantity.count stat.selfParallelWork.toNat) := by
  have hmono := count_mono (UInt64.le_iff_toNat_le.mp hle) stat.work.toNat_lt
  have hone := h.one_le_ratio hmono
  have hvalue := (count_value stat.work.toNat_lt).2
  have hvalue' := (count_value stat.selfParallelWork.toNat_lt).2
  have hpos : 0 < stat.selfParallelWork.toNat := by
    by_contra hzero
    have hcritical := h.critical.pos
    rw [hvalue', Nat.eq_zero_of_not_pos hzero, Nat.cast_zero, rounded_zero] at hcritical
    exact lt_irrefl _ hcritical
  rw [UInt64.le_iff_toNat_le] at hle
  rcases hsize with hsmall | hhalf
  · rw [hvalue, rounded_natCast (by omega)] at h ⊢
    rw [hvalue', rounded_natCast (by omega)] at h ⊢
    exact remaining_whole hpos hle hsmall h.ratio_eq h.time_eq h.quotient_low h.parallel_low
  · refine .inl (h.moderate ?_ ?_)
    · have htwice : rounded stat.work.toNat ≤ rounded (2 * stat.selfParallelWork.toNat) :=
        rounded_mono (by exact_mod_cast hhalf)
      have hlow : (2 : ℚ) ^ (-1022 : ℤ) ≤ 2 ^ (0 : ℤ) := two_zpow_le (by norm_num)
      have hcast : (2 : ℚ) ^ (0 : ℤ) ≤ stat.selfParallelWork.toNat := by
        rw [zpow_zero]
        exact_mod_cast hpos
      rw [hvalue, hvalue']
      rwa [rounded_two_mul (hlow.trans hcast)] at htwice
    · have htime := rounded_mono (div_le_self h.work.pos.le hone)
      rw [h.time_eq, h.work.rounded] at htime
      linarith [h.work.pos]

end

/-! ### No critical path -/

theorem selfParallelism_infinite (hwork : stat.work ≠ 0) (hcritical : stat.selfParallelWork = 0) :
    IsNumber stat.selfParallelism ∧ ¬ stat.selfParallelism.isFinite = true := by
  obtain ⟨hnumber, hzero⟩ := zero_value
  have hpos := toNat_pos_of_ne_zero hwork
  rw [selfParallelism_eq hwork, hcritical]
  exact div_zero_infinite (count_isFinite stat.work.toNat_lt) (count_range hpos stat.work.toNat_lt).1.pos.ne' hnumber hzero

/-- The time in parallel is nothing then, so nothing is left of the work. -/
theorem recursive_infinite (hweight : stat.weight.isFinite = true) (hwork : stat.work ≠ 0)
    (hcritical : stat.selfParallelWork = 0) :
    ¬ (recursiveSelfParallelism [Depth.ofStat stat] : Float).isFinite = true := by
  have hpos := toNat_pos_of_ne_zero hwork
  have hfinite : (Quantity.count stat.work.toNat : Float).isFinite = true := count_isFinite stat.work.toNat_lt
  obtain ⟨hnormal, hrange⟩ := count_range hpos stat.work.toNat_lt
  obtain ⟨hnumber, hinfinite⟩ := selfParallelism_infinite hwork hcritical
  obtain ⟨hadjusted, -⟩ := adjusted_value hfinite hweight
  obtain ⟨htime, htimeValue⟩ := div_infinite_zero hadjusted hnumber hinfinite
  rw [recursive_eq hwork]
  generalize (Quantity.count stat.work.toNat : Float) = work at *
  have hsize : value work ≤ 2 ^ (128 : ℤ) := hrange.2.trans (two_zpow_le (by norm_num))
  obtain ⟨hrest, hrestValue⟩ := remaining_value hfinite htime ⟨hnormal.pos.le, hsize⟩
    ⟨htimeValue ▸ le_rfl, htimeValue ▸ by positivity⟩
  unfold remaining at hrestValue
  rw [htimeValue, sub_zero, hnormal.rounded, sub_self, rounded_zero] at hrestValue
  exact (div_zero_infinite hfinite hnormal.pos.ne' (isFinite_iff.mp hrest).1 hrestValue).2

/-! ### Outcomes of the checks -/

/-- Both give the same self-parallelism, or both refuse that of the node. -/
def SameOutcome (uid : UInt64) (first second : Except Fault Float) : Prop :=
  (∃ x, first = .ok x ∧ second = .ok x) ∨
    (∃ x, first = .error (.invalidSelfParallelism uid x)) ∧ ∃ x, second = .error (.invalidSelfParallelism uid x)

theorem checked_refused {profile : Profile} {uid : UInt64} :
    (∃ x, profile.checkedSelfParallelism uid = .error (.invalidSelfParallelism uid x)) ↔ ¬ profile.Allowed := by
  constructor
  · rintro ⟨x, hx⟩ hallowed
    have hok : profile.checkedSelfParallelism uid = .ok _ := checked_eq_ok.mpr ⟨hallowed, rfl⟩
    rw [hx] at hok
    cases hok
  · intro hnot
    cases hrun : profile.checkedSelfParallelism uid with
    | ok x => exact absurd (checked_eq_ok.mp hrun).1 hnot
    | error fault =>
      obtain ⟨x, rfl⟩ := checked_eq_error hrun
      exact ⟨x, rfl⟩

theorem sameOutcome_iff {first second : Profile} {uid : UInt64} :
    SameOutcome uid (first.checkedSelfParallelism uid) (second.checkedSelfParallelism uid) ↔
      (first.Allowed ↔ second.Allowed) ∧ (first.Allowed → second.Allowed →
        Quantity.larger first.measured (Quantity.count 1) = Quantity.larger second.measured (Quantity.count 1)) := by
  unfold SameOutcome
  rw [checked_refused, checked_refused]
  constructor
  · rintro (⟨x, hx, hy⟩ | ⟨hnot, hnot'⟩)
    · obtain ⟨hallowed, heq⟩ := checked_eq_ok.mp hx
      obtain ⟨hallowed', heq'⟩ := checked_eq_ok.mp hy
      exact ⟨iff_of_true hallowed hallowed', fun _ _ => heq.trans heq'.symm⟩
    · exact ⟨iff_of_false hnot hnot', fun hallowed => absurd hallowed hnot⟩
  · rintro ⟨hiff, hsame⟩
    by_cases hallowed : first.Allowed
    · have hallowed' := hiff.mp hallowed
      exact .inl ⟨_, checked_eq_ok.mpr ⟨hallowed, rfl⟩, checked_eq_ok.mpr ⟨hallowed', (hsame hallowed hallowed').symm⟩⟩
    · exact .inr ⟨hallowed, fun hallowed' => hallowed (hiff.mpr hallowed')⟩

theorem tolerance_value : (Quantity.count 1 - parallelismTolerance : Float).isFinite = true ∧
    1 / 2 < value (Quantity.count 1 - parallelismTolerance) ∧ value (Quantity.count 1 - parallelismTolerance) < 1 := by
  have hfinite : (Quantity.count 1 - parallelismTolerance : Float).isFinite = true := by decide +kernel
  rw [← toRat_ofFloat hfinite]
  exact ⟨hfinite, by decide +kernel, by decide +kernel⟩

theorem below_iff {x : Float} (hx : x.isFinite = true) :
    x < Quantity.count 1 - parallelismTolerance ↔ value x < value (Quantity.count 1 - parallelismTolerance) :=
  lt_iff (isFinite_iff.mp hx).1 (isFinite_iff.mp tolerance_value.1).1

/-! ### One depth and a plain node -/

theorem allowed_plain : (Profile.plain stat).Allowed ↔
    stat.selfParallelism.isFinite = true ∧ stat.selfParallelWork ≤ stat.work := Iff.rfl

theorem allowed_recursive : (Profile.recursive stat []).Allowed ↔
    (recursiveSelfParallelism [Depth.ofStat stat] : Float).isFinite = true ∧
      ¬ (recursiveSelfParallelism [Depth.ofStat stat] : Float) < Quantity.count 1 - parallelismTolerance := Iff.rfl

/-- A critical path that is not above the work: both measures are the same, and neither is below one. -/
theorem sameOutcome_of_le {uid : UInt64} (hweight : stat.weight.isFinite = true) (hwork : stat.work ≠ 0)
    (hcritical : stat.selfParallelWork ≠ 0) (hle : stat.selfParallelWork ≤ stat.work)
    (hsize : stat.work.toNat < 3 * 2 ^ 51 ∨ stat.work.toNat ≤ 2 * stat.selfParallelWork.toNat) :
    SameOutcome uid ((Profile.plain stat).checkedSelfParallelism uid)
      ((Profile.recursive stat []).checkedSelfParallelism uid) := by
  obtain ⟨r, a, h⟩ := oneDepth_ofStat hwork hcritical
  have hsame := recursive_eq_plain hwork h hweight (left_of_le h hle hsize)
  obtain ⟨hfinite, hvalue⟩ := selfParallelism_value hwork h
  have hone := h.one_le_ratio (count_mono (UInt64.le_iff_toNat_le.mp hle) stat.work.toNat_lt)
  have hnotBelow : ¬ stat.selfParallelism < Quantity.count 1 - parallelismTolerance := by
    rw [below_iff hfinite, hvalue]
    linarith [tolerance_value.2.2]
  rw [sameOutcome_iff, allowed_plain, allowed_recursive, hsame]
  refine ⟨iff_of_true ⟨hfinite, hle⟩ ⟨hfinite, hnotBelow⟩, fun _ _ => ?_⟩
  exact congrArg (Quantity.larger · (Quantity.count 1)) hsame.symm

/-- A critical path above the work is refused of a plain node; of a recursive one only where the quotient is below one
by more than a rounding error. -/
theorem recursive_below_iff (hweight : stat.weight.isFinite = true) (hwork : stat.work ≠ 0)
    (hlt : stat.work < stat.selfParallelWork) :
    (recursiveSelfParallelism [Depth.ofStat stat] : Float).isFinite = true ∧
      ((recursiveSelfParallelism [Depth.ofStat stat] : Float) < Quantity.count 1 - parallelismTolerance ↔
        stat.selfParallelism < Quantity.count 1 - parallelismTolerance) := by
  have hcritical : stat.selfParallelWork ≠ 0 := fun h => by
    rw [h] at hlt
    exact absurd hlt (by rw [UInt64.lt_iff_toNat_lt]; exact Nat.not_lt_zero _)
  obtain ⟨r, a, h⟩ := oneDepth_ofStat hwork hcritical
  obtain ⟨hfinite, hvalue⟩ := selfParallelism_value hwork h
  rcases le_or_gt a (2 * value (Quantity.count stat.work.toNat)) with hnear | hfar
  · have hle : value (Quantity.count stat.work.toNat) ≤ 2 * value (Quantity.count stat.selfParallelWork.toNat) := by
      have hmono := count_mono (UInt64.le_iff_toNat_le.mp (UInt64.le_of_lt hlt)) stat.selfParallelWork.toNat_lt
      linarith [h.critical.pos]
    rw [recursive_eq_plain hwork h hweight (.inl (h.moderate hle hnear))]
    exact ⟨hfinite, Iff.rfl⟩
  · obtain ⟨hhalf, hleft, hhalf'⟩ := h.above hfar
    have hlow : 2 ^ (-64 : ℤ) ≤ remaining (value (Quantity.count stat.work.toNat)) a := by
      have hone : (2 : ℚ) ^ (-64 : ℤ) ≤ 2 ^ (0 : ℤ) := two_zpow_le (by norm_num)
      linarith [h.work_range.1, h.work.pos]
    obtain ⟨hrecursive, hrecursiveValue⟩ := recursive_value hwork h hweight hlow
    refine ⟨hrecursive, iff_of_true ?_ ?_⟩
    · rw [below_iff hrecursive, hrecursiveValue]
      linarith [tolerance_value.2.1]
    · rw [below_iff hfinite, hvalue]
      linarith [tolerance_value.2.1]

theorem sameOutcome_of_no_work {uid : UInt64} (hwork : stat.work = 0) :
    SameOutcome uid ((Profile.plain stat).checkedSelfParallelism uid)
      ((Profile.recursive stat []).checkedSelfParallelism uid) ↔ stat.selfParallelWork ≤ stat.work := by
  have hplain : stat.selfParallelism = Quantity.count 1 := if_pos hwork
  have hrecursive : (recursiveSelfParallelism [Depth.ofStat stat] : Float) = Quantity.count 1 := if_pos hwork
  have hfinite : (Quantity.count 1 : Float).isFinite = true := count_isFinite (by norm_num)
  have hnotBelow : ¬ (Quantity.count 1 : Float) < Quantity.count 1 - parallelismTolerance := by decide +kernel
  rw [sameOutcome_iff, allowed_plain, allowed_recursive, hplain, hrecursive]
  constructor
  · rintro ⟨hiff, -⟩
    exact (hiff.mpr ⟨hfinite, hnotBelow⟩).2
  · intro hle
    refine ⟨iff_of_true ⟨hfinite, hle⟩ ⟨hfinite, hnotBelow⟩, fun _ _ => ?_⟩
    exact congrArg (Quantity.larger · (Quantity.count 1)) (hplain.trans hrecursive.symm)

/-- A recursive node with one depth and a plain node with the same counters have the same outcome, as long as the work is
below `3 * 2 ^ 51` or at most twice the critical path, unless the critical path is above the work and the recurrence does
not show it: because there is no work, or because the quotient is a rounding error below one. -/
theorem single_depth {uid : UInt64} (hweight : stat.weight.isFinite = true)
    (hsize : stat.work.toNat < 3 * 2 ^ 51 ∨ stat.work.toNat ≤ 2 * stat.selfParallelWork.toNat) :
    SameOutcome uid ((Profile.plain stat).checkedSelfParallelism uid)
        ((Profile.recursive stat []).checkedSelfParallelism uid) ↔
      stat.selfParallelWork ≤ stat.work ∨
        stat.work ≠ 0 ∧ stat.selfParallelism < Quantity.count 1 - parallelismTolerance := by
  by_cases hwork : stat.work = 0
  · rw [sameOutcome_of_no_work hwork]
    exact ⟨.inl, fun h => h.resolve_right fun hnot => hnot.1 hwork⟩
  by_cases hcritical : stat.selfParallelWork = 0
  · -- Both measures are infinite.
    refine iff_of_true ?_ (.inl (by rw [hcritical, UInt64.le_iff_toNat_le]; exact Nat.zero_le _))
    have hplain := (selfParallelism_infinite hwork hcritical).2
    have hrecursive := recursive_infinite hweight hwork hcritical
    rw [sameOutcome_iff, allowed_plain, allowed_recursive]
    exact ⟨iff_of_false (fun h => hplain h.1) (fun h => hrecursive h.1), fun h => absurd h.1 hplain⟩
  by_cases hle : stat.selfParallelWork ≤ stat.work
  · exact iff_of_true (sameOutcome_of_le hweight hwork hcritical hle hsize) (.inl hle)
  · obtain ⟨hfinite, hbelow⟩ := recursive_below_iff hweight hwork (UInt64.not_le.mp hle)
    rw [sameOutcome_iff, allowed_plain, allowed_recursive, hbelow]
    constructor
    · rintro ⟨hiff, -⟩
      refine .inr ⟨hwork, ?_⟩
      by_contra hnot
      exact hle (hiff.mpr ⟨hfinite, hnot⟩).2
    · intro h
      have hlow := (h.resolve_left hle).2
      exact ⟨iff_of_false (fun hallowed => hle hallowed.2) (fun hallowed => hallowed.2 hlow),
        fun hallowed => absurd hallowed.2 hle⟩

theorem single_depth_third : SameOutcome 1 ((Profile.plain (.ofWork 1 900 300)).checkedSelfParallelism 1)
    ((Profile.recursive (.ofWork 1 900 300) []).checkedSelfParallelism 1) :=
  (single_depth (by decide +kernel) (.inl (by decide +kernel))).mpr (.inl (by decide))

instance : (profile : Profile) → Decidable profile.Allowed
  | .plain stat =>
    inferInstanceAs (Decidable (stat.selfParallelism.isFinite = true ∧ stat.selfParallelWork ≤ stat.work))
  | .recursive outermost deeper =>
    inferInstanceAs (Decidable ((Profile.recursive outermost deeper).measured.isFinite = true ∧
      ¬ (Profile.recursive outermost deeper).measured < Quantity.count 1 - parallelismTolerance))

theorem not_sameOutcome {first second : Profile} {uid : UInt64} (h : ¬ (first.Allowed ↔ second.Allowed)) :
    ¬ SameOutcome uid (first.checkedSelfParallelism uid) (second.checkedSelfParallelism uid) :=
  fun hsame => h (sameOutcome_iff.mp hsame).1

/-- Without work, and within the tolerance, only the plain node is refused; where taking the savings away loses what is
left, only the recursive node is; and where it loses a last place, the two self-parallelisms differ by one. -/
theorem single_depth_differs :
    ¬ SameOutcome 1 ((Profile.plain (.ofWork 1 0 5)).checkedSelfParallelism 1)
        ((Profile.recursive (.ofWork 1 0 5) []).checkedSelfParallelism 1) ∧
    ¬ SameOutcome 1 ((Profile.plain (.ofWork 1 2000000000 2000000001)).checkedSelfParallelism 1)
        ((Profile.recursive (.ofWork 1 2000000000 2000000001) []).checkedSelfParallelism 1) ∧
    ¬ SameOutcome 1 ((Profile.plain (.ofWork 1 18014398509481984 1)).checkedSelfParallelism 1)
        ((Profile.recursive (.ofWork 1 18014398509481984 1) []).checkedSelfParallelism 1) ∧
    ¬ SameOutcome 1 ((Profile.plain (.ofWork 1 8979137019895548 3982877474206053)).checkedSelfParallelism 1)
        ((Profile.recursive (.ofWork 1 8979137019895548 3982877474206053) []).checkedSelfParallelism 1) := by
  refine ⟨not_sameOutcome (by decide +kernel), not_sameOutcome (by decide +kernel), not_sameOutcome (by decide +kernel), ?_⟩
  intro hsame
  have hplain : (Profile.plain (.ofWork 1 8979137019895548 3982877474206053)).Allowed := by decide +kernel
  have hrecursive : (Profile.recursive (.ofWork 1 8979137019895548 3982877474206053) []).Allowed := by decide +kernel
  have heq := congrArg Float.toBits ((sameOutcome_iff.mp hsame).2 hplain hrecursive)
  have hplainBits : (Quantity.larger (Profile.plain (.ofWork 1 8979137019895548 3982877474206053)).measured
      (Quantity.count 1)).toBits = 0x4002091509d6a296 := by
    decide +kernel
  have hrecursiveBits : (Quantity.larger (Profile.recursive (.ofWork 1 8979137019895548 3982877474206053) []).measured
      (Quantity.count 1)).toBits = 0x4002091509d6a295 := by
    decide +kernel
  rw [hplainBits, hrecursiveBits] at heq
  exact absurd heq (by decide)

end RegionPlanner
