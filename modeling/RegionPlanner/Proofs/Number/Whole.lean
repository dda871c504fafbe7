import Mathlib.Data.Nat.Digits.Defs
import RegionPlanner.Number.Numeral
import RegionPlanner.Proofs.Success
import RegionPlanner.Text.Blank

/-!
# Whole numbers in decimal

The decimal digits of a number are read as that number by every reader whose limit it keeps.
-/

namespace RegionPlanner

/-! ### Digits -/

theorem not_isBlank_of_isDigit {c : Char} (h : c.isDigit) : ¬ isBlank c := by
  have hc : 48 ≤ c.toNat ∧ c.toNat ≤ 57 := by
    simpa [Char.isDigit, UInt32.le_iff_toNat_le] using h
  simp [isBlank, blankRanges]
  omega

namespace Numeral

theorem digitValue?_digitChar : ∀ d < 10, digitValue? (Nat.digitChar d) = some d := by decide

variable {limit value n : Nat}

theorem appendDigits_append (xs ys : List Char) :
    appendDigits limit value (xs ++ ys) = (appendDigits limit value xs >>= fun value => appendDigits limit value ys) := by
  induction xs generalizing value with
  | nil => rfl
  | cons c xs ih =>
    simp only [List.cons_append, appendDigits]
    split
    · rfl
    · split
      · exact ih
      · rfl

theorem appendDigits_singleton {d : Nat} (hd : d < 10) (h : 10 * value + d ≤ limit) :
    appendDigits limit value [Nat.digitChar d] = .ok (10 * value + d) := by
  simp [appendDigits, digitValue?_digitChar d hd, h]

theorem appendDigits_toDigits (h : n ≤ limit) : appendDigits limit 0 (Nat.toDigits 10 n) = .ok n := by
  induction n using Nat.strongRecOn with
  | ind n ih =>
    rcases Nat.lt_or_ge n 10 with hn | hn
    · rw [Nat.toDigits_of_lt_base hn, appendDigits_singleton hn (by omega)]
      simp
    · have hfirst : appendDigits limit 0 (Nat.toDigits 10 (n / 10)) = .ok (n / 10) := ih _ (by omega) (by omega)
      rw [Nat.toDigits_of_base_le (by omega) hn, appendDigits_append, hfirst, ok_bind,
        appendDigits_singleton (by omega) (by omega)]
      congr 1
      omega

theorem readWhole_toDigits (h : n ≤ limit) : readWhole limit (Nat.toDigits 10 n) = .ok n := by
  have hdigits := appendDigits_toDigits h
  have hplus : '+' ∉ Nat.toDigits 10 n := fun hm =>
    absurd (Nat.isDigit_of_mem_toDigits (by decide) (by decide) hm) (by decide)
  cases htext : Nat.toDigits 10 n with
  | nil => exact absurd htext Nat.toDigits_ne_nil
  | cons c rest =>
    have hc : c ≠ '+' := fun hc => hplus (htext ▸ hc ▸ List.mem_cons_self)
    rw [htext] at hdigits
    rw [← hdigits, readWhole]
    all_goals grind

theorem isDigit_of_mem_toString {c : Char} (h : c ∈ (toString n).toList) : c.isDigit := by
  rw [Nat.toString_eq_repr, Nat.toList_repr] at h
  exact Nat.isDigit_of_mem_toDigits (by decide) (by decide) h

theorem readWord_toString (x : UInt64) : readWord (toString x).toList = .ok x := by
  have h : readWhole 0xFFFFFFFFFFFFFFFF (toString x.toNat).toList = .ok x.toNat := by
    rw [Nat.toString_eq_repr, Nat.toList_repr]
    exact readWhole_toDigits (Nat.le_of_lt_succ x.toNat_lt)
  show (·.toUInt64) <$> readWhole 0xFFFFFFFFFFFFFFFF (toString x.toNat).toList = .ok x
  rw [h]
  exact congrArg Except.ok (UInt64.ofNat_toNat)

theorem readHalfWord_toString (x : UInt32) : readHalfWord (toString x).toList = .ok x := by
  have h : readWhole 0xFFFFFFFF (toString x.toNat).toList = .ok x.toNat := by
    rw [Nat.toString_eq_repr, Nat.toList_repr]
    exact readWhole_toDigits (Nat.le_of_lt_succ x.toNat_lt)
  show (·.toUInt32) <$> readWhole 0xFFFFFFFF (toString x.toNat).toList = .ok x
  rw [h]
  exact congrArg Except.ok (UInt32.ofNat_toNat)

end Numeral

end RegionPlanner
