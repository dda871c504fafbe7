import Mathlib
import RegionPlanner.Forest.SelfParallelism
import RegionPlanner.Number.Exact

/-!
# The recurrence over the depths, in exact numbers

Where the critical path of every depth is not longer than its work, and no depth passes on more than its work, the
recurrence is well-behaved: at every depth something is left to do, less is saved than there is work, and nothing is divided
by zero. The savings of deeper levels only add to the self-parallelism of the outermost one, the more so the greater the
weights and the shorter the critical paths are.
-/

namespace RegionPlanner

namespace Depth

/-- Work, critical path and weight of a depth, each within its bounds. -/
structure Regular (depth : Depth Rat) : Prop where
  path_pos : 0 < depth.selfParallelWork
  path_le : depth.selfParallelWork ≤ depth.work
  weight_nonneg : 0 ≤ depth.weight
  weight_le_one : depth.weight ≤ 1

/-- Depths from the outermost inward. Of the work of the next depth, the share by its weight lies within a depth. -/
structure Nested (depths : List (Depth Rat)) : Prop where
  regular : ∀ depth ∈ depths, depth.Regular
  within : depths.IsChain fun depth next => depth.weight * next.total ≤ depth.total

/-- The work of a depth without what was saved deeper. -/
def adjusted (depth : Depth Rat) (deeper : List (Depth Rat)) : Rat := depth.total - savings deeper * depth.weight

/-- Critical path of a depth. -/
def path (depth : Depth Rat) : Rat := depth.selfParallelWork.toNat

/-- Self-parallelism of a depth by itself. -/
def ratio (depth : Depth Rat) : Rat := workRatio depth.work depth.selfParallelWork

/-- The same work on a critical path that is not longer, with a weight that is not less. -/
structure Improves (better depth : Depth Rat) : Prop where
  work : better.work = depth.work
  path : better.selfParallelWork ≤ depth.selfParallelWork
  weight : depth.weight ≤ better.weight

variable {depth better next outermost : Depth Rat} {deeper depths depths' : List (Depth Rat)}

/-! ### One depth -/

@[simp] theorem savings_nil : savings ([] : List (Depth Rat)) = 0 := rfl

theorem savings_cons (depth : Depth Rat) (deeper : List (Depth Rat)) :
    savings (depth :: deeper) = depth.total - depth.adjusted deeper / depth.ratio := rfl

theorem Regular.zero_lt_path (h : depth.Regular) : 0 < depth.path := by
  have hpos : 0 < depth.selfParallelWork.toNat := UInt64.lt_iff_toNat_lt.mp h.path_pos
  unfold path
  exact_mod_cast hpos

theorem Regular.path_le_total (h : depth.Regular) : depth.path ≤ depth.total := by
  have hle : depth.selfParallelWork.toNat ≤ depth.work.toNat := UInt64.le_iff_toNat_le.mp h.path_le
  change (depth.selfParallelWork.toNat : Rat) ≤ (depth.work.toNat : Rat)
  exact_mod_cast hle

theorem Regular.total_pos (h : depth.Regular) : 0 < depth.total := h.zero_lt_path.trans_le h.path_le_total

theorem Regular.work_ne_zero (h : depth.Regular) : depth.work ≠ 0 := by
  intro hzero
  have hpos := h.total_pos
  unfold total at hpos
  rw [hzero] at hpos
  exact lt_irrefl _ hpos

theorem Regular.ratio_eq (h : depth.Regular) : depth.ratio = depth.total / depth.path := if_neg h.work_ne_zero

theorem Regular.one_le_ratio (h : depth.Regular) : 1 ≤ depth.ratio := by
  rw [h.ratio_eq, one_le_div h.zero_lt_path]
  exact h.path_le_total

theorem Improves.total_eq (h : better.Improves depth) : better.total = depth.total := by
  unfold total
  rw [h.work]

theorem Improves.ratio_le (h : better.Improves depth) (hbetter : better.Regular) (hdepth : depth.Regular) :
    depth.ratio ≤ better.ratio := by
  have hshorter : better.path ≤ depth.path := by
    have hle : better.selfParallelWork.toNat ≤ depth.selfParallelWork.toNat := UInt64.le_iff_toNat_le.mp h.path
    unfold Depth.path
    exact_mod_cast hle
  rw [hdepth.ratio_eq, hbetter.ratio_eq, h.total_eq]
  exact div_le_div_of_nonneg_left hdepth.total_pos.le hbetter.zero_lt_path hshorter

/-- What is left of the adjusted work when it runs in parallel. -/
theorem Regular.saved_bounds (h : depth.Regular) (hpos : 0 < depth.adjusted deeper)
    (hle : depth.adjusted deeper ≤ depth.total) :
    0 ≤ savings (depth :: deeper) ∧ savings (depth :: deeper) < depth.total := by
  have hone := h.one_le_ratio
  have hleft : 0 < depth.adjusted deeper / depth.ratio := div_pos hpos (by linarith)
  have hmost : depth.adjusted deeper / depth.ratio ≤ depth.adjusted deeper := div_le_self hpos.le hone
  rw [savings_cons]
  constructor <;> linarith

/-! ### All depths -/

theorem Nested.head (h : Nested (depth :: deeper)) : depth.Regular := h.regular depth List.mem_cons_self

theorem Nested.tail (h : Nested (depth :: deeper)) : Nested deeper :=
  ⟨fun next hm => h.regular next (List.mem_cons_of_mem _ hm), h.within.tail⟩

theorem Nested.suffix (h : Nested depths) (hs : depth :: deeper <:+ depths) : Nested (depth :: deeper) :=
  ⟨fun next hm => h.regular next (hs.subset hm), h.within.suffix hs⟩

/-- Less is taken away from a depth than it has, if less is saved at the next one than that has. -/
theorem Nested.adjusted_bounds (h : Nested (depth :: deeper)) (hnonneg : 0 ≤ savings deeper)
    (hless : ∀ next ∈ deeper.head?, savings deeper < next.total) :
    0 < depth.adjusted deeper ∧ depth.adjusted deeper ≤ depth.total := by
  have hweight := h.head.weight_nonneg
  have htaken : 0 ≤ savings deeper * depth.weight := mul_nonneg hnonneg hweight
  have hrest : savings deeper * depth.weight < depth.total := by
    cases deeper with
    | nil =>
      rw [savings_nil, zero_mul]
      exact h.head.total_pos
    | cons next deeper =>
      have hwithin : depth.weight * next.total ≤ depth.total := h.within.rel
      rcases hweight.eq_or_lt with hzero | hpos
      · rw [← hzero, mul_zero]
        exact h.head.total_pos
      · calc savings (next :: deeper) * depth.weight < next.total * depth.weight :=
              mul_lt_mul_of_pos_right (hless next rfl) hpos
          _ = depth.weight * next.total := mul_comm ..
          _ ≤ depth.total := hwithin
  unfold adjusted
  constructor <;> linarith

theorem savings_bounds (h : Nested depths) :
    0 ≤ savings depths ∧ ∀ outermost ∈ depths.head?, savings depths < outermost.total := by
  induction depths with
  | nil => exact ⟨le_rfl, by simp⟩
  | cons depth deeper ih =>
    obtain ⟨hnonneg, hless⟩ := ih h.tail
    obtain ⟨hpos, hle⟩ := h.adjusted_bounds hnonneg hless
    obtain ⟨hsaved, hbelow⟩ := h.head.saved_bounds hpos hle
    refine ⟨hsaved, ?_⟩
    intro outermost hm
    rw [List.head?_cons, Option.mem_some_iff] at hm
    exact hm ▸ hbelow

theorem Nested.adjusted_pos (h : Nested (depth :: deeper)) :
    0 < depth.adjusted deeper ∧ depth.adjusted deeper ≤ depth.total :=
  h.adjusted_bounds (savings_bounds h.tail).1 (savings_bounds h.tail).2

theorem Nested.savings_lt (h : Nested (depth :: deeper)) : savings (depth :: deeper) < depth.total :=
  (savings_bounds h).2 depth rfl

/-- Better depths save at least as much. -/
theorem savings_mono (himproves : List.Forall₂ (fun depth better => Improves better depth) depths depths')
    (h : Nested depths) (h' : Nested depths') : savings depths ≤ savings depths' := by
  induction himproves with
  | nil => exact le_rfl
  | @cons depth better deeper deeper' himproves _ ih =>
    have hdeeper : savings deeper ≤ savings deeper' := ih h.tail h'.tail
    have htaken : savings deeper * depth.weight ≤ savings deeper' * better.weight :=
      mul_le_mul hdeeper himproves.weight h.head.weight_nonneg (savings_bounds h'.tail).1
    have hadjusted : better.adjusted deeper' ≤ depth.adjusted deeper := by
      unfold adjusted
      rw [himproves.total_eq]
      linarith
    have hratio := himproves.ratio_le h'.head h.head
    have hleft : better.adjusted deeper' / better.ratio ≤ depth.adjusted deeper / depth.ratio :=
      div_le_div₀ h.adjusted_pos.1.le hadjusted (by linarith [h.head.one_le_ratio]) hratio
    rw [savings_cons, savings_cons, himproves.total_eq]
    linarith

end Depth

/-! ### The self-parallelism -/

open Depth

variable {outermost better : Depth Rat} {deeper depths : List (Depth Rat)}

theorem recursive_of_nested (h : Nested (outermost :: deeper)) :
    recursiveSelfParallelism (outermost :: deeper) =
      outermost.total / (outermost.total - savings (outermost :: deeper)) := if_neg h.head.work_ne_zero

/-- The adjustment of the outermost depth multiplies its own self-parallelism. -/
theorem recursive_eq_ratio (h : Nested (outermost :: deeper)) :
    recursiveSelfParallelism (outermost :: deeper) =
      outermost.total / outermost.path * (outermost.total / outermost.adjusted deeper) := by
  have hpos := h.adjusted_pos.1
  have hpath := h.head.zero_lt_path
  have htotal := h.head.total_pos
  rw [recursive_of_nested h, savings_cons, h.head.ratio_eq]
  field_simp
  ring

/-- Depths within their bounds, in exact numbers: nothing is divided by zero, the deeper levels only add to the
self-parallelism of the outermost one, and better depths do not lessen it. -/
theorem recurrence_sound (h : Nested (outermost :: deeper)) :
    (∀ depth inner, depth :: inner <:+ outermost :: deeper → 0 < depth.adjusted inner ∧ 0 < depth.ratio ∧
      0 ≤ savings (depth :: inner) ∧ savings (depth :: inner) < depth.total) ∧
    1 ≤ outermost.total / outermost.path ∧
    outermost.total / outermost.path ≤ recursiveSelfParallelism (outermost :: deeper) ∧
    (outermost.weight = 0 ∨ deeper = [] →
      recursiveSelfParallelism (outermost :: deeper) = outermost.total / outermost.path) ∧
    ∀ better, Nested better → List.Forall₂ (fun depth better => Improves better depth) (outermost :: deeper) better →
      recursiveSelfParallelism (outermost :: deeper) ≤ recursiveSelfParallelism better := by
  have hone : 1 ≤ outermost.total / outermost.path := h.head.ratio_eq ▸ h.head.one_le_ratio
  obtain ⟨hpos, hle⟩ := h.adjusted_pos
  have hgain := recursive_eq_ratio h
  refine ⟨?_, hone, ?_, ?_, ?_⟩
  · intro depth inner hs
    have hinner := h.suffix hs
    exact ⟨hinner.adjusted_pos.1, by linarith [hinner.head.one_le_ratio], (savings_bounds hinner).1, hinner.savings_lt⟩
  · rw [hgain]
    exact le_mul_of_one_le_right (by linarith) ((one_le_div hpos).mpr hle)
  · intro hnothing
    have hall : outermost.adjusted deeper = outermost.total := by
      unfold adjusted
      rcases hnothing with hzero | rfl
      · rw [hzero, mul_zero, sub_zero]
      · rw [savings_nil, zero_mul, sub_zero]
    rw [hgain, hall, div_self h.head.total_pos.ne', mul_one]
  · intro depths hdepths himproves
    have hsavings := savings_mono himproves h hdepths
    obtain ⟨better, deeper', hbetter, -, rfl⟩ := List.forall₂_cons_left_iff.mp himproves
    have hless := hdepths.savings_lt
    rw [hbetter.total_eq] at hless
    rw [recursive_of_nested h, recursive_of_nested hdepths, hbetter.total_eq]
    exact div_le_div_of_nonneg_left h.head.total_pos.le (by linarith) (by linarith)

/-- Of three depths the outermost passes on half of the next one's work, and then all of it. -/
theorem recurrence_sound_three :
    let depths (weight : Rat) : List (Depth Rat) := [⟨1000, 500, weight⟩, ⟨400, 200, 1⟩, ⟨100, 50, 0⟩]
    Nested (depths (1 / 2)) ∧ Nested (depths 1) ∧ 2 ≤ recursiveSelfParallelism (depths (1 / 2)) ∧
      recursiveSelfParallelism (depths (1 / 2)) ≤ recursiveSelfParallelism (depths 1) := by
  intro depths
  have hregular : ∀ weight : Rat, 0 ≤ weight → weight ≤ 1 → ∀ depth ∈ depths weight, depth.Regular := by
    intro weight hlow hhigh depth hm
    simp only [depths, List.mem_cons, List.not_mem_nil, or_false] at hm
    rcases hm with rfl | rfl | rfl
    · exact ⟨(by decide : (0 : UInt64) < 500), (by decide : (500 : UInt64) ≤ 1000), hlow, hhigh⟩
    · exact ⟨by decide, by decide, by norm_num, by norm_num⟩
    · exact ⟨by decide, by decide, by norm_num, by norm_num⟩
  have hnested : ∀ weight : Rat, 0 ≤ weight → weight ≤ 1 → Nested (depths weight) := by
    intro weight hlow hhigh
    refine ⟨hregular weight hlow hhigh, .cons_cons ?_ (.cons_cons ?_ (.singleton _))⟩
    · change weight * (400 : ℕ) ≤ (1000 : ℕ)
      push_cast
      linarith
    · change (1 : Rat) * (100 : ℕ) ≤ (400 : ℕ)
      norm_num
  have hhalf := hnested (1 / 2) (by norm_num) (by norm_num)
  have hone := hnested 1 (by norm_num) le_rfl
  obtain ⟨-, -, hleast, -, hmono⟩ := recurrence_sound hhalf
  have htwo : total ⟨1000, 500, (1 / 2 : Rat)⟩ / path ⟨1000, 500, 1 / 2⟩ = 2 := by
    change ((1000 : ℕ) : Rat) / (500 : ℕ) = 2
    norm_num
  rw [htwo] at hleast
  refine ⟨hhalf, hone, hleast, hmono (depths 1) hone ?_⟩
  exact .cons ⟨rfl, by decide, by norm_num⟩ (.cons ⟨rfl, by decide, le_rfl⟩ (.cons ⟨rfl, by decide, le_rfl⟩ .nil))

end RegionPlanner
