import RegionPlanner.Number.Exact
import RegionPlanner.Proofs.Number.Sum

/-!
# Quantities in order

What plans need of a number type: comparisons order the quantities that are not negative, sums of such are
not negative either, and they grow with their terms. Doubles have all of this, rounding and infinities
included.
-/

namespace RegionPlanner

/-- A quantity that is zero or more, and a number. -/
def Quantity.NonNegative {α : Type} [Quantity α] (x : α) : Prop := Quantity.atMost (Quantity.count 0) x = true

/-- Quantities that are not negative are ordered, and sums of them keep the order. -/
class OrderedQuantity (α : Type) [Quantity α] : Prop where
  emptySum_nonneg : Quantity.NonNegative (Quantity.emptySum : α)
  larger_nonneg : ∀ x : α, Quantity.NonNegative (Quantity.larger x (Quantity.count 0))
  add_nonneg : ∀ {x y : α}, Quantity.NonNegative x → Quantity.NonNegative y → Quantity.NonNegative (x + y)
  atMost_total : ∀ {x y : α}, Quantity.NonNegative x → Quantity.NonNegative y →
    Quantity.atMost x y = true ∨ Quantity.atMost y x = true
  atMost_trans : ∀ {x y z : α}, Quantity.atMost x y = true → Quantity.atMost y z = true → Quantity.atMost x z = true
  less_eq : ∀ {x y : α}, Quantity.NonNegative x → Quantity.NonNegative y → Quantity.less x y = !Quantity.atMost y x
  add_mono : ∀ {x y x' y' : α}, Quantity.NonNegative x → Quantity.NonNegative y → Quantity.atMost x x' = true →
    Quantity.atMost y y' = true → Quantity.atMost (x + y) (x' + y') = true

namespace Quantity

section
variable {α : Type} [Quantity α] [OrderedQuantity α] {x y z : α} {xs ys : List α}

theorem NonNegative.atMost_self (hx : NonNegative x) : atMost x x = true := by
  rcases OrderedQuantity.atMost_total hx hx with h | h <;> exact h

theorem NonNegative.of_atMost (hx : NonNegative x) (h : atMost x y = true) : NonNegative y :=
  OrderedQuantity.atMost_trans hx h

theorem zero_nonneg : NonNegative (count 0 : α) := by
  have hlarger := OrderedQuantity.larger_nonneg (count 0 : α)
  rwa [larger, ite_self] at hlarger

theorem not_atMost_of_less (hx : NonNegative x) (hy : NonNegative y) (h : less x y = true) :
    ¬ atMost y x = true := by
  rw [OrderedQuantity.less_eq hx hy] at h
  simpa using h

theorem less_of_not_atMost (hx : NonNegative x) (hy : NonNegative y) (h : ¬ atMost y x = true) :
    less x y = true := by
  rw [OrderedQuantity.less_eq hx hy]
  simpa using h

theorem atMost_of_less (hx : NonNegative x) (hy : NonNegative y) (h : less x y = true) : atMost x y = true := by
  rcases OrderedQuantity.atMost_total hx hy with hle | hge
  · exact hle
  · exact absurd hge (not_atMost_of_less hx hy h)

theorem atMost_of_not_less (hx : NonNegative x) (hy : NonNegative y) (h : ¬ less x y = true) :
    atMost y x = true := by
  rw [OrderedQuantity.less_eq hx hy] at h
  simpa using h

theorem less_of_atMost_of_less (hx : NonNegative x) (hz : NonNegative z) (h : atMost x y = true)
    (hl : less y z = true) : less x z = true := by
  refine less_of_not_atMost hx hz ?_
  intro hge
  exact not_atMost_of_less (hx.of_atMost h) hz hl (OrderedQuantity.atMost_trans hge h)

/-! ### Sums -/

theorem total_nonneg (hxs : ∀ x ∈ xs, NonNegative x) : NonNegative (total xs) := by
  have from_start : ∀ start : α, NonNegative start → NonNegative (xs.foldl (· + ·) start) := by
    induction xs with
    | nil =>
      intro start hstart
      exact hstart
    | cons x xs ih =>
      intro start hstart
      rw [List.forall_mem_cons] at hxs
      exact ih hxs.2 (start + x) (OrderedQuantity.add_nonneg hstart hxs.1)
  exact from_start emptySum OrderedQuantity.emptySum_nonneg

theorem total_mono (h : List.Forall₂ (fun x y => NonNegative x ∧ atMost x y = true) xs ys) :
    atMost (total xs) (total ys) = true := by
  have from_start : ∀ start start' : α, NonNegative start → atMost start start' = true →
      atMost (xs.foldl (· + ·) start) (ys.foldl (· + ·) start') = true := by
    induction h with
    | nil =>
      intro start start' _ hstart
      exact hstart
    | cons hxy _ ih =>
      intro start start' hnonneg hstart
      exact ih _ _ (OrderedQuantity.add_nonneg hnonneg hxy.1) (OrderedQuantity.add_mono hnonneg hxy.1 hstart hxy.2)
  have hempty : NonNegative (emptySum : α) := OrderedQuantity.emptySum_nonneg
  exact from_start emptySum emptySum hempty hempty.atMost_self

end

end Quantity

/-! ### Doubles -/

namespace Double

variable {x y : Float}

theorem zero_value : IsNumber (Quantity.count 0) ∧ value (Quantity.count 0) = 0 := by
  have hzero : (Quantity.count 0 : Float).toModel.unpack = .zero .positive := rfl
  unfold IsNumber value
  rw [hzero]
  exact ⟨by simp, rfl⟩

theorem emptySum_value : IsNumber Quantity.emptySum ∧ value Quantity.emptySum = 0 := by
  have hzero : (Quantity.emptySum : Float).toModel.unpack = .zero .negative := rfl
  unfold IsNumber value
  rw [hzero]
  exact ⟨by simp, rfl⟩

theorem atMost_eq_true : Quantity.atMost x y = true ↔ x ≤ y := decide_eq_true_iff

theorem less_eq_true : Quantity.less x y = true ↔ x < y := decide_eq_true_iff

theorem not_le_of_lt (h : x < y) : ¬ y ≤ x := by
  intro hle
  obtain ⟨hy, hx⟩ := isNumber_of_le hle
  rw [lt_iff hx hy] at h
  rw [le_iff hy hx] at hle
  exact absurd hle (not_le_of_gt h)

theorem nonNegative_iff : Quantity.NonNegative x ↔ IsNumber x ∧ 0 ≤ value x := by
  obtain ⟨hnumber, hvalue⟩ := zero_value
  unfold Quantity.NonNegative
  rw [atMost_eq_true]
  constructor
  · intro hle
    have hx := (isNumber_of_le hle).2
    rw [le_iff hnumber hx, hvalue] at hle
    exact ⟨hx, hle⟩
  · rintro ⟨hx, hle⟩
    rw [le_iff hnumber hx, hvalue]
    exact hle

theorem larger_nonNegative (x : Float) : Quantity.NonNegative (Quantity.larger x (Quantity.count 0)) := by
  obtain ⟨hnumber, hvalue⟩ := zero_value
  unfold Quantity.larger Quantity.isNumber
  split
  · exact nonNegative_iff.mpr ⟨hnumber, hvalue.ge⟩
  · next hcond =>
    rw [Bool.or_eq_true, not_or, Bool.not_eq_true', Bool.not_eq_false, atMost_eq_true, atMost_eq_true] at hcond
    obtain ⟨hpositive, hself⟩ := hcond
    have hx := (isNumber_of_le hself).1
    rw [le_iff hx hnumber, hvalue, not_le] at hpositive
    exact nonNegative_iff.mpr ⟨hx, hpositive.le⟩

theorem le_trans {x y z : Float} (hxy : x ≤ y) (hyz : y ≤ z) : x ≤ z := by
  obtain ⟨hx, hy⟩ := isNumber_of_le hxy
  obtain ⟨-, hz⟩ := isNumber_of_le hyz
  rw [le_iff hx hy] at hxy
  rw [le_iff hy hz] at hyz
  rw [le_iff hx hz]
  exact hxy.trans hyz

theorem add_nonNegative (hx : Quantity.NonNegative x) (hy : Quantity.NonNegative y) :
    Quantity.NonNegative (x + y) := by
  rw [nonNegative_iff] at hx hy ⊢
  obtain ⟨hnumber, hvalue⟩ := add_value hx.1 hy.1 hx.2 hy.2
  refine ⟨hnumber, ?_⟩
  rw [hvalue]
  exact cutOff_nonneg (rounded_nonneg (add_nonneg hx.2 hy.2))

theorem add_le_add {x' y' : Float} (hx : Quantity.NonNegative x) (hy : Quantity.NonNegative y) (hxx : x ≤ x')
    (hyy : y ≤ y') : x + y ≤ x' + y' := by
  rw [nonNegative_iff] at hx hy
  have hx' := (isNumber_of_le hxx).2
  have hy' := (isNumber_of_le hyy).2
  rw [le_iff hx.1 hx'] at hxx
  rw [le_iff hy.1 hy'] at hyy
  obtain ⟨hsum, hvalue⟩ := add_value hx.1 hy.1 hx.2 hy.2
  obtain ⟨hsum', hvalue'⟩ := add_value hx' hy' (hx.2.trans hxx) (hy.2.trans hyy)
  rw [le_iff hsum hsum', hvalue, hvalue']
  exact cutOff_mono (rounded_mono (by linarith))

instance : OrderedQuantity Float where
  emptySum_nonneg := nonNegative_iff.mpr ⟨emptySum_value.1, emptySum_value.2.ge⟩
  larger_nonneg := larger_nonNegative
  add_nonneg := add_nonNegative
  atMost_total := by
    intro x y hx hy
    rw [nonNegative_iff] at hx hy
    rw [atMost_eq_true, atMost_eq_true, le_iff hx.1 hy.1, le_iff hy.1 hx.1]
    exact le_total _ _
  atMost_trans := by
    intro x y z hxy hyz
    rw [atMost_eq_true] at hxy hyz ⊢
    exact le_trans hxy hyz
  less_eq := by
    intro x y hx hy
    rw [nonNegative_iff] at hx hy
    rw [Bool.eq_iff_iff, Bool.not_eq_true', ← Bool.not_eq_true, less_eq_true, atMost_eq_true, lt_iff hx.1 hy.1,
      le_iff hy.1 hx.1, not_le]
  add_mono := by
    intro x y x' y' hx hy hxx hyy
    rw [atMost_eq_true] at hxx hyy ⊢
    exact add_le_add hx hy hxx hyy

end Double

/-! ### Exact quantities -/

theorem Quantity.nonNegative_rat {x : Rat} : Quantity.NonNegative x ↔ 0 ≤ x := by
  simp [Quantity.NonNegative]

instance : OrderedQuantity Rat where
  emptySum_nonneg := by simp [Quantity.nonNegative_rat]
  larger_nonneg x := by
    rw [Quantity.nonNegative_rat, Quantity.larger_rat]
    split
    · simp
    · next h => exact (not_le.mp h).le
  add_nonneg := by
    intro x y hx hy
    rw [Quantity.nonNegative_rat] at hx hy ⊢
    exact add_nonneg hx hy
  atMost_total := by
    intro x y _ _
    simpa using le_total x y
  atMost_trans := by
    intro x y z hxy hyz
    simp only [Quantity.atMost_rat, decide_eq_true_eq] at hxy hyz ⊢
    exact hxy.trans hyz
  less_eq := by
    intro x y _ _
    rw [Bool.eq_iff_iff]
    simp
  add_mono := by
    intro x y x' y' _ _ hxx hyy
    simp only [Quantity.atMost_rat, decide_eq_true_eq] at hxx hyy ⊢
    exact add_le_add hxx hyy

end RegionPlanner
