/-!
# Quantities

Times, shares of a program and numbers of usable cores are computed with doubles, and reasoned about as
exact fractions too. `Quantity α` holds what the formulas of this library use of a number type; a formula
written once over it runs on `Float` and is read exactly on `Rat`.
-/

namespace RegionPlanner

/-- A number type that the cost and plan formulas can be written over. -/
class Quantity (α : Type) extends Add α, Sub α, Mul α, Div α where
  /-- A count below `2 ^ 64`, or the nearest number to it. -/
  count : Nat → α
  /-- The number that a stored double stands for. -/
  stored : Float → α
  emptySum : α
  less : α → α → Bool
  atMost : α → α → Bool

namespace Quantity

/-- A sum of doubles starts from the negative zero, the one double that changes no term. -/
instance : Quantity Float where
  count n := n.toUInt64.toFloat
  stored x := x
  emptySum := Float.ofBits 0x8000000000000000
  less x y := x < y
  atMost x y := x ≤ y

variable {α : Type} [Quantity α]

/-- A value that does not compare with itself is not a number. -/
def isNumber (x : α) : Bool := atMost x x

/-- The larger of two values; if one is not a number, the other. -/
def larger (x y : α) : α := if atMost x y || !isNumber x then y else x

/-- The smaller of two values; if one is not a number, the other. -/
def smaller (x y : α) : α := if atMost y x || !isNumber x then y else x

def total (terms : List α) : α := terms.foldl (· + ·) emptySum

@[simp] theorem total_nil : total ([] : List α) = emptySum := rfl

theorem total_append_singleton (terms : List α) (x : α) : total (terms ++ [x]) = total terms + x := by
  simp [total]

end Quantity

end RegionPlanner
