/-!
# What a double stands for

A double is not a number, infinite, or plus or minus `mantissa * 2 ^ exponent`. Conversions to whole
numbers and to exact fractions go through this reading.
-/

namespace RegionPlanner

inductive Reading where
  | notANumber
  | infinite (negative : Bool)
  | finite (negative : Bool) (mantissa : Nat) (exponent : Int)
deriving DecidableEq, Repr

namespace Reading

/-- Takes the 64 bits apart: a sign bit, eleven exponent bits, 52 bits of the fraction. -/
def ofBits (bits : UInt64) : Reading :=
  let negative := bits >>> 63 == 1
  let power := ((bits >>> 52) &&& 0x7FF).toNat
  let fraction := (bits &&& 0xFFFFFFFFFFFFF).toNat
  if power = 0x7FF then
    if fraction = 0 then .infinite negative else .notANumber
  else if power = 0 then .finite negative fraction (-1074)
  else .finite negative (0x10000000000000 + fraction) ((power : Int) - 1075)

def ofFloat (x : Float) : Reading := ofBits x.toBits

end Reading

/-- `mantissa * 2 ^ exponent` as a quotient of two naturals. -/
def binaryQuotient (mantissa : Nat) (exponent : Int) : Nat × Nat :=
  (mantissa <<< exponent.toNat, 1 <<< (-exponent).toNat)

theorem binaryQuotient_den_pos (mantissa : Nat) (exponent : Int) :
    0 < (binaryQuotient mantissa exponent).2 := by
  simp only [binaryQuotient, Nat.shiftLeft_eq, Nat.one_mul]
  exact Nat.pow_pos (by decide)

/-- The exact fraction; a double that is no finite number reads as zero. -/
def Reading.toRat : Reading → Rat
  | .finite negative mantissa exponent =>
    let (num, den) := binaryQuotient mantissa exponent
    mkRat (if negative then -(num : Int) else num) den
  | _ => 0

/-- The least whole number that is not below plus or minus `mantissa * 2 ^ exponent`. -/
def ceiling (negative : Bool) (mantissa : Nat) (exponent : Int) : Int :=
  let (num, den) := binaryQuotient mantissa exponent
  if negative then -((num / den : Nat) : Int) else (((num + den - 1) / den : Nat) : Int)

inductive Tie where
  | toEven
  | up
deriving DecidableEq

/-- The whole number nearest to `num / den`; `tie` decides between two that are equally near. -/
def roundDiv (num den : Nat) (tie : Tie) : Nat :=
  let low := num / den
  match compare (2 * (num % den)) den with
  | .lt => low
  | .gt => low + 1
  | .eq => if tie = .toEven ∧ low % 2 = 0 then low else low + 1

/-- The nearest 64-bit count, halves going up; values past either end of the range go to that end, and what
is not a number to zero. -/
def nearestCount (x : Float) : UInt64 :=
  match Reading.ofFloat x with
  | .notANumber => 0
  | .infinite negative => if negative then 0 else 0xFFFFFFFFFFFFFFFF
  | .finite negative mantissa exponent =>
    let (num, den) := binaryQuotient mantissa exponent
    if negative then 0 else (min (roundDiv num den .up) 0xFFFFFFFFFFFFFFFF).toUInt64

end RegionPlanner
