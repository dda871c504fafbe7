import RegionPlanner.Number.Reading

/-!
# Decimal text of a double

A double is written in one of two ways, both positional and without an exponent.

* `shortest` writes the fewest digits that read back to the same double. Of two candidates with equally
  few digits the nearer is taken, and of two equally near the upper one.
* `withPlaces n` rounds the exact value to `n` places, a half going to the even neighbour, and keeps the
  sign of a value that rounds to zero.
-/

namespace RegionPlanner

namespace Decimal

/-! ### Digits -/

def tenTo (n : Nat) : Nat := Nat.pow 10 n

/-- Digits of a whole number, without leading zeros. -/
def digits (n : Nat) : List Char := Nat.toDigits 10 n

/-- The text of `n / 10 ^ places`, with exactly `places` digits after the point. -/
def positional (n places : Nat) : List Char :=
  let ds := digits n
  let padded := List.replicate (places + 1 - ds.length) '0' ++ ds
  let whole := padded.take (padded.length - places)
  if places = 0 then whole else whole ++ '.' :: padded.drop (padded.length - places)

/-! ### The reals that round to a double -/

/-- Compares `a * 10 ^ i` with `b * 2 ^ j`. -/
def compareScaled (a : Nat) (i : Int) (b : Nat) (j : Int) : Ordering :=
  compare ((a * tenTo i.toNat) <<< (-j).toNat) ((b <<< j.toNat) * tenTo (-i).toNat)

/-- Whether `digits * 10 ^ scale` lies among the reals that round to `mantissa * 2 ^ exponent`: from half
way to the neighbour below to half way to the neighbour above, with the ends when the mantissa is even.
Below a power of two the neighbour is half as far. -/
def readsBack (mantissa : Nat) (exponent : Int) (digits : Nat) (scale : Int) : Bool :=
  let atPower := mantissa == 0x10000000000000 && decide (-1074 < exponent)
  let low := compareScaled digits scale (4 * mantissa - if atPower then 1 else 2) (exponent - 2)
  let high := compareScaled digits scale (4 * mantissa + 2) (exponent - 2)
  let ends := mantissa % 2 == 0
  (low == .gt || (ends && low == .eq)) && (high == .lt || (ends && high == .eq))

/-- The least `k` with `mantissa * 2 ^ exponent < 10 ^ k`, for a mantissa that is not zero: the binary
logarithm gives it up to a step. -/
def magnitude (mantissa : Nat) (exponent : Int) : Int :=
  let guess := ((mantissa.log2 : Int) + exponent) * 30103 / 100000
  let fits (k : Int) : Bool := compareScaled 1 k mantissa exponent == .gt
  (([-1, 0, 1, 2].map (guess + ·)).find? fits).getD (guess + 3)

/-- On the grid of multiples of `10 ^ scale`, the neighbour of the value that reads back and is nearest to
it, the upper one if both are equally near. -/
def onGrid (mantissa : Nat) (exponent : Int) (scale : Int) : Option (Nat × Int) :=
  let (num, den) := binaryQuotient mantissa exponent
  let below := num * tenTo (-scale).toNat / (den * tenTo scale.toNat)
  match readsBack mantissa exponent below scale, readsBack mantissa exponent (below + 1) scale with
  | true, true =>
    if compareScaled (2 * below + 1) scale (2 * mantissa) exponent == .gt then some (below, scale)
    else some (below + 1, scale)
  | true, false => some (below, scale)
  | false, true => some (below + 1, scale)
  | false, false => none

/-- Moves up to `fuel` zeros at the end of the digits into the power of ten. -/
def withoutZeros : Nat → Nat × Int → Nat × Int
  | 0, decimal => decimal
  | fuel + 1, (ds, scale) =>
    if ds ≠ 0 ∧ ds % 10 = 0 then withoutZeros fuel (ds / 10, scale + 1) else (ds, scale)

/-- The digits and the power of ten of the shortest decimal that reads back: the coarsest grid that holds
one. Seventeen digits always suffice; the exact value stands last so that nothing is guessed. The upper
neighbour may be a power of ten, and its zeros are no digits. -/
def shortestDigits (mantissa : Nat) (exponent : Int) : Nat × Int :=
  let top := magnitude mantissa exponent
  let (ds, scale) :=
    match (List.range 17).findSome? fun (n : Nat) => onGrid mantissa exponent (top - (n : Int) - 1) with
    | some found => found
    | none =>
      (mantissa <<< exponent.toNat * Nat.pow 5 (-exponent).toNat, -((-exponent).toNat : Int))
  withoutZeros (ds.log2 + 1) (ds, scale)

/-! ### The two texts -/

def signed (negative : Bool) (size : List Char) : String :=
  String.ofList (if negative then '-' :: size else size)

/-- The shortest text that reads back to the same double. -/
def shortest (x : Float) : String :=
  match Reading.ofFloat x with
  | .notANumber => "NaN"
  | .infinite negative => signed negative ['i', 'n', 'f']
  | .finite negative 0 _ => signed negative ['0']
  | .finite negative mantissa exponent =>
    let (ds, scale) := shortestDigits mantissa exponent
    signed negative (positional (ds * tenTo scale.toNat) (-scale).toNat)

def withPlaces (places : Nat) (x : Float) : String :=
  match Reading.ofFloat x with
  | .notANumber => "NaN"
  | .infinite negative => signed negative ['i', 'n', 'f']
  | .finite negative mantissa exponent =>
    let (num, den) := binaryQuotient mantissa exponent
    signed negative (positional (roundDiv (num * tenTo places) den .toEven) places)

example : shortest 0.1 = "0.1" := by decide +kernel
example : shortest (-1e22) = "-10000000000000000000000" := by decide +kernel
example : shortest 1e-7 = "0.0000001" := by decide +kernel
example : withPlaces 2 0.125 = "0.12" := by decide +kernel
example : withPlaces 0 (-0.5) = "-0" := by decide +kernel

end Decimal

end RegionPlanner
