/-!
# Reading numbers

Two grammars over lists of characters. A whole number is an optional `+` and decimal digits, up to a
limit; the first character that is no digit or takes the value past the limit decides the fault. A double
is an optional sign and either digits with an optional point and an optional exponent, or one of the words
`inf`, `infinity` and `nan` in any case; its value is the nearest double.
-/

namespace RegionPlanner

inductive NumeralFault where
  | noDigits
  | notADigit
  | tooLarge
  | emptyDouble
  | malformedDouble
deriving DecidableEq, Repr

def NumeralFault.message : NumeralFault → String
  | .noDigits => "cannot parse integer from empty string"
  | .notADigit => "invalid digit found in string"
  | .tooLarge => "number too large to fit in target type"
  | .emptyDouble => "cannot parse float from empty string"
  | .malformedDouble => "invalid float literal"

namespace Numeral

/-! ### Whole numbers -/

def digitValue? (c : Char) : Option Nat :=
  if '0' ≤ c ∧ c ≤ '9' then some (c.toNat - 48) else none

/-- Digits appended to a value, as long as it stays within the limit. -/
def appendDigits (limit : Nat) : Nat → List Char → Except NumeralFault Nat
  | value, [] => .ok value
  | value, c :: rest =>
    match digitValue? c with
    | none => .error .notADigit
    | some d => if 10 * value + d ≤ limit then appendDigits limit (10 * value + d) rest else .error .tooLarge

def readWhole (limit : Nat) : List Char → Except NumeralFault Nat
  | [] => .error .noDigits
  | ['+'] => .error .notADigit
  | '+' :: rest => appendDigits limit 0 rest
  | text => appendDigits limit 0 text

def readWord (text : List Char) : Except NumeralFault UInt64 :=
  (·.toUInt64) <$> readWhole 0xFFFFFFFFFFFFFFFF text

def readHalfWord (text : List Char) : Except NumeralFault UInt32 :=
  (·.toUInt32) <$> readWhole 0xFFFFFFFF text

/-! ### Doubles -/

/-- The leading digits of a text and what follows them. -/
def spanDigits : List Char → List Nat × List Char
  | [] => ([], [])
  | c :: rest =>
    match digitValue? c with
    | none => ([], c :: rest)
    | some d => let (ds, after) := spanDigits rest; (d :: ds, after)

def valueOf (ds : List Nat) : Nat := ds.foldl (fun value d => 10 * value + d) 0

/-- An exponent: nothing, or `e` with an optional sign and at least one digit. -/
def readExponent : List Char → Option Int
  | [] => some 0
  | c :: rest =>
    if c = 'e' ∨ c = 'E' then
      match rest with
      | '-' :: digits => (fun n => -(n : Int)) <$> unsigned digits
      | '+' :: digits => (fun n => (n : Int)) <$> unsigned digits
      | digits => (fun n => (n : Int)) <$> unsigned digits
    else none
where
  unsigned (text : List Char) : Option Nat :=
    match spanDigits text with
    | ([], _) => none
    | (ds, []) => some (valueOf ds)
    | _ => none

/-- The digits of an unsigned decimal as a whole number, and the power of ten it is to be taken by. -/
def readDecimal (text : List Char) : Option (Nat × Int) :=
  let (whole, rest) := spanDigits text
  let (fraction, rest) := match rest with
    | '.' :: after => spanDigits after
    | after => ([], after)
  if whole.isEmpty && fraction.isEmpty then none
  else (fun e => (valueOf (whole ++ fraction), e - (fraction.length : Int))) <$> readExponent rest

def small (c : Char) : Char := if 'A' ≤ c ∧ c ≤ 'Z' then Char.ofNat (c.toNat + 32) else c

def readSize (text : List Char) : Option Float :=
  match text.map small with
  | ['n', 'a', 'n'] => some (Float.ofBits 0x7FF8000000000000)
  | ['i', 'n', 'f'] => some (Float.ofBits 0x7FF0000000000000)
  | ['i', 'n', 'f', 'i', 'n', 'i', 't', 'y'] => some (Float.ofBits 0x7FF0000000000000)
  | _ => (fun (n, e) => Float.ofScientific n (e < 0) e.natAbs) <$> readDecimal text

def readDouble (text : List Char) : Except NumeralFault Float :=
  match text with
  | [] => .error .emptyDouble
  | '-' :: size => orMalformed ((- ·) <$> readSize size)
  | '+' :: size => orMalformed (readSize size)
  | size => orMalformed (readSize size)
where
  orMalformed : Option Float → Except NumeralFault Float
    | some x => .ok x
    | none => .error .malformedDouble

end Numeral

end RegionPlanner
