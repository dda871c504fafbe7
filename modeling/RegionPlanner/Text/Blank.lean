/-!
# Blank characters

The characters with the Unicode property `White_Space`, and the two cuts made at them: trimming a text and
taking its words.
-/

namespace RegionPlanner

/-- The ranges of code points with the property `White_Space`, both ends included: 25 characters. -/
def blankRanges : List (Nat × Nat) :=
  [(0x09, 0x0D), (0x20, 0x20), (0x85, 0x85), (0xA0, 0xA0), (0x1680, 0x1680), (0x2000, 0x200A),
    (0x2028, 0x2029), (0x202F, 0x202F), (0x205F, 0x205F), (0x3000, 0x3000)]

def isBlank (c : Char) : Bool := blankRanges.any fun (first, last) => first ≤ c.toNat && c.toNat ≤ last

example : (blankRanges.map fun (first, last) => last + 1 - first).sum = 25 := by decide

def trim (text : List Char) : List Char :=
  ((text.dropWhile isBlank).reverse.dropWhile isBlank).reverse

/-- The runs of characters that are not blank, `current` being the reversed run so far. -/
def wordsFrom (current : List Char) : List Char → List (List Char)
  | [] => if current.isEmpty then [] else [current.reverse]
  | c :: rest =>
    if isBlank c then
      if current.isEmpty then wordsFrom [] rest else current.reverse :: wordsFrom [] rest
    else wordsFrom (c :: current) rest

def words (text : List Char) : List (List Char) := wordsFrom [] text

end RegionPlanner
