import RegionPlanner.Fault
import RegionPlanner.Text.Blank

/-!
# Rows of a text table

A text is cut into lines, each line that is not all blank is a row with its line number, and each row is
cut into fields, either at every tab or into words. Lines are numbered from one, blank lines included.
-/

namespace RegionPlanner

/-! ### Lines -/

/-- The lines of a text, `current` being the reversed line so far. A line feed ends a line, and a carriage
return right before it is dropped; what stands after the last line feed is a line if it is not empty. -/
def linesFrom (current : List Char) : List Char → List (List Char)
  | [] => if current.isEmpty then [] else [current.reverse]
  | c :: rest =>
    if c = '\n' then (withoutReturn current).reverse :: linesFrom [] rest
    else linesFrom (c :: current) rest
where
  withoutReturn : List Char → List Char
    | '\r' :: line => line
    | line => line

def lines (text : List Char) : List (List Char) := linesFrom [] text

/-! ### Fields -/

inductive Separation where
  /-- By single tabs; each field is trimmed and may hold blanks. -/
  | tabs
  /-- By runs of blanks. -/
  | blanks
  /-- By tabs if the row holds one, by blanks if not. -/
  | auto
deriving DecidableEq, Repr

def cutAtTabs : List Char → List (List Char)
  | [] => [[]]
  | c :: rest =>
    if c = '\t' then [] :: cutAtTabs rest
    else match cutAtTabs rest with
      | [] => [[c]]
      | field :: fields => (c :: field) :: fields

def fieldsOf (separation : Separation) (line : List Char) : List (List Char) :=
  let tabbed := match separation with
    | .tabs => true
    | .blanks => false
    | .auto => line.contains '\t'
  if tabbed then (cutAtTabs line).map trim else words line

/-- A line that is not blank: its number, from one, and its fields. -/
structure Row where
  number : Nat
  fields : List (List Char)
deriving DecidableEq, Repr

def rowsFrom (separation : Separation) (number : Nat) : List (List Char) → List Row
  | [] => []
  | line :: rest =>
    if (trim line).isEmpty then rowsFrom separation (number + 1) rest
    else ⟨number, fieldsOf separation line⟩ :: rowsFrom separation (number + 1) rest

def rows (separation : Separation) (text : String) : List Row :=
  rowsFrom separation 1 (lines text.toList)

/-! ### Typed fields -/

namespace Row

/-- Refuses a row with fewer than `count` fields. -/
def expect (row : Row) (count : Nat) : Except Fault Unit :=
  if row.fields.length < count then .error (.row row.number (.tooFewFields count row.fields.length))
  else .ok ()

def field (row : Row) (index : Nat) (name : String) : Except Fault (List Char) :=
  match row.fields[index]? with
  | some text => .ok text
  | none => .error (.row row.number (.missingField name))

def number? {α : Type} (read : List Char → Except NumeralFault α) (row : Row) (index : Nat)
    (name : String) : Except Fault α := do
  let text ← row.field index name
  match read text with
  | .ok value => .ok value
  | .error cause => .error (.row row.number (.badNumber name (String.ofList text) cause))

def word (row : Row) (index : Nat) (name : String) : Except Fault UInt64 :=
  number? Numeral.readWord row index name

def halfWord (row : Row) (index : Nat) (name : String) : Except Fault UInt32 :=
  number? Numeral.readHalfWord row index name

def double (row : Row) (index : Nat) (name : String) : Except Fault Float :=
  number? Numeral.readDouble row index name

end Row

end RegionPlanner
