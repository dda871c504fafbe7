/-!
# Static regions

A static region is a function, a loop or a loop body of the program, or a call site, with the place in the
source text where it stands.
-/

namespace RegionPlanner

inductive RegionKind where
  | function
  | loop
  | body
  | callSite
deriving DecidableEq, Repr, Inhabited

namespace RegionKind

/-- The kind that a table writes. Two spellings of a loop body are read. -/
def ofText? (text : String) : Option RegionKind :=
  if text = "func" then some function
  else if text = "loop" then some loop
  else if text = "loop-body" ∨ text = "loop_body" then some body
  else if text = "callsite" then some callSite
  else none

def text : RegionKind → String
  | function => "func"
  | loop => "loop"
  | body => "loop_body"
  | callSite => "callsite"

theorem ofText?_text (kind : RegionKind) : ofText? kind.text = some kind := by
  cases kind <;> decide

end RegionKind

structure Region where
  id : UInt64
  kind : RegionKind
  file : String
  function : String
  firstLine : UInt32
  lastLine : UInt32
deriving DecidableEq, Repr, Inhabited

namespace Region

/-- The region that encloses the whole program; it is in every table. -/
def root : Region := ⟨0, .loop, "root", "root", 0, 0⟩

def isLoop (region : Region) : Bool := region.kind = .loop

def isFunction (region : Region) : Bool := region.kind = .function

def text (region : Region) : String :=
  s!"{region.file}:{region.function}[{region.firstLine}-{region.lastLine}] ({region.kind.text})"

end Region

end RegionPlanner
