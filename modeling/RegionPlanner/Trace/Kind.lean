/-!
# Kinds of dynamic regions

An unwound recursion starts at an *init* node and ends in *sinks*, which stand for the calls that lead back
to the init node. Ordinary nodes below an init node belong to the recursion too; a trace writes them as
ordinary, and they get the kind `inner` when the tree is built.
-/

namespace RegionPlanner

inductive NodeKind where
  | normal
  | init
  | sink
  | inner
deriving DecidableEq, Repr, Inhabited

namespace NodeKind

def ofCode? (code : UInt64) : Option NodeKind :=
  if code = 0 then some normal
  else if code = 1 then some init
  else if code = 2 then some sink
  else none

/-- The word written for a kind; inner nodes are written as ordinary ones. -/
def code : NodeKind → UInt64
  | normal => 0
  | init => 1
  | sink => 2
  | inner => 0

def isRecursive (kind : NodeKind) : Bool := kind != normal

def traced : NodeKind → NodeKind
  | inner => normal
  | kind => kind

def text : NodeKind → String
  | normal => "Norm"
  | init => "RInit"
  | sink => "RSink"
  | inner => "RNorm"

theorem ofCode?_code (kind : NodeKind) : ofCode? kind.code = some kind.traced := by
  cases kind <;> rfl

theorem code_of_ofCode? {code : UInt64} {kind : NodeKind} (h : ofCode? code = some kind) :
    kind.code = code ∧ kind ≠ inner := by
  unfold ofCode? at h
  split at h
  · cases h; simp_all [NodeKind.code]
  · split at h
    · cases h; simp_all [NodeKind.code]
    · split at h
      · cases h; simp_all [NodeKind.code]
      · simp at h

end NodeKind

end RegionPlanner
