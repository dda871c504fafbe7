import RegionPlanner.Number.Decimal
import RegionPlanner.Number.Numeral
import RegionPlanner.Trace.Kind

/-!
# Faults

Everything that can stop a run, as causes. `Fault.message` gives the wording; no other part of the library
writes an error text.
-/

namespace RegionPlanner

inductive RowFault where
  | tooFewFields (expected found : Nat)
  | missingField (name : String)
  | badNumber (name raw : String) (cause : NumeralFault)
  | unknownRegionKind (raw : String)
deriving DecidableEq, Repr

def RowFault.message : RowFault → String
  | tooFewFields expected found => s!"expected {expected} fields but found {found}"
  | missingField name => s!"missing field '{name}'"
  | badNumber name raw cause => s!"invalid {name} '{raw}': {cause.message}"
  | unknownRegionKind raw => s!"unknown region kind '{raw}'"

inductive TraceFault where
  | trailingBytes (count : Nat)
  | truncated (field : String)
  | readFailed (text : String)
  | readFailedAt (field text : String)
  | strayTarget (uid : UInt64) (kind : NodeKind) (target : UInt64)
  | badParallelBit (uid bit : UInt64)
deriving DecidableEq, Repr

def TraceFault.message : TraceFault → String
  | trailingBytes count => s!"truncated record: {count} trailing bytes"
  | truncated field => s!"truncated record while reading {field}"
  | readFailed text => s!"read failed: {text}"
  | readFailedAt field text => s!"read failed at {field}: {text}"
  | strayTarget uid kind target => s!"record {uid} of kind {kind.text} carries recursion target {target}"
  | badParallelBit uid bit => s!"record {uid} has parallel bit {bit}"

inductive CacheFault where
  | emptyTable
  | uncovered (cores : UInt32) (largest : UInt32)
deriving DecidableEq, Repr

def CacheFault.message : CacheFault → String
  | emptyTable => "table is empty"
  | uncovered cores largest => s!"no row covers {cores} cores (largest row is {largest})"

inductive FileFault where
  | missing
  | isDirectory
  | notDirectory
  | notText
  | system (text : String) (code : Nat)
deriving DecidableEq, Repr

def FileFault.message : FileFault → String
  | missing => "No such file or directory (os error 2)"
  | isDirectory => "Is a directory (os error 21)"
  | notDirectory => "Not a directory (os error 20)"
  | notText => "stream did not contain valid UTF-8"
  | system text code => s!"{text} (os error {code})"

inductive Fault where
  | row (line : Nat) (reason : RowFault)
  | trace (offset : Nat) (reason : TraceFault)
  | unknownNodeKind (uid code : UInt64)
  | duplicateUid (uid : UInt64)
  | danglingChild (parent child : UInt64)
  | duplicateParent (child first second : UInt64)
  | noRoot
  | multipleRoots (uids : List UInt64)
  | unreachableNodes (count : Nat)
  | missingStatistics (uid : UInt64)
  | invalidRecursionTarget (sink target : UInt64)
  | sinkOutsideRecursion (sink init : UInt64)
  | unknownRegion (id : UInt64)
  | unknownCallSite (id : UInt64)
  | invalidSelfParallelism (uid : UInt64) (value : Float)
  | zeroSerialTime
  | cacheTable (reason : CacheFault)
  | file (path : String) (reason : FileFault)
deriving Repr

namespace Fault

/-- Numbers in brackets, a comma and a space between two. -/
def listText (xs : List UInt64) : String :=
  "[" ++ String.intercalate ", " (xs.map fun x => toString x) ++ "]"

def message : Fault → String
  | row line reason => s!"line {line}: {reason.message}"
  | trace offset reason => s!"trace decode error at byte {offset}: {reason.message}"
  | unknownNodeKind uid code => s!"record {uid} has unknown node kind {code}"
  | duplicateUid uid => s!"record {uid} appears more than once in the trace"
  | danglingChild parent child => s!"node {parent} lists child {child} which has no record"
  | duplicateParent child first second => s!"node {child} is claimed by both {first} and {second}"
  | noRoot => "region tree has no root"
  | multipleRoots uids => s!"region tree has {uids.length} roots: " ++ listText uids
  | unreachableNodes count => s!"{count} nodes are not reachable from the root (cyclic child references)"
  | missingStatistics uid => s!"node {uid} carries no statistics"
  | invalidRecursionTarget sink target =>
    s!"recursion sink {sink} targets {target}, which is not a recursion init node"
  | sinkOutsideRecursion sink init => s!"recursion sink {sink} is not a descendant of its init node {init}"
  | unknownRegion id => s!"unknown static region id {id}"
  | unknownCallSite id => s!"unknown call site id {id}"
  | invalidSelfParallelism uid value =>
    s!"node {uid} has self-parallelism " ++ Decimal.shortest value ++ ", expected at least 1.0"
  | zeroSerialTime => "root region has zero serial time"
  | cacheTable reason => "cache table: " ++ reason.message
  | file path reason => path ++ ": " ++ reason.message

end Fault

end RegionPlanner
