import RegionPlanner.Fault
import RegionPlanner.Forest.Reach
import RegionPlanner.Trace.Record

/-!
# Inner nodes of recursions

Every ordinary record that can be reached from an init record through child references becomes an inner
one. The records may refer to each other in any way, cycles included.
-/

namespace RegionPlanner

/-- Where the record with a uid stands, if there is one. -/
abbrev UidIndex := UInt64 → Option Nat

/-- The places of the children of a record. The first child without a record is a fault. -/
def Record.childPlaces (index : UidIndex) (record : Record) : Except Fault (List Nat) :=
  record.children.mapM fun child =>
    match index child with
    | some place => .ok place
    | none => .error (.danglingChild record.uid child)

def childPlacesAt (index : UidIndex) (records : Array Record) (place : Nat) : Except Fault (List Nat) :=
  match records[place]? with
  | some record => record.childPlaces index
  | none => .ok []

def Record.toInner (record : Record) : Record :=
  if record.kind = .normal then { record with kind := .inner } else record

/-- What classification has done: the records as they are now, how many have changed, and the fault that
stopped it. -/
structure Classified where
  records : Array Record
  changed : Nat := 0
  fault : Option Fault := none

namespace Classified

/-- Makes the record at a place an inner one if it is ordinary. -/
def mark (state : Classified) (place : Nat) : Classified :=
  match state.records[place]? with
  | some record =>
    if record.kind = .normal then
      { state with records := state.records.setIfInBounds place record.toInner, changed := state.changed + 1 }
    else state
  | none => state

/-- Marks what can be reached from an init record. After a fault nothing more happens. -/
def sweep (index : UidIndex) (state : Classified) (start : Nat) : Classified :=
  if state.fault.isSome then state
  else
    let reach := search (childPlacesAt index state.records) state.records.size start
    { reach.visited.foldl mark state with fault := reach.failure }

end Classified

def initPlaces (records : Array Record) : List Nat :=
  (List.range records.size).filter fun place =>
    match records[place]? with
    | some record => record.kind = .init
    | none => false

/-- Classifies the records, sweeping from one init record after the other. -/
def classify (index : UidIndex) (records : List Record) : Classified :=
  (initPlaces records.toArray).foldl (Classified.sweep index) { records := records.toArray }

end RegionPlanner
