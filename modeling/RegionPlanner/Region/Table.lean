import Std.Data.TreeMap
import RegionPlanner.Region.Basic
import RegionPlanner.Text.Row

/-!
# The table of static regions

Regions and call sites are kept apart, each by id. A row has six fields: id, kind, file, function, first
and last line; a later row replaces an earlier one with the same id in its own half of the table.
-/

namespace RegionPlanner

structure RegionTable where
  regions : Std.TreeMap UInt64 Region
  callSites : Std.TreeMap UInt64 Region

namespace RegionTable

def initial : RegionTable where
  regions := Std.TreeMap.empty.insert Region.root.id Region.root
  callSites := Std.TreeMap.empty

/-- Adds a region, or a call site to the call sites. -/
def insert (table : RegionTable) (region : Region) : RegionTable :=
  match region.kind with
  | .callSite => { table with callSites := table.callSites.insert region.id region }
  | _ => { table with regions := table.regions.insert region.id region }

def region (table : RegionTable) (id : UInt64) : Except Fault Region :=
  match table.regions[id]? with
  | some found => .ok found
  | none => .error (.unknownRegion id)

def callSite (table : RegionTable) (id : UInt64) : Except Fault Region :=
  match table.callSites[id]? with
  | some found => .ok found
  | none => .error (.unknownCallSite id)

def ofKind (table : RegionTable) (kind : RegionKind) : List Region :=
  table.regions.values.filter (·.kind = kind)

def readRow (row : Row) : Except Fault Region := do
  row.expect 6
  let kindText ← row.field 1 "kind"
  match RegionKind.ofText? (String.ofList kindText) with
  | none => .error (.row row.number (.unknownRegionKind (String.ofList kindText)))
  | some kind =>
    let id ← row.word 0 "id"
    let file ← row.field 2 "module"
    let function ← row.field 3 "function"
    let firstLine ← row.halfWord 4 "start_line"
    let lastLine ← row.halfWord 5 "end_line"
    return ⟨id, kind, String.ofList file, String.ofList function, firstLine, lastLine⟩

/-- The root and these regions, later ones in place of earlier ones. -/
def ofList (regions : List Region) : RegionTable := regions.foldl insert initial

def parse (separation : Separation) (text : String) : Except Fault RegionTable :=
  ofList <$> (rows separation text).mapM readRow

end RegionTable

end RegionPlanner
