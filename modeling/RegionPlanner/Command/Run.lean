import RegionPlanner.Command.Files
import RegionPlanner.Command.Options
import RegionPlanner.Cost.Cache
import RegionPlanner.Forest.Build
import RegionPlanner.Plan.Choice
import RegionPlanner.Report
import RegionPlanner.Trace.Delivery

/-!
# A run of the program

Everything the program does with its arguments and files, as a function: the region table and the trace are
read, the forest is built, the cost model is set up, and the plan is reported.
-/

namespace RegionPlanner

/-! ### Reading files -/

def readText (files : Files) (path : String) : Except Fault String :=
  match files path with
  | .error reason => .error (.file path reason)
  | .ok bytes =>
    match String.fromUTF8? bytes.toByteArray with
    | some text => .ok text
    | none => .error (.file path .notText)

/-- A file as a trace. A directory can be opened, and reading from it fails. -/
def readTrace (files : Files) (path : String) : Except Fault (List Record) :=
  match files path with
  | .ok bytes => decode bytes
  | .error .isDirectory => decodeSource [Delivery.failure FileFault.isDirectory.message]
  | .error reason => .error (.file path reason)

def readRegions (files : Files) (path : String) (separation : Separation) : Except Fault RegionTable := do
  RegionTable.parse separation (← readText files path)

def readMemory (files : Files) (path : String) : Except Fault MemoryProfile := do
  MemoryProfile.parse (← readText files path)

def readCache (files : Files) (path : String) : Except Fault CacheTable := do
  CacheTable.parse (← readText files path)

/-! ### The run -/

/-- The cost model that the options ask for. The memory counters are read whether it needs them or not. -/
def Options.costModel (options : Options) (files : Files) : Except Fault (CostModel Float) := do
  let memory ← match options.memoryFile with
    | some path => readMemory files path
    | none => pure .empty
  match options.model with
  | .plain => return plainModel options.target
  | .bandwidth bound => return bandwidthModel bound options.target memory
  | .cache =>
    let table ← readCache files options.cachePath
    cacheModel options.target table memory

/-- The nodes that the options keep out of the plan. -/
def Options.exclusion (options : Options) : Exclusion :=
  let named := match options.exclude with
    | .nothing => Exclusion.none
    | .nonLoops => Exclusion.nonLoops
    | .nonIndependentLoops => Exclusion.nonIndependentLoops
  match options.minSelfParallelism with
  | some least => named.union (Exclusion.below least)
  | none => named

def Options.forest (options : Options) (files : Files) : Except Fault Forest := do
  let table ← readRegions files options.regionPath options.separation
  let records ← readTrace files options.tracePath
  Forest.build table records

def Options.report (options : Options) (files : Files) : Except Fault String := do
  let forest ← options.forest files
  let model ← options.costModel files
  let plan ← forest.plan model options.exclusion
  return plan.report forest options.minTimeReduction

/-- How a run ends: the exit status, what it writes, and its error line. -/
structure Outcome where
  exit : UInt32
  output : String := ""
  error : Option String := none
deriving DecidableEq, Repr

def usage : String :=
  "Plan parallelization from a region profile\n\n" ++
  "Options: --dir --cores --overhead --model --clock-mhz --bandwidth-mb --cache-mb --cache-file\n" ++
  "  --memory-file --exclude --min-self-parallelism --min-time-reduction --region-format --verbose\n"

def Options.outcome (options : Options) (files : Files) : Outcome :=
  match options.report files with
  | .ok text => { exit := 0, output := text }
  | .error fault => { exit := 1, error := some ("Error: " ++ fault.message) }

def Invocation.outcome (invocation : Invocation) (files : Files) : Outcome :=
  match invocation with
  | .run options => options.outcome files
  | .help => { exit := 0, output := usage }
  | .refused => { exit := 2, error := some "error: the arguments are not understood" }

end RegionPlanner
