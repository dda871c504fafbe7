import RegionPlanner.Cost.Model
import RegionPlanner.Text.Row

/-!
# Command-line options

Options are written `--name value` or `--name=value`, each at most once, and there are no positional
arguments. A separate value must not look like an option; a lone dash may be a value. Two dashes end the
options. Arguments are read from left to right, and the first one that is wrong, or the request for help,
decides what happens.
-/

namespace RegionPlanner

inductive ModelChoice where
  | plain
  | bandwidth (bound : BandwidthBound)
  | cache
deriving DecidableEq, Repr

inductive ExclusionChoice where
  | nothing
  | nonLoops
  | nonIndependentLoops
deriving DecidableEq, Repr

structure Options where
  directory : String := "."
  cores : UInt32 := 4
  overhead : UInt32 := 0
  model : ModelChoice := .plain
  clockMHz : Option UInt32 := none
  bandwidthMB : Option UInt32 := none
  cacheMB : Option UInt32 := none
  cacheFile : Option String := none
  memoryFile : Option String := none
  exclude : ExclusionChoice := .nonIndependentLoops
  minSelfParallelism : Option Float := none
  minTimeReduction : Float := Quantity.count 0
  separation : Separation := .auto
deriving Repr

inductive Invocation where
  | run (options : Options)
  | help
  | refused
deriving Repr

namespace Options

/-! ### Values -/

/-- A path must not be empty. -/
def readPath (value : String) : Option String := if value.isEmpty then none else some value

/-- A 32-bit count. It may carry either sign, so that zero can be written with a minus. -/
def readCount (value : String) : Option UInt32 :=
  match value.toList with
  | '-' :: digits =>
    match Numeral.readHalfWord digits with
    | .ok count => if count = 0 ∧ digits.head? ≠ some '+' then some 0 else none
    | .error _ => none
  | digits => (Numeral.readHalfWord digits).toOption

def readDouble (value : String) : Option Float := (Numeral.readDouble value.toList).toOption

def readModel (value : String) : Option ModelChoice :=
  [("plain", .plain), ("bw-best", .bandwidth .best), ("bw-worst", .bandwidth .worst),
    ("cache", .cache)].lookup value

def readExclusion (value : String) : Option ExclusionChoice :=
  [("none", .nothing), ("non-loop", .nonLoops), ("non-doall", .nonIndependentLoops)].lookup value

def readSeparation (value : String) : Option Separation :=
  [("auto", .auto), ("tab", .tabs), ("whitespace", .blanks)].lookup value

/-! ### Settings -/

/-- An option with a value changes the options, unless the value is refused. -/
abbrev Setting := String → Options → Option Options

def settings : List (String × Setting) :=
  [("dir", fun value options => (fun path => { options with directory := path }) <$> readPath value),
    ("cores", fun value options => (fun count => { options with cores := count }) <$> readCount value),
    ("overhead", fun value options => (fun count => { options with overhead := count }) <$> readCount value),
    ("model", fun value options => (fun model => { options with model }) <$> readModel value),
    ("clock-mhz", fun value options => (fun count => { options with clockMHz := some count }) <$> readCount value),
    ("bandwidth-mb",
      fun value options => (fun count => { options with bandwidthMB := some count }) <$> readCount value),
    ("cache-mb", fun value options => (fun count => { options with cacheMB := some count }) <$> readCount value),
    ("cache-file", fun value options => (fun path => { options with cacheFile := some path }) <$> readPath value),
    ("memory-file",
      fun value options => (fun path => { options with memoryFile := some path }) <$> readPath value),
    ("exclude", fun value options => (fun exclude => { options with exclude }) <$> readExclusion value),
    ("min-self-parallelism",
      fun value options => (fun least => { options with minSelfParallelism := some least }) <$> readDouble value),
    ("min-time-reduction",
      fun value options => (fun least => { options with minTimeReduction := least }) <$> readDouble value),
    ("region-format",
      fun value options => (fun separation => { options with separation }) <$> readSeparation value)]

/-! ### Arguments -/

inductive Argument where
  | long (name : String) (value : Option String)
  | short (letters : List Char)
  | escape
  | plain
deriving DecidableEq, Repr

/-- The name and the attached value of a long option. -/
def splitValue (text : List Char) : String × Option String :=
  match text.span (· ≠ '=') with
  | (name, '=' :: value) => (String.ofList name, some (String.ofList value))
  | (name, _) => (String.ofList name, none)

def Argument.ofText (text : String) : Argument :=
  match text.toList with
  | ['-', '-'] => .escape
  | '-' :: '-' :: rest => let (name, value) := splitValue rest; .long name value
  | ['-'] => .plain
  | '-' :: letters => .short letters
  | _ => .plain

/-- Options so far and the names of those that were given. -/
structure Progress where
  options : Options := {}
  given : List String := []

/-- Sets an option that was not given yet. -/
def Progress.set (progress : Progress) (name value : String) : Option Progress :=
  match settings.lookup name with
  | none => none
  | some setting =>
    if progress.given.contains name then none
    else (fun options => ⟨options, name :: progress.given⟩) <$> setting value progress.options

/-- Sets the one flag, which asks for more messages. -/
def Progress.setVerbose (progress : Progress) : Option Progress :=
  if progress.given.contains "verbose" then none
  else some { progress with given := "verbose" :: progress.given }

/-- Reads the letters of a short option. -/
def readLetters (progress : Progress) : List Char → Invocation ⊕ Progress
  | [] => .inr progress
  | 'h' :: _ => .inl .help
  | 'v' :: rest =>
    match progress.setVerbose with
    | some progress => readLetters progress rest
    | none => .inl .refused
  | _ => .inl .refused

def readFrom (progress : Progress) : List String → Invocation
  | [] => .run progress.options
  | text :: rest =>
    match Argument.ofText text with
    | .escape => if rest.isEmpty then .run progress.options else .refused
    | .plain => .refused
    | .short letters =>
      match readLetters progress letters with
      | .inl invocation => invocation
      | .inr progress => readFrom progress rest
    | .long "help" none => .help
    | .long "verbose" none =>
      match progress.setVerbose with
      | some progress => readFrom progress rest
      | none => .refused
    | .long name (some value) =>
      match progress.set name value with
      | some progress => readFrom progress rest
      | none => .refused
    | .long name none =>
      match rest with
      | [] => .refused
      | value :: rest =>
        if Argument.ofText value = .plain then
          match progress.set name value with
          | some progress => readFrom progress rest
          | none => .refused
        else .refused

def read (arguments : List String) : Invocation := readFrom {} arguments

/-! ### What the options say -/

def target (options : Options) : Target where
  cores := options.cores
  overhead := options.overhead
  clockMHz := options.clockMHz
  bandwidthMB := options.bandwidthMB
  cacheMB := options.cacheMB

def inside (directory name : String) : String :=
  if directory.toList.getLast? = some '/' then directory ++ name else directory ++ "/" ++ name

def regionPath (options : Options) : String := inside options.directory "sregions.txt"

def tracePath (options : Options) : String := inside options.directory "kremlin.bin"

def cachePath (options : Options) : String := options.cacheFile.getD (inside options.directory "cache.txt")

def inputPaths (options : Options) : List String :=
  [options.regionPath, options.tracePath] ++ options.memoryFile.toList ++
    if options.model = .cache then [options.cachePath] else []

end Options

end RegionPlanner
