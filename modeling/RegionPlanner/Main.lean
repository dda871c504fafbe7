import RegionPlanner.Command.Run

/-!
# The program

Reads the files that the arguments name, and leaves the rest to `Invocation.outcome`.
-/

namespace RegionPlanner

/-- Why the system did not give the contents of a file. -/
def fileFault : IO.Error → FileFault
  | .noFileOrDirectory .. => .missing
  | .inappropriateType _ 20 _ => .notDirectory
  | .inappropriateType _ 21 _ => .isDirectory
  | .permissionDenied _ code details => .system details code.toNat
  | .resourceExhausted _ code details => .system details code.toNat
  | .inappropriateType _ code details => .system details code.toNat
  | .illegalOperation code details => .system details code.toNat
  | .otherError code details => .system details code.toNat
  | error => .system error.toString 0

def readFile (path : String) : IO (Except FileFault (List UInt8)) := do
  try
    let bytes ← IO.FS.readBinFile path
    return .ok bytes.toList
  catch error => return .error (fileFault error)

def filesOf (contents : List (String × Except FileFault (List UInt8))) : Files := fun path =>
  (contents.lookup path).getD (.error .missing)

end RegionPlanner

open RegionPlanner in
def main (arguments : List String) : IO UInt32 := do
  let invocation := Options.read arguments
  let paths := match invocation with
    | .run options => options.inputPaths
    | _ => []
  let contents ← paths.mapM fun path => do return (path, ← readFile path)
  let outcome := invocation.outcome (filesOf contents)
  IO.print outcome.output
  match outcome.error with
  | some line => IO.eprintln line
  | none => pure ()
  return outcome.exit
