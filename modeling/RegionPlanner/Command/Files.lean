import RegionPlanner.Fault

/-!
# Files

A run sees its files as a function from paths to contents. `Directory` is such a view: named files and
directories, with paths resolved the way a file system does it.
-/

namespace RegionPlanner

/-- The bytes behind a path, or why there are none. -/
abbrev Files := String → Except FileFault (List UInt8)

inductive DirectoryEntry where
  | file (bytes : List UInt8)
  | directory
deriving DecidableEq, Repr

/-- Named entries; a name may hold slashes, and then the directories before them exist too. -/
abbrev Directory := List (String × DirectoryEntry)

namespace Directory

def parts : List Char → List (List Char)
  | [] => [[]]
  | c :: rest =>
    if c = '/' then [] :: parts rest
    else match parts rest with
      | [] => [[c]]
      | part :: others => (c :: part) :: others

/-- The entry with a name given in parts. The directory itself has no parts. -/
def entry? (directory : Directory) (name : List (List Char)) : Option DirectoryEntry :=
  if name.isEmpty then some .directory
  else
    match directory.find? fun (listed, _) => parts listed.toList = name with
    | some (_, found) => some found
    | none =>
      if directory.any fun (listed, _) => name.isPrefixOf (parts listed.toList) then some .directory else none

/-- Follows the parts of a path from the entry that was reached, whose name stands in reverse. A file has
nothing inside. What lies outside the directory is not there. -/
def follow (directory : Directory) (above : List (List Char)) (reached : DirectoryEntry) :
    List (List Char) → Except FileFault DirectoryEntry
  | [] => .ok reached
  | part :: rest =>
    match reached with
    | .file _ => .error .notDirectory
    | .directory =>
      if part.isEmpty ∨ part = ['.'] then follow directory above .directory rest
      else if part = ['.', '.'] then
        match above with
        | [] => .error .missing
        | _ :: above => follow directory above .directory rest
      else
        match directory.entry? (part :: above).reverse with
        | some found => follow directory (part :: above) found rest
        | none => .error .missing

/-- The contents of a file. A path from the root of the file system leads outside. -/
def read (directory : Directory) : Files := fun path =>
  match path.toList with
  | [] => .error .missing
  | '/' :: _ => .error .missing
  | text =>
    match directory.follow [] .directory (parts text) with
    | .ok (.file bytes) => .ok bytes
    | .ok .directory => .error .isDirectory
    | .error reason => .error reason

end Directory

end RegionPlanner
