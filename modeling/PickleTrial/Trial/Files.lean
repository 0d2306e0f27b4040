import PickleTrial.Bytes

/-! A tree of files and directories. Paths are texts with strokes between the names; one that does
not begin with a stroke starts at the current directory. -/

namespace PickleTrial

/-- What stands at a path. -/
inductive FileEntry
  | file (contents : Bytes)
  | directory
deriving DecidableEq

inductive FileError
  | missing
  | notDirectory
  | isDirectory
deriving DecidableEq

def FileError.message : FileError → String
  | missing => "No such file or directory (os error 2)"
  | notDirectory => "Not a directory (os error 20)"
  | isDirectory => "Is a directory (os error 21)"

/-- The names from the root to a file or directory. -/
abbrev Location := List String

namespace Location

/-- The names between the strokes of a path, empty ones left out. -/
def names : List Char → (name : List Char) → List String
  | [], name => if name = [] then [] else [String.ofList name.reverse]
  | '/' :: rest, name =>
      if name = [] then names rest [] else String.ofList name.reverse :: names rest []
  | head :: rest, name => names rest (head :: name)

/-- The location a name further. One dot stays, two dots go back. -/
def step (location : Location) (name : String) : Location :=
  if name = "." then location
  else if name = ".." then location.dropLast
  else location ++ [name]

end Location

/-- A path that continues another by one name. -/
def joinPath (base name : String) : String :=
  if base = "" then name
  else if base.toList.getLast? = some '/' then base ++ name
  else base ++ "/" ++ name

structure Files where
  /-- The directory where relative paths start. -/
  current : Location := []
  /-- What there is beside the root, each location once. -/
  entries : List (Location × FileEntry) := []

namespace Files

def entry? (files : Files) (location : Location) : Option FileEntry :=
  if location = [] then some .directory else files.entries.lookup location

/-- The location a path of names leads to. Every name but the last must lead to a directory, one
that leads back included. -/
def walk (files : Files) : Location → List String → Except FileError Location
  | here, [] => .ok here
  | here, name :: rest =>
      match files.entry? here with
      | some .directory => files.walk (here.step name) rest
      | some (.file _) => .error .notDirectory
      | none => .error .missing

def locate (files : Files) (path : String) : Except FileError Location :=
  let start := if path.toList.head? = some '/' then [] else files.current
  files.walk start (Location.names path.toList [])

def find (files : Files) (path : String) : Except FileError (Option FileEntry) := do
  return files.entry? (← files.locate path)

def put (files : Files) (location : Location) (entry : FileEntry) : Files :=
  { files with
    entries := (location, entry) :: files.entries.filter fun other => other.1 ≠ location }

def read (files : Files) (path : String) : Except FileError Bytes := do
  match ← files.find path with
  | some (.file contents) => return contents
  | some .directory => throw .isDirectory
  | none => throw .missing

def write (files : Files) (path : String) (contents : Bytes) : Except FileError Files := do
  let location ← files.locate path
  match files.entry? location with
  | some .directory => throw .isDirectory
  | _ => return files.put location (.file contents)

def remove (files : Files) (path : String) : Except FileError Files := do
  let location ← files.locate path
  match files.entry? location with
  | some (.file _) =>
      return { files with entries := files.entries.filter fun other => other.1 ≠ location }
  | some .directory => throw .isDirectory
  | none => throw .missing

def contains (files : Files) (path : String) : Bool :=
  match files.find path with
  | .ok (some _) => true
  | _ => false

end Files

end PickleTrial
