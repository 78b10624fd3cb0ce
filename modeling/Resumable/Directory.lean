import Resumable.CommandLine

/-!
# Commands in a directory

A `Directory` is a directory that holds files and no further directories.  `Plan.runIn` carries out
the plan of a command there and returns what the command reports and the directory afterwards.

Paths lead through the directory component by component (`Place.step`).  Of the directories above it
nothing is known: nothing is found in them, and what is written to them is accepted.
-/

namespace Resumable

/-- Why a file was not read or written. -/
inductive FileError where
  | notFound
  | denied
  | notDirectory
  | isDirectory
  | nameTooLong
  deriving DecidableEq, Repr

/-- The wording of a failure with a file. -/
def FileError.message : FileError → String
  | notFound => "No such file or directory (os error 2)"
  | denied => "Permission denied (os error 13)"
  | notDirectory => "Not a directory (os error 20)"
  | isDirectory => "Is a directory (os error 21)"
  | nameTooLong => "File name too long (os error 36)"

/-- The names of files with their contents. -/
abbrev Directory := List (String × List UInt8)

/-- Where a path leads. -/
inductive Place where
  | here
  /-- A directory above. -/
  | above
  /-- A file of the directory, which need not be there. -/
  | file (name : String)
  /-- A file in a directory above. -/
  | elsewhere
  /-- The file that is always empty, whatever is written to it. -/
  | sink
  deriving DecidableEq, Repr

namespace Directory

variable (d : Directory)

/-- Goes from a place to what a component of a path names there. -/
def step (place : Place) (component : String) : Except FileError Place :=
  match place with
  | .file name => .error (if (d.lookup name).isSome then .notDirectory else .notFound)
  | .elsewhere => .error .notFound
  | .sink => .error .notDirectory
  | place =>
    if component = "." then .ok place
    else if component = ".." then .ok .above
    else if 255 < component.utf8ByteSize then .error .nameTooLong
    else .ok (if place = .here then .file component else .elsewhere)

/-- The place from which a path starts, and its components. -/
def parts (path : String) : Except FileError (Place × List String) :=
  if path.isEmpty then .error .notFound
  else if 4096 ≤ path.utf8ByteSize then .error .nameTooLong
  else .ok (if path.startsWith "/" then .above else .here,
    (path.splitOn "/").filter (! ·.isEmpty))

/-- Where a path leads.  A path that ends in a slash leads to a directory only. -/
def locate (path : String) : Except FileError Place := do
  if path = "/dev/null" then return .sink
  let (start, components) ← parts path
  (if path.endsWith "/" then components ++ ["."] else components).foldlM d.step start

/-- The contents of the file to which a path leads. -/
def read (path : String) : Except FileError (List UInt8) := do
  match ← d.locate path with
  | .here | .above => throw .isDirectory
  | .file name =>
    match d.lookup name with
    | some bytes => pure bytes
    | none => throw .notFound
  | .elsewhere => throw .notFound
  | .sink => pure []

/-- Where a file with a given path can be put. -/
def target (path : String) : Except FileError Place := do
  if path = "/dev/null" then return .sink
  let (start, components) ← parts path
  let folder ← components.dropLast.foldlM d.step start
  let folder ← d.step folder "."
  match components.getLast? with
  | none => throw .isDirectory
  | some name =>
    if path.endsWith "/" || name == "." || name == ".." then throw .isDirectory
    else d.step folder name

/-- Puts a file where a path leads, in place of one that is there. -/
def write (path : String) (bytes : List UInt8) : Except FileError Directory := do
  match ← d.target path with
  | .file name => pure ((name, bytes) :: d.filter fun (n, _) => n ≠ name)
  | _ => pure d

end Directory

/-- Carries out a plan in a directory. -/
def Plan.runIn (d : Directory) : Plan → Report × Directory
  | .print r => (r, d)
  | .read path next => (next ((d.read path).mapError FileError.message), d)
  | .write path bytes next =>
    match d.write path bytes with
    | .ok d => (next (.ok ()), d)
    | .error e => (next (.error e.message), d)

end Resumable
