import Ephp.File.Failure
import Ephp.File.Path

/-!
# Disks

A disk has directories and files at locations.  A path is resolved from the root or from the
working directory, name by name, and every name but the last has to lead to a directory that may be
searched.

Every file has one location, and what is written at a location is seen at no other one.  So there
are no links, neither symbolic nor hard ones, by which a file has a second name.  Devices and pipes
are left out as well, and so are disks that run out of space.  All that is said about runs of the
program is said about disks of this kind.
-/

namespace Ephp

/-- The place of a directory or file: the names on the way from the root. -/
abbrev Location := List Text

/-- What is at a location: never a link, which would stand for another location. -/
inductive Entry where
  /-- A directory. -/
  | directory
  /-- A file with its content. -/
  | file (content : ByteArray)

/-- What may be permitted at a location. -/
inductive Access where
  /-- To go on from the directory that is there. -/
  | search
  /-- To read what is there. -/
  | read
  /-- To write the file that is there, or to make one. -/
  | write
deriving DecidableEq

/-- The directories and files, the directory that relative paths start from, and what is
permitted. -/
structure Disk where
  /-- What is where; of several entries for a location the first one counts. -/
  entries : List (Location × Entry)
  /-- Where relative paths start. -/
  working : Location
  /-- What is permitted where. -/
  permits : Location → Access → Bool := fun _ _ => true

namespace Disk

/-- What is at a location. -/
def lookup (disk : Disk) (location : Location) : Option Entry :=
  disk.entries.lookup location

/-- Put an entry at a location, in place of what was there. -/
def put (disk : Disk) (location : Location) (entry : Entry) : Disk :=
  { disk with entries := (location, entry) :: disk.entries.filter (·.1 != location) }

/-- Go from a directory to what has a name in it. -/
def step (location : Location) (name : Text) : Location :=
  if name = [] ∨ name = ['.'] then location
  else if name = ['.', '.'] then location.dropLast
  else location ++ [name]

/-- Follow names from a location; `path` is named in failures.  A name can have 255 bytes. -/
def walk (disk : Disk) (path : Text) : Location → List Text → Except Failure Location
  | location, [] => .ok location
  | location, name :: names =>
    match disk.lookup location with
    | some .directory =>
      if !disk.permits location .search then .error (.denied path)
      else if 255 < name.byteSize then .error (.nameTooLong path)
      else disk.walk path (step location name) names
    | some (.file _) => .error (.notDirectory path)
    | none => .error (.notFound path)

/-- Follow the front of a path, whose failures name the whole path. -/
def follow (disk : Disk) (path front : Text) : Except Failure Location :=
  match Failure.ofPath? path with
  | some failure => .error failure
  | none =>
    disk.walk path (if Path.isAbsolute path then [] else disk.working) (front.splitOn '/')

/-- The location that a path leads to, where nothing needs to be. -/
def resolve (disk : Disk) (path : Text) : Except Failure Location :=
  disk.follow path path

/-- Whether something is at a path. -/
def hasPath (disk : Disk) (path : Text) : Bool :=
  match disk.resolve path with
  | .ok location => (disk.lookup location).isSome
  | .error _ => false

/-- The content of the file at a path. -/
def read (disk : Disk) (path : Text) : Except Failure ByteArray := do
  let location ← disk.resolve path
  match disk.lookup location with
  | none => .error (.notFound path)
  | some entry =>
    if !disk.permits location .read then .error (.denied path)
    else
      match entry with
      | .file content => .ok content
      | .directory => .error (.isDirectory path)

/-- The location that can be written at a path.  A path that ends with a slash names a directory,
whether there is one or not, if what stands before its last name leads to a directory. -/
def target (disk : Disk) (path : Text) : Except Failure Location :=
  if path.getLast? = some '/' then do
    let _ ← disk.follow path ((path.trimEnd (· == '/')).trimEnd (· != '/'))
    .error (.isDirectory path)
  else disk.resolve path

/-- Write a file at a path, in place of the file that is there. -/
def write (disk : Disk) (path : Text) (content : ByteArray) : Except Failure Disk := do
  let location ← disk.target path
  match disk.lookup location with
  | some .directory => .error (.isDirectory path)
  | _ =>
    if disk.permits location .write then .ok (disk.put location (.file content))
    else .error (.denied path)

end Disk
end Ephp
