import CMinusMinus.Path

/-!
The files and directories that a session works on, and what reading and writing them comes to.
-/
namespace CMinusMinus

/-- Why a file cannot be read or written. -/
inductive FileError where
  | notFound
  | notDirectory
  | isDirectory
  | other (reason : String)
deriving DecidableEq, Repr

def FileError.reason : FileError → String
  | notFound => "No such file or directory"
  | notDirectory => "Not a directory"
  | isDirectory => "Is a directory"
  | other reason => reason

/-- Where something lies on a disk: the names from the thing itself up to the root. -/
abbrev Location := List String

/-- A disk: its directories besides the root, and its files with their contents. -/
structure Disk where
  directories : List Location := []
  files : List (Location × ByteArray) := []

namespace Disk

def isDirectory (d : Disk) (place : Location) : Bool := place.isEmpty || d.directories.contains place

/-- The contents of the file at a location. -/
def contents? (d : Disk) (place : Location) : Option ByteArray := d.files.lookup place

/-- Goes down a path part by part. Each part but the last must be a directory. -/
def walk (d : Disk) (place : Location) : List String → Except FileError Location
  | [] => .ok place
  | part :: rest =>
    if d.isDirectory place then
      d.walk (if part = "." then place else if part = ".." then place.tail else part :: place) rest
    else if (d.contents? place).isSome then .error .notDirectory
    else .error .notFound

/-- The location that a path leads to from a working directory. -/
def locate (d : Disk) (here : Location) (p : Path) : Except FileError Location :=
  d.walk (if p.slashes = 0 then here else []) p.parts

def isFile (d : Disk) (here : Location) (p : Path) : Bool :=
  match d.locate here p with
  | .ok place => (d.contents? place).isSome
  | .error _ => false

def read (d : Disk) (here : Location) (p : Path) : Except FileError ByteArray := do
  let place ← d.locate here p
  match d.contents? place with
  | some bytes => .ok bytes
  | none => .error (if d.isDirectory place then .isDirectory else .notFound)

def put (d : Disk) (place : Location) (bytes : ByteArray) : Disk :=
  if (d.contents? place).isSome then
    { d with files := d.files.map fun (l, old) => if l = place then (l, bytes) else (l, old) }
  else { d with files := d.files ++ [(place, bytes)] }

/-- Writes the file that a path leads to, which need not exist before; its directory must. -/
def write (d : Disk) (here : Location) (p : Path) (bytes : ByteArray) : Except FileError Disk := do
  let place ← d.locate here p
  if d.isDirectory place then .error .isDirectory else .ok (d.put place bytes)

/-- The disk with a directory at a location, and with all directories above it. -/
def addDirectory (d : Disk) : Location → Disk
  | [] => d
  | name :: above =>
    let d := d.addDirectory above
    if d.isDirectory (name :: above) then d
    else { d with directories := d.directories ++ [name :: above] }

/-- The disk with a file at a location, and with all directories above it. -/
def addFile (d : Disk) (place : Location) (bytes : ByteArray) : Disk :=
  (d.addDirectory place.tail).put place bytes

end Disk

end CMinusMinus
