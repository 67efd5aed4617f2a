/-!
Paths to files. A path is kept in a normal form: repeated separators and single dots are gone, the
double dots stay until the path is made absolute.
-/
namespace CMinusMinus

/-- A path: how many separators it starts with, and its parts. -/
structure Path where
  slashes : Nat
  parts : List String
deriving DecidableEq, Repr

namespace Path

/-- How many separators count at the start: two are kept, any other number above zero is one. -/
def leading (n : Nat) : Nat := if n = 2 then 2 else min n 1

def ofString (text : String) : Path :=
  let cs := text.toList
  { slashes := leading (cs.takeWhile (· == '/')).length
    parts := ((cs.splitOn '/').map String.ofList).filter fun part => part ≠ "" && part ≠ "." }

/-- The text of a path; the empty path is a dot. -/
def text (p : Path) : String :=
  if p.slashes = 0 && p.parts.isEmpty then "."
  else "".pushn '/' p.slashes ++ "/".intercalate p.parts

/-- A file name without its suffix: what stands before the last dot, unless the dot is the first
or the last character. -/
def stem (name : List Char) : List Char :=
  let backwards := name.reverse
  let suffix := backwards.takeWhile (· ≠ '.')
  let before := backwards.drop (suffix.length + 1)
  if suffix.isEmpty || before.isEmpty then name else before.reverse

/-- Whether a text can be the suffix of a file name: nothing, or a dot with something after it. -/
def isSuffix (suffix : String) : Bool :=
  match suffix.toList with
  | [] => true
  | ['.'] => false
  | '.' :: rest => !rest.contains '/'
  | _ => false

/-- The path with another suffix, if the path ends in a name and the suffix can be one. -/
def withSuffix? (p : Path) (suffix : String) : Option Path :=
  match p.parts.getLast? with
  | none => none
  | some name =>
    if isSuffix suffix then
      some { p with parts := p.parts.dropLast ++ [String.ofList (stem name.toList) ++ suffix] }
    else none

/-- The parts of an absolute path once its double dots are worked off; the root is its own
parent. -/
def settle (parts : List String) : List String :=
  (parts.foldl (fun done part => if part = ".." then done.tail else part :: done) []).reverse

/-- The absolute path that a path means in a directory. -/
def absolute (directory p : Path) : Path :=
  let whole := if p.slashes = 0 then ⟨directory.slashes, directory.parts ++ p.parts⟩ else p
  { whole with parts := settle whole.parts }

/-- Whether a path can be handed to a file system at all: no name holds a null character. -/
def isUsable (p : Path) : Bool := p.parts.all fun part => !part.toList.contains '\x00'

end Path

end CMinusMinus
