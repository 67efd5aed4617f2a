import CMinusMinus.Diagnostic
import CMinusMinus.Path

/-!
Diagnostics as a user sees them: a header line with the place, then the line of the source with
marks under the part in question.
-/
namespace CMinusMinus.Diagnostic

/-- The place of a diagnostic as its header gives it; a column counts only with its line. -/
def place (directory : Path) (d : Diagnostic) : String :=
  let file := (d.file.map fun file => (directory.absolute (.ofString file)).text).getD ""
  match d.line, d.column with
  | none, _ => file
  | some line, none => s!"{file}:{line}"
  | some line, some column => s!"{file}:{line}:{column}"

def header (directory : Path) (d : Diagnostic) : String :=
  let place := d.place directory
  let place := if place.isEmpty then "" else place ++ ": "
  place ++ d.severity.label ++ ": " ++ d.message

/-- The file whose text is shown below the header: there is none without a line. -/
def shownFile? (d : Diagnostic) : Option String :=
  match d.file, d.line with
  | some file, some line => if file.isEmpty || line = 0 then none else some file
  | _, _ => none

def gutterWidth (line : Int) : Nat := max 5 (toString line).length

def alignRight (width : Nat) (text : String) : String :=
  "".pushn ' ' (width - text.length) ++ text

/-- The marks under a source line of a length. They start at the column and go up to the end of the
part in question, or of the line if the part ends on another one; at least one mark is made. -/
def marks (d : Diagnostic) (line column : Int) (length : Nat) : String :=
  let first := max 1 column
  let last := match d.endLine, d.endColumn with
    | some endLine, some endColumn =>
      if endLine = line then max first endColumn else length + 1
    | _, _ => first
  "".pushn ' ' (first - 1).toNat ++ "".pushn '^' (max 1 (last - first)).toNat

/-- What is shown of a source below the header: the line, and the marks if the column is known. A
line that the source does not have is not shown. -/
def snippet (source : List (List Char)) (d : Diagnostic) : List String :=
  match d.line with
  | none => []
  | some line =>
    if line < 1 then [] else
    match source[(line - 1).toNat]? with
    | none => []
    | some text =>
      let width := gutterWidth line
      let shown := alignRight width (toString line) ++ " | " ++ String.ofList text
      match d.column with
      | none => [shown]
      | some column =>
        [shown, "".pushn ' ' width ++ " | " ++ d.marks line column text.length]

end CMinusMinus.Diagnostic
