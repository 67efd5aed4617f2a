import CMinusMinus.Diagnostic
import CMinusMinus.Fault
import CMinusMinus.Symbol

/-!
The state of the analysis of one program. Three passes work on it in turn: name analysis, type
checking and frame layout. A fault stops a pass, and what the pass has done up to then stays.
-/
namespace CMinusMinus

/-- What is known about one program. The frames give the bytes that each function's parameters and
local variables take, in the order in which the functions were laid out. -/
structure Analysis where
  program : Option Program := none
  file : Option String := none
  arena : Arena := {}
  globals : Option SymbolTable := none
  frames : List (String × Int) := []
  diagnostics : List Diagnostic := []

namespace Analysis

/-- Whether an error has been found. -/
def hasErrors (a : Analysis) : Bool := a.diagnostics.any Diagnostic.isError

def hasWarnings (a : Analysis) : Bool := a.diagnostics.any Diagnostic.isWarning

end Analysis

/-- What a pass has found so far. Once a fault has stopped the pass nothing more is taken down. -/
structure Journal where
  file : Option String
  diagnostics : List Diagnostic
  fault : Option Fault := none

namespace Journal

def stopped (j : Journal) : Bool := j.fault.isSome

def add (j : Journal) (d : Diagnostic) : Journal :=
  if j.stopped then j else { j with diagnostics := j.diagnostics ++ [d] }

def report (j : Journal) (severity : Severity) (finding : Finding) (span : Option Span) : Journal :=
  j.add (.atSpan severity finding j.file span)

/-- Stops the pass. The first fault is the one that counts. -/
def stop (j : Journal) (fault : Fault) : Journal :=
  if j.stopped then j else { j with fault := some fault }

/-- Stops the pass by an internal error about a part of the source. -/
def stopAt (j : Journal) (cause : FaultCause) (span : Option Span) : Journal :=
  j.stop (.internal cause (some ⟨j.file, span⟩))

end Journal

def Fault.outOfRange (index : Int) : Fault := .internal (.symbolOutOfRange index) none

def Ty.ofWord (word : String) : Except Fault Ty :=
  match Ty.ofWord? word with
  | some t => .ok t
  | none => .error (.unknownType word)

end CMinusMinus
