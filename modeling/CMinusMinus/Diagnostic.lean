import CMinusMinus.Syntax.Parser

/-!
Diagnostics: what is found wrong in a program, with a code, and where. A finding is a cause, and
its wording is given in one place.
-/
namespace CMinusMinus

/-- What name analysis finds wrong. -/
inductive NameFinding where
  | declaredTwice (name : String)
  | fieldDeclaredTwice (name : String)
  | undeclared (name : String)
  | declaredVoid (name : String)
  | notAStruct (name : String)
  | dotOnNonStruct
  | noSuchField (name : String)
deriving DecidableEq, Repr

def NameFinding.message : NameFinding → String
  | declaredTwice name => s!"[NAM-0010] multiply declared identifier '{name}'"
  | fieldDeclaredTwice name => s!"[NAM-0011] multiply declared struct field '{name}'"
  | undeclared name => s!"[NAM-0020] undeclared identifier '{name}'"
  | declaredVoid name => s!"[NAM-0030] non-function declared void: '{name}'"
  | notAStruct name => s!"[NAM-0040] invalid name of struct type '{name}'"
  | dotOnNonStruct => "[NAM-0050] dot-access of non-struct type"
  | noSuchField name => s!"[NAM-0051] invalid struct field name '{name}'"

/-- What type checking finds wrong, and the one thing it warns of. -/
inductive TypeFinding where
  | arithmeticOperand | relationalOperand | logicalOperand
  | equalVoids | equalFunctions | equalStructNames | equalStructs
  | mismatch (left right : Ty)
  | assignFunctions | assignStructNames | assignStructs
  | notCallable (name : String)
  | argumentCount (name : String) (expected given : Nat)
  | argumentType
  | returnInVoid | missingReturn | returnType
  | ifCondition | whileCondition
  | readFunction | readStructName | readStruct
  | writeFunction | writeStructName | writeStruct | writeVoid
  | noMain
  | unreachable
deriving Repr

def TypeFinding.message : TypeFinding → String
  | arithmeticOperand => "[TYP-0010] arithmetic operator applied to non-numeric operand"
  | relationalOperand => "[TYP-0011] relational operator applied to non-numeric operand"
  | logicalOperand => "[TYP-0020] logical operator applied to non-bool operand"
  | equalVoids => "[TYP-0030] equality operator applied to void functions"
  | equalFunctions => "[TYP-0031] equality operator applied to functions"
  | equalStructNames => "[TYP-0032] equality operator applied to struct names"
  | equalStructs => "[TYP-0033] equality operator applied to struct variables"
  | mismatch left right => s!"[TYP-0040] type mismatch: '{left.shown}' vs '{right.shown}'"
  | assignFunctions => "[TYP-0041] function assignment"
  | assignStructNames => "[TYP-0042] struct name assignment"
  | assignStructs => "[TYP-0043] struct variable assignment"
  | notCallable name => s!"[TYP-0050] attempt to call a non-function '{name}'"
  | argumentCount name expected given =>
    s!"[TYP-0051] function call with wrong number of args: '{name}' expects {expected}, got {given}"
  | argumentType => "[TYP-0052] type of actual does not match type of formal"
  | returnInVoid => "[TYP-0060] return with a value in a void function"
  | missingReturn => "[TYP-0061] missing return value"
  | returnType => "[TYP-0062] bad return value"
  | ifCondition => "[TYP-0070] non-bool expression used as an if condition"
  | whileCondition => "[TYP-0071] non-bool expression used as a while condition"
  | readFunction => "[TYP-0080] attempt to read a function"
  | readStructName => "[TYP-0081] attempt to read a struct name"
  | readStruct => "[TYP-0082] attempt to read a struct variable"
  | writeFunction => "[TYP-0090] attempt to write a function"
  | writeStructName => "[TYP-0091] attempt to write a struct name"
  | writeStruct => "[TYP-0092] attempt to write a struct variable"
  | writeVoid => "[TYP-0093] attempt to write void"
  | noMain => "[TYP-0100] no main function"
  | unreachable => "[TYP-0200] unreachable code after 'return'"

/-- What a diagnostic is about. -/
inductive Finding where
  | lexical (e : LexError)
  | grammatical (e : ParseError)
  | naming (f : NameFinding)
  | typing (f : TypeFinding)
  | sourceMissing (path : String)
  | outputRefused (path reason : String)
  | other (message : String)
deriving Repr

def Finding.message : Finding → String
  | lexical e => "syntax: " ++ e.message
  | grammatical e => e.message
  | naming f => f.message
  | typing f => f.message
  | sourceMissing path => s!"file: [DRV-0010] C-- source file not found: {path}"
  | outputRefused path reason => s!"output: [DRV-0020] cannot write '{path}': {reason}"
  | other message => message

/-- How grave a diagnostic is. -/
inductive Severity where
  | error
  | warning
  | other (label : String)
deriving DecidableEq, Repr

def Severity.label : Severity → String
  | error => "error"
  | warning => "warning"
  | other label => label

def Severity.ofLabel : String → Severity
  | "error" => .error
  | "warning" => .warning
  | label => .other label

/-- A diagnostic. The part of the source it points at may be known in part only. -/
structure Diagnostic where
  severity : Severity
  finding : Finding
  file : Option String := none
  line : Option Int := none
  column : Option Int := none
  endLine : Option Int := none
  endColumn : Option Int := none
deriving Repr

namespace Diagnostic

def message (d : Diagnostic) : String := d.finding.message

def atSpan (severity : Severity) (finding : Finding) (file : Option String)
    (span : Option Span) : Diagnostic :=
  { severity, finding, file
    line := span.map (·.start.line), column := span.map (·.start.column)
    endLine := span.map (·.stop.line), endColumn := span.map (·.stop.column) }

def atPlace (severity : Severity) (finding : Finding) (file : Option String)
    (place : Option Position) : Diagnostic :=
  { severity, finding, file, line := place.map (·.line), column := place.map (·.column) }

def isError (d : Diagnostic) : Bool := d.severity = .error

def isWarning (d : Diagnostic) : Bool := d.severity = .warning

end Diagnostic

/-- The codes of all findings by family, in the order in which they are listed. -/
def findingCodes : List (String × List String) :=
  [("LEX", ["0010", "0040", "0059", "0060", "0061"]),
    ("PAR", ["0020", "0040", "0041", "0043", "0045", "0050", "0053", "0054", "0057", "0060", "0061",
      "0070", "0090", "0091", "0100", "0101", "0102", "0121", "0122", "0131", "0132", "0160",
      "0161", "0200", "0201", "0202", "0210", "0212", "0224", "0225"]),
    ("DRV", ["0010", "0020"]),
    ("NAM", ["0010", "0011", "0020", "0030", "0040", "0050", "0051"]),
    ("TYP", ["0010", "0011", "0020", "0030", "0031", "0032", "0033", "0040", "0041", "0042",
      "0043", "0050", "0051", "0052", "0060", "0061", "0062", "0070", "0071", "0080", "0081",
      "0082", "0090", "0091", "0092", "0093", "0100", "0200"])].map
    fun (family, numbers) => (family, numbers.map fun n => family ++ "-" ++ n)

end CMinusMinus
