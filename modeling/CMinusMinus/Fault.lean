import CMinusMinus.Span

/-!
Faults: failures that no source program should bring about. They stop an analysis where it stands
and are told apart from the diagnostics of a program.
-/
namespace CMinusMinus

/-- What went wrong inside the compiler. The nodes in question are named by their kind, names and
operators by their text. -/
inductive FaultCause where
  | symbolOutOfRange (index : Int)
  | tableFrozen (name : String)
  | namesWithoutProgram
  | namesDecl (kind : String)
  | namesStmt (kind : String)
  | namesExpr (kind : String)
  | namesDotOperand (kind : String)
  | typesWithoutProgram
  | typesDecl (kind : String)
  | typesStmt (kind : String)
  | typesExpr (kind : String)
  | typesUnvisited (name : String)
  | typesUnaryOp (sign : String)
  | typesBinaryOp (sign : String)
  | typesNotFunction (name : String)
  | framesWithoutProgram
  | framesDecl (kind : String)
  | framesNotLocal (name : String)
  | stackUnderflow
  | codeWithoutProgram
  | codeDespiteErrors
  | codeDecl (kind : String)
  | codeNotFunction (name : String)
  | codeNoFrame (name : String)
  | codeStmtUnbalanced (depth : Int)
  | codeStmt (kind : String)
  | codeExprUnbalanced (words : Int)
  | codeUnaryOp (sign : String)
  | codeBinaryOp (sign : String)
  | codeExpr (kind : String)
  | codeCall (name : String)
  | codeStructValue (name : String)
  | codePoisonedAccess
  | codeNotLocation (kind : String)
  | codeUnresolved (name : String)
  | codeNotVariable (name : String)
  | codeUntyped
  | codeErrorType
  | other (message : String)
deriving DecidableEq, Repr

namespace FaultCause

def message : FaultCause → String
  | symbolOutOfRange index => s!"[ICE-0010] symbol index {index} out of range"
  | tableFrozen name => s!"[ICE-0011] declaration of '{name}' added to a frozen symbol table"
  | namesWithoutProgram => "[ICE-0100] name analysis started without a parsed program"
  | namesDecl kind => s!"[ICE-0101] unexpected declaration kind {kind}"
  | namesStmt kind => s!"[ICE-0103] unexpected statement kind {kind}"
  | namesExpr kind => s!"[ICE-0104] unexpected expression kind {kind}"
  | namesDotOperand kind => s!"[ICE-0105] unexpected dot-access operand {kind}"
  | typesWithoutProgram => "[ICE-0200] type checking started without a parsed program"
  | typesDecl kind => s!"[ICE-0201] unexpected declaration kind {kind}"
  | typesStmt kind => s!"[ICE-0202] unexpected statement kind {kind}"
  | typesExpr kind => s!"[ICE-0204] unexpected expression kind {kind}"
  | typesUnvisited name => s!"[ICE-0205] identifier '{name}' was never name-analysed"
  | typesUnaryOp sign => s!"[ICE-0206] unexpected unary operator '{sign}'"
  | typesBinaryOp sign => s!"[ICE-0207] unexpected binary operator '{sign}'"
  | typesNotFunction name => s!"[ICE-0208] function type without function entry for '{name}'"
  | framesWithoutProgram => "[ICE-0300] frame layout started without a parsed program"
  | framesDecl kind => s!"[ICE-0301] unexpected declaration kind {kind}"
  | framesNotLocal name => s!"[ICE-0302] '{name}' is not a frame-allocated variable"
  | stackUnderflow => "[ICE-0400] evaluation stack popped below empty"
  | codeWithoutProgram => "[ICE-0500] code generation without a parsed program"
  | codeDespiteErrors => "[ICE-0501] code generation requested for a program with errors"
  | codeDecl kind => s!"[ICE-0502] unexpected declaration kind {kind}"
  | codeNotFunction name => s!"[ICE-0503] '{name}' is not bound to a function"
  | codeNoFrame name => s!"[ICE-0504] no frame layout for function '{name}'"
  | codeStmtUnbalanced depth =>
    s!"[ICE-0510] evaluation stack unbalanced after statement (depth {depth})"
  | codeStmt kind => s!"[ICE-0511] unexpected statement kind {kind}"
  | codeExprUnbalanced words => s!"[ICE-0512] expression left {words} words on the stack"
  | codeUnaryOp sign => s!"[ICE-0513] unexpected unary operator '{sign}'"
  | codeBinaryOp sign => s!"[ICE-0514] unexpected binary operator '{sign}'"
  | codeExpr kind => s!"[ICE-0515] unexpected expression kind {kind}"
  | codeCall name => s!"[ICE-0516] call of non-function '{name}'"
  | codeStructValue name => s!"[ICE-0517] struct value '{name}' used as an operand"
  | codePoisonedAccess => "[ICE-0518] poisoned dot-access reached code generation"
  | codeNotLocation kind => s!"[ICE-0519] '{kind}' is not a location"
  | codeUnresolved name => s!"[ICE-0520] unresolved identifier '{name}' reached code generation"
  | codeNotVariable name => s!"[ICE-0521] '{name}' is not a variable"
  | codeUntyped => "[ICE-0522] expression has no recorded type"
  | codeErrorType => "[ICE-0523] error type reached code generation"
  | other message => message

end FaultCause

/-- Where the compiler was at work. -/
structure FaultPlace where
  file : Option String
  span : Option Span
deriving DecidableEq, Repr

/-- A fault: an internal error, a type word that names no type, a symbol of the wrong kind behind
an index, or a number with too many digits to be read or written. -/
inductive Fault where
  | internal (cause : FaultCause) (place : Option FaultPlace)
  | unknownType (name : String)
  | wrongSymbol
  | numeralTooLong
deriving DecidableEq, Repr

namespace Fault

/-- Whether a text holds the mark of an internal error's code. -/
def hasCode : List Char → Bool
  | [] => false
  | c :: rest => ['[', 'I', 'C', 'E', '-'].isPrefixOf (c :: rest) || hasCode rest

/-- An internal error on one line: the place if its file is known, and the wording, under a code of
its own if it has none. -/
def describe (cause : FaultCause) (place : Option FaultPlace) : String :=
  let message := if hasCode cause.message.toList then cause.message
    else "[ICE-9999] " ++ cause.message
  let said := "internal compiler error: " ++ message
  match place with
  | some ⟨some file, span⟩ =>
    if file.isEmpty then said
    else match span with
      | some s => s!"{file}:{s.start.line}:{s.start.column}: {said}"
      | none => s!"{file}: {said}"
  | _ => said

end Fault

end CMinusMinus
