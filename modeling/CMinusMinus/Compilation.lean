import CMinusMinus.Analysis.Frames
import CMinusMinus.Analysis.Names
import CMinusMinus.Analysis.Typing
import CMinusMinus.Assembly.Lowering
import CMinusMinus.Log

/-!
The compilation of one source text: reading it, the three passes of its analysis, and its assembly.
All passes run even after errors, so that one compilation finds as much as it can. Each step tells
the log what it does.
-/
namespace CMinusMinus

/-- The result of some steps of a compilation: the messages for the log, and the fault that
stopped the steps, if one did. -/
structure Worked (α : Type) where
  result : α
  log : List LogEntry
  fault : Option Fault := none

namespace Expr

mutual

/-- The number of types recorded on an expression and its parts. -/
def typedCount (e : Expr) : Nat :=
  let here := if e.ty.isSome then 1 else 0
  match e with
  | int .. | string .. | bool .. | ident _ | misfit .. => here
  | dot _ obj _ _ _ => here + obj.typedCount
  | assign _ target value => here + target.typedCount + value.typedCount
  | call _ callee args => here + (if callee.note.ty.isSome then 1 else 0) + typedCounts args
  | unary _ _ operand => here + operand.typedCount
  | binary _ _ left right => here + left.typedCount + right.typedCount

def typedCounts : List Expr → Nat
  | [] => 0
  | e :: es => e.typedCount + typedCounts es

end

end Expr

mutual

def Stmt.typedCount : Stmt → Nat
  | .assign _ e | .increment _ e | .decrement _ e | .read _ e | .write _ e | .call _ e =>
    e.typedCount
  | .ifThen _ cond body => cond.typedCount + body.typedCount
  | .ifElse _ cond body other => cond.typedCount + body.typedCount + other.typedCount
  | .loop _ cond body => cond.typedCount + body.typedCount
  | .ret _ (some e) => e.typedCount
  | .ret _ none | .misfit .. => 0

def Stmt.typedCounts : List Stmt → Nat
  | [] => 0
  | s :: ss => s.typedCount + Stmt.typedCounts ss

def Block.typedCount : Block → Nat
  | .mk _ _ stmts => Stmt.typedCounts stmts

end

def Program.typedCount (p : Program) : Nat :=
  (p.decls.map fun
    | .fn d => d.body.typedCount
    | _ => 0).foldl (· + ·) 0

namespace Analysis

/-- The three passes over a program that has been read. -/
def complete (a : Analysis) : Worked Analysis :=
  let log := [.stage "Resolving names"]
  match a.resolveNames with
  | (a, some fault) => ⟨a, log, some fault⟩
  | (a, none) =>
    let log := log ++ [.debug s!"Name analysis created {a.arena.size} symbol(s)",
      .stage "Type-checking"]
    match a.checkTypes with
    | (a, some fault) => ⟨a, log, some fault⟩
    | (a, none) =>
      let typed := (a.program.map Program.typedCount).getD 0
      let log := log ++ [.debug s!"Typed {typed} expressions", .stage "Laying out frames"]
      match a.layOutFrames with
      | (a, some fault) => ⟨a, log, some fault⟩
      | (a, none) =>
        let sizes := a.frames.takeWhile fun (_, size) => Text.isWritable size
        let log := log ++ sizes.map fun (name, size) =>
          .debug s!"Frame of '{name}': {size} byte(s)"
        if a.frames.all fun (_, size) => Text.isWritable size then
          let errors := (a.diagnostics.filter Diagnostic.isError).length
          let total := a.diagnostics.length
          let summary := s!"Analysis complete: {total} total diagnostic(s), {errors} error(s)"
          ⟨a, log ++ [.info summary], none⟩
        else ⟨a, log, some .numeralTooLong⟩

/-- The analysis of a text that cannot be read, for a reason that has a place. -/
def unreadable (a : Analysis) (finding : Finding) (file : String) (place : Position) : Analysis :=
  { a with diagnostics := a.diagnostics ++ [.atPlace .error finding (some file) (some place)] }

def sourceName (a : Analysis) : String :=
  match a.file with
  | none | some "" => "<input>"
  | some file => file

/-- Reads a text and analyses the program in it. A text that is no program gives one error and
ends the analysis. -/
def ofText (a : Analysis) (text : String) : Worked Analysis :=
  let file := a.sourceName
  let log := [.stage "Parsing" (some file)]
  match Token.lex text with
  | .error .numeralTooLong => ⟨a, log, some .numeralTooLong⟩
  | .error e => ⟨a.unreadable (.lexical e) file e.place, log, none⟩
  | .ok tokens =>
    let log := log ++ [.debug s!"Lexed {tokens.length} token(s) from {file}"]
    match Program.ofTokens tokens with
    | .error e => ⟨a.unreadable (.grammatical e) file e.token.start, log, none⟩
    | .ok p =>
      let log := log ++ [.debug s!"Parsed {p.decls.length} declaration(s) from {file}"]
      let done := complete { a with program := some { p with file := some file } }
      { done with log := log ++ done.log }

/-- The analysis of a text under the name of a file. -/
def ofSource (text : String) (file : String) : Worked Analysis :=
  ofText { file := some file } text

/-- The assembly text of an analysed program. -/
def assembly (a : Analysis) (comments : Bool) : Worked (Option String) :=
  let log := [.stage "Generating MIPS code" a.file]
  match a.lower with
  | .error fault => ⟨none, log, some fault⟩
  | .ok lines =>
    let count := (Assembly.written comments lines).length
    ⟨some (Assembly.render comments lines),
      log ++ [.debug s!"Emitted {count} lines of assembly"], none⟩

end Analysis

end CMinusMinus
