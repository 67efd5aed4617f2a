import CMinusMinus.Compilation
import CMinusMinus.Diagnostic.Snippet
import CMinusMinus.Host

/-!
Compiling files: reading a source, analysing it, and writing its assembly next to it or to a path of
the user's choice. Every file starts from nothing, so that no file's analysis depends on another's.
-/
namespace CMinusMinus

/-- What compiling a file comes to. The output is the path of the assembly, if it was written; a
missing source and an output that cannot be written are fatal. -/
structure Compiled where
  analysis : Analysis
  output : Option Path := none
  fatal : Bool := false

/-- Whether assembly was written. -/
def Compiled.ok (c : Compiled) : Bool := c.output.isSome

/-- Where assembly is to go: next to its source, to a path, or, after an option that names nothing,
nowhere at all. -/
inductive Output where
  | beside
  | named (path : String)
  | unnamed
deriving DecidableEq, Repr

/-- Whether an output has a name of its own; an empty one does not count. -/
def Output.isNamed : Output → Bool
  | named path => path ≠ ""
  | _ => false

/-- Why a file has no tokens. -/
inductive TokensError where
  | missing (path : Path)
  | lexical (path : Path) (e : LexError)

def missingSource (path : Path) : String := "C-- source file not found: " ++ path.text

/-- The path that a source's assembly goes to by default. -/
def Path.assembly? (settings : Settings) (source : Path) : Option Path :=
  source.withSuffix? settings.suffix

/-- The path that a source's assembly goes to, or what ends the command if there is none. -/
def Output.pathFor (settings : Settings) (source : Path) : Output → Except Escape Path
  | beside =>
    match source.assembly? settings with
    | some path => .ok path
    | none => .error .unusablePath
  | named path => .ok (.ofString path)
  | unnamed => .error .unnamedOutput

namespace Host

variable {m : Type → Type} [Monad m] [Host m]

/-- The result of some steps, once their messages are written. -/
def settleWork {α : Type} (settings : Settings) (done : Worked α) : m (Except Fault α) := do
  logAll (some settings) done.log
  match done.fault with
  | some fault => return .error fault
  | none => return .ok done.result

/-- Reads and analyses a file. A file that is not there gives an error without a place. -/
def analyzeFile (settings : Settings) (path : Path) : m (Except Fault Analysis) := do
  let a : Analysis := { file := some path.text }
  let missing := { a with
    diagnostics := [.atSpan .error (.sourceMissing path.text) none none] }
  log (some settings) (.stage "Reading" (some path.text))
  if ← isFile path then
    match ← readText path with
    | .ok text => settleWork settings (a.ofText text)
    | .error _ => return .ok missing
  else return .ok missing

def assemblyText (settings : Settings) (a : Analysis) : m (Except Fault String) := do
  match ← settleWork settings (a.assembly settings.comments) with
  | .error fault => return .error fault
  | .ok text => return .ok (text.getD "")

def writeAssembly (settings : Settings) (a : Analysis) (path : Path) (text : String) :
    m Compiled := do
  match ← write path text with
  | .ok () =>
    log (some settings) (.info ("Wrote " ++ path.text))
    return { analysis := a, output := some path }
  | .error e =>
    let refused := Diagnostic.atSpan .error (.outputRefused path.text e.reason) none none
    return { analysis := { a with diagnostics := a.diagnostics ++ [refused] }, fatal := true }

def compileFile (settings : Settings) (source : String) (output : Output) :
    m (Except Fault Compiled) := do
  let path := Path.ofString source
  match ← analyzeFile settings path with
  | .error fault => return .error fault
  | .ok a =>
    if !(← isFile path) then return .ok { analysis := a, fatal := true }
    else if a.program.isNone || a.hasErrors then
      log (some settings) (.info s!"Not generating code for '{source}': errors found")
      return .ok { analysis := a }
    else match ← assemblyText settings a with
      | .error fault => return .error fault
      | .ok text =>
        match output.pathFor settings path with
        | .error e => escape e
        | .ok target => return .ok (← writeAssembly settings a target text)

def tokenizeFile (path : Path) : m (Except TokensError (List Token)) := do
  if ← isFile path then
    match ← readText path with
    | .error _ => return .error (.missing path)
    | .ok text =>
      match Token.lex text with
      | .ok tokens => return .ok tokens
      | .error .numeralTooLong => escape (.fault .numeralTooLong)
      | .error e => return .error (.lexical path e)
  else return .error (.missing path)

/-- Shows a diagnostic with the source line it points at, if that can be read. -/
def showDiagnostic (settings : Option Settings) (d : Diagnostic) : m Unit := do
  log settings (.error (d.header (← directory)))
  match d.shownFile? with
  | none => return ()
  | some file =>
    match ← readText (.ofString file) with
    | .error _ => return ()
    | .ok text => logAll settings ((d.snippet (Text.lines text.toList)).map LogEntry.error)

def showDiagnostics (settings : Option Settings) (ds : List Diagnostic) : m Unit :=
  ds.forM (showDiagnostic settings)

end Host

end CMinusMinus
