import CMinusMinus.Analysis.Listing
import CMinusMinus.Command
import CMinusMinus.Compilation.Files
import CMinusMinus.Text.Blank

/-!
Running commands. Each gives an exit code: zero if all went well, one if something was wrong with a
file.
-/
namespace CMinusMinus.Command

open Host

variable {m : Type → Type} [Monad m] [Host m]

/-- Ends a command that a fault has stopped: an internal error is written to the log, any other
fault escapes. -/
def giveUp (settings : Settings) (fault : Fault) : m Nat := do
  match fault with
  | .internal cause place =>
    log (some settings) (.error (Fault.describe cause place))
    return 1
  | fault => escape (.fault fault)

def compileOne (settings : Settings) (source : String) (output : Output) :
    m (Except Fault Compiled) := do
  match ← compileFile settings source output with
  | .error fault => return .error fault
  | .ok done =>
    showDiagnostics (some settings) done.analysis.diagnostics
    return .ok done

/-- Compiles files in order. A fatal failure ends the build. -/
def buildInOrder (settings : Settings) (output : Output) (code : Nat) : List String → m Nat
  | [] => return code
  | file :: rest => do
    match ← compileOne settings file output with
    | .error fault => giveUp settings fault
    | .ok done =>
      if done.fatal then return 1
      else buildInOrder settings output (if done.ok then code else 1) rest

/-- Compiles files; only a single one can have an output of the user's choice. -/
def buildFiles (settings : Settings) (files : List String) (output : Output) : m Nat := do
  if output.isNamed && files.length > 1 then
    log (some settings) (.error "error: --output can only be used with a single input file")
    return 1
  else buildInOrder settings output 0 files

def checkFiles (settings : Settings) (code : Nat) : List String → m Nat
  | [] => return code
  | file :: rest => do
    match ← analyzeFile settings (.ofString file) with
    | .error fault => giveUp settings fault
    | .ok a =>
      showDiagnostics (some settings) a.diagnostics
      if a.program.isNone || a.hasErrors then checkFiles settings 1 rest
      else
        log (some settings) (.info (file ++ ": OK"))
        checkFiles settings code rest

/-- A token as the listing of a file's tokens shows it. -/
def tokenLine (file : String) (t : Token) : String :=
  let kind := t.kind.name
  let place := s!"{file}:{t.start.line}:{t.start.column}"
  place ++ ":\t" ++ kind ++ "".pushn ' ' (12 - kind.length) ++ " " ++ Text.quoted t.text

def listTokens (settings : Settings) (file : String) (withEnd : Bool) : m Nat := do
  match ← tokenizeFile (.ofString file) with
  | .error (.missing path) =>
    log (some settings) (.error ("error: [DRV-0010] " ++ missingSource path))
    return 1
  | .error (.lexical path e) =>
    let place := s!"{path.text}:{e.place.line}:{e.place.column}"
    log (some settings) (.error (place ++ ": error: " ++ e.message))
    return 1
  | .ok found =>
    (found.filter fun t => withEnd || t.kind ≠ .eof).forM fun t => say (tokenLine file t)
    return 0

def listSymbols (settings : Settings) (file : String) : m Nat := do
  match ← analyzeFile settings (.ofString file) with
  | .error fault => giveUp settings fault
  | .ok a =>
    showDiagnostics (some settings) a.diagnostics
    match a.listing? with
    | none => return 1
    | some lines =>
      lines.forM fun l =>
        match l.text? with
        | some text => say text
        | none => escape (.fault .numeralTooLong)
      return if a.hasErrors then 1 else 0

/-- The text that asks for a file name. -/
def promptText : String := "file name? "

def stopWord : String := "stop"

/-- Deals with one answer to the prompt, and gives an exit code if the prompt is to end. -/
def answerPrompt (settings : Settings) (answer : String) : m (Option Nat) := do
  let name := String.ofList (Text.trim answer.toList)
  if name = stopWord then return some 0
  else if name.isEmpty then return none
  else if !(← isFile (.ofString name)) then
    say (name ++ " not found")
    return none
  else
    match ← compileOne settings name .beside with
    | .error fault => return some (← giveUp settings fault)
    | .ok done =>
      if done.fatal then return some 1
      else
        if done.analysis.program.isNone then say "syntax error: parsing aborted"
        else match done.output with
          | none => say "compilation aborted"
          | some path => say ("wrote " ++ path.text)
        return none

/-- Asks for file names and compiles each, until the user stops or there are no more answers. -/
def promptFor (settings : Settings) : List String → m Nat
  | [] => do
    out promptText
    return 0
  | answer :: rest => do
    out promptText
    match ← answerPrompt settings answer with
    | some code => return code
    | none => promptFor settings rest

end CMinusMinus.Command

namespace CMinusMinus

namespace Invocation

variable {m : Type → Type} [Monad m] [Host m]

/-- Runs a command; the answers are for the prompt. -/
def run (i : Invocation) (answers : List String) : m Nat :=
  match i.command with
  | .build files output => Command.buildFiles i.settings files output
  | .check files => Command.checkFiles i.settings 0 files
  | .tokens file withEnd => Command.listTokens i.settings file withEnd
  | .symbols file => Command.listSymbols i.settings file
  | .prompt => Command.promptFor i.settings answers

end Invocation

end CMinusMinus
