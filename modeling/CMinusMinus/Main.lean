import CMinusMinus.Command.Run
import Std.Time

/-!
The command line of the compiler on the system it runs on.
-/
namespace CMinusMinus

def Escape.message : Escape → String
  | .fault .numeralTooLong => "a number has too many digits"
  | .fault _ => "the compiler has failed"
  | .undecodable => "a source is not valid UTF-8"
  | .unusablePath => "a path cannot be used"
  | .unnamedOutput => "an output is asked for and not named"

def FileError.ofError : IO.Error → FileError
  | .noFileOrDirectory .. | .noSuchThing .. => .notFound
  | .inappropriateType .. => .notDirectory
  | e => .other (toString e)

/-- What kind of thing a path leads to, if to anything. -/
def Path.kind? (path : Path) : IO (Option IO.FS.FileType) := do
  try
    let real ← IO.FS.realPath path.text
    return some (← real.metadata).type
  catch _ => return none

/-- Does something with files, and gives the reason if it fails. -/
def FileError.catching {α : Type} (path : Path) (act : IO α) : IO (Except FileError α) := do
  try
    return .ok (← act)
  catch e =>
    let isDirectory := (← path.kind?) == some .dir
    return .error (if isDirectory then .isDirectory else .ofError e)

instance : Host IO where
  isFile path := return path.isUsable && (← path.kind?) == some .file
  read path := FileError.catching path (IO.FS.readBinFile path.text)
  write path text := FileError.catching path (IO.FS.writeFile path.text text)
  out text := do
    let stream ← IO.getStdout
    stream.putStr text
    stream.flush
  err text := do (← IO.getStderr).putStr text
  time := do
    let now ← Std.Time.PlainDateTime.now
    return now.format "uuuu-MM-dd HH:mm:ss"
  directory := return .ofString (← IO.currentDir).toString
  escape e := throw (IO.userError e.message)

/-- Asks for file names and compiles each, until the user stops or the input ends. -/
partial def Command.promptUser (settings : Settings) : IO Nat := do
  Host.out Command.promptText
  let answer ← (← IO.getStdin).getLine
  if answer.isEmpty then return 0
  match ← Command.answerPrompt settings answer with
  | some code => return code
  | none => Command.promptUser settings

def usage : String :=
  "usage: cmm [-h] [-v] [-l] [--no-comments] command ...\n\n" ++
  "commands:\n" ++
  "  build (gen) [-o OUTPUT] files ...   compile to MIPS assembly\n" ++
  "  check (analyze) files ...           parse and analyze only\n" ++
  "  tok (tokens) [-I] file              list the tokens\n" ++
  "  sym (symbols) file                  list symbols and frame offsets\n" ++
  "  prompt                              compile files until 'stop'\n"

end CMinusMinus

open CMinusMinus in
/-- Runs the command that the command line asks for. -/
def main (args : List String) : IO UInt32 := do
  match Invocation.ofArgs args with
  | .error .help =>
    Host.out usage
    return 0
  | .error .usage =>
    Host.err usage
    return 2
  | .ok i =>
    let code ← match i.command with
      | .prompt => Command.promptUser i.settings
      | _ => i.run []
    return code.toUInt32
