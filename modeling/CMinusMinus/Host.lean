import CMinusMinus.Disk
import CMinusMinus.Fault
import CMinusMinus.Log
import CMinusMinus.Text.Lines

/-!
What a command needs from the system it runs on: files, a clock, a working directory and the two
output streams. Commands are written against this interface, so that they can run on a disk in
memory as well as on a real one.
-/
namespace CMinusMinus

/-- What ends a command before it has an exit code: a fault that is no internal error, a source
that is not valid UTF-8, a path that cannot be used or given the suffix of assembly files, or an
output that is asked for and not named. -/
inductive Escape where
  | fault (f : Fault)
  | undecodable
  | unusablePath
  | unnamedOutput
deriving DecidableEq, Repr

/-- A system that commands run on. -/
class Host (m : Type → Type) where
  /-- Whether a path leads to a file. -/
  isFile : Path → m Bool
  /-- The contents of a file. -/
  read : Path → m (Except FileError ByteArray)
  /-- Writes a text to a file. -/
  write : Path → String → m (Except FileError Unit)
  /-- Writes to the standard output. -/
  out : String → m Unit
  /-- Writes to the error output. -/
  err : String → m Unit
  /-- The time as the log shows it. -/
  time : m String
  /-- The working directory. -/
  directory : m Path
  /-- Ends the command. -/
  escape : {α : Type} → Escape → m α

namespace Host

variable {m : Type → Type} [Monad m] [Host m]

def say (line : String) : m Unit := out (line ++ "\n")

def log (settings : Option Settings) (e : LogEntry) : m Unit := do
  (e.lines settings (← time)).forM fun line => err (line ++ "\n")

def logAll (settings : Option Settings) (es : List LogEntry) : m Unit := es.forM (log settings)

/-- The text of a file, with its newlines made one convention. A text that is not valid UTF-8 and
a path that cannot be used end the command. -/
def readText (p : Path) : m (Except FileError String) := do
  if !p.isUsable then escape .unusablePath
  else match ← read p with
    | .error e => return .error e
    | .ok bytes =>
      match String.fromUTF8? bytes with
      | none => escape .undecodable
      | some text => return .ok (String.ofList (Text.unifyNewlines text.toList))

end Host

end CMinusMinus
