/-!
The log: messages of several levels, of which the settings let through those that are grave
enough, and the form in which they are written.
-/
namespace CMinusMinus

/-- How grave a message is, or how much is to be written. -/
inductive LogLevel where
  | silent | error | warning | info | debug
deriving DecidableEq, Repr

namespace LogLevel

/-- The rank of a level; a message is written if its rank is not above that of the settings. -/
def rank : LogLevel → Nat
  | silent => 0
  | error => 3
  | warning => 6
  | info => 10
  | debug => 30

/-- The word for a level. -/
def name : LogLevel → String
  | silent => "SILENT"
  | error => "ERROR"
  | warning => "WARNING"
  | info => "INFO"
  | debug => "DEBUG"

def ofName? (word : String) : Option LogLevel :=
  [silent, error, warning, info, debug].find? (·.name == word)

end LogLevel

/-- What a user can set: whether assembly has comments, the suffix of assembly files, whether
messages are written with time and level, and which messages are written. -/
structure Settings where
  comments : Bool := true
  suffix : String := ".asm"
  rich : Bool := false
  level : LogLevel := .warning
deriving Repr

/-- A message for the log. -/
structure LogEntry where
  level : LogLevel
  text : String
deriving DecidableEq, Repr

namespace LogEntry

def info (text : String) : LogEntry := ⟨.info, text⟩

def debug (text : String) : LogEntry := ⟨.debug, text⟩

/-- A message about something wrong. -/
def error (text : String) : LogEntry := ⟨.error, text⟩

/-- The message that a stage of the work begins, on a file if there is one. -/
def stage (name : String) (file : Option String := none) : LogEntry :=
  match file with
  | none | some "" => info (name ++ "...")
  | some file => info s!"{name} '{file}'"

/-- What stands before a message: the time and the level, if the settings ask for them. -/
def label (settings : Settings) (time : String) (e : LogEntry) : String :=
  if settings.rich && e.level ≠ .silent then s!"{time} [{e.level.name}] " else ""

/-- The lines that a message is written as. Without settings every message is written, after a
complaint. -/
def lines (settings : Option Settings) (time : String) (e : LogEntry) : List String :=
  match settings with
  | none => ["No context provided for logging.", e.text]
  | some settings =>
    if settings.level.rank < e.level.rank then [] else [e.label settings time ++ e.text]

end LogEntry

end CMinusMinus
