import CMinusMinus.Command.Arguments
import CMinusMinus.Compilation.Files

/-!
Commands of the compiler and how a command line asks for one. Options that hold for all commands
stand before the command, its own options and files after it.
-/
namespace CMinusMinus

/-- A command. -/
inductive Command where
  | build (files : List String) (output : Output)
  | check (files : List String)
  | tokens (file : String) (withEnd : Bool)
  | symbols (file : String)
  | prompt
deriving DecidableEq, Repr

/-- A command with the settings it is to run under. -/
structure Invocation where
  settings : Settings
  command : Command
deriving Repr

namespace Command

/-- Why a command line asks for no command: it is not understood, or it asks for help. -/
inductive Refusal where
  | usage
  | help
deriving DecidableEq, Repr

def commonFlags : Flags :=
  [("-h", .help), ("--help", .help), ("-v", .verbose), ("--verbose", .verbose), ("-l", .rich),
    ("--log", .rich), ("--no-comments", .noComments)]

/-- The kinds of command. -/
inductive Kind where
  | build | check | tokens | symbols | prompt
deriving DecidableEq, Repr

def Kind.ofWord? : String → Option Kind
  | "build" | "gen" => some build
  | "check" | "analyze" => some check
  | "tok" | "tokens" => some tokens
  | "sym" | "symbols" => some symbols
  | "prompt" => some prompt
  | _ => none

def Kind.flags : Kind → Flags
  | build => [("-h", .help), ("--help", .help), ("--output", .output), ("-o", .output)]
  | tokens => [("-h", .help), ("--help", .help), ("--include-eof", .includeEnd), ("-I", .includeEnd)]
  | _ => [("-h", .help), ("--help", .help)]

def Kind.accepts (kind : Kind) (files : List String) : Bool :=
  match kind with
  | build | check => !files.isEmpty
  | tokens | symbols => files.length = 1
  | prompt => files.isEmpty

/-- What has been read of a command line so far: the options, each with its value, and the runs of
words between options. -/
structure Read where
  flags : List (Flag × Option String) := []
  runs : List (List String) := []
  stray : Bool := false

/-- The output that the value of an option stands for; two dashes name nothing. -/
def outputOf : Option String → Output
  | none => .beside
  | some "--" => .unnamed
  | some path => .named path

/-- The read arguments with one more word, in the last run or in a new one. -/
def Read.addWord (r : Read) (fresh : Bool) (text : String) : Read :=
  match fresh, r.runs.reverse with
  | false, last :: before => { r with runs := (before.reverse) ++ [last ++ [text]] }
  | _, _ => { r with runs := r.runs ++ [[text]] }

/-- Reads the arguments of a command. `fresh` says that the next word starts a new run. A value that
is not attached to its option is the word after it. -/
def readArguments (r : Read) (fresh : Bool) : List Argument → Except Refusal Read
  | [] => .ok r
  | .word text :: rest => readArguments (r.addWord fresh text) false rest
  | .dashes :: rest => readArguments { r with stray := r.stray || rest.isEmpty && fresh } fresh rest
  | .unknown :: rest => readArguments { r with stray := true } true rest
  | .refused :: _ | .ambiguous :: _ => .error .usage
  | .options flags :: rest =>
    if flags.any fun (flag, _) => flag = .help then .error .help
    else match flags.getLast? with
      | some (flag, none) =>
        if flag.takesValue then
          match rest with
          | .word value :: rest =>
            let flags := flags.dropLast ++ [(flag, some value)]
            readArguments { r with flags := r.flags ++ flags } true rest
          | _ => .error .usage
        else readArguments { r with flags := r.flags ++ flags } true rest
      | _ => readArguments { r with flags := r.flags ++ flags } true rest

/-- The arguments as they are understood. An option that could be several is refused before any
other is looked at. -/
def understood (flags : Flags) (args : List String) : Except Refusal (List Argument) :=
  let all := arguments flags args
  if all.contains .ambiguous then .error .usage else .ok all

/-- The command of a kind with its arguments. All files must stand together. -/
def ofArguments (kind : Kind) (args : List String) : Except Refusal Command := do
  let read ← readArguments {} true (← understood kind.flags args)
  let files := read.runs.flatten
  let output := outputOf (read.flags.reverse.lookup .output).join
  if read.stray || read.runs.length > 1 || !kind.accepts files then .error .usage
  else match kind, files with
    | .build, files => .ok (.build files output)
    | .check, files => .ok (.check files)
    | .tokens, file :: _ => .ok (.tokens file ((read.flags.lookup .includeEnd).isSome))
    | .symbols, file :: _ => .ok (.symbols file)
    | .prompt, _ => .ok .prompt
    | _, [] => .error .usage

/-- What is written to the log, by how often the user asked for more. -/
def levelFor (verbosity : Nat) : LogLevel :=
  if verbosity ≥ 3 then .debug else if verbosity ≥ 1 then .info else .error

def settingsFor (flags : List Flag) : Settings :=
  { comments := !flags.contains .noComments
    rich := flags.contains .rich
    level := levelFor (flags.count .verbose) }

end Command

namespace Invocation

/-- Reads options up to the command, and the command from there on. -/
def ofArgsFrom (flags : List Command.Flag) (stray : Bool) :
    List String → Except Command.Refusal Invocation
  | [] => .error .usage
  | text :: rest =>
    if text = "--" then .error .usage
    else match Command.Argument.ofText Command.commonFlags text with
      | .word name =>
        match Command.Kind.ofWord? name with
        | none => .error .usage
        | some kind =>
          match Command.ofArguments kind rest with
          | .error e => .error e
          | .ok command =>
            if stray then .error .usage else .ok ⟨Command.settingsFor flags, command⟩
      | .options more =>
        if more.any fun (flag, _) => flag = .help then .error .help
        else ofArgsFrom (flags ++ more.map (·.1)) stray rest
      | .unknown => ofArgsFrom flags true rest
      | .dashes | .refused | .ambiguous => .error .usage

/-- The invocation that a command line asks for. The options of the command, too, must be clear
among those before it. -/
def ofArgs (args : List String) : Except Command.Refusal Invocation := do
  let _ ← Command.understood Command.commonFlags args
  ofArgsFrom [] false args

end Invocation

end CMinusMinus
