import CMinusMinus.Host

/-!
Sessions in memory: a host whose files are on a disk that is a value, with a clock that stands
still. What a command has written before it ends stays, however it ends.
-/
namespace CMinusMinus

/-- The state of a session. The working directory lies somewhere on the disk, and messages name it by
a path. -/
structure World where
  disk : Disk := {}
  here : Location
  directory : Path
  time : String
  out : String := ""
  err : String := ""

/-- Work in a session. -/
abbrev Session := ExceptT Escape (StateM World)

namespace World

def isFile (w : World) (p : Path) : Bool := p.isUsable && w.disk.isFile w.here p

end World

instance : Host Session where
  isFile p := return (← get).isFile p
  read p := return (← get).disk.read (← get).here p
  write p text := do
    let w ← get
    if !p.isUsable then throw .unusablePath
    match w.disk.write w.here p text.toUTF8 with
    | .error e => return .error e
    | .ok disk =>
      set { w with disk }
      return .ok ()
  out text := modify fun w => { w with out := w.out ++ text }
  err text := modify fun w => { w with err := w.err ++ text }
  time := return (← get).time
  directory := return (← get).directory
  escape e := throw e

namespace Session

/-- What a session comes to: its result and the world after it. -/
def runIn {α : Type} (s : Session α) (w : World) : Except Escape α × World := s.run.run w

end Session

end CMinusMinus
