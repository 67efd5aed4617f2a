import CMinusMinus.Analysis

/-!
Frame layout. The parameters and local variables of a function lie one after the other below its
frame pointer: parameters first, then the variables of the body and of its blocks in the order of
the text. No slot is used twice. Declarations that name analysis refused get none.
-/
namespace CMinusMinus.Frames

/-- The offset of the first slot, past the saved return address and frame pointer. -/
def firstOffset : Int := 2 * wordSize

/-- What the layout carries along: the symbols, the next free offset, the finished frames, and the
fault that stopped it. -/
structure State where
  file : Option String
  arena : Arena
  frames : List (String × Int)
  next : Int := firstOffset
  fault : Option Fault := none

abbrev FramesM := StateM State

/-- Stops the layout. The first fault is the one that counts. -/
def stop (fault : Fault) : FramesM Unit :=
  modify fun s => if s.fault.isSome then s else { s with fault := some fault }

/-- The next slot goes to a declared variable. -/
def place (x : Ident) : FramesM Unit := do
  let s ← get
  if s.fault.isSome then return
  match x.binding with
  | .unvisited | .unresolved => return
  | .symbol index =>
    match s.arena.get? index with
    | none => stop (.outOfRange index)
    | some (.var v) =>
      if v.isGlobal then
        stop (.internal (.framesNotLocal x.name) (some ⟨s.file, x.note.span⟩))
      else
        set { s with
          arena := s.arena.set index (.var { v with offset := s.next })
          next := s.next + v.size }
    | some _ => stop (.internal (.framesNotLocal x.name) (some ⟨s.file, x.note.span⟩))

/-- Each of the declared variables gets a slot, in order. -/
def placeAll (decls : List VarDecl) : FramesM Unit := decls.forM fun d => place d.name

mutual

/-- The variables of a statement's blocks get their slots. -/
def stmt : Stmt → FramesM Unit
  | .ifThen _ _ body => block body
  | .ifElse _ _ body other => do
    block body
    block other
  | .loop _ _ body => block body
  | _ => return ()

def stmts : List Stmt → FramesM Unit
  | [] => return ()
  | s :: ss => do
    stmt s
    stmts ss

def block : Block → FramesM Unit
  | .mk _ decls body => do
    placeAll decls
    stmts body

end

/-- The frames with a function's size; a function of the same name gives way in its place. -/
def setFrame (frames : List (String × Int)) (name : String) (size : Int) : List (String × Int) :=
  if (frames.lookup name).isSome then
    frames.map fun (n, s) => if n = name then (n, size) else (n, s)
  else frames ++ [(name, size)]

def fnDecl (d : FnDecl) : FramesM Unit := do
  modify fun s => { s with next := firstOffset }
  placeAll d.formals
  block d.body
  modify fun s =>
    if s.fault.isSome then s
    else { s with frames := setFrame s.frames d.name.name (s.next - firstOffset) }

/-- Lays out a declaration at the top of the program; globals need no slot. -/
def decl : Decl → FramesM Unit
  | .var _ | .struct _ => return ()
  | .fn d => fnDecl d
  | .misfit span kind => do
    stop (.internal (.framesDecl kind) (some ⟨(← get).file, span⟩))

end CMinusMinus.Frames

namespace CMinusMinus

/-- Lays out the frames of a program, and gives the fault that stopped the layout, if any. -/
def Analysis.layOutFrames (a : Analysis) : Analysis × Option Fault :=
  match a.program with
  | none => (a, some (.internal .framesWithoutProgram none))
  | some p =>
    let start : Frames.State := { file := a.file, arena := a.arena, frames := a.frames }
    let (_, s) := (p.decls.forM Frames.decl).run start
    ({ a with arena := s.arena, frames := s.frames }, s.fault)

end CMinusMinus
