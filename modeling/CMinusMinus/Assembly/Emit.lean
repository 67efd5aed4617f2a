import CMinusMinus.Assembly
import CMinusMinus.Fault
import CMinusMinus.Text.Integer

/-!
Writing assembly in order. A piece of writing yields lines and carries two things along: the number
of words that the code written so far has on the evaluation stack, and for each kind of label the
number of the next one. A fault stops the writing; the lines before it stay.
-/
namespace CMinusMinus.Assembly

/-- The kinds of numbered labels. -/
inductive LabelKind where
  | shortCircuit | otherwise | endIf | loop | endLoop | string
deriving DecidableEq, Repr

def LabelKind.stem : LabelKind → String
  | shortCircuit => ".L"
  | otherwise => "ELSE_"
  | endIf => "ENDIF_"
  | loop => "LOOP_"
  | endLoop => "ENDLOOP_"
  | string => "STRING_"

/-- What writing carries along. -/
structure EmitState where
  depth : Int := 0
  counters : LabelKind → Nat := fun _ => 0

/-- What a piece of writing comes to. -/
structure Emitted (α : Type) where
  value : Except Fault α
  lines : List Line
  state : EmitState

def Emit (α : Type) : Type := EmitState → Emitted α

namespace Emit

/-- Writing that goes on after other writing, unless that was stopped. -/
protected def bind {α β : Type} (x : Emit α) (f : α → Emit β) : Emit β := fun s =>
  let first := x s
  match first.value with
  | .error fault => ⟨.error fault, first.lines, first.state⟩
  | .ok a =>
    let second := f a first.state
    ⟨second.value, first.lines ++ second.lines, second.state⟩

instance : Monad Emit where
  pure a := fun s => ⟨.ok a, [], s⟩
  bind := Emit.bind

def fail {α : Type} (fault : Fault) : Emit α := fun s => ⟨.error fault, [], s⟩

def ofExcept {α : Type} (x : Except Fault α) : Emit α := fun s => ⟨x, [], s⟩

/-- Writes a line. -/
def line (l : Line) : Emit Unit := fun s => ⟨.ok (), [l], s⟩

/-- The text of a number, which is not to have too many digits. -/
def number (n : Int) : Emit String :=
  if Text.isWritable n then pure (toString n) else fail .numeralTooLong

def instr (i : Instr) (comment : String := "") : Emit Unit :=
  if i.numbers.all Text.isWritable then line (.instr i.opcode i.operands comment)
  else fail .numeralTooLong

def depth : Emit Int := fun s => ⟨.ok s.depth, [], s⟩

def setDepth (n : Int) : Emit Unit := fun s => ⟨.ok (), [], { s with depth := n }⟩

/-- Takes words off the evaluation stack, which must have them. -/
def shrink (words : Int) : Emit Unit := do
  let n ← depth
  setDepth (n - words)
  if n - words < 0 then fail (.internal .stackUnderflow none)

def push (r : Reg) : Emit Unit := do
  instr (.sw r (.indexed 0 .sp)) "PUSH"
  instr (.compute .subu .sp .sp (.imm 4))
  setDepth ((← depth) + 1)

def pop (r : Reg) : Emit Unit := do
  instr (.lw r (.indexed 4 .sp)) "POP"
  instr (.compute .addu .sp .sp (.imm 4))
  shrink 1

def drop (words : Int) : Emit Unit := do
  if words ≠ 0 then
    instr (.compute .addu .sp .sp (.imm (4 * words)))
    shrink words

def freshLabel (kind : LabelKind) : Emit String := fun s =>
  let n := s.counters kind
  let counters := fun k => if k = kind then n + 1 else s.counters k
  ⟨.ok (kind.stem ++ toString n), [], { s with counters }⟩

end Emit

def globalLabel (name : String) : String := "_" ++ name

/-- The label of a function; the one that a program starts with keeps its name. -/
def functionLabel (name : String) : String := if name = "main" then "main" else "_" ++ name

def exitLabel (name : String) : String := "exit_" ++ name

end CMinusMinus.Assembly
