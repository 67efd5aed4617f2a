/-!
Assembly text: the lines of a program for the machine, the instructions that code is made of, and
how a line is written. Comments can be left out.
-/
namespace CMinusMinus.Assembly

/-- A register by its name. -/
abbrev Reg := String

namespace Reg

/-- The frame pointer. -/
def fp : Reg := "$fp"

/-- The stack pointer, which points at the first free word. -/
def sp : Reg := "$sp"

def ra : Reg := "$ra"

/-- The result of a function and the number of a system service. -/
def v0 : Reg := "$v0"

def a0 : Reg := "$a0"

def t0 : Reg := "$t0"

def t1 : Reg := "$t1"

def zero : Reg := "$zero"

end Reg

/-- A place in memory: a label of the data, or so many bytes from where a register points. -/
inductive Address where
  | label (name : String)
  | indexed (offset : Int) (base : Reg)
deriving DecidableEq, Repr

/-- A place in memory as it is written. -/
def Address.text : Address → String
  | label name => name
  | indexed offset base => s!"{offset}({base})"

/-- The last operand of a calculation: a register or a number. -/
inductive Operand where
  | reg (r : Reg)
  | imm (value : Int)
deriving DecidableEq, Repr

def Address.numbers : Address → List Int
  | label _ => []
  | indexed offset _ => [offset]

/-- An operand as it is written. -/
def Operand.text : Operand → String
  | reg r => r
  | imm value => toString value

def Operand.numbers : Operand → List Int
  | reg _ => []
  | imm value => [value]

/-- The calculations with two operands. -/
inductive Calc where
  | add | addu | addi | sub | subu | mul | div
  | seq | sne | slt | sgt | sle | sge
  | xori
deriving DecidableEq, Repr

def Calc.opcode : Calc → String
  | add => "add" | addu => "addu" | addi => "addi" | sub => "sub" | subu => "subu" | mul => "mul"
  | div => "div" | seq => "seq" | sne => "sne" | slt => "slt" | sgt => "sgt" | sle => "sle"
  | sge => "sge" | xori => "xori"

/-- The instructions that code is made of. -/
inductive Instr where
  | li (rd : Reg) (value : Int)
  | la (rd : Reg) (place : Address)
  | lw (rd : Reg) (place : Address)
  | sw (rs : Reg) (place : Address)
  | move (rd rs : Reg)
  | compute (op : Calc) (rd rs : Reg) (value : Operand)
  | beq (rs rt : Reg) (target : String)
  | bne (rs rt : Reg) (target : String)
  | b (target : String)
  | j (target : String)
  | jal (target : String)
  | jr (rs : Reg)
  | syscall
deriving DecidableEq, Repr

namespace Instr

def opcode : Instr → String
  | li .. => "li" | la .. => "la" | lw .. => "lw" | sw .. => "sw" | move .. => "move"
  | compute op .. => op.opcode
  | beq .. => "beq" | bne .. => "bne" | b _ => "b" | j _ => "j" | jal _ => "jal" | jr _ => "jr"
  | syscall => "syscall"

/-- The operands of an instruction as they are written. -/
def operands : Instr → List String
  | li rd value => [rd, toString value]
  | la r place | lw r place | sw r place => [r, place.text]
  | move rd rs => [rd, rs]
  | compute _ rd rs value => [rd, rs, value.text]
  | beq rs rt target | bne rs rt target => [rs, rt, target]
  | b target | j target | jal target => [target]
  | jr rs => [rs]
  | syscall => []

def numbers : Instr → List Int
  | li _ value => [value]
  | la _ place | lw _ place | sw _ place => place.numbers
  | compute _ _ _ value => value.numbers
  | _ => []

end Instr

/-- The lines of assembly text. An empty comment is no comment. -/
inductive Line where
  | instr (opcode : String) (operands : List String) (comment : String)
  | data (name opcode value comment : String)
  | label (name comment : String)
  | directive (name value : String)
  | remark (text : String)
  | blank
deriving DecidableEq, Repr

def trailing (comments : Bool) (comment : String) : String :=
  if comments && !comment.isEmpty then "\t\t#" ++ comment else ""

/-- The blanks between an opcode and its operands: opcodes are filled up to six columns. -/
def gap (opcode : String) : String := "".pushn ' ' (max 1 (6 - opcode.length))

/-- A line as it is written, if it is: a line that is all comment goes with the comments. -/
def Line.text? (comments : Bool) : Line → Option String
  | instr opcode operands comment =>
    let args := ", ".intercalate operands
    let written := if args.isEmpty then "\t" ++ opcode else "\t" ++ opcode ++ gap opcode ++ args
    some (written ++ trailing comments comment)
  | data name opcode value comment =>
    let value := if value.isEmpty then "" else " " ++ value
    some (name ++ ":\t" ++ opcode ++ value ++ trailing comments comment)
  | label name comment => some (name ++ ":" ++ trailing comments comment)
  | directive name value => some ("\t" ++ name ++ if value.isEmpty then "" else "\t" ++ value)
  | remark text => if comments then some ("\t\t# " ++ text) else none
  | blank => some ""

def written (comments : Bool) (lines : List Line) : List String :=
  lines.filterMap (Line.text? comments)

/-- Assembly text: each line ends with a line feed, and no lines at all make one empty line. -/
def render (comments : Bool) (lines : List Line) : String :=
  "\n".intercalate (written comments lines) ++ "\n"

end CMinusMinus.Assembly
