import CMinusMinus.Assembly
import CMinusMinus.Machine

/-!
Running a loaded program, one instruction after the other, for a limited number of steps. Registers
hold signed words of 32 bits and wrap around; addresses and words of memory do not.
-/
namespace CMinusMinus.Machine

open Assembly (Calc)

/-- The first address of the stack, which grows downwards. -/
def stackTop : Int := 0x7ffffffc

def wordRange : Nat := 4294967296

/-- A number brought into the range of a signed word of 32 bits. -/
def wrap (n : Int) : Int := n.bmod wordRange

/-- What a running program changes. -/
structure State where
  pc : Int := 0
  regs : Std.TreeMap String Int := {}
  memory : Std.TreeMap Int Int := {}
  output : String := ""
  inputs : List Int := []

namespace State

/-- The value of a register: zero if it was never set. -/
def reg (s : State) (name : String) : Int :=
  if name = "$zero" then 0 else s.regs.getD name 0

/-- The state with a register set. The register that holds zero cannot be. -/
def setReg (s : State) (name : String) (value : Int) : State :=
  if name = "$zero" then s else { s with regs := s.regs.insert name (wrap value) }

end State

/-- The operations of the machine. -/
inductive Op where
  | li | la | lw | sw | move
  | compute (what : Calc)
  | beq | bne | jump | jal | jr
  | syscall
deriving DecidableEq, Repr

def calcs : List Calc :=
  [.add, .addu, .addi, .sub, .subu, .mul, .div, .seq, .sne, .slt, .sgt, .sle, .sge, .xori]

def Op.ofOpcode? : String → Option Op
  | "li" => some .li
  | "la" => some .la
  | "lw" => some .lw
  | "sw" => some .sw
  | "move" => some .move
  | "beq" => some .beq
  | "bne" => some .bne
  | "b" => some .jump
  | "j" => some .jump
  | "jal" => some .jal
  | "jr" => some .jr
  | "syscall" => some .syscall
  | opcode => (calcs.find? fun c => c.opcode == opcode).map .compute

def flag (b : Bool) : Int := if b then 1 else 0

/-- The bits of a number that are set in one of two words and not in the other. -/
def xor32 (a b : Int) : Int := ((a % wordRange).toNat ^^^ (b % wordRange).toNat : Nat)

/-- The result of a calculation. Division goes towards zero, and not by zero. -/
def calculate (what : Calc) (a b : Int) : Except Error Int :=
  match what with
  | .add | .addu | .addi => .ok (a + b)
  | .sub | .subu => .ok (a - b)
  | .mul => .ok (a * b)
  | .div => if b = 0 then .error .divisionByZero else .ok (a.tdiv b)
  | .seq => .ok (flag (a = b))
  | .sne => .ok (flag (a ≠ b))
  | .slt => .ok (flag (a < b))
  | .sgt => .ok (flag (a > b))
  | .sle => .ok (flag (a ≤ b))
  | .sge => .ok (flag (a ≥ b))
  | .xori => .ok (xor32 a b)

/-- A step of the machine: it changes the state, and a failure keeps the changes before it. -/
abbrev ExecM := EStateM Error State

def ofExcept {α : Type} : Except Error α → ExecM α
  | .ok a => pure a
  | .error e => throw e

def operand (args : List String) (n : Nat) : ExecM String :=
  match args[n]? with
  | some text => pure text
  | none => throw .missingOperand

/-- The value of a register. -/
def reg (name : String) : ExecM Int := return (← get).reg name

def setReg (name : String) (value : Int) : ExecM Unit := modify (·.setReg name value)

/-- The value of an operand that is a register or a number. -/
def valueOf (text : String) : ExecM Int :=
  if text.toList.head? = some '$' then reg text else ofExcept (number text.toList)

/-- The number and the register of an operand such as `-8($fp)`. -/
def indexed? (cs : List Char) : Option (List Char × String) :=
  let (sign, rest) := match cs with
    | '-' :: rest => (['-'], rest)
    | _ => ([], cs)
  let digits := rest.takeWhile Text.isDecimal
  match digits, rest.dropWhile Text.isDecimal with
  | _ :: _, '(' :: '$' :: more =>
    let name := more.takeWhile Text.isWordChar
    if !name.isEmpty && more.dropWhile Text.isWordChar = [')'] then
      some (sign ++ digits, String.ofList ('$' :: name))
    else none
  | _, _ => none

/-- The address that an operand stands for: some bytes from where a register points, or a label of
the data. -/
def addressOf (image : Image) (text : String) : ExecM Int := do
  match indexed? text.toList with
  | some (offset, base) => return (← reg base) + (← ofExcept (number offset))
  | none =>
    match image.dataLabels[text]? with
    | some address => return address
    | none => throw (.badAddress text)

def targetOf (image : Image) (label : String) : ExecM Int :=
  match image.textLabels[label]? with
  | some index => return index
  | none => throw (.unknownLabel label)

def jump (image : Image) (label : String) : ExecM Unit := do
  let pc ← targetOf image label
  modify fun s => { s with pc }

/-- Carries out the service that a register asks for, and tells whether the program ends. -/
def service (image : Image) : ExecM Bool := do
  let number ← reg "$v0"
  if number = 1 then
    let value ← reg "$a0"
    modify fun s => { s with output := s.output ++ toString value }
    return false
  else if number = 4 then
    let address ← reg "$a0"
    match image.texts[address]? with
    | none => throw (.noText address)
    | some text =>
      modify fun s => { s with output := s.output ++ text }
      return false
  else if number = 5 then
    match (← get).inputs with
    | [] => throw .inputExhausted
    | value :: inputs =>
      modify fun s => { s with inputs }
      setReg "$v0" value
      return false
  else if number = 10 then return true
  else throw (.unsupportedService number)

/-- Carries out an instruction, with the place of the next one already in the state, and tells
whether the program ends. -/
def exec (image : Image) (i : Instruction) : ExecM Bool := do
  let args := i.operands
  match Op.ofOpcode? i.opcode with
  | none => throw (.unsupportedInstruction i.line i.opcode)
  | some .li =>
    let rd ← operand args 0
    let value ← operand args 1
    setReg rd (← ofExcept (number value.toList))
    return false
  | some .la =>
    let rd ← operand args 0
    let place ← operand args 1
    setReg rd (← addressOf image place)
    return false
  | some .lw =>
    let rd ← operand args 0
    let place ← operand args 1
    let address ← addressOf image place
    setReg rd ((← get).memory.getD address 0)
    return false
  | some .sw =>
    let value ← reg (← operand args 0)
    let place ← operand args 1
    let address ← addressOf image place
    modify fun s => { s with memory := s.memory.insert address value }
    return false
  | some .move =>
    let rd ← operand args 0
    let rs ← operand args 1
    setReg rd (← reg rs)
    return false
  | some (.compute what) =>
    let rd ← operand args 0
    let a ← reg (← operand args 1)
    let b ← valueOf (← operand args 2)
    setReg rd (← ofExcept (calculate what a b))
    return false
  | some .beq =>
    let a ← reg (← operand args 0)
    let b ← valueOf (← operand args 1)
    if a = b then jump image (← operand args 2)
    return false
  | some .bne =>
    let a ← reg (← operand args 0)
    let b ← valueOf (← operand args 1)
    if a ≠ b then jump image (← operand args 2)
    return false
  | some .jump =>
    jump image (← operand args 0)
    return false
  | some .jal =>
    setReg "$ra" (← get).pc
    jump image (← operand args 0)
    return false
  | some .jr =>
    let pc ← reg (← operand args 0)
    modify fun s => { s with pc }
    return false
  | some .syscall => service image

def Image.fetch? (image : Image) : Int → Option Instruction
  | .ofNat n => image.text[n]?
  | .negSucc _ => none

/-- One step: fetches an instruction and carries it out. -/
def step (image : Image) : ExecM Bool := do
  let pc := (← get).pc
  match image.fetch? pc with
  | none => throw (.outsideProgram pc)
  | some i =>
    modify fun s => { s with pc := pc + 1 }
    exec image i

/-- How a run ends: with the program or by an error, and in which state. -/
structure Outcome where
  state : State
  error : Option Error

def runFrom (image : Image) : Nat → State → Outcome
  | 0, s => ⟨s, some .stepLimit⟩
  | steps + 1, s =>
    match step image s with
    | .ok true s => ⟨s, none⟩
    | .ok false s => runFrom image steps s
    | .error e s => ⟨s, some e⟩

def initial (image : Image) (inputs : List Int) : State :=
  ({ memory := image.memory, inputs } : State).setReg "$sp" stackTop |>.setReg "$fp" stackTop

/-- Runs a program from its label `main` on, for a number of steps at most. -/
def run (image : Image) (inputs : List Int) (steps : Nat) : Outcome :=
  let s := initial image inputs
  match image.textLabels["main"]? with
  | none => ⟨s, some (.unknownLabel "main")⟩
  | some pc => runFrom image steps { s with pc := pc }

/-- Loads assembly text and runs it; a text that is refused leaves the machine as it was. -/
def simulate (asm : String) (inputs : List Int) (steps : Nat) : Image × Outcome :=
  match load asm with
  | (image, some e) => (image, ⟨{ memory := image.memory }, some e⟩)
  | (image, none) => (image, run image inputs steps)

end CMinusMinus.Machine
