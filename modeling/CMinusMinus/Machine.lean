import Std.Data.TreeMap
import CMinusMinus.Text.Integer
import CMinusMinus.Text.Lines
import CMinusMinus.Text.Quoted

/-!
The machine that assembly is for: what it can refuse to do, and how assembly text is loaded into
it. Instructions are kept as they are written and looked at when they are executed.
-/
namespace CMinusMinus.Machine

/-- Why the machine stops before the program ends. -/
inductive Error where
  | badText (operand : String)
  | unsupportedDirective (name : String)
  | badAddress (operand : String)
  | unknownLabel (label : String)
  | outsideProgram (pc : Int)
  | divisionByZero
  | unsupportedInstruction (line : Nat) (opcode : String)
  | stepLimit
  | noText (address : Int)
  | inputExhausted
  | unsupportedService (number : Int)
  | badNumber
  | missingOperand
deriving DecidableEq, Repr

def hexadecimal (n : Int) : String :=
  (if n < 0 then "-0x" else "0x") ++ String.ofList (Nat.toDigits 16 n.natAbs)

def Error.message : Error → String
  | badText operand => s!"bad .asciiz operand {Text.quoted operand}"
  | unsupportedDirective name => s!"unsupported directive {name}"
  | badAddress operand => s!"bad address operand {Text.quoted operand}"
  | unknownLabel label => s!"unknown label {Text.quoted label}"
  | outsideProgram pc => s!"pc {pc} outside the program"
  | divisionByZero => "division by zero"
  | unsupportedInstruction line opcode => s!"line {line}: unsupported instruction {opcode}"
  | stepLimit => "step limit exceeded"
  | noText address => s!"no string at {hexadecimal address}"
  | inputExhausted => "read past end of input"
  | unsupportedService number => s!"unsupported syscall {number}"
  | badNumber => "not a number"
  | missingOperand => "operand missing"

/-- An instruction as it is written, with the number of its line. -/
structure Instruction where
  opcode : String
  operands : List String
  line : Nat
deriving DecidableEq, Repr

def dataBase : Int := 0x10010000

/-- A loaded program: its instructions, the labels of its text and its data, and what the data holds
at first. Texts lie beside the words of memory. -/
structure Image where
  text : Array Instruction := #[]
  textLabels : Std.TreeMap String Nat := {}
  dataLabels : Std.TreeMap String Int := {}
  memory : Std.TreeMap Int Int := {}
  texts : Std.TreeMap Int String := {}
  dataNext : Int := dataBase

/-- The line up to its comment: a hash sign outside of quotes. -/
def stripComment (quoted escaped : Bool) : List Char → List Char
  | [] => []
  | c :: rest =>
    if escaped then c :: stripComment quoted false rest
    else if c = '\\' && quoted then c :: stripComment quoted true rest
    else if c = '"' then c :: stripComment (!quoted) false rest
    else if c = '#' && !quoted then []
    else c :: stripComment quoted false rest

def escaped : Char → Char
  | 'n' => '\n'
  | 't' => '\t'
  | c => c

def unescape : List Char → List Char
  | '\\' :: c :: rest => escaped c :: unescape rest
  | c :: rest => c :: unescape rest
  | [] => []

def textLiteral (operand : List Char) : Except Error (List Char) :=
  let cs := Text.trim operand
  if 2 ≤ cs.length && cs.head? = some '"' && cs.getLast? = some '"' then
    .ok (unescape (cs.drop 1).dropLast)
  else .error (.badText (String.ofList cs))

def number (cs : List Char) : Except Error Int :=
  match Text.readInt? cs with
  | some n => .ok n
  | none => .error .badNumber

namespace Image

/-- The image with copies of a word at the end of its data. -/
def words (image : Image) (value : Int) : Nat → Image
  | 0 => image
  | count + 1 =>
    { image with memory := image.memory.insert image.dataNext value
                 dataNext := image.dataNext + 4 }.words value count

def directive (image : Image) (name : String) (value : List Char) : Except Error Image := do
  match name with
  | ".align" =>
    let bits ← number value
    if bits < 0 then throw .badNumber
    let unit : Int := ((1 <<< bits.toNat : Nat) : Int)
    return { image with dataNext := (image.dataNext + unit - 1) / unit * unit }
  | ".space" => return { image with dataNext := image.dataNext + (← number value) }
  | ".word" =>
    let count := (value.dropWhile (· ≠ ':')).drop 1
    let count ← if count.isEmpty then pure 1 else number count
    if count ≤ 0 then return image
    let word ← number (value.takeWhile (· ≠ ':'))
    return image.words word count.toNat
  | ".asciiz" =>
    let text ← textLiteral value
    return { image with
      texts := image.texts.insert image.dataNext (String.ofList text)
      dataNext := image.dataNext + (text.length + 4 : Nat) / 4 * 4 }
  | _ => throw (.unsupportedDirective name)

end Image

def isLabelStart (c : Char) : Bool := c.isAlpha || c == '_' || c == '.' || c == '$'

def isLabelPart (c : Char) : Bool := Text.isWordChar c || c == '.' || c == '$'

/-- The label at the start of a line, and the rest of the line. -/
def splitLabel? (line : List Char) : Option (String × List Char) :=
  match line with
  | [] => none
  | c :: rest =>
    if isLabelStart c then
      match rest.dropWhile isLabelPart with
      | ':' :: after => some (String.ofList (c :: rest.takeWhile isLabelPart), Text.trim after)
      | _ => none
    else none

/-- The first word of a line, and the rest after the blanks that follow it. -/
def splitWord (line : List Char) : String × List Char :=
  (String.ofList (line.takeWhile (!Text.isBlank ·)),
    Text.trimStart (line.dropWhile (!Text.isBlank ·)))

/-- How far the loading of a text has come. Labels belong to the data after `.data`, and to the
instructions otherwise. -/
structure Loading where
  image : Image := {}
  inData : Bool := false
  error : Option Error := none

namespace Loading

def label (l : Loading) (name : String) : Loading :=
  if l.inData then
    { l with image.dataLabels := l.image.dataLabels.insert name l.image.dataNext }
  else { l with image.textLabels := l.image.textLabels.insert name l.image.text.size }

def content (l : Loading) (lineNumber : Nat) (line : List Char) : Loading :=
  let (opcode, rest) := splitWord line
  if opcode = ".text" then { l with inData := false }
  else if opcode = ".data" then { l with inData := true }
  else if opcode = ".globl" then l
  else if opcode.toList.head? = some '.' then
    match l.image.directive opcode rest with
    | .ok image => { l with image }
    | .error e => { l with error := some e }
  else
    let operands := if rest.isEmpty then []
      else (rest.splitOn ',').map fun cs => String.ofList (Text.trim cs)
    { l with image.text := l.image.text.push ⟨opcode, operands, lineNumber⟩ }

/-- Loads a line. -/
def line (l : Loading) (lineNumber : Nat) (raw : List Char) : Loading :=
  let cs := Text.trim (stripComment false false raw)
  if cs.isEmpty then l
  else match splitLabel? cs with
    | none => l.content lineNumber cs
    | some (name, rest) =>
      let l := l.label name
      if rest.isEmpty then l else l.content lineNumber rest

/-- Loads lines in order, up to the first that is refused. -/
def lines (l : Loading) (lineNumber : Nat) : List (List Char) → Loading
  | [] => l
  | raw :: rest =>
    let l := l.line lineNumber raw
    if l.error.isSome then l else l.lines (lineNumber + 1) rest

end Loading

/-- Loads assembly text. If a line is refused, what was loaded before it stays. -/
def load (asm : String) : Image × Option Error :=
  let l := Loading.lines {} 1 (Text.lines asm.toList)
  (l.image, l.error)

end CMinusMinus.Machine
