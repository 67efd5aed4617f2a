import CMinusMinus.Text.Alphanumeric
import CMinusMinus.Text.Blank

/-!
Reading integers: blanks around, an optional sign, decimal digits of any script with single
underscores between them, and not more digits than the limit. An integer beyond the limit is not
written either.
-/
namespace CMinusMinus.Text

def digitLimit : Nat := 4300

/-- The least number that takes more digits than the limit. -/
def unwritable : Nat := Nat.pow 10 digitLimit

/-- Whether an integer can be written. -/
def isWritable (n : Int) : Bool := n.natAbs < unwritable

/-- The digits of a numeral, in which an underscore may stand between two digits. -/
def digitsOf? : List Char → Option (List Nat)
  | [] => none
  | [c] => (decimalValue? c).map ([·])
  | c :: '_' :: rest => do
    let d ← decimalValue? c
    let ds ← digitsOf? rest
    return d :: ds
  | c :: rest => do
    let d ← decimalValue? c
    let ds ← digitsOf? rest
    return d :: ds

/-- The number that a list of decimal digits stands for. -/
def ofDigits (digits : List Nat) : Nat := digits.foldl (fun n d => 10 * n + d) 0

def readNat? (cs : List Char) : Option Nat :=
  match digitsOf? cs with
  | some digits => if digits.length ≤ digitLimit then some (ofDigits digits) else none
  | none => none

/-- The blanks that may stand around a number; the information separators are not among them. -/
def isNumberBlank (c : Char) : Bool := isBlank c && !(28 ≤ c.toNat && c.toNat ≤ 31)

def readInt? (cs : List Char) : Option Int :=
  let cs := (cs.dropWhile isNumberBlank).reverse.dropWhile isNumberBlank |>.reverse
  match cs with
  | '-' :: digits => (readNat? digits).map fun n => -(n : Int)
  | '+' :: digits => (readNat? digits).map Int.ofNat
  | digits => (readNat? digits).map Int.ofNat

end CMinusMinus.Text
