/-!
Lines of a text. Source snippets and assembly text are cut at every line boundary of Unicode; the
text of a file that is read has its three newline conventions made one.
-/
namespace CMinusMinus.Text

def isLineBreak (c : Char) : Bool :=
  let n := c.toNat
  (10 ≤ n && n ≤ 13) || (28 ≤ n && n ≤ 30) || n == 0x85 || n == 0x2028 || n == 0x2029

/-- The lines of a text without their ends; a carriage return and the line feed after it end one
line, and a text that ends with a line break has no empty line after it. -/
def lines : List Char → List (List Char)
  | [] => []
  | '\r' :: '\n' :: rest => [] :: lines rest
  | c :: rest =>
    if isLineBreak c then [] :: lines rest
    else match lines rest with
      | [] => [[c]]
      | line :: more => (c :: line) :: more

/-- The text with each carriage return, and the line feed that may follow it, made a line feed. -/
def unifyNewlines : List Char → List Char
  | [] => []
  | '\r' :: '\n' :: rest => '\n' :: unifyNewlines rest
  | '\r' :: rest => '\n' :: unifyNewlines rest
  | c :: rest => c :: unifyNewlines rest

/-- The lines of typed input: each ends with a line feed, and the last one counts without it if it
has any text. -/
def inputLines (cs : List Char) : List (List Char) :=
  match cs.splitOn '\n' |>.reverse with
  | [] :: rest => rest.reverse
  | all => all.reverse

end CMinusMinus.Text
