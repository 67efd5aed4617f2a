/-!
Places in a source text. Lines and columns count from one, and a column counts characters.
-/
namespace CMinusMinus

/-- A place in a source text. -/
structure Position where
  line : Int
  column : Int
deriving DecidableEq, Repr

namespace Position

/-- Where a text starts. -/
def start : Position := ⟨1, 1⟩

def next (p : Position) (c : Char) : Position :=
  if c = '\n' then ⟨p.line + 1, 1⟩ else ⟨p.line, p.column + 1⟩

/-- The place after a run of characters. -/
def after (p : Position) (cs : List Char) : Position := cs.foldl next p

/-- The place so many characters further on the same line. -/
def right (p : Position) (width : Nat) : Position := ⟨p.line, p.column + width⟩

end Position

/-- The part of a source text from one place up to and without another. -/
structure Span where
  start : Position
  stop : Position
deriving DecidableEq, Repr

end CMinusMinus
