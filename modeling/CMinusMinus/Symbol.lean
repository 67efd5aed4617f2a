import CMinusMinus.Symbol.Table
import CMinusMinus.Ty

/-!
Symbols: the variables, functions and structs that a program declares, kept in one arena and
referred to by their index in it.
-/
namespace CMinusMinus

def wordSize : Int := 4

/-- A variable, parameter or struct field. The offset counts bytes within the frame or within the
struct; globals have none. A variable of a struct type refers to the struct. -/
structure Variable where
  name : String
  ty : Ty
  offset : Int := 0
  isGlobal : Bool := false
  structDef : Option Int := none
  size : Int := wordSize
deriving Repr

/-- A function. -/
structure Function where
  name : String
  params : List Ty
  result : Ty
deriving Repr

/-- A struct: its fields by name, and its size in bytes. -/
structure StructDef where
  name : String
  fields : SymbolTable
  size : Int
deriving Repr

/-- A symbol. -/
inductive Symbol where
  | var (v : Variable)
  | func (f : Function)
  | struct (d : StructDef)
deriving Repr

namespace Symbol

/-- The name of a symbol. -/
def name : Symbol → String
  | var v => v.name
  | func f => f.name
  | struct d => d.name

/-- The type of a symbol. -/
def ty : Symbol → Ty
  | var v => v.ty
  | func f => .func f.params f.result
  | struct d => .structDef d.name

end Symbol

/-- All symbols of a program, in order of declaration. -/
structure Arena where
  symbols : Array Symbol := #[]
deriving Repr

namespace Arena

/-- The number of symbols. -/
def size (a : Arena) : Nat := a.symbols.size

/-- The arena with one symbol more, whose index is the size before. -/
def push (a : Arena) (s : Symbol) : Arena := ⟨a.symbols.push s⟩

/-- The symbol at an index. -/
def get? (a : Arena) : Int → Option Symbol
  | .ofNat n => a.symbols[n]?
  | .negSucc _ => none

/-- The arena with another symbol at an index; an index out of range changes nothing. -/
def set (a : Arena) (index : Int) (s : Symbol) : Arena :=
  match index with
  | .ofNat n => ⟨a.symbols.setIfInBounds n s⟩
  | .negSucc _ => a

end Arena

end CMinusMinus
