/-!
Types of expressions and symbols. Besides the types a program can write there is one for the
name of a struct, one for functions, and the type of an expression that is already in error,
which agrees with no type at all.
-/
namespace CMinusMinus

/-- A type. `absent` stands where a hand-made symbol or expression leaves its type open. -/
inductive Ty where
  | int
  | bool
  | void
  | string
  | struct (name : String)
  | structDef (name : String)
  | func (params : List Ty) (result : Ty)
  | error
  | absent
deriving Repr

namespace Ty

def same : Ty → Ty → Bool
  | int, int | bool, bool | void, void | string, string | error, error | absent, absent => true
  | struct a, struct b => a == b
  | structDef a, structDef b => a == b
  | func ps r, func qs t => sameAll ps qs && same r t
  | _, _ => false
where
  /-- Whether two lists of types are the same in every place. -/
  sameAll : List Ty → List Ty → Bool
    | [], [] => true
    | p :: ps, q :: qs => same p q && sameAll ps qs
    | _, _ => false

/-- The type, unless it is left open: what has an open type counts as having none. -/
def known? : Ty → Option Ty
  | absent => none
  | t => some t

def isError : Ty → Bool
  | error => true
  | _ => false

def isInt : Ty → Bool
  | int => true
  | _ => false

def isBool : Ty → Bool
  | bool => true
  | _ => false

/-- Whether a type is the one of functions without a value. -/
def isVoid : Ty → Bool
  | void => true
  | _ => false

def isString : Ty → Bool
  | string => true
  | _ => false

def isFunction : Ty → Bool
  | func .. => true
  | _ => false

def isStruct : Ty → Bool
  | struct _ => true
  | _ => false

def isStructDef : Ty → Bool
  | structDef _ => true
  | _ => false

/-- Whether two types agree in a program: struct variables by the name of their struct, all other
types by their kind alone, and a type in error with nothing. -/
def agrees : Ty → Ty → Bool
  | int, int | bool, bool | void, void | string, string => true
  | struct a, struct b => a == b
  | structDef _, structDef _ => true
  | func .., func .. => true
  | _, _ => false

def ofWord? : String → Option Ty
  | "int" => some int
  | "bool" => some bool
  | "void" => some void
  | "string" => some string
  | _ => none

/-- A type as messages and symbol listings show it. -/
def shown : Ty → String
  | int => "int"
  | bool => "bool"
  | void => "void"
  | string => "string"
  | struct name => "struct " ++ name
  | structDef name => "struct-def " ++ name
  | func params result => "function(" ++ ", ".intercalate (shownAll params) ++ ") -> " ++ result.shown
  | error => "<error>"
  | absent => "<none>"
where
  /-- Each of the types as it is shown. -/
  shownAll : List Ty → List String
    | [] => []
    | p :: ps => p.shown :: shownAll ps

end Ty

end CMinusMinus
