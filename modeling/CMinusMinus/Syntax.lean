import CMinusMinus.Span
import CMinusMinus.Ty

/-!
Programs as trees. A tree carries what the analyses record on it: the symbol an identifier is
bound to, the struct a field access reaches, and the type of an expression. Trees may be made by
hand, so operators and nodes that the grammar does not produce have a place too; each analysis
says what it does with them.
-/
namespace CMinusMinus

/-- What name analysis made of an identifier: nothing yet, a failure, or the index of a symbol. -/
inductive Binding where
  | unvisited
  | unresolved
  | symbol (index : Int)
deriving DecidableEq, Repr

/-- The binding to an index; minus one marks a failure. -/
def Binding.ofIndex (index : Int) : Binding := if index = -1 then .unresolved else .symbol index

/-- What is known about an expression: where it stands, and its type once that is recorded. -/
structure Note where
  span : Option Span := none
  ty : Option Ty := none
deriving Repr

/-- A type as it is written: a word, or the name of a struct. -/
structure TypeName where
  span : Option Span := none
  name : String
  isStruct : Bool := false
deriving Repr

/-- An identifier, used or declared. -/
structure Ident where
  note : Note := {}
  name : String
  binding : Binding := .unvisited
deriving Repr

/-- The operators before an operand. -/
inductive UnaryOp where
  | neg
  | not
  | other (sign : String)
deriving DecidableEq, Repr

/-- The operators between two operands. -/
inductive BinaryOp where
  | add | sub | mul | div
  | and | or
  | eq | ne
  | lt | gt | le | ge
  | other (sign : String)
deriving DecidableEq, Repr

namespace UnaryOp

/-- The sign of an operator. -/
def sign : UnaryOp → String
  | neg => "-"
  | not => "!"
  | other s => s

def ofSign : String → UnaryOp
  | "-" => neg
  | "!" => not
  | s => other s

end UnaryOp

namespace BinaryOp

/-- The sign of an operator. -/
def sign : BinaryOp → String
  | add => "+" | sub => "-" | mul => "*" | div => "/"
  | and => "&&" | or => "||"
  | eq => "==" | ne => "!="
  | lt => "<" | gt => ">" | le => "<=" | ge => ">="
  | other s => s

def ofSign : String → BinaryOp
  | "+" => add | "-" => sub | "*" => mul | "/" => div
  | "&&" => and | "||" => or
  | "==" => eq | "!=" => ne
  | "<" => lt | ">" => gt | "<=" => le | ">=" => ge
  | s => other s

end BinaryOp

/-- Expressions. A field access records the struct that its field is an instance of, and whether
name analysis gave it up. A misfit is a node of a kind that does not belong where it stands, of which
only the kind counts. -/
inductive Expr where
  | int (note : Note) (value : Int)
  | string (note : Note) (text : String)
  | bool (note : Note) (value : Bool)
  | ident (id : Ident)
  | dot (note : Note) (obj : Expr) (field : Ident) (structDef : Option Int) (bad : Bool)
  | assign (note : Note) (target value : Expr)
  | call (note : Note) (callee : Ident) (args : List Expr)
  | unary (note : Note) (op : UnaryOp) (operand : Expr)
  | binary (note : Note) (op : BinaryOp) (left right : Expr)
  | misfit (note : Note) (kind : String)
deriving Repr

namespace Expr

/-- What is known about an expression. -/
def note : Expr → Note
  | int n _ | string n _ | bool n _ | dot n .. | assign n .. | call n .. | unary n .. | binary n ..
  | misfit n _ => n
  | ident id => id.note

def withNote (n : Note) : Expr → Expr
  | int _ v => int n v
  | string _ t => string n t
  | bool _ v => bool n v
  | ident id => ident { id with note := n }
  | dot _ obj field structDef bad => dot n obj field structDef bad
  | assign _ target value => assign n target value
  | call _ callee args => call n callee args
  | unary _ op operand => unary n op operand
  | binary _ op left right => binary n op left right
  | misfit _ kind => misfit n kind

/-- Where an expression stands. -/
def span (e : Expr) : Option Span := e.note.span

/-- The recorded type of an expression. -/
def ty (e : Expr) : Option Ty := e.note.ty

def withTy (t : Ty) (e : Expr) : Expr := e.withNote { e.note with ty := some t }

/-- The name of an expression's kind in internal errors. -/
def kind : Expr → String
  | int .. => "IntLiteral"
  | string .. => "StringLiteral"
  | bool .. => "BoolLiteral"
  | ident _ => "IdExpr"
  | dot .. => "DotAccessExpr"
  | assign .. => "AssignExpr"
  | call .. => "CallExpr"
  | unary .. => "UnaryOp"
  | binary .. => "BinaryOp"
  | misfit _ kind => kind

/-- Whether an expression can be assigned to: an identifier or a field access. -/
def isLocation : Expr → Bool
  | ident _ | dot .. => true
  | _ => false

end Expr

/-- A variable, parameter or field that a program declares. -/
structure VarDecl where
  span : Option Span := none
  type : TypeName
  name : Ident
deriving Repr

mutual

/-- Statements. -/
inductive Stmt where
  | assign (span : Option Span) (expr : Expr)
  | increment (span : Option Span) (target : Expr)
  | decrement (span : Option Span) (target : Expr)
  | read (span : Option Span) (target : Expr)
  | write (span : Option Span) (value : Expr)
  | ifThen (span : Option Span) (cond : Expr) (body : Block)
  | ifElse (span : Option Span) (cond : Expr) (body other : Block)
  | loop (span : Option Span) (cond : Expr) (body : Block)
  | call (span : Option Span) (expr : Expr)
  | ret (span : Option Span) (value : Option Expr)
  | misfit (span : Option Span) (kind : String)

inductive Block where
  | mk (span : Option Span) (decls : List VarDecl) (stmts : List Stmt)

end

namespace Stmt

/-- Where a statement stands. -/
def span : Stmt → Option Span
  | assign s _ | increment s _ | decrement s _ | read s _ | write s _ | ifThen s .. | ifElse s ..
  | loop s .. | call s _ | ret s _ | misfit s _ => s

def isReturn : Stmt → Bool
  | ret .. => true
  | _ => false

end Stmt

namespace Block

/-- Where a block stands. -/
def span : Block → Option Span
  | mk s _ _ => s

/-- The declarations of a block. -/
def decls : Block → List VarDecl
  | mk _ ds _ => ds

def stmts : Block → List Stmt
  | mk _ _ ss => ss

end Block

/-- The declaration of a struct. -/
structure StructDecl where
  span : Option Span := none
  name : Ident
  fields : List VarDecl

/-- The declaration of a function. -/
structure FnDecl where
  span : Option Span := none
  result : TypeName
  name : Ident
  formals : List VarDecl
  body : Block

/-- The declarations at the top of a program. -/
inductive Decl where
  | var (decl : VarDecl)
  | struct (decl : StructDecl)
  | fn (decl : FnDecl)
  | misfit (span : Option Span) (kind : String)

/-- A program. -/
structure Program where
  span : Option Span := none
  decls : List Decl
  file : Option String := none

end CMinusMinus
