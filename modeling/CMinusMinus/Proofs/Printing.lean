import CMinusMinus.Syntax.Parser

/-!
Programs as they are written: the tokens that spell a tree, without their places. An operand stands in
parentheses where its operator binds too loosely for its place, and wherever else a style of writing has
it.
-/
namespace CMinusMinus.Proofs.Printing

open Token

/-- A token without its place. -/
structure Piece where
  kind : Kind
  text : String
deriving DecidableEq

def spelling : Kind → String
  | .intKw => "int" | .boolKw => "bool" | .voidKw => "void" | .structKw => "struct"
  | .trueKw => "true" | .falseKw => "false" | .ifKw => "if" | .elseKw => "else"
  | .whileKw => "while" | .returnKw => "return" | .cin => "cin" | .cout => "cout"
  | .lbrace => "\x7b" | .rbrace => "\x7d" | .lparen => "(" | .rparen => ")"
  | .comma => "," | .semi => ";" | .dot => "." | .eq => "=" | .plus => "+" | .minus => "-"
  | .plusPlus => "++" | .minusMinus => "--" | .star => "*" | .slash => "/"
  | .lt => "<" | .gt => ">" | .le => "<=" | .ge => ">=" | .eqEq => "==" | .ne => "!="
  | .andAnd => "&&" | .orOr => "||" | .bang => "!" | .write => "<<" | .read => ">>"
  | .ident | .int | .string | .eof => ""

def fixed (kind : Kind) : Piece := ⟨kind, spelling kind⟩

/-- The token of a name. -/
def word (name : String) : Piece := ⟨.ident, name⟩

def numeral (value : Int) : Piece := ⟨.int, toString value⟩

def unarySign : UnaryOp → Piece
  | .neg => fixed .minus
  | .not => fixed .bang
  | .other sign => word sign

def binarySign : BinaryOp → Piece
  | .add => fixed .plus
  | .sub => fixed .minus
  | .mul => fixed .star
  | .div => fixed .slash
  | .and => fixed .andAnd
  | .or => fixed .orOr
  | .eq => fixed .eqEq
  | .ne => fixed .ne
  | .lt => fixed .lt
  | .gt => fixed .gt
  | .le => fixed .le
  | .ge => fixed .ge
  | .other sign => word sign

def strength : BinaryOp → Nat
  | .or => 1
  | .and => 2
  | .eq | .ne | .lt | .gt | .le | .ge => 3
  | .add | .sub => 4
  | .mul | .div => 5
  | .other _ => 0

/-- How tightly the outermost operator of an expression binds. Assignments bind most loosely; literals,
names, accesses to fields and calls are not divided at all. -/
def rank : Expr → Nat
  | .assign .. => 0
  | .binary _ op .. => strength op
  | .unary .. => 6
  | _ => 7

/-- The rank that the left operand of an operator has at least. Operators chain to the left; comparisons
do not chain. -/
def leftRank (op : BinaryOp) : Nat := if strength op = 3 then 4 else strength op

def rightRank (op : BinaryOp) : Nat := strength op + 1

/-- Which operands are put in parentheses although they need none. -/
abbrev Style := Expr → Bool

/-- No parentheses but those that are needed. -/
def Style.sparse : Style := fun _ => false

/-- Parentheses around every operand that has an operator. -/
def Style.full : Style := fun e => rank e < 7

def grouped (σ : Style) (place : Nat) (e : Expr) (pieces : List Piece) : List Piece :=
  if rank e < place || σ e then fixed .lparen :: pieces ++ [fixed .rparen] else pieces

def listed : List (List Piece) → List Piece
  | [] => []
  | [part] => part
  | part :: parts => part ++ fixed .comma :: listed parts

theorem listed_cons {part : List Piece} {parts : List (List Piece)} (h : parts ≠ []) :
    listed (part :: parts) = part ++ fixed .comma :: listed parts := by
  obtain ⟨next, more, rfl⟩ := List.exists_cons_of_ne_nil h
  rfl

section Trees

variable (σ : Style)

mutual

def exprPieces : Expr → List Piece
  | .int _ value => [numeral value]
  | .string _ text => [⟨.string, text⟩]
  | .bool _ value => [fixed (if value then .trueKw else .falseKw)]
  | .ident x => [word x.name]
  | .dot _ obj field _ _ => exprPieces obj ++ [fixed .dot, word field.name]
  | .assign _ target value => exprPieces target ++ fixed .eq :: grouped σ 0 value (exprPieces value)
  | .call _ callee args => word callee.name :: fixed .lparen :: listed (argPieces args) ++ [fixed .rparen]
  | .unary _ op operand => unarySign op :: grouped σ 6 operand (exprPieces operand)
  | .binary _ op left right =>
    grouped σ (leftRank op) left (exprPieces left) ++
      binarySign op :: grouped σ (rightRank op) right (exprPieces right)
  | .misfit .. => []

def argPieces : List Expr → List (List Piece)
  | [] => []
  | e :: es => grouped σ 0 e (exprPieces e) :: argPieces es

end

def operandPieces (e : Expr) : List Piece := grouped σ 0 e (exprPieces σ e)

def typePieces (t : TypeName) : List Piece :=
  if t.isStruct then [fixed .structKw, word t.name] else [⟨.ofWord t.name, t.name⟩]

def formalPieces (d : VarDecl) : List Piece := typePieces d.type ++ [word d.name.name]

def varPieces (d : VarDecl) : List Piece := formalPieces d ++ [fixed .semi]

mutual

def stmtPieces : Stmt → List Piece
  | .assign _ e | .call _ e => exprPieces σ e ++ [fixed .semi]
  | .increment _ e => exprPieces σ e ++ [fixed .plusPlus, fixed .semi]
  | .decrement _ e => exprPieces σ e ++ [fixed .minusMinus, fixed .semi]
  | .read _ e => fixed .cin :: fixed .read :: exprPieces σ e ++ [fixed .semi]
  | .write _ e => fixed .cout :: fixed .write :: operandPieces σ e ++ [fixed .semi]
  | .ifThen _ cond body =>
    fixed .ifKw :: fixed .lparen :: operandPieces σ cond ++ fixed .rparen :: blockPieces body
  | .ifElse _ cond body other =>
    fixed .ifKw :: fixed .lparen :: operandPieces σ cond ++ fixed .rparen :: blockPieces body ++
      fixed .elseKw :: blockPieces other
  | .loop _ cond body =>
    fixed .whileKw :: fixed .lparen :: operandPieces σ cond ++ fixed .rparen :: blockPieces body
  | .ret _ none => [fixed .returnKw, fixed .semi]
  | .ret _ (some e) => fixed .returnKw :: operandPieces σ e ++ [fixed .semi]
  | .misfit .. => []

def stmtsPieces : List Stmt → List Piece
  | [] => []
  | st :: ss => stmtPieces st ++ stmtsPieces ss

def blockPieces : Block → List Piece
  | .mk _ decls stmts =>
    fixed .lbrace :: decls.flatMap varPieces ++ stmtsPieces stmts ++ [fixed .rbrace]

end

def declPieces : Decl → List Piece
  | .var d => varPieces d
  | .struct d => fixed .structKw :: word d.name.name :: fixed .lbrace :: d.fields.flatMap varPieces ++
      [fixed .rbrace, fixed .semi]
  | .fn d => typePieces d.result ++ word d.name.name :: fixed .lparen ::
      listed (d.formals.map formalPieces) ++ fixed .rparen :: blockPieces σ d.body
  | .misfit .. => []

/-- The tokens of a program. -/
def programPieces (p : Program) : List Piece := p.decls.flatMap (declPieces σ)

end Trees

end CMinusMinus.Proofs.Printing
