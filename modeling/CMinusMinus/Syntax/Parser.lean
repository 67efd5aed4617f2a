import CMinusMinus.Syntax
import CMinusMinus.Token.Lexer

/-!
From tokens to trees, by recursive descent with one token of lookahead, and two more to tell the
declaration of a struct from that of a struct variable. Binary operators bind on five levels;
comparisons do not chain. The span of a node runs from its first token to the end of the text of
the last token taken.
-/
namespace CMinusMinus

namespace ParseError

/-- What the grammar asks for where something else stands. -/
inductive Expectation where
  | declaredName | declarationEnd | parameterName | parametersEnd
  | structName | field | structEnd | variableName | variableEnd | type
  | blockStart | blockEnd | statementEnd
  | ifOpen | ifClose | whileOpen | whileClose | readSign | writeSign | readTarget
  | argumentsEnd | fieldName | groupEnd | identifier
deriving DecidableEq, Repr

def Expectation.wording : Expectation → String
  | declaredName => "[PAR-0040] expected identifier after type"
  | declarationEnd => "[PAR-0041] expected ';' or '(' after declaration name"
  | parameterName => "[PAR-0043] expected parameter name"
  | parametersEnd => "[PAR-0045] expected ')' after parameters"
  | structName => "[PAR-0050] expected struct name"
  | field => "[PAR-0053] expected field declaration"
  | structEnd => "[PAR-0057] expected ';' after struct declaration"
  | variableName => "[PAR-0060] expected variable name"
  | variableEnd => "[PAR-0061] expected ';' after variable declaration"
  | type => "[PAR-0070] expected type"
  | blockStart => "[PAR-0090] expected '\x7b' to start block"
  | blockEnd => "[PAR-0091] expected '\x7d' after block"
  | statementEnd => "[PAR-0100] expected ';' after statement"
  | ifOpen => "[PAR-0121] expected '(' after 'if'"
  | ifClose => "[PAR-0122] expected ')' after condition"
  | whileOpen => "[PAR-0131] expected '('"
  | whileClose => "[PAR-0132] expected ')'"
  | readSign => "[PAR-0160] expected '>>' after 'cin'"
  | writeSign => "[PAR-0161] expected '<<' after 'cout'"
  | readTarget => "[PAR-0201] expected location after '>>'"
  | argumentsEnd => "[PAR-0210] expected ')' after arguments"
  | fieldName => "[PAR-0212] expected field name after '.'"
  | groupEnd => "[PAR-0224] expected ')' after expression"
  | identifier => "[PAR-0225] expected identifier"

/-- Why the tokens are no program. -/
inductive Cause where
  | expected (what : Expectation)
  | topLevel
  | emptyStruct (name : String)
  | declarationAfterStatement
  | notAStatement
  | assignmentTarget
  | operandNotLocation
  | comparisonChain
  | notAnExpression
  | tooDeep
deriving DecidableEq, Repr

end ParseError

/-- Why the tokens are no program, and the token that is to blame. -/
structure ParseError where
  cause : ParseError.Cause
  token : Token
deriving DecidableEq, Repr

namespace ParseError

def message (e : ParseError) : String :=
  match e.cause with
  | .expected what => s!"{what.wording}, got {e.token.shown} instead"
  | .topLevel => s!"[PAR-0020] unexpected token in top level: {e.token.shown}"
  | .emptyStruct name => s!"[PAR-0054] struct '{name}' must declare at least one field"
  | .declarationAfterStatement => "[PAR-0101] declarations must precede statements in a block"
  | .notAStatement => "[PAR-0102] expression is not a statement"
  | .assignmentTarget => "[PAR-0200] invalid assignment target"
  | .operandNotLocation => s!"[PAR-0201] operand of '{e.token.text}' must be a location"
  | .comparisonChain =>
    s!"[PAR-0202] comparison operators are non-associative, got {e.token.shown}"
  | .notAnExpression =>
    s!"[PAR-0225] unexpected token in expression: TokenKind.{e.token.kind.name}:'{e.token.text}'"
  | .tooDeep => "expression or block nested too deeply"

end ParseError

namespace Parser

/-- Where a parse stands: the tokens ahead, without the one that marks the end, and the token
taken last. Before any token is taken the first one counts as the last. -/
structure Cursor where
  rest : List Token
  eof : Token
  last : Token

/-- The token so many places ahead; the end goes on forever. -/
def Cursor.ahead (c : Cursor) (n : Nat) : Token := (c.rest.drop n).headD c.eof

/-- The cursor past its next token; the end is not passed. -/
def Cursor.advance (c : Cursor) : Cursor :=
  match c.rest with
  | [] => c
  | t :: rest => { c with rest, last := t }

abbrev ParseM := StateT Cursor (Except ParseError)

def peek : ParseM Token := return (← get).ahead 0

def kindAhead (n : Nat) : ParseM Token.Kind := return ((← get).ahead n).kind

def advance : ParseM Token := do
  let t ← peek
  modify Cursor.advance
  return t

def blame {α : Type} (cause : ParseError.Cause) (token : Token) : ParseM α :=
  throw ⟨cause, token⟩

def fail {α : Type} (cause : ParseError.Cause) : ParseM α := do blame cause (← peek)

def expect (kind : Token.Kind) (what : ParseError.Expectation) : ParseM Token := do
  if (← peek).kind = kind then advance else fail (.expected what)

/-- Takes the next token if it is of a kind, and tells whether it did. -/
def accept (kind : Token.Kind) : ParseM Bool := do
  if (← peek).kind = kind then
    let _ ← advance
    return true
  else return false

/-- The span from a token up to the end of the token taken last. -/
def spanFrom (first : Token) : ParseM (Option Span) := do
  return some ⟨first.start, (← get).last.stop⟩

def identOf (t : Token) : Ident := { note := { span := some t.span }, name := t.text }

/-- Whether a variable declaration starts at the next token. -/
def atVarDecl : ParseM Bool := do
  let kind ← kindAhead 0
  if kind.isTypeWord then return true
  else return kind = .structKw && (← kindAhead 2) = .ident

def typeWord : ParseM TypeName := do
  let t ← peek
  if t.kind.isTypeWord then
    let _ ← advance
    return { span := some t.span, name := t.text }
  else fail (.expected .type)

def varDecl : ParseM VarDecl := do
  let first ← peek
  let type ← if ← accept .structKw then do
      let t ← expect .ident .structName
      pure { span := some t.span, name := t.text, isStruct := true }
    else typeWord
  let name ← expect .ident .variableName
  let _ ← expect .semi .variableEnd
  return { span := ← spanFrom first, type, name := identOf name }

def formal : ParseM VarDecl := do
  let first ← peek
  let type ← typeWord
  let name ← expect .ident .parameterName
  return { span := ← spanFrom first, type, name := identOf name }

/-- The parameters of a function, one or more of them divided by commas. -/
def formals : Nat → ParseM (List VarDecl)
  | 0 => fail .tooDeep
  | fuel + 1 => do
    let one ← formal
    if ← accept .comma then return one :: (← formals fuel) else return [one]

def fields : Nat → ParseM (List VarDecl)
  | 0 => fail .tooDeep
  | fuel + 1 => do
    if (← peek).kind = .rbrace then return []
    else if ← atVarDecl then
      let one ← varDecl
      return one :: (← fields fuel)
    else fail (.expected .field)

def varDecls : Nat → ParseM (List VarDecl)
  | 0 => fail .tooDeep
  | fuel + 1 => do
    if ← atVarDecl then
      let one ← varDecl
      return one :: (← varDecls fuel)
    else return []

def dots (first : Token) : Nat → Expr → ParseM Expr
  | 0, _ => fail .tooDeep
  | fuel + 1, obj => do
    if ← accept .dot then
      let name ← expect .ident .fieldName
      dots first fuel (.dot { span := ← spanFrom first } obj (identOf name) none false)
    else return obj

/-- A location: an identifier and the fields taken from it. -/
def location (fuel : Nat) (what : ParseError.Expectation) : ParseM Expr := do
  let first ← expect .ident what
  dots first fuel (.ident (identOf first))

/-- The levels on which operators chain to the left, from the loosest. -/
inductive Level where
  | or | and | add | mul
deriving DecidableEq, Repr

def Level.op? : Level → Token.Kind → Option BinaryOp
  | or, .orOr => some .or
  | and, .andAnd => some .and
  | add, .plus => some .add
  | add, .minus => some .sub
  | mul, .star => some .mul
  | mul, .slash => some .div
  | _, _ => none

def comparisonOp? : Token.Kind → Option BinaryOp
  | .eqEq => some .eq
  | .ne => some .ne
  | .lt => some .lt
  | .gt => some .gt
  | .le => some .le
  | .ge => some .ge
  | _ => none

/-- The operator before an operand that a token stands for. -/
def unaryOp? : Token.Kind → Option UnaryOp
  | .bang => some .not
  | .minus => some .neg
  | _ => none

def literalValue (text : String) : Nat :=
  Text.ofDigits (text.toList.map fun c => c.toNat - '0'.toNat)

mutual

/-- An expression: an assignment, whose right side is an expression again, or an operand of one. -/
def expr : Nat → ParseM Expr
  | 0 => fail .tooDeep
  | fuel + 1 => do
    let first ← peek
    let target ← chain .or fuel
    if (← peek).kind = .eq then
      let sign ← advance
      if !target.isLocation then blame .assignmentTarget sign
      let value ← expr fuel
      return .assign { span := ← spanFrom first } target value
    else return target

def chain (level : Level) : Nat → ParseM Expr
  | 0 => fail .tooDeep
  | fuel + 1 => do
    let first ← peek
    let left ← operand level fuel
    links level first fuel left

def links (level : Level) (first : Token) : Nat → Expr → ParseM Expr
  | 0, _ => fail .tooDeep
  | fuel + 1, left => do
    match level.op? (← peek).kind with
    | none => return left
    | some op =>
      let _ ← advance
      let right ← operand level fuel
      links level first fuel (.binary { span := ← spanFrom first } op left right)

def operand (level : Level) : Nat → ParseM Expr
  | 0 => fail .tooDeep
  | fuel + 1 =>
    match level with
    | .or => chain .and fuel
    | .and => comparison fuel
    | .add => chain .mul fuel
    | .mul => unary fuel

def comparison : Nat → ParseM Expr
  | 0 => fail .tooDeep
  | fuel + 1 => do
    let first ← peek
    let left ← chain .add fuel
    match comparisonOp? (← peek).kind with
    | none => return left
    | some op =>
      let _ ← advance
      let right ← chain .add fuel
      let e := Expr.binary { span := ← spanFrom first } op left right
      if (← peek).kind.isComparison then fail .comparisonChain
      return e

def unary : Nat → ParseM Expr
  | 0 => fail .tooDeep
  | fuel + 1 => do
    let first ← peek
    match unaryOp? first.kind with
    | some op =>
      let _ ← advance
      let e ← unary fuel
      return .unary { span := ← spanFrom first } op e
    | none => primary fuel

def primary : Nat → ParseM Expr
  | 0 => fail .tooDeep
  | fuel + 1 => do
    let first ← peek
    match first.kind with
    | .int =>
      let _ ← advance
      return .int { span := ← spanFrom first } (literalValue first.text)
    | .string =>
      let _ ← advance
      return .string { span := ← spanFrom first } first.text
    | .trueKw =>
      let _ ← advance
      return .bool { span := ← spanFrom first } true
    | .falseKw =>
      let _ ← advance
      return .bool { span := ← spanFrom first } false
    | .ident =>
      if (← kindAhead 1) = .lparen then
        let _ ← advance
        let _ ← advance
        let args ← if (← peek).kind = .rparen then pure [] else arguments fuel
        let _ ← expect .rparen .argumentsEnd
        return .call { span := ← spanFrom first } (identOf first) args
      else location fuel .identifier
    | .lparen =>
      let _ ← advance
      let inner ← expr fuel
      let _ ← expect .rparen .groupEnd
      return inner
    | _ => fail .notAnExpression

def arguments : Nat → ParseM (List Expr)
  | 0 => fail .tooDeep
  | fuel + 1 => do
    let one ← expr fuel
    if ← accept .comma then return one :: (← arguments fuel) else return [one]

end

/-- A statement that ends with a semicolon, up to and without it; its span is still open. -/
def simpleStmt (fuel : Nat) : ParseM (Option Span → Stmt) := do
  if ← accept .returnKw then
    if (← peek).kind = .semi then return fun span => .ret span none
    else
      let value ← expr fuel
      return fun span => .ret span (some value)
  else if ← accept .cin then
    let _ ← expect .read .readSign
    let target ← location fuel .readTarget
    return fun span => .read span target
  else if ← accept .cout then
    let _ ← expect .write .writeSign
    let value ← expr fuel
    return fun span => .write span value
  else
    let e ← expr fuel
    let next ← peek
    if next.kind = .plusPlus || next.kind = .minusMinus then
      let _ ← advance
      if !e.isLocation then blame .operandNotLocation next
      if next.kind = .plusPlus then return fun span => .increment span e
      else return fun span => .decrement span e
    else match e with
      | .assign .. => return fun span => .assign span e
      | .call .. => return fun span => .call span e
      | _ => fail .notAStatement

mutual

def block : Nat → ParseM Block
  | 0 => fail .tooDeep
  | fuel + 1 => do
    let first ← peek
    let _ ← expect .lbrace .blockStart
    let decls ← varDecls fuel
    let stmts ← statements fuel
    let _ ← expect .rbrace .blockEnd
    return .mk (← spanFrom first) decls stmts

def statements : Nat → ParseM (List Stmt)
  | 0 => fail .tooDeep
  | fuel + 1 => do
    let kind ← kindAhead 0
    if kind = .rbrace then return []
    else if kind = .eof then fail (.expected .blockEnd)
    else if ← atVarDecl then fail .declarationAfterStatement
    else
      let one ← statement fuel
      return one :: (← statements fuel)

def statement : Nat → ParseM Stmt
  | 0 => fail .tooDeep
  | fuel + 1 => do
    let first ← peek
    match first.kind with
    | .ifKw =>
      let _ ← advance
      let _ ← expect .lparen .ifOpen
      let cond ← expr fuel
      let _ ← expect .rparen .ifClose
      let body ← block fuel
      if ← accept .elseKw then
        let other ← block fuel
        return .ifElse (← spanFrom first) cond body other
      else return .ifThen (← spanFrom first) cond body
    | .whileKw =>
      let _ ← advance
      let _ ← expect .lparen .whileOpen
      let cond ← expr fuel
      let _ ← expect .rparen .whileClose
      let body ← block fuel
      return .loop (← spanFrom first) cond body
    | _ =>
      let open_ ← simpleStmt fuel
      let _ ← expect .semi .statementEnd
      return open_ (← spanFrom first)

end

/-- What follows the name of a function in its declaration. -/
def function (fuel : Nat) (first : Token) (result : TypeName) (name : Token) : ParseM FnDecl := do
  let _ ← advance
  let params ← if (← peek).kind = .rparen then pure [] else formals fuel
  let _ ← expect .rparen .parametersEnd
  let body ← block fuel
  return { span := ← spanFrom first, result, name := identOf name, formals := params, body }

def structDecl (fuel : Nat) : ParseM StructDecl := do
  let first ← peek
  let _ ← advance
  let name ← expect .ident .structName
  let _ ← advance
  let members ← fields fuel
  if members.isEmpty then fail (.emptyStruct name.text)
  let _ ← advance
  let _ ← expect .semi .structEnd
  return { span := ← spanFrom first, name := identOf name, fields := members }

def decl (fuel : Nat) : ParseM Decl := do
  let first ← peek
  if first.kind = .structKw then
    if (← kindAhead 2) = .lbrace then return .struct (← structDecl fuel)
    else return .var (← varDecl)
  else if first.kind.isTypeWord then
    let type ← typeWord
    let name ← expect .ident .declaredName
    if (← peek).kind = .lparen then return .fn (← function fuel first type name)
    else
      let _ ← expect .semi .declarationEnd
      return .var { span := ← spanFrom first, type, name := identOf name }
  else fail .topLevel

def declarations (depth : Nat) : Nat → ParseM (List Decl)
  | 0 => fail .tooDeep
  | fuel + 1 => do
    if (← peek).kind = .eof then return []
    else
      let one ← decl depth
      return one :: (← declarations depth fuel)

/-- A whole program. -/
def program (fuel : Nat) : ParseM Program := do
  let first ← peek
  let decls ← declarations fuel fuel
  return { span := ← spanFrom first, decls }

/-- The cursor at the start of a token list, whose last token marks the end. -/
def Cursor.ofTokens (tokens : List Token) : Cursor :=
  let eof := tokens.getLastD ⟨.eof, "", .start⟩
  { rest := tokens.dropLast, eof, last := tokens.headD eof }

/-- Enough fuel for a number of tokens: each token is taken within sixteen nested calls. -/
def fuelFor (tokens : List Token) : Nat := 16 * (tokens.length + 1)

end Parser

/-- The program that a list of tokens spells, ending with the token that marks the end. -/
def Program.ofTokens (tokens : List Token) : Except ParseError Program :=
  ((Parser.program (Parser.fuelFor tokens)).run (.ofTokens tokens)).map Prod.fst

end CMinusMinus
