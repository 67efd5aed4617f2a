import CMinusMinus.Analysis

/-!
Type checking. Every expression gets a type, which is recorded on it and not worked out again.
An expression in error has the error type, which no rule complains about a second time.
Statements are checked against the result type of their function, and the program for a function
`main` without parameters and result.
-/
namespace CMinusMinus.Typing

abbrev TypingM := StateM Journal

def stopped : TypingM Bool := return (← get).stopped

def report (finding : TypeFinding) (span : Option Span) : TypingM Unit :=
  modify fun j => j.report .error (.typing finding) span

def warn (finding : TypeFinding) (span : Option Span) : TypingM Unit :=
  modify fun j => j.report .warning (.typing finding) span

/-- Stops the check. The type given is of no consequence. -/
def stop (fault : Fault) : TypingM Ty := do
  modify fun j => j.stop fault
  return .error

/-- Stops the check by an internal error about a part of the source. -/
def stopAt (cause : FaultCause) (span : Option Span) : TypingM Ty := do
  modify fun j => j.stopAt cause span
  return .error

/-- Reports a finding, which makes the type the error type. -/
def wrong (finding : TypeFinding) (span : Option Span) : TypingM Ty := do
  report finding span
  return .error

/-- An expression with its type recorded, unless the check has been stopped. -/
def record (e : Expr) (t : Ty) : TypingM (Expr × Ty) := do
  if ← stopped then return (e, t) else return (e.withTy t, t)

def identTy (arena : Arena) (x : Ident) : TypingM Ty :=
  match x.binding with
  | .unvisited => stopAt (.typesUnvisited x.name) x.note.span
  | .unresolved => return .error
  | .symbol index =>
    match arena.get? index with
    | some symbol => return symbol.ty
    | none => stop (.outOfRange index)

/-- What an operator asks of both its operands, what it gives, and what is said when it does not
get it. The equality operators ask for two operands of one type instead. -/
structure OperatorRule where
  operand : Ty
  result : Ty
  complaint : TypeFinding

/-- The rule of an operator between two operands of a fixed type. -/
def operatorRule? : BinaryOp → Option OperatorRule
  | .add | .sub | .mul | .div => some ⟨.int, .int, .arithmeticOperand⟩
  | .and | .or => some ⟨.bool, .bool, .logicalOperand⟩
  | .lt | .gt | .le | .ge => some ⟨.int, .bool, .relationalOperand⟩
  | .eq | .ne | .other _ => none

/-- Whether an operand has the type asked for. An operand in error has not, but is not reported. -/
def checkOperand (rule : OperatorRule) (e : Expr) (t : Ty) : TypingM Bool := do
  if t.isError then return false
  else if t.agrees rule.operand then return true
  else
    report rule.complaint e.span
    return false

def unaryTy (op : UnaryOp) (span : Option Span) (operand : Expr) (t : Ty) : TypingM Ty :=
  match op with
  | .neg =>
    if t.isError then return .error
    else if t.isInt then return .int
    else wrong .arithmeticOperand operand.span
  | .not =>
    if t.isError then return .error
    else if t.isBool then return .bool
    else wrong .logicalOperand operand.span
  | .other sign => stopAt (.typesUnaryOp sign) span

/-- The type of an equality between operands of two types. -/
def equalityTy (span : Option Span) (left right : Ty) : TypingM Ty :=
  if left.isError || right.isError then return .error
  else if left.isVoid && right.isVoid then wrong .equalVoids span
  else if left.isFunction && right.isFunction then wrong .equalFunctions span
  else if left.isStructDef && right.isStructDef then wrong .equalStructNames span
  else if left.isStruct && right.isStruct then wrong .equalStructs span
  else if left.agrees right then return .bool
  else wrong (.mismatch left right) span

/-- The type of an assignment between a target and a value of two types. -/
def assignTy (span : Option Span) (target value : Ty) : TypingM Ty :=
  if target.isError || value.isError then return .error
  else if target.isFunction && value.isFunction then wrong .assignFunctions span
  else if target.isStructDef && value.isStructDef then wrong .assignStructNames span
  else if target.isStruct && value.isStruct then wrong .assignStructs span
  else if target.agrees value then return target
  else wrong (.mismatch target value) span

/-- Compares arguments with the parameters they are for. Where either is in error, or one of them
is missing, nothing is said. -/
def checkArguments : List (Expr × Ty) → List Ty → TypingM Unit
  | (arg, t) :: args, param :: params => do
    if !t.isError && !param.isError && !t.agrees param then report .argumentType arg.span
    checkArguments args params
  | _, _ => return ()

/-- The type of a call whose callee and arguments have types. -/
def callTy (arena : Arena) (span : Option Span) (callee : Ident) (calleeTy : Ty)
    (args : List (Expr × Ty)) : TypingM Ty := do
  if calleeTy.isError then return .error
  else if !calleeTy.isFunction then wrong (.notCallable callee.name) callee.note.span
  else
    match callee.binding with
    | .unvisited | .unresolved => return .error
    | .symbol index =>
      match arena.get? index with
      | none => stop (.outOfRange index)
      | some (.func f) =>
        if args.length ≠ f.params.length then
          report (.argumentCount f.name f.params.length args.length) span
          return f.result
        else
          checkArguments args f.params
          return f.result
      | some symbol => stopAt (.typesNotFunction symbol.name) callee.note.span

mutual

/-- The type of an expression, with the types of all its parts recorded. -/
def infer (arena : Arena) (e : Expr) : TypingM (Expr × Ty) := do
  match e.ty with
  | some t => return (e, t)
  | none =>
    match e with
    | .int .. => record e .int
    | .string .. => record e .string
    | .bool .. => record e .bool
    | .ident x =>
      let t ← identTy arena x
      record e t
    | .dot note obj field reached bad =>
      let (obj, _) ← infer arena obj
      let t ← if bad then pure .error else identTy arena field
      record (.dot note obj field reached bad) t
    | .assign note target value =>
      let (target, targetTy) ← infer arena target
      let (value, valueTy) ← infer arena value
      let t ← assignTy note.span targetTy valueTy
      record (.assign note target value) t
    | .call note callee args =>
      let calleeTy ← identTy arena callee
      let callee := if ← stopped then callee
        else { callee with note.ty := some calleeTy }
      let typed ← inferAll arena args
      let t ← callTy arena note.span callee calleeTy typed
      record (.call note callee (typed.map Prod.fst)) t
    | .unary note op operand =>
      let (operand, operandTy) ← infer arena operand
      let t ← unaryTy op note.span operand operandTy
      record (.unary note op operand) t
    | .binary note op left right =>
      match operatorRule? op with
      | some rule =>
        let (left, leftTy) ← infer arena left
        let leftOk ← checkOperand rule left leftTy
        let (right, rightTy) ← infer arena right
        let rightOk ← checkOperand rule right rightTy
        let t := if leftOk && rightOk then rule.result else .error
        record (.binary note op left right) t
      | none =>
        match op with
        | .other sign =>
          let t ← stopAt (.typesBinaryOp sign) note.span
          return (e, t)
        | _ =>
          let (left, leftTy) ← infer arena left
          let (right, rightTy) ← infer arena right
          let t ← equalityTy note.span leftTy rightTy
          record (.binary note op left right) t
    | .misfit note kind =>
      let t ← stopAt (.typesExpr kind) note.span
      return (e, t)

def inferAll (arena : Arena) : List Expr → TypingM (List (Expr × Ty))
  | [] => return []
  | e :: es => do
    let e ← infer arena e
    let es ← inferAll arena es
    return e :: es

end

/-- Complains about a condition that is no truth value. -/
def checkCondition (complaint : TypeFinding) (e : Expr) (t : Ty) : TypingM Unit := do
  if !t.isError && !t.isBool then report complaint e.span

/-- Complains about counting up or down what is no number. -/
def checkCounted (e : Expr) (t : Ty) : TypingM Unit := do
  if !t.isError && !t.isInt then report .arithmeticOperand e.span

def checkRead (e : Expr) (t : Ty) : TypingM Unit := do
  if t.isFunction then report .readFunction e.span
  else if t.isStructDef then report .readStructName e.span
  else if t.isStruct then report .readStruct e.span

/-- Complains about writing what has no value to write. -/
def checkWritten (e : Expr) (t : Ty) : TypingM Unit := do
  if t.isFunction then report .writeFunction e.span
  else if t.isStructDef then report .writeStructName e.span
  else if t.isStruct then report .writeStruct e.span
  else if t.isVoid then report .writeVoid e.span

/-- Complains about a returned value that does not fit the function. -/
def checkReturned (result : Ty) (e : Expr) (t : Ty) : TypingM Unit := do
  if result.isVoid then report .returnInVoid e.span
  else if !t.isError && !t.agrees result then report .returnType e.span

mutual

/-- Checks a statement of a function with a result type. -/
def stmt (arena : Arena) (result : Ty) : Stmt → TypingM Stmt
  | .assign span e => do
    let (e, _) ← infer arena e
    return .assign span e
  | .increment span e => do
    let (e, t) ← infer arena e
    checkCounted e t
    return .increment span e
  | .decrement span e => do
    let (e, t) ← infer arena e
    checkCounted e t
    return .decrement span e
  | .read span e => do
    let (e, t) ← infer arena e
    checkRead e t
    return .read span e
  | .write span e => do
    let (e, t) ← infer arena e
    checkWritten e t
    return .write span e
  | .ifThen span cond body => do
    let (cond, t) ← infer arena cond
    checkCondition .ifCondition cond t
    let body ← block arena result body
    return .ifThen span cond body
  | .ifElse span cond body other => do
    let (cond, t) ← infer arena cond
    checkCondition .ifCondition cond t
    let body ← block arena result body
    let other ← block arena result other
    return .ifElse span cond body other
  | .loop span cond body => do
    let (cond, t) ← infer arena cond
    checkCondition .whileCondition cond t
    let body ← block arena result body
    return .loop span cond body
  | .call span e => do
    let (e, _) ← infer arena e
    return .call span e
  | .ret span none => do
    if !result.isVoid then report .missingReturn span
    return .ret span none
  | .ret span (some e) => do
    let (e, t) ← infer arena e
    checkReturned result e t
    return .ret span (some e)
  | .misfit span kind => do
    let _ ← stopAt (.typesStmt kind) span
    return .misfit span kind

def stmts (arena : Arena) (result : Ty) (returned : Bool) : List Stmt → TypingM (List Stmt)
  | [] => return []
  | s :: ss => do
    if returned then warn .unreachable s.span
    let checked ← stmt arena result s
    let ss ← stmts arena result s.isReturn ss
    return checked :: ss

def block (arena : Arena) (result : Ty) : Block → TypingM Block
  | .mk span decls body => return .mk span decls (← stmts arena result false body)

end

def decl (arena : Arena) : Decl → TypingM Decl
  | .var d => return .var d
  | .struct d => return .struct d
  | .fn d => do
    match Ty.ofWord d.result.name with
    | .error fault =>
      let _ ← stop fault
      return .fn d
    | .ok result => return .fn { d with body := ← block arena result d.body }
  | .misfit span kind => do
    let _ ← stopAt (.typesDecl kind) span
    return .misfit span kind

/-- Whether a declaration is the function that a program starts with. -/
def isMain : Decl → Bool
  | .fn d => d.name.name == "main" && d.formals.isEmpty && d.result.name == "void"
  | _ => false

/-- Complains about a program without its starting function, at a place before the first line. -/
def checkMain (decls : List Decl) : TypingM Unit := do
  if !decls.any isMain then
    modify fun j => j.add (.atPlace .error (.typing .noMain) j.file (some ⟨0, 0⟩))

end CMinusMinus.Typing

namespace CMinusMinus

/-- Checks the types of a program, and gives the fault that stopped the check, if any. -/
def Analysis.checkTypes (a : Analysis) : Analysis × Option Fault :=
  match a.program with
  | none => (a, some (.internal .typesWithoutProgram none))
  | some p =>
    let check : Typing.TypingM (List Decl) := do
      let decls ← p.decls.mapM (Typing.decl a.arena)
      Typing.checkMain decls
      return decls
    let (decls, j) := check.run { file := a.file, diagnostics := a.diagnostics }
    ({ a with program := some { p with decls }, diagnostics := j.diagnostics }, j.fault)

end CMinusMinus
