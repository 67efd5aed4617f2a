import CMinusMinus.Analysis
import CMinusMinus.Assembly.Emit

/-!
From analysed programs to assembly. Code for an expression leaves one word on the evaluation stack,
code for a statement leaves the stack as it was; both are checked as the code is written. Struct
fields lie inside their struct, so that a field access of any depth is one fixed offset from a
variable.
-/
namespace CMinusMinus.Lowering

open Assembly

/-- What code is written from: the symbols and frames of the analysed program. -/
structure Env where
  file : Option String
  arena : Arena
  frames : List (String × Int)

variable (env : Env)

/-- The fault of an internal error about a part of the source. -/
def faultAt (cause : FaultCause) (span : Option Span) : Fault :=
  .internal cause (some ⟨env.file, span⟩)

def symbolOf (x : Ident) : Except Fault Symbol :=
  match x.binding with
  | .unvisited | .unresolved => .error (faultAt env (.codeUnresolved x.name) x.note.span)
  | .symbol index =>
    match env.arena.get? index with
    | some symbol => .ok symbol
    | none => .error (.outOfRange index)

/-- The variable an identifier is bound to. -/
def variableOf (x : Ident) : Except Fault Variable :=
  match symbolOf env x with
  | .error fault => .error fault
  | .ok (.var v) => .ok v
  | .ok _ => .error (faultAt env (.codeNotVariable x.name) x.note.span)

/-- The variable that a location lies in, and its offset in bytes from the start of it. -/
def location : Expr → Except Fault (Variable × Int)
  | .ident x => (variableOf env x).map fun v => (v, 0)
  | .dot note obj field _ bad => do
    if bad then throw (faultAt env .codePoisonedAccess note.span)
    let (root, offset) ← location obj
    let v ← variableOf env field
    return (root, offset + v.offset)
  | e => .error (faultAt env (.codeNotLocation e.kind) e.span)

def lastVariable : Expr → Except Fault Variable
  | .ident x => variableOf env x
  | .dot _ _ field _ _ => variableOf env field
  | e => .error (faultAt env (.codeNotLocation e.kind) e.span)

def loadAddress (e : Expr) (r : Reg) : Emit Unit := do
  let (v, offset) ← Emit.ofExcept (location env e)
  if v.isGlobal then
    Emit.instr (.la r (.label (globalLabel v.name)))
    if offset ≠ 0 then Emit.instr (.compute .addu r r (.imm offset))
  else Emit.instr (.la r (.indexed (-(v.offset + offset)) .fp))

/-- Pushes the word at a location, which is not to be a struct. -/
def load (e : Expr) : Emit Unit := do
  let (v, offset) ← Emit.ofExcept (location env e)
  let last ← Emit.ofExcept (lastVariable env e)
  if last.structDef.isSome then Emit.fail (faultAt env (.codeStructValue last.name) e.span)
  if v.isGlobal then
    if offset = 0 then Emit.instr (.lw .t0 (.label (globalLabel v.name)))
    else
      loadAddress env e .t0
      Emit.instr (.lw .t0 (.indexed 0 .t0))
  else Emit.instr (.lw .t0 (.indexed (-(v.offset + offset)) .fp))
  Emit.push .t0

/-- The calculation of an operator that works on the values of both operands. -/
def calcOf? : BinaryOp → Option Calc
  | .add => some .add
  | .sub => some .sub
  | .mul => some .mul
  | .div => some .div
  | .eq => some .seq
  | .ne => some .sne
  | .lt => some .slt
  | .gt => some .sgt
  | .le => some .sle
  | .ge => some .sge
  | .and | .or | .other _ => none

/-- Checks that code leaves one word more on the evaluation stack. -/
def oneWord (span : Option Span) (code : Emit Unit) : Emit Unit := do
  let before ← Emit.depth
  code
  let after ← Emit.depth
  if after ≠ before + 1 then
    Emit.fail (faultAt env (.codeExprUnbalanced (after - before)) span)

/-- The second half of `a && b` and `a || b`: once the value of `a` is popped, either it is the
value of the whole, or the code of `b` decides. -/
def shortCircuit (isAnd : Bool) (right done : String) (code : Emit Unit) : Emit Unit := do
  Emit.pop .t0
  Emit.instr (if isAnd then .bne .t0 .zero right else .beq .t0 .zero right)
  Emit.push .t0
  Emit.instr (.b done)
  -- the code of `b` starts without the word just pushed
  Emit.setDepth ((← Emit.depth) - 1)
  Emit.line (.label right "")
  code
  Emit.line (.label done "")

mutual

/-- Code that pushes the value of an expression. -/
def expr : Expr → Emit Unit
  | .int note value => oneWord env note.span do
    Emit.instr (.li .t0 value)
    Emit.push .t0
  | .bool note value => oneWord env note.span do
    Emit.instr (.li .t0 (if value then 1 else 0))
    Emit.push .t0
  | .string note text => oneWord env note.span do
    let name ← Emit.freshLabel .string
    Emit.line (.directive ".data" "")
    Emit.line (.data name ".asciiz" ("\"" ++ text ++ "\"") "")
    Emit.line (.directive ".text" "")
    Emit.instr (.la .t0 (.label name))
    Emit.push .t0
  | .ident x => oneWord env x.note.span (load env (.ident x))
  | .dot note obj field reached bad =>
    oneWord env note.span (load env (.dot note obj field reached bad))
  | .assign note target value => oneWord env note.span do
    expr value
    loadAddress env target .t1
    Emit.pop .t0
    Emit.instr (.sw .t0 (.indexed 0 .t1))
    Emit.push .t0
  | .call note callee args => oneWord env note.span do
    match ← Emit.ofExcept (symbolOf env callee) with
    | .func f =>
      exprs args
      Emit.instr (.jal (functionLabel f.name))
      Emit.drop args.length
      Emit.push .v0
    | _ => Emit.fail (faultAt env (.codeCall callee.name) note.span)
  | .unary note op operand => oneWord env note.span do
    expr operand
    Emit.pop .t0
    match op with
    | .neg => Emit.instr (.compute .sub .t0 .zero (.reg .t0))
    | .not => Emit.instr (.compute .xori .t0 .t0 (.imm 1))
    | .other sign => Emit.fail (faultAt env (.codeUnaryOp sign) note.span)
    Emit.push .t0
  | .binary note op left right => oneWord env note.span do
    match op with
    | .and | .or =>
      let rightLabel ← Emit.freshLabel .shortCircuit
      let doneLabel ← Emit.freshLabel .shortCircuit
      expr left
      shortCircuit (op = .and) rightLabel doneLabel (expr right)
    | _ =>
      match calcOf? op with
      | none => Emit.fail (faultAt env (.codeBinaryOp op.sign) note.span)
      | some calculation =>
        expr left
        expr right
        Emit.pop .t1
        Emit.pop .t0
        Emit.instr (.compute calculation .t0 .t0 (.reg .t1))
        Emit.push .t0
  | .misfit note kind => oneWord env note.span
    (Emit.fail (faultAt env (.codeExpr kind) note.span))

def exprs : List Expr → Emit Unit
  | [] => return ()
  | e :: es => do
    expr e
    exprs es

end

/-- The type recorded on an expression, which is not to be in error. -/
def recordedTy (e : Expr) : Except Fault Ty :=
  match e.ty.bind Ty.known? with
  | none => .error (faultAt env .codeUntyped e.span)
  | some t => if t.isError then .error (faultAt env .codeErrorType e.span) else .ok t

def count (target : Expr) (delta : Int) : Emit Unit := do
  loadAddress env target .t1
  Emit.instr (.lw .t0 (.indexed 0 .t1))
  Emit.instr (.compute .addi .t0 .t0 (.imm delta))
  Emit.instr (.sw .t0 (.indexed 0 .t1))

/-- The services of the system: writing a number or a text, reading a number, and the end. -/
def printInt : Int := 1

def printString : Int := 4

def readInt : Int := 5

def exit : Int := 10

def service (number : Int) : Emit Unit := do
  Emit.instr (.li .v0 number)
  Emit.instr .syscall

mutual

/-- Code for a statement of a function. -/
def stmt (function : String) : Stmt → Emit Unit
  | .assign _ e => do
    expr env e
    Emit.pop .t0
  | .increment _ target => count env target 1
  | .decrement _ target => count env target (-1)
  | .read _ target => do
    service readInt
    loadAddress env target .t0
    Emit.instr (.sw .v0 (.indexed 0 .t0))
  | .write _ e => do
    expr env e
    Emit.pop .a0
    let t ← Emit.ofExcept (recordedTy env e)
    service (if t.isString then printString else printInt)
  | .ifThen _ cond body => do
    expr env cond
    Emit.pop .t0
    let endLabel ← Emit.freshLabel .endIf
    Emit.instr (.beq .t0 .zero endLabel)
    block function body
    Emit.line (.label endLabel "")
  | .ifElse _ cond body other => do
    expr env cond
    Emit.pop .t0
    let elseLabel ← Emit.freshLabel .otherwise
    let endLabel ← Emit.freshLabel .endIf
    Emit.instr (.beq .t0 .zero elseLabel)
    block function body
    Emit.instr (.j endLabel)
    Emit.line (.label elseLabel "")
    block function other
    Emit.line (.label endLabel "")
  | .loop _ cond body => do
    let loopLabel ← Emit.freshLabel .loop
    let endLabel ← Emit.freshLabel .endLoop
    Emit.line (.label loopLabel "")
    expr env cond
    Emit.pop .t0
    Emit.instr (.beq .t0 .zero endLabel)
    block function body
    Emit.instr (.j loopLabel)
    Emit.line (.label endLabel "")
  | .call _ e => do
    expr env e
    Emit.pop .t0
  | .ret _ none => Emit.instr (.j (exitLabel function))
  | .ret _ (some e) => do
    expr env e
    Emit.pop .v0
    Emit.instr (.j (exitLabel function))
  | .misfit span kind => Emit.fail (faultAt env (.codeStmt kind) span)

def stmts (function : String) : List Stmt → Emit Unit
  | [] => return ()
  | s :: ss => do
    stmt function s
    let after ← Emit.depth
    if after ≠ 0 then Emit.fail (faultAt env (.codeStmtUnbalanced after) s.span)
    stmts function ss

def block (function : String) : Block → Emit Unit
  | .mk _ _ body => stmts function body

end

def globalVar (d : VarDecl) : Emit Unit := do
  let v ← Emit.ofExcept (variableOf env d.name)
  Emit.line (.directive ".data" "")
  Emit.line (.directive ".align" "2")
  if v.structDef.isSome then
    let words ← Emit.number (v.size.fdiv wordSize)
    Emit.line (.data (globalLabel v.name) ".word" ("0:" ++ words) "")
  else Emit.line (.data (globalLabel v.name) ".space" (toString wordSize) "")

def structNote (d : StructDecl) : Emit Unit := do
  match ← Emit.ofExcept (symbolOf env d.name) with
  | .struct s =>
    let size ← Emit.number s.size
    Emit.line (.remark s!"struct {s.name}: {size} bytes")
  | .var v =>
    let size ← Emit.number v.size
    Emit.line (.remark s!"struct {v.name}: {size} bytes")
  | .func _ => Emit.fail .wrongSymbol

/-- Code that copies the arguments, which the caller has pushed in order, into the slots of the
parameters: the argument of a parameter lies one word further from the frame pointer than there
are parameters after it. -/
def copyArguments : List VarDecl → Emit Unit
  | [] => return ()
  | d :: ds => do
    let v ← Emit.ofExcept (variableOf env d.name)
    Emit.instr (.lw .t0 (.indexed (wordSize * (ds.length + 1)) .fp)) ("ARG " ++ v.name)
    Emit.instr (.sw .t0 (.indexed (-v.offset) .fp))
    copyArguments ds

/-- Code that a function starts with: it saves the return address and the caller's frame pointer,
and makes room for its own frame. -/
def prologue (frame : Int) : Emit Unit := do
  Emit.instr (.sw .ra (.indexed 0 .sp)) "PUSH"
  Emit.instr (.compute .subu .sp .sp (.imm wordSize))
  Emit.instr (.sw .fp (.indexed 0 .sp)) "PUSH"
  Emit.instr (.compute .subu .sp .sp (.imm wordSize))
  Emit.instr (.compute .addu .fp .sp (.imm (2 * wordSize)))
  if frame ≠ 0 then Emit.instr (.compute .subu .sp .sp (.imm frame)) "FRAME"

/-- Code that a function ends with: back to the caller, or the end of the program. -/
def epilogue (name : String) : Emit Unit := do
  Emit.line (.label (exitLabel name) "")
  if name = "main" then service exit
  else
    Emit.instr (.lw .ra (.indexed 0 .fp)) "load return address"
    Emit.instr (.move .t0 .fp)
    Emit.instr (.lw .fp (.indexed (-wordSize) .fp)) "restore FP"
    Emit.instr (.move .sp .t0)
    Emit.instr (.jr .ra)

def fnDecl (d : FnDecl) : Emit Unit := do
  let name := d.name.name
  match ← Emit.ofExcept (symbolOf env d.name) with
  | .func _ =>
    match env.frames.lookup name with
    | none => Emit.fail (faultAt env (.codeNoFrame name) d.span)
    | some frame =>
      Emit.setDepth 0
      Emit.line .blank
      Emit.line (.directive ".text" "")
      if name = "main" then Emit.line (.directive ".globl" "main")
      Emit.line (.label (functionLabel name) ("FUNCTION " ++ name))
      prologue frame
      copyArguments env d.formals
      block env name d.body
      epilogue name
  | _ => Emit.fail (faultAt env (.codeNotFunction name) d.span)

/-- Data or code for a declaration at the top of the program. -/
def decl : Decl → Emit Unit
  | .var d => globalVar env d
  | .struct d => structNote env d
  | .fn d => fnDecl env d
  | .misfit span kind => Emit.fail (faultAt env (.codeDecl kind) span)

/-- Data and code for declarations in order. -/
def decls : List Decl → Emit Unit
  | [] => return ()
  | d :: ds => do
    decl env d
    decls ds

end CMinusMinus.Lowering

namespace CMinusMinus

/-- The assembly lines of an analysed program without errors. -/
def Analysis.lower (a : Analysis) : Except Fault (List Assembly.Line) :=
  match a.program with
  | none => .error (.internal .codeWithoutProgram (some ⟨a.file, none⟩))
  | some p =>
    if a.hasErrors then .error (.internal .codeDespiteErrors (some ⟨a.file, none⟩))
    else
      let code := Lowering.decls ⟨a.file, a.arena, a.frames⟩ p.decls {}
      code.value.map fun _ => code.lines

end CMinusMinus
