import CMinusMinus.Assembly.Lowering

/-!
The code of a program as one list, said without the checks that are made while it is written and
without the words that it keeps on the stack. What is written for a well-formed program is this
code, unless a number in it has too many digits.
-/
namespace CMinusMinus.Proofs.Code

open Assembly Lowering

/-- For each kind of label the number of the next one. -/
abbrev Counters := LabelKind → Nat

def bump (kind : LabelKind) (c : Counters) : Counters := fun k => if k = kind then c kind + 1 else c k

def labelOf (kind : LabelKind) (c : Counters) : String := kind.stem ++ toString (c kind)

/-- The parts that code is made of: instructions, labels, the texts of literals, global variables
with the number of words if they are structs, the start of a function and notes on structs. -/
inductive Item where
  | op (i : Instr) (comment : String := "")
  | label (name : String) (comment : String := "")
  | literal (name text : String)
  | global (name : String) (words : Option Int)
  | start (isMain : Bool)
  | note (name : String) (size : Int)

/-- The lines that a part is written as. -/
def Item.lines : Item → List Line
  | op i comment => [.instr i.opcode i.operands comment]
  | label name comment => [.label name comment]
  | literal name text => [.directive ".data" "", .data name ".asciiz" ("\"" ++ text ++ "\"") "",
      .directive ".text" ""]
  | global name none => [.directive ".data" "", .directive ".align" "2",
      .data name ".space" (toString wordSize) ""]
  | global name (some words) => [.directive ".data" "", .directive ".align" "2",
      .data name ".word" ("0:" ++ toString words) ""]
  | start isMain => [.blank, .directive ".text" ""] ++
      if isMain then [.directive ".globl" "main"] else []
  | note name size => [.remark s!"struct {name}: {toString size} bytes"]

def Item.numbers : Item → List Int
  | op i _ => i.numbers
  | global _ (some words) => [words]
  | note _ size => [size]
  | _ => []

/-- The lines that code is written as. -/
def linesOf (items : List Item) : List Line := items.flatMap Item.lines

/-- All numbers of some code can be written. -/
def Writable (items : List Item) : Prop := ∀ i ∈ items, ∀ n ∈ i.numbers, Text.isWritable n

def push (r : Reg) : List Item :=
  [.op (.sw r (.indexed 0 .sp)) "PUSH", .op (.compute .subu .sp .sp (.imm 4))]

def pop (r : Reg) : List Item :=
  [.op (.lw r (.indexed 4 .sp)) "POP", .op (.compute .addu .sp .sp (.imm 4))]

def drop (words : Int) : List Item :=
  if words ≠ 0 then [.op (.compute .addu .sp .sp (.imm (4 * words)))] else []

/-- Puts the address so many bytes into a variable into a register. -/
def address (v : Variable) (offset : Int) (r : Reg) : List Item :=
  if v.isGlobal then
    .op (.la r (.label (globalLabel v.name))) ::
      if offset ≠ 0 then [.op (.compute .addu r r (.imm offset))] else []
  else [.op (.la r (.indexed (-(v.offset + offset)) .fp))]

/-- Puts the word so many bytes into a variable into the first register. -/
def fetch (v : Variable) (offset : Int) : List Item :=
  if v.isGlobal then
    if offset = 0 then [.op (.lw .t0 (.label (globalLabel v.name)))]
    else address v offset .t0 ++ [.op (.lw .t0 (.indexed 0 .t0))]
  else [.op (.lw .t0 (.indexed (-(v.offset + offset)) .fp))]

variable (env : Env)

def onPlace (e : Expr) (items : Variable → Int → List Item) : List Item :=
  match location env e with
  | .ok (v, offset) => items v offset
  | .error _ => []

def unary : UnaryOp → List Item
  | .neg => [.op (.compute .sub .t0 .zero (.reg .t0))]
  | .not => [.op (.compute .xori .t0 .t0 (.imm 1))]
  | .other _ => []

def binary (op : BinaryOp) : List Item :=
  match calcOf? op with
  | some c => [.op (.compute c .t0 .t0 (.reg .t1))]
  | none => []

def invoke (callee : Ident) (count : Nat) : List Item :=
  match symbolOf env callee with
  | .ok (.func f) => .op (.jal (functionLabel f.name)) :: (drop count ++ push .v0)
  | _ => []

mutual

def exprAfter : Expr → Counters → Counters
  | .string .., c => bump .string c
  | .assign _ _ value, c => exprAfter value c
  | .call _ _ args, c => exprsAfter args c
  | .unary _ _ operand, c => exprAfter operand c
  | .binary _ op left right, c =>
    let c := if op = .and ∨ op = .or then bump .shortCircuit (bump .shortCircuit c) else c
    exprAfter right (exprAfter left c)
  | _, c => c

def exprsAfter : List Expr → Counters → Counters
  | [], c => c
  | e :: es, c => exprsAfter es (exprAfter e c)

end

def shortCut (isAnd : Bool) (right done : String) : List Item :=
  pop .t0 ++ .op (if isAnd then .bne .t0 .zero right else .beq .t0 .zero right) ::
    (push .t0 ++ [.op (.b done), .label right])

mutual

/-- The code of an expression. -/
def expr : Expr → Counters → List Item
  | .int _ value, _ => .op (.li .t0 value) :: push .t0
  | .bool _ value, _ => .op (.li .t0 (if value then 1 else 0)) :: push .t0
  | .string _ text, c =>
    .literal (labelOf .string c) text :: .op (.la .t0 (.label (labelOf .string c))) :: push .t0
  | .ident x, _ => onPlace env (.ident x) fun v offset => fetch v offset ++ push .t0
  | .dot note obj field reached bad, _ =>
    onPlace env (.dot note obj field reached bad) fun v offset => fetch v offset ++ push .t0
  | .assign _ target value, c =>
    expr value c ++ onPlace env target fun v offset => address v offset .t1 ++
      (pop .t0 ++ .op (.sw .t0 (.indexed 0 .t1)) :: push .t0)
  | .call _ callee args, c => exprs args c ++ invoke env callee args.length
  | .unary _ op operand, c => expr operand c ++ (pop .t0 ++ (unary op ++ push .t0))
  | .binary _ op left right, c =>
    if op = .and ∨ op = .or then
      let c' := bump .shortCircuit (bump .shortCircuit c)
      let done := labelOf .shortCircuit (bump .shortCircuit c)
      expr left c' ++ (shortCut (op = .and) (labelOf .shortCircuit c) done ++
        (expr right (exprAfter left c') ++ [.label done]))
    else
      expr left c ++ (expr right (exprAfter left c) ++
        (pop .t1 ++ (pop .t0 ++ (binary op ++ push .t0))))
  | .misfit .., _ => []

def exprs : List Expr → Counters → List Item
  | [], _ => []
  | e :: es, c => expr e c ++ exprs es (exprAfter e c)

end

def count (target : Expr) (delta : Int) : List Item :=
  onPlace env target fun v offset => address v offset .t1 ++
    [.op (.lw .t0 (.indexed 0 .t1)), .op (.compute .addi .t0 .t0 (.imm delta)),
      .op (.sw .t0 (.indexed 0 .t1))]

def service (number : Int) : List Item := [.op (.li .v0 number), .op .syscall]

def printer (e : Expr) : Int :=
  match recordedTy env e with
  | .ok t => if t.isString then printString else printInt
  | .error _ => printInt

mutual

def stmtAfter : Stmt → Counters → Counters
  | .assign _ e, c | .call _ e, c | .write _ e, c | .ret _ (some e), c => exprAfter e c
  | .ifThen _ cond body, c => blockAfter body (bump .endIf (exprAfter cond c))
  | .ifElse _ cond body other, c =>
    blockAfter other (blockAfter body (bump .endIf (bump .otherwise (exprAfter cond c))))
  | .loop _ cond body, c => blockAfter body (exprAfter cond (bump .endLoop (bump .loop c)))
  | _, c => c

def stmtsAfter : List Stmt → Counters → Counters
  | [], c => c
  | s :: ss, c => stmtsAfter ss (stmtAfter s c)

def blockAfter : Block → Counters → Counters
  | .mk _ _ body, c => stmtsAfter body c

end

mutual

/-- The code of a statement of a function. -/
def stmt (function : String) : Stmt → Counters → List Item
  | .assign _ e, c | .call _ e, c => expr env e c ++ pop .t0
  | .increment _ target, _ => count env target 1
  | .decrement _ target, _ => count env target (-1)
  | .read _ target, _ =>
    service readInt ++ onPlace env target fun v offset =>
      address v offset .t0 ++ [.op (.sw .v0 (.indexed 0 .t0))]
  | .write _ e, c => expr env e c ++ (pop .a0 ++ service (printer env e))
  | .ifThen _ cond body, c =>
    let c' := exprAfter cond c
    let done := labelOf .endIf c'
    expr env cond c ++ (pop .t0 ++ .op (.beq .t0 .zero done) ::
      (block function body (bump .endIf c') ++ [.label done]))
  | .ifElse _ cond body other, c =>
    let c' := exprAfter cond c
    let c'' := bump .endIf (bump .otherwise c')
    let otherwise := labelOf .otherwise c'
    let done := labelOf .endIf (bump .otherwise c')
    expr env cond c ++ (pop .t0 ++ .op (.beq .t0 .zero otherwise) ::
      (block function body c'' ++ .op (.j done) :: .label otherwise ::
        (block function other (blockAfter body c'') ++ [.label done])))
  | .loop _ cond body, c =>
    let c' := bump .endLoop (bump .loop c)
    let again := labelOf .loop c
    let done := labelOf .endLoop (bump .loop c)
    .label again :: (expr env cond c' ++ (pop .t0 ++ .op (.beq .t0 .zero done) ::
      (block function body (exprAfter cond c') ++ [.op (.j again), .label done])))
  | .ret _ none, _ => [.op (.j (exitLabel function))]
  | .ret _ (some e), c => expr env e c ++ (pop .v0 ++ [.op (.j (exitLabel function))])
  | .misfit .., _ => []

def stmts (function : String) : List Stmt → Counters → List Item
  | [], _ => []
  | s :: ss, c => stmt function s c ++ stmts function ss (stmtAfter s c)

def block (function : String) : Block → Counters → List Item
  | .mk _ _ body, c => stmts function body c

end

def copyArguments : List VarDecl → List Item
  | [] => []
  | d :: ds =>
    match variableOf env d.name with
    | .ok v => .op (.lw .t0 (.indexed (wordSize * (ds.length + 1)) .fp)) ("ARG " ++ v.name) ::
        .op (.sw .t0 (.indexed (-v.offset) .fp)) :: copyArguments ds
    | .error _ => []

def prologue (frame : Int) : List Item :=
  push .ra ++ (push .fp ++ .op (.compute .addu .fp .sp (.imm (2 * wordSize))) ::
    if frame ≠ 0 then [.op (.compute .subu .sp .sp (.imm frame)) "FRAME"] else [])

def epilogue (name : String) : List Item :=
  if name = "main" then service exit
  else [.op (.lw .ra (.indexed 0 .fp)) "load return address", .op (.move .t0 .fp),
    .op (.lw .fp (.indexed (-wordSize) .fp)) "restore FP", .op (.move .sp .t0), .op (.jr .ra)]

def entry (d : FnDecl) (frame : Int) : List Item :=
  .start (d.name.name = "main") ::
    .label (functionLabel d.name.name) ("FUNCTION " ++ d.name.name) ::
      (prologue frame ++ copyArguments env d.formals)

def function (d : FnDecl) (c : Counters) : List Item :=
  let name := d.name.name
  entry env d ((env.frames.lookup name).getD 0) ++
    (block env name d.body c ++ .label (exitLabel name) :: epilogue name)

def decl : Decl → Counters → List Item
  | .var d, _ =>
    match variableOf env d.name with
    | .ok v => [.global (globalLabel v.name)
        (if v.structDef.isSome then some (v.size.fdiv wordSize) else none)]
    | .error _ => []
  | .struct d, _ =>
    match symbolOf env d.name with
    | .ok (.struct s) => [.note s.name s.size]
    | _ => []
  | .fn d, c => function env d c
  | .misfit .., _ => []

def declAfter : Decl → Counters → Counters
  | .fn d, c => blockAfter d.body c
  | _, c => c

def declsAfter : List Decl → Counters → Counters
  | [], c => c
  | d :: ds, c => declsAfter ds (declAfter d c)

/-- The data and code of declarations in order. -/
def decls : List Decl → Counters → List Item
  | [], _ => []
  | d :: ds, c => decl env d c ++ decls ds (declAfter d c)

end CMinusMinus.Proofs.Code
