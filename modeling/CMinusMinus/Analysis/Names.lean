import CMinusMinus.Analysis

/-!
Name analysis. One walk through the program in the order of the text enters each declaration into
the innermost scope and binds each identifier to the innermost declaration of its name. A use
comes after its declaration; the value of an assignment is visited before its target. A struct
gets a table of its fields with their offsets, and a field access is followed from struct to
struct.
-/
namespace CMinusMinus.Names

/-- What the walk carries along: the scopes, the symbols and the findings. -/
structure State extends Journal where
  table : SymbolTable := {}
  arena : Arena

abbrev NamesM := StateM State

def stopped : NamesM Bool := return (← get).stopped

def report (finding : NameFinding) (span : Option Span) : NamesM Unit :=
  modify fun s => { s with toJournal := s.report .error (.naming finding) span }

/-- Stops the walk. -/
def stop (fault : Fault) : NamesM Unit :=
  modify fun s => { s with toJournal := s.toJournal.stop fault }

/-- Stops the walk by an internal error about a part of the source. -/
def stopAt (cause : FaultCause) (span : Option Span) : NamesM Unit :=
  modify fun s => { s with toJournal := s.toJournal.stopAt cause span }

def use (x : Ident) : NamesM Ident := do
  let s ← get
  if s.stopped then return x
  match s.table.find? x.name with
  | some index => return { x with binding := .ofIndex index }
  | none =>
    report (.undeclared x.name) x.note.span
    return { x with binding := .unresolved }

/-- The struct whose fields an expression offers, or nothing after an error. -/
def structOf (obj : Expr) : NamesM (Option Int) := do
  match obj with
  | .ident x =>
    match x.binding with
    | .unvisited | .unresolved => return none
    | .symbol index =>
      match (← get).arena.get? index with
      | none =>
        stop (.outOfRange index)
        return none
      | some (.var ⟨_, _, _, _, some structDef, _⟩) => return some structDef
      | some _ =>
        report .dotOnNonStruct obj.span
        return none
  | .dot _ _ _ structDef bad =>
    if bad then return none
    match structDef with
    | some index => return some index
    | none =>
      report .dotOnNonStruct obj.span
      return none
  | _ =>
    stopAt (.namesDotOperand obj.kind) obj.span
    return none

/-- Binds the field of an access whose object has been visited. -/
def useField (note : Note) (obj : Expr) (field : Ident) (reached : Option Int) (bad : Bool) :
    NamesM Expr := do
  let same := Expr.dot note obj field reached bad
  let poisoned := Expr.dot note obj { field with binding := .unresolved } reached true
  if ← stopped then return same
  let owner ← structOf obj
  let s ← get
  if s.stopped then return same
  match owner with
  | none => return poisoned
  | some index =>
    match s.arena.get? index with
    | none =>
      stop (.outOfRange index)
      return same
    | some (.struct d) =>
      match d.fields.find? field.name with
      | none =>
        report (.noSuchField field.name) field.note.span
        return poisoned
      | some fieldIndex =>
        let field := { field with binding := .ofIndex fieldIndex }
        match s.arena.get? fieldIndex with
        | none =>
          stop (.outOfRange fieldIndex)
          return .dot note obj field reached bad
        | some (.var v) => return .dot note obj field (v.structDef.or reached) bad
        | some _ =>
          stop .wrongSymbol
          return .dot note obj field reached bad
    | some _ =>
      stop .wrongSymbol
      return same

mutual

/-- Visits an expression. -/
def expr : Expr → NamesM Expr
  | .int note v => return .int note v
  | .string note t => return .string note t
  | .bool note b => return .bool note b
  | .ident x => return .ident (← use x)
  | .dot note obj field reached bad => do
    let obj ← expr obj
    useField note obj field reached bad
  | .assign note target value => do
    let value ← expr value
    let target ← expr target
    return .assign note target value
  | .call note callee args => do
    let callee ← use callee
    let args ← exprs args
    return .call note callee args
  | .unary note op operand => return .unary note op (← expr operand)
  | .binary note op left right => do
    let left ← expr left
    let right ← expr right
    return .binary note op left right
  | .misfit note kind => do
    stopAt (.namesExpr kind) note.span
    return .misfit note kind

def exprs : List Expr → NamesM (List Expr)
  | [] => return []
  | e :: es => do
    let e ← expr e
    let es ← exprs es
    return e :: es

end

/-- The struct of a name that is in sight, with its index. -/
def structNamed? (s : State) (name : String) : Option (Int × StructDef) :=
  match s.table.find? name with
  | none => none
  | some index =>
    match s.arena.get? index with
    | some (.struct d) => some (index, d)
    | _ => none

/-- The variable of a name and a declared type, or nothing after an error. A struct type needs a
struct of that name in sight. -/
def typedVariable (name : String) (t : TypeName) : NamesM (Option Variable) := do
  if t.isStruct then
    match structNamed? (← get) t.name with
    | some (index, d) =>
      return some { name, ty := .struct t.name, structDef := some index, size := d.size }
    | none =>
      report (.notAStruct t.name) t.span
      return none
  else
    match Ty.ofWord t.name with
    | .ok ty => return some { name, ty }
    | .error fault =>
      stop fault
      return none

/-- The variable that a declaration introduces, or nothing after an error: it is not to be void,
and its name not to be taken. -/
def newVariable (d : VarDecl) (isTaken : Bool) (twice : NameFinding) : NamesM (Option Variable) := do
  let isVoid := d.type.name == "void"
  if isVoid then report (.declaredVoid d.name.name) d.name.note.span
  let v ← typedVariable d.name.name d.type
  if isTaken then report twice d.name.note.span
  if (← stopped) || isVoid || isTaken then return none else return v

/-- Enters a symbol under a name into the innermost scope. -/
def declare (name : Ident) (symbol : Symbol) : NamesM Ident := do
  let s ← get
  if s.stopped then return name
  if (s.table.findInner? name.name).isSome then
    report (.declaredTwice name.name) name.note.span
    return name
  set { s with arena := s.arena.push symbol, table := s.table.insert name.name s.arena.size }
  return { name with binding := .symbol s.arena.size }

def varDecl (d : VarDecl) : NamesM VarDecl := do
  let s ← get
  let isTaken := (s.table.findInner? d.name.name).isSome
  match ← newVariable d isTaken (.declaredTwice d.name.name) with
  | none => return d
  | some v =>
    let v := { v with isGlobal := s.table.depth == 1 }
    return { d with name := ← declare d.name (.var v) }

/-- Visits the fields of a struct, which go into a table of their own one after the other. -/
def fields : List VarDecl → SymbolTable → Int → NamesM (List VarDecl × SymbolTable × Int)
  | [], table, offset => return ([], table, offset)
  | d :: ds, table, offset => do
    let isTaken := (table.findInner? d.name.name).isSome
    match ← newVariable d isTaken (.fieldDeclaredTwice d.name.name) with
    | none =>
      let (ds, table, offset) ← fields ds table offset
      return (d :: ds, table, offset)
    | some v =>
      let s ← get
      let index := s.arena.size
      set { s with arena := s.arena.push (.var { v with offset }) }
      let d := { d with name.binding := .symbol index }
      let (ds, table, offset) ← fields ds (table.insert d.name.name index) (offset + v.size)
      return (d :: ds, table, offset)

def structDecl (d : StructDecl) : NamesM StructDecl := do
  let s ← get
  let isTaken := (s.table.findInner? d.name.name).isSome
  if isTaken then report (.declaredTwice d.name.name) d.name.note.span
  let (members, table, size) ← fields d.fields {} 0
  let name ← if isTaken then pure d.name
    else declare d.name (.struct { name := d.name.name, fields := table.freeze, size })
  return { d with name, fields := members }

/-- The function that a declaration introduces. A parameter declared void is in error. -/
def signature (d : FnDecl) : Except Fault Function := do
  let params ← d.formals.mapM fun f =>
    if f.type.name = "void" then pure Ty.error else Ty.ofWord f.type.name
  let result ← Ty.ofWord d.result.name
  return { name := d.name.name, params, result }

def formal (d : VarDecl) : NamesM VarDecl := do
  let s ← get
  let isVoid := d.type.name == "void"
  let isTaken := (s.table.findInner? d.name.name).isSome
  if isVoid then report (.declaredVoid d.name.name) d.name.note.span
  if isTaken then report (.declaredTwice d.name.name) d.name.note.span
  if isVoid || isTaken then return d
  match Ty.ofWord d.type.name with
  | .error fault =>
    stop fault
    return d
  | .ok ty => return { d with name := ← declare d.name (.var { name := d.name.name, ty }) }

mutual

/-- Visits a statement. -/
def stmt : Stmt → NamesM Stmt
  | .assign span e => return .assign span (← expr e)
  | .increment span e => return .increment span (← expr e)
  | .decrement span e => return .decrement span (← expr e)
  | .read span e => return .read span (← expr e)
  | .write span e => return .write span (← expr e)
  | .ifThen span cond body => do
    let cond ← expr cond
    let body ← nested body
    return .ifThen span cond body
  | .ifElse span cond body other => do
    let cond ← expr cond
    let body ← nested body
    let other ← nested other
    return .ifElse span cond body other
  | .loop span cond body => do
    let cond ← expr cond
    let body ← nested body
    return .loop span cond body
  | .call span e => return .call span (← expr e)
  | .ret span none => return .ret span none
  | .ret span (some e) => return .ret span (some (← expr e))
  | .misfit span kind => do
    stopAt (.namesStmt kind) span
    return .misfit span kind

def stmts : List Stmt → NamesM (List Stmt)
  | [] => return []
  | s :: ss => do
    let s ← stmt s
    let ss ← stmts ss
    return s :: ss

def nested : Block → NamesM Block
  | .mk span decls body => do
    modify fun s => { s with table := s.table.push }
    let decls ← decls.mapM varDecl
    let body ← stmts body
    modify fun s => { s with table := s.table.pop }
    return .mk span decls body

end

/-- Visits a function; its parameters and the declarations of its body share one scope. -/
def fnDecl (d : FnDecl) : NamesM FnDecl := do
  if ← stopped then return d
  match signature d with
  | .error fault =>
    stop fault
    return d
  | .ok f =>
    let name ← declare d.name (.func f)
    modify fun s => { s with table := s.table.push }
    let formals ← d.formals.mapM formal
    let decls ← d.body.decls.mapM varDecl
    let body ← stmts d.body.stmts
    modify fun s => { s with table := s.table.pop }
    return { d with name, formals, body := .mk d.body.span decls body }

def decl : Decl → NamesM Decl
  | .var d => return .var (← varDecl d)
  | .struct d => return .struct (← structDecl d)
  | .fn d => return .fn (← fnDecl d)
  | .misfit span kind => do
    stopAt (.namesDecl kind) span
    return .misfit span kind

end CMinusMinus.Names

namespace CMinusMinus

/-- Analyses the names of a program, and gives the fault that stopped it, if any. -/
def Analysis.resolveNames (a : Analysis) : Analysis × Option Fault :=
  match a.program with
  | none => (a, some (.internal .namesWithoutProgram none))
  | some p =>
    let start : Names.State := { file := a.file, diagnostics := a.diagnostics, arena := a.arena }
    let (decls, s) := (p.decls.mapM Names.decl).run start
    ({ a with
        program := some { p with decls }
        arena := s.arena
        diagnostics := s.diagnostics
        globals := if s.stopped then a.globals else some s.table },
      s.fault)

end CMinusMinus
