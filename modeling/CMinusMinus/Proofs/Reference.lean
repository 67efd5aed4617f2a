import CMinusMinus.Syntax

/-!
What a program means, said on its tree alone: names, no symbols, addresses or registers. Values are
words of 32 bits and the texts of literals. A run has fuel, of which each call and each round of a
loop takes one unit, and ends in one of the ways of `Halt`.

Some programs use what the language leaves open: a local variable that nothing was assigned to, or
the result of a function that returned none. A run draws such words from a list of unknowns. With
an empty list, which is how a program runs by itself, it ends as undefined there.
-/
namespace CMinusMinus.Proofs.Reference

/-- The values of variables. -/
abbrev Word := Int32

/-- What an expression evaluates to. A call of a function that returns no value gives nothing. -/
inductive Value where
  | word (w : Word)
  | text (literal : String)
  | nothing

/-- How a run ends. -/
inductive Halt where
  | finished
  | divisionByZero
  | inputExhausted
  | undefined
  | outOfFuel
deriving DecidableEq, Repr

/-- What a running program changes. A variable is known by its name and the fields on the way to the
word in question, a local one also by the number of blocks around its own. -/
structure Store where
  globals : String → List String → Word := fun _ _ => 0
  locals : Nat → String → List String → Option Word := fun _ _ _ => none
  inputs : List Int := []
  output : String := ""
  unknowns : List Word := []

abbrev EvalM := EStateM Halt Store

/-- The names declared in each block around a place, the innermost block first. -/
abbrev Scopes := List (List String)

def unknown : EvalM Word := do
  match (← get).unknowns with
  | [] => throw .undefined
  | w :: unknowns =>
    modify fun world => { world with unknowns }
    return w

/-- The number of blocks around the one that declares a name, if it is a local one. -/
def levelOf? : Scopes → String → Option Nat
  | [], _ => none
  | names :: outer, x => if x ∈ names then some outer.length else levelOf? outer x

def readWord (scopes : Scopes) (x : String) (path : List String) : EvalM Word := do
  match levelOf? scopes x with
  | none => return (← get).globals x path
  | some level =>
    match (← get).locals level x path with
    | some w => return w
    | none => unknown

/-- The world with another word in a variable or in one of its fields. -/
def Store.write (world : Store) (scopes : Scopes) (x : String) (path : List String) (w : Word) :
    Store :=
  match levelOf? scopes x with
  | none => { world with
      globals := fun y q => if y = x ∧ q = path then w else world.globals y q }
  | some level => { world with
      locals := fun l y q => if l = level ∧ y = x ∧ q = path then some w else world.locals l y q }

def writeWord (scopes : Scopes) (x : String) (path : List String) (w : Word) : EvalM Unit :=
  modify (·.write scopes x path w)

/-- The variable that an expression starts with, and the fields that it goes through. -/
def placeOf? : Expr → Option (String × List String)
  | .ident x => some (x.name, [])
  | .dot _ obj field _ _ => (placeOf? obj).map fun (x, path) => (x, path ++ [field.name])
  | _ => none

/-- The variable and the fields of a location. -/
def place (e : Expr) : EvalM (String × List String) :=
  match placeOf? e with
  | some found => return found
  | none => throw .undefined

def Value.toWord : Value → EvalM Word
  | .word w => return w
  | .text _ => throw .undefined
  | .nothing => unknown

def flag (b : Bool) : Word := if b then 1 else 0

def calculate (op : BinaryOp) (a b : Word) : EvalM Word :=
  match op with
  | .add => return a + b
  | .sub => return a - b
  | .mul => return a * b
  | .div => if b = 0 then throw .divisionByZero else return a / b
  | .eq => return flag (a = b)
  | .ne => return flag (a ≠ b)
  | .lt => return flag (a < b)
  | .gt => return flag (b < a)
  | .le => return flag (a ≤ b)
  | .ge => return flag (b ≤ a)
  | .and | .or | .other _ => throw .undefined

/-- The result of an operator on two values. Two literals are never equal, even if their texts are
the same. -/
def combine (op : BinaryOp) : Value → Value → EvalM Word
  | .text _, .text _ =>
    match op with
    | .eq => return flag false
    | .ne => return flag true
    | _ => throw .undefined
  | a, b => do
    let a ← a.toWord
    let b ← b.toWord
    calculate op a b

def UnaryOp.apply (op : UnaryOp) (a : Word) : EvalM Word :=
  match op with
  | .neg => return -a
  | .not => return a ^^^ 1
  | .other _ => throw .undefined

section Expressions

variable (call : String → List Word → EvalM (Option Word)) (scopes : Scopes)

mutual

/-- The value of an expression, from left to right. -/
def expr : Expr → EvalM Value
  | .int _ value => return .word (Int32.ofInt value)
  | .bool _ value => return .word (flag value)
  | .string _ text => return .text text
  | .ident x => return .word (← readWord scopes x.name [])
  | .dot note obj field reached bad => do
    let (x, path) ← place (.dot note obj field reached bad)
    return .word (← readWord scopes x path)
  | .assign _ target value => do
    let w ← (← expr value).toWord
    let (x, path) ← place target
    writeWord scopes x path w
    return .word w
  | .call _ callee args => do
    match ← call callee.name (← words args) with
    | some w => return .word w
    | none => return .nothing
  | .unary _ op operand => do
    let w ← (← expr operand).toWord
    return .word (← UnaryOp.apply op w)
  | .binary _ .and left right => do
    let w ← (← expr left).toWord
    if w ≠ 0 then return .word (← (← expr right).toWord) else return .word w
  | .binary _ .or left right => do
    let w ← (← expr left).toWord
    if w ≠ 0 then return .word w else return .word (← (← expr right).toWord)
  | .binary _ op left right => do
    let a ← expr left
    let b ← expr right
    return .word (← combine op a b)
  | .misfit .. => throw .undefined

def words : List Expr → EvalM (List Word)
  | [] => return []
  | e :: es => do
    let w ← (← expr e).toWord
    return w :: (← words es)

end

/-- What an operator on two values means. -/
theorem expr_calc (note : Note) {op : BinaryOp} (hand : op ≠ .and) (hor : op ≠ .or) (left right : Expr) :
    expr call scopes (.binary note op left right) = (do
      let a ← expr call scopes left
      let b ← expr call scopes right
      return .word (← combine op a b)) := by
  rw [expr]
  · exact hand
  · exact hor

/-- The word of an expression. -/
def word (e : Expr) : EvalM Word := do (← expr call scopes e).toWord

end Expressions

/-- How statements end: at their end, or by a return with or without a value. -/
inductive Flow where
  | next
  | returned (value : Option Word)

/-- The value that a function gives. -/
def Flow.value : Flow → Option Word
  | next => none
  | returned value => value

/-- The text that the inside of a literal stands for. -/
def shown : List Char → List Char
  | '\\' :: 'n' :: rest => '\n' :: shown rest
  | '\\' :: 't' :: rest => '\t' :: shown rest
  | '\\' :: c :: rest => c :: shown rest
  | c :: rest => c :: shown rest
  | [] => []

def print (text : String) : EvalM Unit := modify fun world =>
  { world with output := world.output ++ text }

def nextInput : EvalM Word := do
  match (← get).inputs with
  | [] => throw .inputExhausted
  | n :: inputs =>
    modify fun world => { world with inputs }
    return Int32.ofInt n

def rounds (cond : EvalM Word) (body : EvalM Flow) : Nat → EvalM Flow
  | 0 => throw .outOfFuel
  | fuel + 1 => do
    if (← cond) ≠ 0 then
      match ← body with
      | .next => rounds cond body fuel
      | .returned value => return .returned value
    else return .next

def forget (level : Nat) : EvalM Unit := modify fun world =>
  { world with locals := fun l x path => if l = level then none else world.locals l x path }

def names (decls : List VarDecl) : List String := decls.map (·.name.name)

section Statements

variable (fuel : Nat) (call : String → List Word → EvalM (Option Word))

def count (scopes : Scopes) (target : Expr) (delta : Word) : EvalM Unit := do
  let (x, path) ← place target
  let w ← readWord scopes x path
  writeWord scopes x path (w + delta)

mutual

/-- Runs a statement. -/
def stmt (scopes : Scopes) : Stmt → EvalM Flow
  | .assign _ e | .call _ e => do
    let _ ← expr call scopes e
    return .next
  | .increment _ target => do
    count scopes target 1
    return .next
  | .decrement _ target => do
    count scopes target (-1)
    return .next
  | .read _ target => do
    let w ← nextInput
    let (x, path) ← place target
    writeWord scopes x path w
    return .next
  | .write _ e => do
    match ← expr call scopes e with
    | .text literal => print (String.ofList (shown literal.toList))
    | value => print (toString (← value.toWord).toInt)
    return .next
  | .ifThen _ cond body => do
    if (← word call scopes cond) ≠ 0 then block scopes body else return .next
  | .ifElse _ cond body other => do
    if (← word call scopes cond) ≠ 0 then block scopes body else block scopes other
  | .loop _ cond body => rounds (word call scopes cond) (block scopes body) fuel
  | .ret _ none => return .returned none
  | .ret _ (some e) => return .returned (some (← word call scopes e))
  | .misfit .. => throw .undefined

def stmts (scopes : Scopes) : List Stmt → EvalM Flow
  | [] => return .next
  | s :: ss => do
    match ← stmt scopes s with
    | .next => stmts scopes ss
    | .returned value => return .returned value

def block (scopes : Scopes) : Block → EvalM Flow
  | .mk _ decls body => do
    forget scopes.length
    stmts (names decls :: scopes) body

end

end Statements

def function? (p : Program) (name : String) : Option FnDecl :=
  p.decls.findSome? fun
    | .fn d => if d.name.name = name then some d else none
    | _ => none

/-- The local variables of a function when it starts: its parameters have the words of the
arguments. -/
def parameters (formals : List String) (args : List Word) :
    Nat → String → List String → Option Word :=
  fun level x path => if level = 0 ∧ path = [] then (formals.zip args).lookup x else none

/-- Calls a function. The end of the function that a program starts with is the end of the
program. -/
def call (p : Program) : Nat → String → List Word → EvalM (Option Word)
  | 0, _, _ => throw .outOfFuel
  | fuel + 1, name, args => do
    match function? p name with
    | none => throw .undefined
    | some d =>
      let caller := (← get).locals
      modify fun world => { world with locals := parameters (names d.formals) args }
      let flow ← stmts fuel (call p fuel) [names (d.formals ++ d.body.decls)] d.body.stmts
      if name = "main" then throw .finished
      modify fun world => { world with locals := caller }
      return flow.value

/-- How a program runs on an input, and what it writes. -/
def run (p : Program) (inputs : List Int) (fuel : Nat) : Halt × String :=
  match call p fuel "main" [] { inputs } with
  | .ok _ world => (.finished, world.output)
  | .error halt world => (halt, world.output)

end CMinusMinus.Proofs.Reference
