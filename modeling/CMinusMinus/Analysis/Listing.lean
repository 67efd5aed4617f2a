import CMinusMinus.Analysis
import CMinusMinus.Text.Integer

/-!
The listing of a program's symbols: the globals with their types and sizes, the layout of structs,
and for each function the slots of its parameters and local variables.
-/
namespace CMinusMinus.Analysis

/-- A line of the listing: a number that stands in it, and what stands before and after. -/
structure ListingLine where
  before : String
  number : Option Int := none
  after : String := ""

/-- A line as it is shown; a number with too many digits cannot be. -/
def ListingLine.text? (l : ListingLine) : Option String :=
  match l.number with
  | none => some (l.before ++ l.after)
  | some n => if Text.isWritable n then some (l.before ++ toString n ++ l.after) else none

def slotLine (indent name : String) (v : Variable) : ListingLine :=
  ⟨s!"{indent}{name}[", some v.offset, s!"]: {v.ty.shown}"⟩

/-- The slot of a declared name; a declaration that name analysis refused has none. -/
def slotOf (a : Analysis) (x : Ident) : List ListingLine :=
  match x.binding with
  | .unvisited | .unresolved => []
  | .symbol index =>
    match a.arena.get? index with
    | some (.var v) => [slotLine "  " v.name v]
    | _ => []

def slotsOf (a : Analysis) (decls : List VarDecl) : List ListingLine :=
  decls.flatMap fun d => a.slotOf d.name

mutual

def stmtSlots (a : Analysis) : Stmt → List ListingLine
  | .ifThen _ _ body => a.blockSlots body
  | .ifElse _ _ body other => a.blockSlots body ++ a.blockSlots other
  | .loop _ _ body => a.blockSlots body
  | _ => []

def stmtsSlots (a : Analysis) : List Stmt → List ListingLine
  | [] => []
  | s :: ss => a.stmtSlots s ++ a.stmtsSlots ss

def blockSlots (a : Analysis) : Block → List ListingLine
  | .mk _ decls stmts => a.slotsOf decls ++ a.stmtsSlots stmts

end

def globalLines (a : Analysis) (name : String) (index : Int) : List ListingLine :=
  match a.arena.get? index with
  | some (.struct d) =>
    ⟨s!"  struct {name} (size ", some d.size, ")"⟩ :: d.fields.inner.flatMap fun (field, i) =>
      match a.arena.get? i with
      | some (.var v) => [slotLine "    " field v]
      | _ => []
  | some (.func f) => [{ before := s!"  {name}: {(Symbol.func f).ty.shown}" }]
  | some (.var v) => [⟨s!"  {name}: {v.ty.shown} (size ", some v.size, ")"⟩]
  | none => []

def functionLines (a : Analysis) (d : FnDecl) : List ListingLine :=
  let frame := (a.frames.lookup d.name.name).getD 0
  ⟨s!"=== function {d.name.name} (frame ", some frame, ") ==="⟩ ::
    (a.slotsOf d.formals ++ a.blockSlots d.body)

/-- The listing of a program's symbols; there is none before name analysis. -/
def listing? (a : Analysis) : Option (List ListingLine) :=
  match a.program, a.globals with
  | some p, some globals =>
    let functions := p.decls.flatMap fun
      | .fn d => a.functionLines d
      | _ => []
    some ({ before := "=== globals ===" } ::
      (globals.inner.flatMap (fun (name, index) => a.globalLines name index) ++ functions))
  | _, _ => none

end CMinusMinus.Analysis
