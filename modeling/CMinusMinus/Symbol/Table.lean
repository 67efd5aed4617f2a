/-!
Symbol tables: a stack of scopes, each a list of names with the index of the symbol that the name
stands for. A name stands for what the innermost scope that has it says.
-/
namespace CMinusMinus

/-- The names declared in one scope with the indices of their symbols, in order of declaration. -/
abbrev Scope := List (String × Int)

/-- A stack of scopes, the innermost first. A frozen table takes no more declarations. -/
structure SymbolTable where
  scopes : List Scope := [[]]
  frozen : Bool := false
deriving Repr

/-- Why a table refuses an operation. -/
inductive TableError where
  | noScope
  | declaredTwice (name : String)
  | frozen (name : String)
deriving DecidableEq, Repr

def TableError.message : TableError → String
  | noScope => "there is no scope"
  | declaredTwice name => s!"'{name}' is already declared in this scope"
  | frozen name => s!"declaration of '{name}' added to a frozen symbol table"

namespace SymbolTable

def push (t : SymbolTable) : SymbolTable := { t with scopes := [] :: t.scopes }

def pop (t : SymbolTable) : SymbolTable := { t with scopes := t.scopes.tail }

def inner (t : SymbolTable) : Scope := t.scopes.headD []

def depth (t : SymbolTable) : Nat := t.scopes.length

/-- What a name stands for in the innermost scope alone. -/
def findInner? (t : SymbolTable) (name : String) : Option Int := t.inner.lookup name

def find? (t : SymbolTable) (name : String) : Option Int :=
  t.scopes.findSome? (·.lookup name)

/-- The table with a name added to its innermost scope. -/
def insert (t : SymbolTable) (name : String) (index : Int) : SymbolTable :=
  match t.scopes with
  | [] => t
  | scope :: outer => { t with scopes := (scope ++ [(name, index)]) :: outer }

def freeze (t : SymbolTable) : SymbolTable := { t with frozen := true }

def withScope {α : Type} (t : SymbolTable) (a : α) : Except TableError α :=
  if t.scopes.isEmpty then .error .noScope else .ok a

/-- Declares a name in the innermost scope. A frozen table refuses first, then one without scopes,
then one whose innermost scope has the name. -/
def declare (t : SymbolTable) (name : String) (index : Int) : Except TableError SymbolTable :=
  if t.frozen then .error (.frozen name)
  else if t.scopes.isEmpty then .error .noScope
  else if (t.findInner? name).isSome then .error (.declaredTwice name)
  else .ok (t.insert name index)

end SymbolTable

end CMinusMinus
