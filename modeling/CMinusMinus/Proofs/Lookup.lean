import CMinusMinus.Proofs.Naming

/-!
Name analysis, as functions of the tree and of what is in sight. What the walk through a raw program does
depends on the scopes and the symbols alone: it binds names, enters symbols, and adds to what was found
before. An expression that nothing is said about has all its names bound.
-/
namespace CMinusMinus.Proofs.Resolution

open Names WellFormed Grammar Naming

/-- What is in sight of a part of a program: the scopes around it, and the symbols so far. -/
structure Sight where
  table : SymbolTable
  arena : Arena

namespace Sight

/-- A symbol is entered under a name into the innermost scope. -/
def enter (w : Sight) (name : String) (symbol : Symbol) : Sight :=
  ⟨w.table.insert name w.arena.size, w.arena.push symbol⟩

def push (w : Sight) : Sight := { w with table := w.table.push }

def pop (w : Sight) : Sight := { w with table := w.table.pop }

def isTaken (w : Sight) (name : String) : Bool := (w.table.findInner? name).isSome

end Sight

/-- What the walk has to say about a part of the source. -/
def objection (finding : NameFinding) (span : Option Span) : Diagnostic :=
  .atSpan .error (.naming finding) none span

section Expressions

variable (w : Sight)

/-- An identifier, bound to what its name stands for. -/
def bound (x : Ident) : Ident :=
  { x with binding := ((w.table.find? x.name).map Binding.symbol).getD .unresolved }

def useSays (x : Ident) : List Diagnostic :=
  if (w.table.find? x.name).isSome then [] else [objection (.undeclared x.name) x.note.span]

/-- The struct whose fields an expression offers. -/
def ownerOf (arena : Arena) : Expr → Option Int
  | .ident x =>
    match x.binding with
    | .symbol i =>
      match arena.get? i with
      | some (.var u) => u.structDef
      | _ => none
    | _ => none
  | .dot _ _ _ reached bad => if bad then none else reached
  | _ => none

/-- The names of an expression have been given up before. -/
def isLost : Expr → Bool
  | .ident x => x.binding = .unresolved
  | .dot _ _ _ _ bad => bad
  | _ => false

/-- The field of a struct with a name. -/
def fieldOf (arena : Arena) (owner : Int) (name : String) : Option (Int × Variable) :=
  match arena.get? owner with
  | some (.struct d) =>
    (d.fields.find? name).bind fun j =>
      match arena.get? j with
      | some (.var u) => some (j, u)
      | _ => none
  | _ => none

/-- The name of a field looked up in a struct, if there is one, the struct reached by it, and whether the
access is given up. -/
def accessIn (arena : Arena) (owner : Option Int) (field : Ident) : Ident × Option Int × Bool :=
  match owner.bind (fieldOf arena · field.name) with
  | some (j, u) => ({ field with binding := .symbol j }, u.structDef, false)
  | none => ({ field with binding := .unresolved }, none, true)

/-- The access to a field of an object whose names have been looked up. -/
def access (arena : Arena) (note : Note) (obj : Expr) (field : Ident) : Expr :=
  .dot note obj (accessIn arena (ownerOf arena obj) field).1 (accessIn arena (ownerOf arena obj) field).2.1
    (accessIn arena (ownerOf arena obj) field).2.2

def ownerSays (arena : Arena) (obj : Expr) : List Diagnostic :=
  if ownerOf arena obj = none ∧ isLost obj = false then [objection .dotOnNonStruct obj.span] else []

def fieldSays (arena : Arena) (field : Ident) : Option Int → List Diagnostic
  | none => []
  | some k =>
    if (fieldOf arena k field.name).isSome then [] else [objection (.noSuchField field.name) field.note.span]

def accessSays (arena : Arena) (obj : Expr) (field : Ident) : List Diagnostic :=
  ownerSays arena obj ++ fieldSays arena field (ownerOf arena obj)

mutual

/-- An expression with its names looked up. -/
def resolved : Expr → Expr
  | .ident x => .ident (bound w x)
  | .dot note obj field _ _ => access w.arena note (resolved obj) field
  | .assign note target value => .assign note (resolved target) (resolved value)
  | .call note callee args => .call note (bound w callee) (resolvedAll args)
  | .unary note op operand => .unary note op (resolved operand)
  | .binary note op left right => .binary note op (resolved left) (resolved right)
  | .int note value => .int note value
  | .string note text => .string note text
  | .bool note value => .bool note value
  | .misfit note kind => .misfit note kind

def resolvedAll : List Expr → List Expr
  | [] => []
  | e :: es => resolved e :: resolvedAll es

end

mutual

/-- What is said about the names of an expression, in order. -/
def exprSays : Expr → List Diagnostic
  | .ident x => useSays w x
  | .dot _ obj field _ _ => exprSays obj ++ accessSays w.arena (resolved w obj) field
  | .assign _ target value => exprSays value ++ exprSays target
  | .call _ callee args => useSays w callee ++ exprsSay args
  | .unary _ _ operand => exprSays operand
  | .binary _ _ left right => exprSays left ++ exprSays right
  | .int .. | .string .. | .bool .. | .misfit .. => []

def exprsSay : List Expr → List Diagnostic
  | [] => []
  | e :: es => exprSays e ++ exprsSay es

end

end Expressions

section Declarations

variable (w : Sight)

/-- The struct of a name that is in sight, with its index. -/
def structIn (name : String) : Option (Int × StructDef) :=
  (w.table.find? name).bind fun i =>
    match w.arena.get? i with
    | some (.struct d) => some (i, d)
    | _ => none

/-- The variable of a declaration with its type, where the type is known. -/
def typedIn (d : VarDecl) : Option Variable :=
  if d.type.isStruct then
    (structIn w d.type.name).map fun (k, e) =>
      { name := d.name.name, ty := .struct d.type.name, structDef := some k, size := e.size }
  else (Ty.ofWord? d.type.name).map fun ty => { name := d.name.name, ty }

/-- The variable that a declaration introduces. -/
def newIn (d : VarDecl) (isTaken : Bool) : Option Variable :=
  if d.type.name == "void" || isTaken then none else typedIn w d

def newSays (d : VarDecl) (isTaken : Bool) (twice : NameFinding) : List Diagnostic :=
  (if d.type.name == "void" then [objection (.declaredVoid d.name.name) d.name.note.span] else []) ++
  ((if d.type.isStruct && (structIn w d.type.name).isNone then [objection (.notAStruct d.type.name) d.type.span]
    else []) ++ if isTaken then [objection twice d.name.note.span] else [])

/-- A declaration, bound to the next symbol. -/
def boundVar (d : VarDecl) : VarDecl := { d with name.binding := .symbol w.arena.size }

/-- A declaration of a variable, and what is in sight after it. -/
def varIn (d : VarDecl) : VarDecl × Sight :=
  match newIn w d (w.isTaken d.name.name) with
  | none => (d, w)
  | some u => (boundVar w d, w.enter d.name.name (.var { u with isGlobal := w.table.depth == 1 }))

def varSays (d : VarDecl) : List Diagnostic :=
  newSays w d (w.isTaken d.name.name) (.declaredTwice d.name.name)

/-- A declaration of a parameter, and what is in sight after it. -/
def formalIn (d : VarDecl) : VarDecl × Sight :=
  if d.type.name == "void" || w.isTaken d.name.name then (d, w)
  else (boundVar w d, w.enter d.name.name
    (.var { name := d.name.name, ty := (Ty.ofWord? d.type.name).getD .error }))

def formalSays (d : VarDecl) : List Diagnostic :=
  (if d.type.name == "void" then [objection (.declaredVoid d.name.name) d.name.note.span] else []) ++
  if w.isTaken d.name.name then [objection (.declaredTwice d.name.name) d.name.note.span] else []

end Declarations

/-- Declarations, one after the other. -/
def allIn (f : Sight → VarDecl → VarDecl × Sight) : Sight → List VarDecl → List VarDecl × Sight
  | w, [] => ([], w)
  | w, d :: ds => ((f w d).1 :: (allIn f (f w d).2 ds).1, (allIn f (f w d).2 ds).2)

def allSay (f : Sight → VarDecl → VarDecl × Sight) (said : Sight → VarDecl → List Diagnostic) :
    Sight → List VarDecl → List Diagnostic
  | _, [] => []
  | w, d :: ds => said w d ++ allSay f said (f w d).2 ds

/-- The fields of a struct, from an offset on: their declarations, the table of their names and the offset
after them, and what is in sight then. -/
def fieldsIn (w : Sight) (table : SymbolTable) (offset : Int) :
    List VarDecl → (List VarDecl × SymbolTable × Int) × Sight
  | [] => (([], table, offset), w)
  | d :: ds =>
    match newIn w d (table.findInner? d.name.name).isSome with
    | none =>
      let r := fieldsIn w table offset ds
      ((d :: r.1.1, r.1.2), r.2)
    | some u =>
      let r := fieldsIn { w with arena := w.arena.push (.var { u with offset }) }
        (table.insert d.name.name w.arena.size) (offset + u.size) ds
      ((boundVar w d :: r.1.1, r.1.2), r.2)

def fieldsSay (w : Sight) (table : SymbolTable) (offset : Int) : List VarDecl → List Diagnostic
  | [] => []
  | d :: ds => newSays w d (table.findInner? d.name.name).isSome (.fieldDeclaredTwice d.name.name) ++
    match newIn w d (table.findInner? d.name.name).isSome with
    | none => fieldsSay w table offset ds
    | some u => fieldsSay { w with arena := w.arena.push (.var { u with offset }) }
        (table.insert d.name.name w.arena.size) (offset + u.size) ds

mutual

/-- What is in sight after a statement. -/
def stmtAfter (w : Sight) : Stmt → Sight
  | .ifThen _ _ body | .loop _ _ body => blockAfter w body
  | .ifElse _ _ body other => blockAfter (blockAfter w body) other
  | _ => w

def stmtsAfter (w : Sight) : List Stmt → Sight
  | [] => w
  | st :: ss => stmtsAfter (stmtAfter w st) ss

def blockAfter (w : Sight) : Block → Sight
  | .mk _ decls body => (stmtsAfter (allIn varIn w.push decls).2 body).pop

end

mutual

/-- A statement with its names looked up. -/
def stmtIn (w : Sight) : Stmt → Stmt
  | .assign span e => .assign span (resolved w e)
  | .increment span e => .increment span (resolved w e)
  | .decrement span e => .decrement span (resolved w e)
  | .read span e => .read span (resolved w e)
  | .write span e => .write span (resolved w e)
  | .ifThen span cond body => .ifThen span (resolved w cond) (blockIn w body)
  | .ifElse span cond body other =>
    .ifElse span (resolved w cond) (blockIn w body) (blockIn (blockAfter w body) other)
  | .loop span cond body => .loop span (resolved w cond) (blockIn w body)
  | .call span e => .call span (resolved w e)
  | .ret span none => .ret span none
  | .ret span (some e) => .ret span (some (resolved w e))
  | .misfit span kind => .misfit span kind

def stmtsIn (w : Sight) : List Stmt → List Stmt
  | [] => []
  | st :: ss => stmtIn w st :: stmtsIn (stmtAfter w st) ss

def blockIn (w : Sight) : Block → Block
  | .mk span decls body =>
    .mk span (allIn varIn w.push decls).1 (stmtsIn (allIn varIn w.push decls).2 body)

end

mutual

/-- What is said about the names of a statement, in order. -/
def stmtSays (w : Sight) : Stmt → List Diagnostic
  | .assign _ e | .increment _ e | .decrement _ e | .read _ e | .write _ e | .call _ e | .ret _ (some e) =>
    exprSays w e
  | .ifThen _ cond body | .loop _ cond body => exprSays w cond ++ blockSays w body
  | .ifElse _ cond body other => exprSays w cond ++ (blockSays w body ++ blockSays (blockAfter w body) other)
  | .ret _ none | .misfit .. => []

def stmtsSay (w : Sight) : List Stmt → List Diagnostic
  | [] => []
  | st :: ss => stmtSays w st ++ stmtsSay (stmtAfter w st) ss

def blockSays (w : Sight) : Block → List Diagnostic
  | .mk _ decls body =>
    allSay varIn varSays w.push decls ++ stmtsSay (allIn varIn w.push decls).2 body

end

section Programs

variable (w : Sight)

def structDeclIn (d : StructDecl) : StructDecl × Sight :=
  let r := fieldsIn w {} 0 d.fields
  if w.isTaken d.name.name then ({ d with fields := r.1.1 }, r.2)
  else ({ d with name.binding := .symbol r.2.arena.size, fields := r.1.1 },
    r.2.enter d.name.name (.struct { name := d.name.name, fields := r.1.2.1.freeze, size := r.1.2.2 }))

def structSays (d : StructDecl) : List Diagnostic :=
  (if w.isTaken d.name.name then [objection (.declaredTwice d.name.name) d.name.note.span] else []) ++
    fieldsSay w {} 0 d.fields

def paramTy (d : VarDecl) : Ty :=
  if d.type.name = "void" then .error else (Ty.ofWord? d.type.name).getD .error

/-- The function that a declaration introduces. -/
def functionOf (d : FnDecl) : Function :=
  { name := d.name.name, params := d.formals.map paramTy, result := (Ty.ofWord? d.result.name).getD .error }

/-- What is in sight after the name of a function. -/
def fnNamed (d : FnDecl) : Sight :=
  if w.isTaken d.name.name then w else w.enter d.name.name (.func (functionOf d))

def fnName (d : FnDecl) : Ident :=
  if w.isTaken d.name.name then d.name else { d.name with binding := .symbol w.arena.size }

def fnFormals (d : FnDecl) : List VarDecl × Sight := allIn formalIn (fnNamed w d).push d.formals

def fnLocals (d : FnDecl) : List VarDecl × Sight := allIn varIn (fnFormals w d).2 d.body.decls

def fnIn (d : FnDecl) : FnDecl × Sight :=
  ({ d with
      name := fnName w d
      formals := (fnFormals w d).1
      body := .mk d.body.span (fnLocals w d).1 (stmtsIn (fnLocals w d).2 d.body.stmts) },
    (stmtsAfter (fnLocals w d).2 d.body.stmts).pop)

def fnSays (d : FnDecl) : List Diagnostic :=
  (if w.isTaken d.name.name then [objection (.declaredTwice d.name.name) d.name.note.span] else []) ++
    (allSay formalIn formalSays (fnNamed w d).push d.formals ++ (allSay varIn varSays (fnFormals w d).2 d.body.decls ++
      stmtsSay (fnLocals w d).2 d.body.stmts))

/-- A declaration at the top of a program, and what is in sight after it. -/
def declIn : Decl → Decl × Sight
  | .var d => (.var (varIn w d).1, (varIn w d).2)
  | .struct d => (.struct (structDeclIn w d).1, (structDeclIn w d).2)
  | .fn d => (.fn (fnIn w d).1, (fnIn w d).2)
  | .misfit span kind => (.misfit span kind, w)

def declSays : Decl → List Diagnostic
  | .var d => varSays w d
  | .struct d => structSays w d
  | .fn d => fnSays w d
  | .misfit .. => []

end Programs

def declsIn : Sight → List Decl → List Decl × Sight
  | w, [] => ([], w)
  | w, d :: ds => ((declIn w d).1 :: (declsIn (declIn w d).2 ds).1, (declsIn (declIn w d).2 ds).2)

/-- What is said about the names of a program, in order. -/
def declsSay : Sight → List Decl → List Diagnostic
  | _, [] => []
  | w, d :: ds => declSays w d ++ declsSay (declIn w d).2 ds

/-- What is in sight at the beginning. -/
def outset : Sight := ⟨{}, {}⟩

section Variables

variable {w : Sight} {d : VarDecl} {isTaken : Bool} {u : Variable}

/-- A new variable has the name of its declaration, and is taken for local at first. -/
theorem newIn_name (h : newIn w d isTaken = some u) : u.name = d.name.name ∧ u.isGlobal = false := by
  unfold newIn typedIn at h
  split at h
  · cases h
  · split at h
    · obtain ⟨_, -, rfl⟩ := Option.map_eq_some_iff.mp h
      exact ⟨rfl, rfl⟩
    · obtain ⟨_, -, rfl⟩ := Option.map_eq_some_iff.mp h
      exact ⟨rfl, rfl⟩

/-- Nothing is said about the declaration of a variable that is made. -/
theorem newSays_of_newIn {twice : NameFinding} (h : newIn w d isTaken = some u) : newSays w d isTaken twice = [] := by
  unfold newIn at h
  split at h
  · cases h
  · rename_i hfine
    simp only [Bool.or_eq_true, not_or, Bool.not_eq_true] at hfine
    have hstruct : (d.type.isStruct && (structIn w d.type.name).isNone) = false := by
      unfold typedIn at h
      split at h
      · obtain ⟨p, hp, -⟩ := Option.map_eq_some_iff.mp h
        simp [hp]
      · simp_all
    simp [newSays, hfine, hstruct]

/-- The name of a variable that is declared was free. -/
theorem free_of_newIn {isTaken : Bool} (h : newIn w d isTaken = some u) : isTaken = false := by
  cases isTaken with
  | false => rfl
  | true => simp [newIn] at h

variable {table : SymbolTable} (offset : Int) (ds : List VarDecl)

/-- A field that is refused changes nothing for those after it. -/
theorem fields_refused (h : newIn w d (table.findInner? d.name.name).isSome = none) :
    fieldsIn w table offset (d :: ds) =
      ((d :: (fieldsIn w table offset ds).1.1, (fieldsIn w table offset ds).1.2), (fieldsIn w table offset ds).2) ∧
    fieldsSay w table offset (d :: ds) =
      newSays w d (table.findInner? d.name.name).isSome (.fieldDeclaredTwice d.name.name) ++
        fieldsSay w table offset ds := by
  rw [fieldsIn, fieldsSay, h]
  exact ⟨rfl, rfl⟩

/-- What is in sight after a field. -/
def fieldAfter (w : Sight) (u : Variable) (offset : Int) : Sight :=
  { w with arena := w.arena.push (.var { u with offset }) }

theorem fields_accepted (h : newIn w d (table.findInner? d.name.name).isSome = some u) :
    fieldsIn w table offset (d :: ds) =
      ((boundVar w d :: (fieldsIn (fieldAfter w u offset) (table.insert d.name.name w.arena.size) (offset + u.size) ds).1.1,
        (fieldsIn (fieldAfter w u offset) (table.insert d.name.name w.arena.size) (offset + u.size) ds).1.2),
        (fieldsIn (fieldAfter w u offset) (table.insert d.name.name w.arena.size) (offset + u.size) ds).2) ∧
    fieldsSay w table offset (d :: ds) =
      fieldsSay (fieldAfter w u offset) (table.insert d.name.name w.arena.size) (offset + u.size) ds := by
  rw [fieldsIn, fieldsSay, newSays_of_newIn h, h]
  exact ⟨rfl, rfl⟩

end Variables

section Pieces

variable {α β : Type} {s : State} {x y : NamesM α} {f : α → NamesM β} {a : α} {b : β} {w w' : Sight}
  {ds ds' : List Diagnostic}

def sightOf (s : State) : Sight := ⟨s.table, s.arena⟩

/-- A state after a piece of the walk: something else is in sight, and more has been said about the file. -/
def moved (s : State) (w : Sight) (ds : List Diagnostic) : State :=
  { s with table := w.table, arena := w.arena, diagnostics := s.diagnostics ++ ds.map (about s.file) }

/-- What a piece of the walk gives from a state, what is in sight after it, and what it says. -/
def Gives (s : State) (x : NamesM α) (a : α) (w : Sight) (ds : List Diagnostic) : Prop := x s = (a, moved s w ds)

@[simp] theorem sightOf_table : (sightOf s).table = s.table := rfl

@[simp] theorem moved_table : (moved s w ds).table = w.table := rfl

theorem moved_moved : moved (moved s w ds) w' ds' = moved s w' (ds ++ ds') := by
  simp [moved, List.append_assoc]

theorem moved_nil (s : State) : moved s (sightOf s) [] = s := by simp [moved, sightOf]

namespace Gives

theorem pure (a : α) : Gives s (Pure.pure a) a (sightOf s) [] := by
  rw [Gives, moved_nil]
  rfl

theorem seq (hx : Gives s x a w ds) (hf : Gives (moved s w ds) (f a) b w' ds') :
    Gives s (x >>= f) b w' (ds ++ ds') := by
  change f (x s).1 (x s).2 = _
  rw [hx, hf, moved_moved]

theorem last (hx : Gives s x a w ds) (g : α → β) : Gives s (do let a ← x; return g a) (g a) w ds := by
  have h := hx.seq (f := fun a => Pure.pure (g a)) (Gives.pure (g a))
  rwa [List.append_nil] at h

/-- The first piece does nothing. -/
theorem first (hx : Gives s x a (sightOf s) []) (hf : Gives s (f a) b w ds) : Gives s (x >>= f) b w ds := by
  rw [← moved_nil s] at hf
  exact hx.seq hf

theorem get {f : State → NamesM β} (h : Gives s (f s) b w ds) : Gives s (MonadState.get >>= f) b w ds := h

/-- A symbol is put into the arena. -/
theorem stores {arena : Arena} {f : PUnit → NamesM β} (h : Gives { s with arena } (f ()) b w ds) :
    Gives s (set { s with arena } >>= f) b w ds := h

/-- A scope is opened. -/
theorem opens {f : PUnit → NamesM β} (h : Gives { s with table := s.table.push } (f ()) b w ds) :
    Gives s (modifyThe State (fun s => { s with table := s.table.push }) >>= f) b w ds := h

/-- The innermost scope is left. -/
theorem closes (hx : Gives s x a w ds) (g : α → β) : Gives s (do
    let a ← x
    modify fun s => { s with table := s.table.pop }
    return g a) (g a) w.pop ds := by
  change (g (x s).1, ({ (x s).2 with table := (x s).2.table.pop } : State)) = _
  rw [hx]
  rfl

end Gives

theorem gives_report (h : Good s) (finding : NameFinding) (span : Option Span) :
    Gives s (report finding span) () (sightOf s) [objection finding span] := by
  change ((), ({ s with toJournal := s.toJournal.add _ } : State)) = _
  rw [Journal.add, if_neg (by simp [stopped_eq h])]
  rfl

theorem gives_report_if (h : Good s) {p : Prop} [Decidable p] {finding : NameFinding} {span : Option Span}
    {g : Unit → NamesM α} (hg : Gives (moved s (sightOf s) (if p then [objection finding span] else [])) (g ()) a w ds) :
    Gives s (if p then report finding span >>= g else g ()) a w
      ((if p then [objection finding span] else []) ++ ds) := by
  by_cases hp : p
  · simp only [if_pos hp] at hg ⊢
    exact (gives_report h finding span).seq hg
  · simp only [if_neg hp, moved_nil] at hg ⊢
    exact hg

theorem gives_stopped (h : Good s) : Gives s stopped false (sightOf s) [] := by
  rw [Gives, moved_nil, ← stopped_eq h]
  rfl

end Pieces

section Uses

variable {lit : String → Prop} {τ : Symbols} {s : State} {obj : Expr} {k : Int}

/-- More may be said where nothing else changes. -/
theorem advances_saying (h : Good s) (ds : List Diagnostic) : Advances s (moved s (sightOf s) ds) where
  good := { h with positive := fun hquiet => h.positive (hquiet.earlier (List.prefix_append _ _)) }
  diagnostics := List.prefix_append _ _
  grows h := h
  vars := .inl

theorem good_saying (h : Good s) (ds : List Diagnostic) : Good (moved s (sightOf s) ds) :=
  (advances_saying h ds).good

/-- What name analysis says is an error. -/
theorem not_quiet {finding : NameFinding} {span : Option Span} : ¬Quiet [objection finding span] :=
  fun h => absurd (h _ (List.mem_singleton_self _)) (by simp [objection, Diagnostic.atSpan, Diagnostic.isError])

theorem quiet_if {p : Prop} [Decidable p] {finding : NameFinding} {span : Option Span} :
    Quiet (if p then [objection finding span] else []) ↔ ¬p := by
  by_cases hp : p
  · simp [hp, not_quiet]
  · simp [hp, Quiet]

theorem quiet_unless {p : Prop} [Decidable p] {finding : NameFinding} {span : Option Span} :
    Quiet (if p then [] else [objection finding span]) ↔ p := by
  by_cases hp : p
  · simp [hp, Quiet]
  · simp [hp, not_quiet]

theorem seen_bound (h : Good s) (x : Ident) : Seen (shape s.arena) (bound (sightOf s) x) := by
  unfold bound sightOf
  cases hfind : s.table.find? x.name with
  | none => exact .inl rfl
  | some i =>
    obtain ⟨t, ht⟩ := h.find hfind
    exact .inr ⟨i, unplaced t, rfl, by simp [shape, ht]⟩

/-- A name that nothing is said about is bound. -/
theorem boundName_bound (h : Good s) (hwithin : Within τ s) {x : Ident} (hquiet : Quiet (useSays (sightOf s) x)) :
    BoundName τ s.table.scopes (bound (sightOf s) x) := by
  obtain ⟨i, hi⟩ := Option.isSome_iff_exists.mp (quiet_unless.mp hquiet)
  rw [sightOf_table] at hi
  obtain ⟨t, ht⟩ := h.find hi
  exact ⟨i, _, hi, by simp [bound, hi], hwithin.get ht⟩

/-- What a visited location offers the fields of is a struct. -/
theorem struct_of_owner (h : Good s) (hvisited : Visited (shape s.arena) obj) (hk : ownerOf s.arena obj = some k) :
    ∃ d, s.arena.get? k = some (.struct d) := by
  have hvar : ∀ {i u}, s.arena.get? i = some (.var u) → u.structDef = some k → ∃ d, s.arena.get? k = some (.struct d) := by
    intro i u hi hu
    rcases (h.arena hi).2.2.2 with ⟨-, hnone, -⟩ | ⟨_, k', d, -, hk', hd, -⟩
    · cases hnone.symm.trans hu
    · cases hk'.symm.trans hu
      exact ⟨d, hd⟩
  cases obj with
  | ident x =>
    simp only [ownerOf] at hk
    split at hk
    · split at hk
      · exact hvar ‹_› hk
      · cases hk
    · cases hk
  | dot note inner field reached bad =>
    cases bad with
    | true => cases hk
    | false =>
      obtain hbad | ⟨j, u, -, hu, hreached⟩ := hvisited.2.2
      · cases hbad
      obtain ⟨symbol, hsymbol, hunplaced⟩ := Option.map_eq_some_iff.mp hu
      cases symbol with
      | var v =>
        obtain rfl := Symbol.var.inj hunplaced
        exact hvar hsymbol (hreached.symm.trans hk)
      | func f => cases hunplaced
      | struct d => cases hunplaced
  | _ => cases hk

/-- The field of a struct is a variable. -/
theorem fieldOf_some {arena : Arena} {name : String} {j : Int} {u : Variable} (h : fieldOf arena k name = some (j, u)) :
    ∃ d, arena.get? k = some (.struct d) ∧ d.fields.find? name = some j ∧ arena.get? j = some (.var u) := by
  unfold fieldOf at h
  split at h
  · obtain ⟨i, hi, hget⟩ := Option.bind_eq_some_iff.mp h
    split at hget
    · cases hget
      exact ⟨_, ‹_›, hi, ‹_›⟩
    · cases hget
  · cases h

theorem visited_access (hvisited : Visited (shape s.arena) obj) {note : Note} (hnote : note.ty = none) (field : Ident) :
    Visited (shape s.arena) (access s.arena note obj field) := by
  refine ⟨hnote, hvisited, ?_⟩
  unfold accessIn
  split
  · rename_i j u hfield
    obtain ⟨k, -, hju⟩ := Option.bind_eq_some_iff.mp hfield
    obtain ⟨d, -, -, hu⟩ := fieldOf_some hju
    exact .inr ⟨j, { u with offset := 0 }, rfl, by simp [shape, hu, unplaced], rfl⟩
  · exact .inl rfl

/-- A bound object that nothing is said about offers the fields of the struct of the variable it ends in. -/
theorem place_of_owner (hwithin : Within τ s) (hbound : Bound lit τ s.table.scopes obj)
    (hquiet : Quiet (ownerSays s.arena obj)) :
    ∃ k u, ownerOf s.arena obj = some k ∧ Place τ s.table.scopes obj u ∧ u.structDef = some k := by
  have howner : isLost obj = false → ∃ k, ownerOf s.arena obj = some k := by
    rw [ownerSays, quiet_if] at hquiet
    exact fun hlost => Option.ne_none_iff_exists'.mp fun hnone => hquiet ⟨hnone, hlost⟩
  cases obj with
  | ident x =>
    obtain ⟨i, _, hfind, hi, -⟩ := hbound
    obtain ⟨k, hk⟩ := howner (by simp [isLost, hi])
    have hk' := hk
    simp only [ownerOf, hi] at hk'
    split at hk'
    · rename_i u hu
      exact ⟨k, { u with offset := 0 }, hk, ⟨i, hfind, hi, hwithin.get hu⟩, hk'⟩
    · cases hk'
  | dot note inner field reached bad =>
    obtain ⟨v, hplace⟩ := hbound
    obtain rfl : bad = false := hplace.1
    obtain ⟨k, hk⟩ := howner rfl
    exact ⟨k, v, hk, hplace, hplace.2.1.symm.trans hk⟩
  | _ =>
    obtain ⟨k, hk⟩ := howner rfl
    cases hk

/-- A field that nothing is said about is bound. -/
theorem bound_access (hwithin : Within τ s) (hbound : Bound lit τ s.table.scopes obj) {field : Ident}
    (hquiet : Quiet (accessSays s.arena obj field)) (note : Note) :
    Bound lit τ s.table.scopes (access s.arena note obj field) := by
  obtain ⟨howner, hfield⟩ := quiet_append.mp hquiet
  obtain ⟨k, v, hk, hplace, hvk⟩ := place_of_owner hwithin hbound howner
  rw [hk] at hfield
  obtain ⟨⟨j, u⟩, hju⟩ := Option.isSome_iff_exists.mp (quiet_unless.mp hfield)
  obtain ⟨d, hd, hj, hu⟩ := fieldOf_some hju
  unfold access accessIn
  rw [hk, Option.bind_some, hju]
  exact ⟨{ u with offset := 0 }, rfl, rfl, v, k, d, j, hplace, hvk, hwithin.get hd, hj, rfl, hwithin.get hu⟩

theorem sameForm_resolved (w : Sight) (e : Expr) : SameForm e (resolved w e) where
  location h := by
    cases e <;> first | exact h | rfl
  assign := by
    rintro ⟨_, _, _, rfl⟩
    exact ⟨_, _, _, rfl⟩
  call := by
    rintro ⟨_, _, _, rfl⟩
    exact ⟨_, _, _, rfl⟩

mutual

/-- A raw expression is visited. -/
theorem visited_resolved (h : Good s) : (e : Expr) → Raw lit e → Visited (shape s.arena) (resolved (sightOf s) e)
  | .int .., hraw | .string .., hraw => hraw.1
  | .bool .., hraw => hraw
  | .ident x, hraw => ⟨hraw.ty, seen_bound h x⟩
  | .dot _ obj field _ _, hraw => visited_access (visited_resolved h obj hraw.2.2.1) hraw.1 field
  | .assign _ target value, hraw =>
    ⟨hraw.1, visited_resolved h target hraw.2.2.1, visited_resolved h value hraw.2.2.2⟩
  | .call _ callee args, hraw => ⟨hraw.1, seen_bound h callee, visited_resolvedAll h args hraw.2.2⟩
  | .unary _ _ operand, hraw => ⟨hraw.1, hraw.2.1, visited_resolved h operand hraw.2.2⟩
  | .binary _ _ left right, hraw =>
    ⟨hraw.1, hraw.2.1, visited_resolved h left hraw.2.2.1, visited_resolved h right hraw.2.2.2⟩
  | .misfit .., hraw => hraw.elim

theorem visited_resolvedAll (h : Good s) : (es : List Expr) → RawAll lit es →
    VisitedAll (shape s.arena) (resolvedAll (sightOf s) es)
  | [], _ => trivial
  | e :: es, hraw => ⟨visited_resolved h e hraw.1, visited_resolvedAll h es hraw.2⟩

end

mutual

/-- A raw expression that nothing is said about is bound. -/
theorem bound_resolved (h : Good s) (hwithin : Within τ s) : (e : Expr) → Raw lit e →
    Quiet (exprSays (sightOf s) e) → Bound lit τ s.table.scopes (resolved (sightOf s) e)
  | .int .., hraw, _ | .string .., hraw, _ => hraw.2
  | .bool .., _, _ => trivial
  | .ident _, _, hquiet => boundName_bound h hwithin hquiet
  | .dot note obj _ _ _, hraw, hquiet =>
    have hquiet := quiet_append.mp hquiet
    bound_access hwithin (bound_resolved h hwithin obj hraw.2.2.1 hquiet.1) hquiet.2 note
  | .assign _ target value, hraw, hquiet =>
    have hquiet := quiet_append.mp hquiet
    ⟨(sameForm_resolved _ target).location hraw.2.1, bound_resolved h hwithin target hraw.2.2.1 hquiet.2,
      bound_resolved h hwithin value hraw.2.2.2 hquiet.1⟩
  | .call _ _ args, hraw, hquiet =>
    have hquiet := quiet_append.mp hquiet
    ⟨boundName_bound h hwithin hquiet.1, bound_resolvedAll h hwithin args hraw.2.2 hquiet.2⟩
  | .unary _ _ operand, hraw, hquiet => ⟨hraw.2.1, bound_resolved h hwithin operand hraw.2.2 hquiet⟩
  | .binary _ _ left right, hraw, hquiet =>
    have hquiet := quiet_append.mp hquiet
    ⟨hraw.2.1, bound_resolved h hwithin left hraw.2.2.1 hquiet.1, bound_resolved h hwithin right hraw.2.2.2 hquiet.2⟩
  | .misfit .., hraw, _ => hraw.elim

theorem bound_resolvedAll (h : Good s) (hwithin : Within τ s) : (es : List Expr) → RawAll lit es →
    Quiet (exprsSay (sightOf s) es) → BoundAll lit τ s.table.scopes (resolvedAll (sightOf s) es)
  | [], _, _ => trivial
  | e :: es, hraw, hquiet =>
    have hquiet := quiet_append.mp hquiet
    ⟨bound_resolved h hwithin e hraw.1 hquiet.1, bound_resolvedAll h hwithin es hraw.2 hquiet.2⟩

end

theorem gives_use (h : Good s) (x : Ident) :
    Gives s (use x) (bound (sightOf s) x) (sightOf s) (useSays (sightOf s) x) := by
  unfold use
  refine .get ?_
  rw [if_neg (by simp [stopped_eq h])]
  cases hfind : s.table.find? x.name with
  | none =>
    have hsays : useSays (sightOf s) x = [objection (.undeclared x.name) x.note.span] := by
      simp [useSays, sightOf, hfind]
    rw [bound, hsays]
    simp only [sightOf, hfind]
    exact (gives_report h _ _).last _
  | some i =>
    obtain ⟨t, ht⟩ := h.find hfind
    have hsays : useSays (sightOf s) x = [] := by simp [useSays, sightOf, hfind]
    rw [bound, hsays]
    simp only [sightOf, hfind, ofIndex_of_get? ht]
    exact .pure _

/-- The struct that an object offers the fields of. -/
theorem gives_structOf (h : Good s) {obj : Expr} (hlocation : obj.isLocation)
    (hvisited : Visited (shape s.arena) obj) :
    Gives s (structOf obj) (ownerOf s.arena obj) (sightOf s) (ownerSays s.arena obj) := by
  unfold ownerSays
  cases obj with
  | ident x =>
    rw [Visited] at hvisited
    unfold structOf ownerOf isLost
    rcases hvisited.2 with hnone | ⟨i, _, hi, ht⟩
    · simp only [hnone]
      exact .pure _
    · obtain ⟨symbol, hsymbol, -⟩ := Option.map_eq_some_iff.mp ht
      simp only [hi]
      refine .get ?_
      simp only [hsymbol]
      cases symbol with
      | var u =>
        obtain ⟨name, ty, offset, isGlobal, structDef, size⟩ := u
        cases structDef with
        | none => exact (gives_report h _ _).last _
        | some k => exact .pure _
      | func f => exact (gives_report h _ _).last _
      | struct d => exact (gives_report h _ _).last _
  | dot note inner field reached bad =>
    cases bad with
    | true => exact .pure _
    | false =>
      cases reached with
      | none => exact (gives_report h _ _).last _
      | some k => exact .pure _
  | _ => simp [Expr.isLocation] at hlocation

theorem gives_useField (h : Good s) {obj : Expr} (hlocation : obj.isLocation)
    (hvisited : Visited (shape s.arena) obj) (note : Note) (field : Ident) :
    Gives s (useField note obj field none false) (access s.arena note obj field) (sightOf s)
      (accessSays s.arena obj field) := by
  have hgood := good_saying h (ownerSays s.arena obj)
  unfold useField
  refine (gives_stopped h).first ?_
  simp only [Bool.false_eq_true, if_false]
  refine (gives_structOf h hlocation hvisited).seq (.get ?_)
  rw [if_neg (by simp [stopped_eq hgood])]
  unfold access accessIn
  cases hk : ownerOf s.arena obj with
  | none => exact .pure _
  | some k =>
    obtain ⟨d, hd⟩ := struct_of_owner h hvisited hk
    have hd' : (moved s (sightOf s) (ownerSays s.arena obj)).arena.get? k = some (.struct d) := hd
    simp only [hd', Option.bind_some, fieldSays, fieldOf, hd]
    cases hj : d.fields.find? field.name with
    | none => exact (gives_report hgood _ _).last _
    | some j =>
      obtain ⟨u, hu⟩ := field_of_find h.arena hd hj
      have hu' : (moved s (sightOf s) (ownerSays s.arena obj)).arena.get? j = some (.var u) := hu
      simp only [hu', hu, ofIndex_of_get? hu, Option.bind_some, Option.or_none]
      exact .pure _

mutual

/-- The walk through a raw expression. -/
theorem gives_expr : (e : Expr) → Raw lit e → ∀ {s : State}, Good s →
    Gives s (Names.expr e) (resolved (sightOf s) e) (sightOf s) (exprSays (sightOf s) e)
  | .int .., _, _, _ | .string .., _, _, _ | .bool .., _, _, _ => .pure _
  | .ident x, _, _, h => (gives_use h x).last _
  | .dot note obj field _ _, ⟨_, hlocation, hobj, _, rfl, rfl⟩, _, h =>
    (gives_expr obj hobj h).seq (gives_useField (good_saying h _) ((sameForm_resolved _ obj).location hlocation)
      (visited_resolved h obj hobj) note field)
  | .assign _ target value, hraw, _, h =>
    (gives_expr value hraw.2.2.2 h).seq ((gives_expr target hraw.2.2.1 (good_saying h _)).last _)
  | .call _ callee args, hraw, _, h =>
    (gives_use h callee).seq ((gives_exprs args hraw.2.2 (good_saying h _)).last _)
  | .unary _ _ operand, hraw, _, h => (gives_expr operand hraw.2.2 h).last _
  | .binary _ _ left right, hraw, _, h =>
    (gives_expr left hraw.2.2.1 h).seq ((gives_expr right hraw.2.2.2 (good_saying h _)).last _)
  | .misfit .., hraw, _, _ => hraw.elim

theorem gives_exprs : (es : List Expr) → RawAll lit es → ∀ {s : State}, Good s →
    Gives s (Names.exprs es) (resolvedAll (sightOf s) es) (sightOf s) (exprsSay (sightOf s) es)
  | [], _, _, _ => .pure _
  | e :: es, hraw, _, h => (gives_expr e hraw.1 h).seq ((gives_exprs es hraw.2 (good_saying h _)).last _)

end

end Uses

end CMinusMinus.Proofs.Resolution
