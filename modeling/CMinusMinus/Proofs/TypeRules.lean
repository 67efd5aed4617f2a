import CMinusMinus.Proofs.Verdicts

/-!
The typing rules of the language, and the check of types beside them. The rules speak of a program
whose names have been looked up: they say which types an expression can have, which statements fit a
function with a result, and which programs are well typed. An expression has one type at most.

A program that follows the rules passes the check, which records on every expression the type that the
rules give it. The proof is one equation for each rule, and an induction that puts them together.
-/
namespace CMinusMinus.Proofs.TypeRules

open Typing WellFormed Naming Grammar Verdicts

def IsShown (t : Ty) : Prop := t = .int ∨ t = .bool ∨ t = .string

/-- All types but those of functions, of struct names and of struct variables. -/
def IsPlain (t : Ty) : Prop := IsShown t ∨ t = .void

/-- What the operators between two operands are for. -/
inductive OpKind where
  | arithmetic | logical | relational | equality | none

def kindOf : BinaryOp → OpKind
  | .add | .sub | .mul | .div => .arithmetic
  | .and | .or => .logical
  | .lt | .gt | .le | .ge => .relational
  | .eq | .ne => .equality
  | .other _ => .none

mutual

/-- An expression has a type. -/
inductive HasType (arena : Arena) : Expr → Ty → Prop
  | int {note : Note} {value : Int} : HasType arena (.int note value) .int
  | string {note : Note} {text : String} : HasType arena (.string note text) .string
  | bool {note : Note} {value : Bool} : HasType arena (.bool note value) .bool
  | ident {x : Ident} {i : Int} {s : Symbol} (binding : x.binding = .symbol i)
      (symbol : arena.get? i = some s) : HasType arena (.ident x) s.ty
  | dot {note : Note} {obj : Expr} {u : Ty} {field : Ident} {reached : Option Int} {i : Int}
      {s : Symbol} (object : HasType arena obj u) (binding : field.binding = .symbol i)
      (symbol : arena.get? i = some s) : HasType arena (.dot note obj field reached false) s.ty
  | negation {note : Note} {e : Expr} (operand : HasType arena e .int) :
      HasType arena (.unary note .neg e) .int
  | complement {note : Note} {e : Expr} (operand : HasType arena e .bool) :
      HasType arena (.unary note .not e) .bool
  | arithmetic {note : Note} {op : BinaryOp} {e e' : Expr} (operator : kindOf op = .arithmetic)
      (left : HasType arena e .int) (right : HasType arena e' .int) :
      HasType arena (.binary note op e e') .int
  | logical {note : Note} {op : BinaryOp} {e e' : Expr} (operator : kindOf op = .logical)
      (left : HasType arena e .bool) (right : HasType arena e' .bool) :
      HasType arena (.binary note op e e') .bool
  | relational {note : Note} {op : BinaryOp} {e e' : Expr} (operator : kindOf op = .relational)
      (left : HasType arena e .int) (right : HasType arena e' .int) :
      HasType arena (.binary note op e e') .bool
  | equality {note : Note} {op : BinaryOp} {e e' : Expr} {t : Ty} (operator : kindOf op = .equality)
      (left : HasType arena e t) (right : HasType arena e' t) (shown : IsShown t) :
      HasType arena (.binary note op e e') .bool
  | assignment {note : Note} {e e' : Expr} {t : Ty} (target : HasType arena e t)
      (value : HasType arena e' t) (plain : IsPlain t) : HasType arena (.assign note e e') t
  | call {note : Note} {x : Ident} {es : List Expr} {params : List Ty} {result : Ty}
      (callee : HasType arena (.ident x) (.func params result)) (args : HasTypes arena es params) :
      HasType arena (.call note x es) result

inductive HasTypes (arena : Arena) : List Expr → List Ty → Prop
  | nil : HasTypes arena [] []
  | cons {e : Expr} {es : List Expr} {t : Ty} {ts : List Ty} (first : HasType arena e t)
      (rest : HasTypes arena es ts) : HasTypes arena (e :: es) (t :: ts)

end

mutual

/-- A statement fits a function with a result. -/
inductive FitsStmt (arena : Arena) (result : Ty) : Stmt → Prop
  | assign {span : Option Span} {e : Expr} {t : Ty} (typed : HasType arena e t) :
      FitsStmt arena result (.assign span e)
  | increment {span : Option Span} {e : Expr} (typed : HasType arena e .int) :
      FitsStmt arena result (.increment span e)
  | decrement {span : Option Span} {e : Expr} (typed : HasType arena e .int) :
      FitsStmt arena result (.decrement span e)
  | read {span : Option Span} {e : Expr} {t : Ty} (typed : HasType arena e t) (plain : IsPlain t) :
      FitsStmt arena result (.read span e)
  | write {span : Option Span} {e : Expr} {t : Ty} (typed : HasType arena e t) (shown : IsShown t) :
      FitsStmt arena result (.write span e)
  | ifThen {span : Option Span} {e : Expr} {b : Block} (condition : HasType arena e .bool)
      (body : FitsBlock arena result b) : FitsStmt arena result (.ifThen span e b)
  | ifElse {span : Option Span} {e : Expr} {b b' : Block} (condition : HasType arena e .bool)
      (body : FitsBlock arena result b) (other : FitsBlock arena result b') :
      FitsStmt arena result (.ifElse span e b b')
  | loop {span : Option Span} {e : Expr} {b : Block} (condition : HasType arena e .bool)
      (body : FitsBlock arena result b) : FitsStmt arena result (.loop span e b)
  | call {span : Option Span} {e : Expr} {t : Ty} (typed : HasType arena e t) :
      FitsStmt arena result (.call span e)
  | leave {span : Option Span} (void : result = .void) : FitsStmt arena result (.ret span none)
  | ret {span : Option Span} {e : Expr} (notVoid : result ≠ .void) (typed : HasType arena e result) :
      FitsStmt arena result (.ret span (some e))

inductive FitsStmts (arena : Arena) (result : Ty) : List Stmt → Prop
  | nil : FitsStmts arena result []
  | cons {st : Stmt} {ss : List Stmt} (first : FitsStmt arena result st)
      (rest : FitsStmts arena result ss) : FitsStmts arena result (st :: ss)

inductive FitsBlock (arena : Arena) (result : Ty) : Block → Prop
  | mk {span : Option Span} {decls : List VarDecl} {ss : List Stmt}
      (body : FitsStmts arena result ss) : FitsBlock arena result (.mk span decls ss)

end

/-- A program is well typed: the bodies of its functions fit them, and one function can be started. -/
structure WellTyped (arena : Arena) (decls : List Decl) : Prop where
  bodies : ∀ d, .fn d ∈ decls →
    ∃ result, Ty.ofWord? d.result.name = some result ∧ FitsBlock arena result d.body
  main : ∃ d, .fn d ∈ decls ∧ d.name.name = "main" ∧ d.formals = [] ∧ d.result.name = "void"

theorem any_isMain_iff {ds : List Decl} : ds.any isMain ↔
    ∃ d, .fn d ∈ ds ∧ d.name.name = "main" ∧ d.formals = [] ∧ d.result.name = "void" := by
  rw [List.any_eq_true]
  constructor
  · rintro ⟨d | d | d | d, hd, hmain⟩
    all_goals simp [isMain] at hmain
    exact ⟨_, hd, by simpa [and_assoc] using hmain⟩
  · rintro ⟨d, hd, hname, hformals, hvoid⟩
    exact ⟨.fn d, hd, by simp [isMain, hname, hformals, hvoid]⟩

section Uniqueness

variable {arena : Arena}

mutual

/-- An expression has one type at most. -/
theorem HasType.unique : {e : Expr} → {t u : Ty} → HasType arena e t → HasType arena e u → t = u
  | _, _, _, .int, h => by cases h; rfl
  | _, _, _, .string, h => by cases h; rfl
  | _, _, _, .bool, h => by cases h; rfl
  | _, _, _, .ident binding symbol, h => by
    cases h with
    | ident binding' symbol' => simp_all
  | _, _, _, .dot object binding symbol, h => by
    cases h with
    | dot object' binding' symbol' => simp_all
  | _, _, _, .negation operand, h => by cases h; rfl
  | _, _, _, .complement operand, h => by cases h; rfl
  | _, _, _, .arithmetic operator left right, h => by cases h <;> simp_all
  | _, _, _, .logical operator left right, h => by cases h <;> simp_all
  | _, _, _, .relational operator left right, h => by cases h <;> simp_all
  | _, _, _, .equality operator left right shown, h => by cases h <;> simp_all
  | _, _, _, .assignment target value plain, h => by
    cases h with
    | assignment target' value' plain' => exact target.unique target'
  | _, _, _, .call callee args, h => by
    cases h with
    | call callee' args' => exact (Ty.func.inj (callee.unique callee')).2

end

end Uniqueness

section Parts

mutual

/-- The expressions in an expression, without the expression itself. The name of a function that is
called is one of them. -/
def inner : Expr → List Expr
  | .dot _ obj _ _ _ => obj :: inner obj
  | .assign _ target value => (target :: inner target) ++ (value :: inner value)
  | .call _ callee args => .ident callee :: partsAll args
  | .unary _ _ operand => operand :: inner operand
  | .binary _ _ left right => (left :: inner left) ++ (right :: inner right)
  | .int .. | .string .. | .bool .. | .ident _ | .misfit .. => []

def partsAll : List Expr → List Expr
  | [] => []
  | e :: es => (e :: inner e) ++ partsAll es

end

def parts (e : Expr) : List Expr := e :: inner e

mutual

def stmtParts : Stmt → List Expr
  | .assign _ e | .increment _ e | .decrement _ e | .read _ e | .write _ e | .call _ e
  | .ret _ (some e) => parts e
  | .ifThen _ cond body | .loop _ cond body => parts cond ++ blockParts body
  | .ifElse _ cond body other => parts cond ++ (blockParts body ++ blockParts other)
  | .ret _ none | .misfit .. => []

def stmtsParts : List Stmt → List Expr
  | [] => []
  | st :: ss => stmtParts st ++ stmtsParts ss

def blockParts : Block → List Expr
  | .mk _ _ ss => stmtsParts ss

end

/-- All expressions in a declaration. -/
def declParts : Decl → List Expr
  | .fn d => blockParts d.body
  | .var _ | .struct _ | .misfit .. => []

/-- The type that the rules give an expression is recorded on it. -/
def Recorded (arena : Arena) (e : Expr) : Prop :=
  ∃ t, e.ty = some t ∧ HasType arena e t

variable {arena : Arena}

theorem inner_withTy (e : Expr) (t : Ty) : inner (e.withTy t) = inner e := by cases e <;> rfl

theorem HasType.withTy {e : Expr} {t : Ty} (h : HasType arena e t) (u : Ty) :
    HasType arena (e.withTy u) t := by
  cases h with
  | int => exact .int
  | string => exact .string
  | bool => exact .bool
  | ident binding symbol => exact .ident binding symbol
  | dot object binding symbol => exact .dot object binding symbol
  | negation operand => exact .negation operand
  | complement operand => exact .complement operand
  | arithmetic operator left right => exact .arithmetic operator left right
  | logical operator left right => exact .logical operator left right
  | relational operator left right => exact .relational operator left right
  | equality operator left right shown => exact .equality operator left right shown
  | assignment target value plain => exact .assignment target value plain
  | call callee args => exact .call callee args

end Parts

section Expressions

variable {arena : Arena}

/-- The check of an expression with a type has nothing to say, and records all types. -/
structure Confirmed (arena : Arena) (e : Expr) (t : Ty) : Prop where
  type : typeOf arena e = t
  silent : remarks arena e = []
  typed : HasType arena (typed arena e) t
  recorded : ∀ e' ∈ parts (Verdicts.typed arena e), Recorded arena e'

/-- The check of expressions with types has nothing to say, and records all types. -/
structure ConfirmedAll (arena : Arena) (es : List Expr) (ts : List Ty) : Prop where
  types : (typesOf arena es).map Prod.snd = ts
  silent : remarksAll arena es = []
  typed : HasTypes arena (typedAll arena es) ts
  recorded : ∀ e ∈ partsAll (typedAll arena es), Recorded arena e

/-- The last step of the check of an expression. -/
theorem Confirmed.record {e u : Expr} {t : Ty} (htype : typeOf arena e = t) (hsilent : remarks arena e = [])
    (hsame : Verdicts.typed arena e = u.withTy (typeOf arena e)) (htyped : HasType arena u t)
    (hinner : ∀ x ∈ inner u, Recorded arena x) : Confirmed arena e t := by
  rw [htype] at hsame
  refine ⟨htype, hsilent, hsame ▸ htyped.withTy t, ?_⟩
  rw [hsame, parts, inner_withTy]
  exact List.forall_mem_cons.mpr ⟨⟨t, ty_withTy u t, htyped.withTy t⟩, hinner⟩

theorem equalityTy_eq {span : Option Span} {t : Ty} (h : IsShown t) :
    equalityTy span t t = pure .bool := by
  rcases h with rfl | rfl | rfl <;> rfl

theorem assignTy_eq {span : Option Span} {t : Ty} (h : IsPlain t) : assignTy span t t = pure t := by
  rcases h with (rfl | rfl | rfl) | rfl <;> rfl

theorem checkArguments_eq : ∀ {rs : List (Expr × Ty)}, (∀ t ∈ rs.map Prod.snd, IsScalar t) →
    checkArguments rs (rs.map Prod.snd) = pure ()
  | [], _ => rfl
  | (e, t) :: rs, h => by
    obtain ⟨ht, hrest⟩ := List.forall_mem_cons.mp h
    have hagrees : t.agrees t = true := by rcases ht with rfl | rfl <;> rfl
    rw [List.map_cons, checkArguments, checkArguments_eq hrest]
    simp [hagrees]

theorem ty_unplaced (symbol : Symbol) : (unplaced symbol).ty = symbol.ty := by cases symbol <;> rfl

/-- What is called is a function. -/
theorem func_of_hasType (hσ : SymbolsOk (shape arena)) {x : Ident} {params : List Ty} {result : Ty}
    (h : HasType arena (.ident x) (.func params result)) : ∃ i f, x.binding = .symbol i ∧
      arena.get? i = some (.func f) ∧ f.params = params ∧ f.result = result ∧ SymbolOk (shape arena) (.func f) := by
  generalize hty : Ty.func params result = t at h
  cases h with
  | @ident _ i s binding symbol =>
    have hok : SymbolOk (shape arena) (unplaced s) := hσ i _ (by simp [shape, symbol])
    cases s with
    | func f =>
      obtain ⟨rfl, rfl⟩ := Ty.func.inj hty
      exact ⟨i, f, binding, symbol, rfl, rfl, hok⟩
    | var v =>
      have hty : v.ty = .func params result := hty.symm
      rcases hok.2 with ⟨hscalar, -⟩ | ⟨name, k, d, hstruct, -⟩
      · rcases hscalar with hscalar | hscalar <;> simp_all [unplaced]
      · simp_all [unplaced]
    | struct d => simp [Symbol.ty] at hty

theorem callTy_eq {span : Option Span} {callee : Ident} {i : Int} {f : Function}
    (hbinding : callee.binding = .symbol i) (hf : arena.get? i = some (.func f))
    {rs : List (Expr × Ty)} (htypes : rs.map Prod.snd = f.params) (hscalar : ∀ t ∈ f.params, IsScalar t) :
    callTy arena span callee (.func f.params f.result) rs = pure f.result := by
  have hlength : rs.length = f.params.length := by rw [← htypes, List.length_map]
  have harguments : checkArguments rs f.params = pure () := by
    rw [← htypes]
    apply checkArguments_eq
    rw [htypes]
    exact hscalar
  simp [callTy, Ty.isError, Ty.isFunction, hbinding, hf, hlength, harguments]

/-- An operator that takes operands of one type. -/
theorem confirmed_binary {note : Note} {op : BinaryOp} {left right : Expr} {t r : Ty}
    (hok : ∀ e, operand op e t = pure true) (hgives : ∀ span, combined op span t t true = pure r)
    (hleft : Confirmed arena left t) (hright : Confirmed arena right t)
    (htyped : ∀ {e e'}, HasType arena e t → HasType arena e' t → HasType arena (.binary note op e e') r) :
    Confirmed arena (.binary note op left right) r := by
  have houtcome : ∀ e, outcome (operand op e t) = true := fun e => by rw [hok]; rfl
  refine .record ?_ ?_ (by rw [Verdicts.typed]) (htyped hleft.typed hright.typed) ?_
  · rw [typeOf, hleft.type, hright.type, houtcome, houtcome, Bool.and_self, hgives]
    rfl
  · rw [remarks, hleft.silent, hright.silent, hleft.type, hright.type, houtcome, houtcome, Bool.and_self, hgives,
      hok, hok]
    rfl
  · rw [inner]
    exact List.forall_mem_append.mpr ⟨hleft.recorded, hright.recorded⟩

/-- An operator that asks for operands of a fixed type. -/
theorem confirmed_rule {note : Note} {op : BinaryOp} {left right : Expr} {rule : OperatorRule}
    (hrule : operatorRule? op = some rule) (hscalar : IsScalar rule.operand)
    (hleft : Confirmed arena left rule.operand) (hright : Confirmed arena right rule.operand)
    (htyped : ∀ {e e'}, HasType arena e rule.operand → HasType arena e' rule.operand →
      HasType arena (.binary note op e e') rule.result) :
    Confirmed arena (.binary note op left right) rule.result := by
  refine confirmed_binary (fun e => ?_) (fun span => ?_) hleft hright htyped
  · simp only [operand, hrule]
    rcases hscalar with h | h <;> simp [checkOperand, h, Ty.isError, Ty.agrees]
  · simp only [combined, hrule]
    rfl

mutual

/-- The check of an expression with a type. -/
theorem confirms (hσ : SymbolsOk (shape arena)) : (e : Expr) → {t : Ty} → HasType arena e t → Confirmed arena e t
  | .int note value, _, htyped => by
    cases htyped
    exact .record rfl rfl rfl (u := .int note value) .int (by simp [inner])
  | .string note text, _, htyped => by
    cases htyped
    exact .record rfl rfl rfl (u := .string note text) .string (by simp [inner])
  | .bool note value, _, htyped => by
    cases htyped
    exact .record rfl rfl rfl (u := .bool note value) .bool (by simp [inner])
  | .ident x, _, htyped => by
    cases htyped with
    | ident binding symbol =>
      exact .record (seenTy_eq binding symbol) rfl rfl (u := .ident x) (.ident binding symbol) (by simp [inner])
  | .dot note obj field reached bad, _, htyped => by
    cases htyped with
    | dot object binding symbol =>
      have hobj := confirms hσ obj object
      refine .record (seenTy_eq binding symbol) ?_ (by rw [Verdicts.typed]) (.dot hobj.typed binding symbol) ?_
      · rw [remarks, hobj.silent]
      · rw [inner]
        exact hobj.recorded
  | .assign note target value, t, htyped => by
    cases htyped with
    | assignment hleft hright plain =>
      have hleft := confirms hσ target hleft
      have hright := confirms hσ value hright
      refine .record ?_ ?_ (by rw [Verdicts.typed]) (.assignment hleft.typed hright.typed plain) ?_
      · rw [typeOf, hleft.type, hright.type, assignTy_eq plain]
        rfl
      · rw [remarks, hleft.silent, hright.silent, hleft.type, hright.type, assignTy_eq plain]
        rfl
      · rw [inner]
        exact List.forall_mem_append.mpr ⟨hleft.recorded, hright.recorded⟩
  | .call note callee args, t, htyped => by
    cases htyped with
    | call hcallee hargs =>
      obtain ⟨i, f, binding, symbol, rfl, rfl, hok⟩ := func_of_hasType hσ hcallee
      have hargs := confirmsAll hσ args hargs
      let callee' : Ident := { callee with note.ty := some (seenTy arena callee) }
      have hcallee : HasType arena (.ident callee') (Symbol.func f).ty := .ident binding symbol
      have hcall : ∀ span, callTy arena span callee (seenTy arena callee) (typesOf arena args) = pure f.result := by
        intro span
        rw [seenTy_eq binding symbol]
        exact callTy_eq binding symbol hargs.types hok.2.1
      refine .record ?_ ?_ (by rw [Verdicts.typed]) (.call hcallee hargs.typed) ?_
      · rw [typeOf, hcall]
        rfl
      · rw [remarks, hargs.silent, hcall]
        rfl
      · rw [inner]
        exact List.forall_mem_cons.mpr ⟨⟨_, congrArg some (seenTy_eq binding symbol), hcallee⟩, hargs.recorded⟩
  | .unary note op operand, _, htyped => by
    cases htyped with
    | negation hoperand =>
      have hoperand := confirms hσ operand hoperand
      refine .record ?_ ?_ (by rw [Verdicts.typed]) (.negation hoperand.typed) (by rw [inner]; exact hoperand.recorded)
      · rw [typeOf, hoperand.type]
        rfl
      · rw [remarks, hoperand.silent, hoperand.type]
        rfl
    | complement hoperand =>
      have hoperand := confirms hσ operand hoperand
      refine .record ?_ ?_ (by rw [Verdicts.typed]) (.complement hoperand.typed) (by rw [inner]; exact hoperand.recorded)
      · rw [typeOf, hoperand.type]
        rfl
      · rw [remarks, hoperand.silent, hoperand.type]
        rfl
  | .binary note op left right, _, htyped => by
    cases htyped with
    | arithmetic operator hleft hright =>
      have hrule : operatorRule? op = some ⟨.int, .int, .arithmeticOperand⟩ := by
        cases op <;> first | rfl | cases operator
      exact confirmed_rule hrule (.inl rfl) (confirms hσ left hleft) (confirms hσ right hright) (.arithmetic operator)
    | logical operator hleft hright =>
      have hrule : operatorRule? op = some ⟨.bool, .bool, .logicalOperand⟩ := by
        cases op <;> first | rfl | cases operator
      exact confirmed_rule hrule (.inr rfl) (confirms hσ left hleft) (confirms hσ right hright) (.logical operator)
    | relational operator hleft hright =>
      have hrule : operatorRule? op = some ⟨.int, .bool, .relationalOperand⟩ := by
        cases op <;> first | rfl | cases operator
      exact confirmed_rule hrule (.inl rfl) (confirms hσ left hleft) (confirms hσ right hright) (.relational operator)
    | equality operator hleft hright shown =>
      have hrule : operatorRule? op = none := by cases op <;> first | rfl | cases operator
      refine confirmed_binary (fun e => ?_) (fun span => ?_) (confirms hσ left hleft) (confirms hσ right hright)
        (.equality operator · · shown)
      · simp only [operand, hrule]
      · simp only [combined, hrule]
        exact equalityTy_eq shown
  | .misfit note kind, _, htyped => by cases htyped

theorem confirmsAll (hσ : SymbolsOk (shape arena)) : (es : List Expr) → {ts : List Ty} → HasTypes arena es ts →
    ConfirmedAll arena es ts
  | [], _, htyped => by
    cases htyped
    exact ⟨rfl, rfl, .nil, by simp [typedAll, partsAll]⟩
  | e :: es, _, htyped => by
    cases htyped with
    | cons hfirst hrest =>
      have he := confirms hσ e hfirst
      have hes := confirmsAll hσ es hrest
      refine ⟨?_, ?_, .cons he.typed hes.typed, ?_⟩
      · rw [typesOf, List.map_cons, he.type, hes.types]
      · rw [remarksAll, he.silent, hes.silent]
        rfl
      · rw [typedAll, partsAll]
        exact List.forall_mem_append.mpr ⟨he.recorded, hes.recorded⟩

end

end Expressions

section Statements

variable {arena : Arena} {result t : Ty} {e : Expr}

/-- The check of a piece of a program finds no error in it, and records all types. -/
structure Passes (arena : Arena) (ds : List Diagnostic) (es : List Expr) : Prop where
  quiet : Quiet ds
  recorded : ∀ e ∈ es, Recorded arena e

theorem Passes.append {ds ds' : List Diagnostic} {es es' : List Expr} (h : Passes arena ds es)
    (h' : Passes arena ds' es') : Passes arena (ds ++ ds') (es ++ es') :=
  ⟨quiet_append.mpr ⟨h.quiet, h'.quiet⟩, List.forall_mem_append.mpr ⟨h.recorded, h'.recorded⟩⟩

theorem checkCondition_eq (complaint : TypeFinding) (e : Expr) :
    checkCondition complaint e .bool = pure () := rfl

theorem checkCounted_eq (e : Expr) : checkCounted e .int = pure () := rfl

theorem checkRead_eq (h : IsPlain t) (e : Expr) : checkRead e t = pure () := by
  rcases h with (rfl | rfl | rfl) | rfl <;> rfl

theorem checkWritten_eq (h : IsShown t) (e : Expr) : checkWritten e t = pure () := by
  rcases h with rfl | rfl | rfl <;> rfl

theorem checkReturned_eq (h : IsPlain t) (hvoid : t ≠ .void) (e : Expr) :
    checkReturned t e t = pure () := by
  rcases h with (rfl | rfl | rfl) | rfl
  · rfl
  · rfl
  · rfl
  · exact absurd rfl hvoid

theorem passes_expr (h : Confirmed arena e t) : Passes arena (remarks arena e) (parts (typed arena e)) :=
  ⟨h.silent ▸ quiet_nil, h.recorded⟩

/-- An expression that has a type and passes a check. -/
theorem passes_asked {check : Expr → Ty → TypingM Unit} (hcheck : ∀ e, check e t = pure ())
    (h : Confirmed arena e t) : Passes arena (asked arena check e) (parts (typed arena e)) := by
  rw [asked, h.silent, h.type, hcheck]
  exact ⟨quiet_nil, h.recorded⟩

mutual

/-- The check of a statement that fits its function. -/
theorem passes_stmt (hσ : SymbolsOk (shape arena)) (hresult : IsPlain result) : (st : Stmt) →
    FitsStmt arena result st → Passes arena (stmtRemarks arena result st) (stmtParts (typedStmt arena st))
  | .assign span e, hfits => by
    rw [stmtRemarks, typedStmt, stmtParts]
    cases hfits with
    | assign typed => exact passes_expr (confirms hσ e typed)
  | .increment span e, hfits => by
    rw [stmtRemarks, typedStmt, stmtParts]
    cases hfits with
    | increment typed => exact passes_asked checkCounted_eq (confirms hσ e typed)
  | .decrement span e, hfits => by
    rw [stmtRemarks, typedStmt, stmtParts]
    cases hfits with
    | decrement typed => exact passes_asked checkCounted_eq (confirms hσ e typed)
  | .read span e, hfits => by
    rw [stmtRemarks, typedStmt, stmtParts]
    cases hfits with
    | read typed plain => exact passes_asked (checkRead_eq plain) (confirms hσ e typed)
  | .write span e, hfits => by
    rw [stmtRemarks, typedStmt, stmtParts]
    cases hfits with
    | write typed shown => exact passes_asked (checkWritten_eq shown) (confirms hσ e typed)
  | .call span e, hfits => by
    rw [stmtRemarks, typedStmt, stmtParts]
    cases hfits with
    | call typed => exact passes_expr (confirms hσ e typed)
  | .ret span none, hfits => by
    rw [stmtRemarks, typedStmt, stmtParts]
    cases hfits with
    | leave void =>
      subst void
      exact ⟨quiet_nil, by simp⟩
  | .ret span (some e), hfits => by
    rw [stmtRemarks, typedStmt, stmtParts]
    cases hfits with
    | ret notVoid typed => exact passes_asked (checkReturned_eq hresult notVoid) (confirms hσ e typed)
  | .ifThen span cond body, hfits => by
    rw [stmtRemarks, typedStmt, stmtParts]
    cases hfits with
    | ifThen condition fits =>
      exact (passes_asked (checkCondition_eq _) (confirms hσ cond condition)).append (passes_block hσ hresult body fits)
  | .ifElse span cond body other, hfits => by
    rw [stmtRemarks, typedStmt, stmtParts]
    cases hfits with
    | ifElse condition fits fits' =>
      exact (passes_asked (checkCondition_eq _) (confirms hσ cond condition)).append
        ((passes_block hσ hresult body fits).append (passes_block hσ hresult other fits'))
  | .loop span cond body, hfits => by
    rw [stmtRemarks, typedStmt, stmtParts]
    cases hfits with
    | loop condition fits =>
      exact (passes_asked (checkCondition_eq _) (confirms hσ cond condition)).append (passes_block hσ hresult body fits)
  | .misfit span kind, hfits => by cases hfits

theorem passes_stmts (hσ : SymbolsOk (shape arena)) (hresult : IsPlain result) : (ss : List Stmt) →
    {returned : Bool} → FitsStmts arena result ss →
    Passes arena (stmtsRemarks arena result returned ss) (stmtsParts (typedStmts arena ss))
  | [], _, _ => by
    rw [typedStmts, stmtsParts, stmtsRemarks]
    exact ⟨quiet_nil, by simp⟩
  | st :: ss, returned, hfits => by
    cases hfits with
    | cons first rest =>
      rw [typedStmts, stmtsParts, stmtsRemarks]
      have hwarned : Passes arena (if returned then [remark .warning .unreachable st.span] else []) [] := by
        refine ⟨?_, by simp⟩
        cases returned with
        | true => simp [Quiet, remark, Diagnostic.isError, Diagnostic.atSpan]
        | false => exact quiet_nil
      exact hwarned.append ((passes_stmt hσ hresult st first).append (passes_stmts hσ hresult ss rest))

theorem passes_block (hσ : SymbolsOk (shape arena)) (hresult : IsPlain result) : (b : Block) →
    FitsBlock arena result b → Passes arena (blockRemarks arena result b) (blockParts (typedBlock arena b))
  | .mk span decls body, hfits => by
    rw [typedBlock, blockParts, blockRemarks]
    cases hfits with
    | mk fits => exact passes_stmts hσ hresult body fits

end

end Statements

end CMinusMinus.Proofs.TypeRules
