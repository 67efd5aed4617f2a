import CMinusMinus.Compilation
import CMinusMinus.Proofs.Replacement
import CMinusMinus.Proofs.RoundTrip

/-!
Programs seen in another way: without places, and with other names for the variables of functions and the
fields of structs. Type checking, frame layout and lowering do the same to a program and to what is seen of
it. They go by what identifiers are bound to, so that a name or a place shows only in what they say, in
faults and in comments.
-/
namespace CMinusMinus.Proofs.Views

open Printing (unspannedNote unspannedIdent unspannedType unspannedVar)

/-- A way to see programs: how identifiers are named, given what they are bound to, and how much shows of
findings, faults and comments. What shows does not tell how identifiers are named. -/
structure View where
  name : Binding → String → String
  finding : Finding → Finding
  fault : Fault → Fault
  comment : String → String
  finding_name : ∀ (make : String → Finding) b n, finding (make (name b n)) = finding (make n)
  fault_name : ∀ (make : String → FaultCause) b n file span,
    fault (.internal (make (name b n)) (some ⟨file, none⟩)) =
      fault (.internal (make n) (some ⟨file, span⟩))
  comment_name : ∀ (make : String → String) b n, comment (make (name b n)) = comment (make n)

namespace View

variable (v : View)

section Trees

/-- An identifier as it is seen. -/
def ident (x : Ident) : Ident := ⟨unspannedNote x.note, v.name x.binding x.name, x.binding⟩

mutual

/-- An expression as it is seen. -/
def expr : Expr → Expr
  | .int n value => .int (unspannedNote n) value
  | .string n text => .string (unspannedNote n) text
  | .bool n value => .bool (unspannedNote n) value
  | .ident x => .ident (v.ident x)
  | .dot n obj field reached bad => .dot (unspannedNote n) (expr obj) (v.ident field) reached bad
  | .assign n target value => .assign (unspannedNote n) (expr target) (expr value)
  | .call n callee args => .call (unspannedNote n) (v.ident callee) (exprs args)
  | .unary n op operand => .unary (unspannedNote n) op (expr operand)
  | .binary n op left right => .binary (unspannedNote n) op (expr left) (expr right)
  | .misfit n kind => .misfit (unspannedNote n) kind

def exprs : List Expr → List Expr
  | [] => []
  | e :: es => expr e :: exprs es

end

/-- The declaration of a parameter, a local variable or a field as it is seen. -/
def var (d : VarDecl) : VarDecl := ⟨none, unspannedType d.type, v.ident d.name⟩

mutual

/-- A statement as it is seen. -/
def stmt : Stmt → Stmt
  | .assign _ e => .assign none (v.expr e)
  | .increment _ e => .increment none (v.expr e)
  | .decrement _ e => .decrement none (v.expr e)
  | .read _ e => .read none (v.expr e)
  | .write _ e => .write none (v.expr e)
  | .ifThen _ cond body => .ifThen none (v.expr cond) (block body)
  | .ifElse _ cond body other => .ifElse none (v.expr cond) (block body) (block other)
  | .loop _ cond body => .loop none (v.expr cond) (block body)
  | .call _ e => .call none (v.expr e)
  | .ret _ none => .ret none none
  | .ret _ (some e) => .ret none (some (v.expr e))
  | .misfit _ kind => .misfit none kind

def stmts : List Stmt → List Stmt
  | [] => []
  | st :: ss => stmt st :: stmts ss

def block : Block → Block
  | .mk _ decls body => .mk none (decls.map v.var) (stmts body)

end

/-- A declaration at the top of a program as it is seen. What is declared there keeps its name. -/
def decl : Decl → Decl
  | .var d => .var (unspannedVar d)
  | .struct d => .struct ⟨none, unspannedIdent d.name, d.fields.map v.var⟩
  | .fn d => .fn ⟨none, unspannedType d.result, unspannedIdent d.name, d.formals.map v.var, v.block d.body⟩
  | .misfit _ kind => .misfit none kind

@[simp] theorem ty_expr (e : Expr) : (v.expr e).ty = e.ty := by cases e <;> rfl

theorem withTy_expr (t : Ty) (e : Expr) : v.expr (e.withTy t) = (v.expr e).withTy t := by cases e <;> rfl

theorem exprs_eq_map (es : List Expr) : v.exprs es = es.map v.expr := by
  induction es with
  | nil => rfl
  | cons e es ih => rw [exprs, List.map_cons, ih]

end Trees

section Symbols

def scope (s : Scope) : Scope := s.map fun (n, i) => (v.name (.symbol i) n, i)

def table (t : SymbolTable) : SymbolTable := { t with scopes := t.scopes.map v.scope }

/-- A symbol with an index as it is seen. Global variables, functions and structs keep their names. -/
def symbol (i : Int) : Symbol → Symbol
  | .var u => .var { u with name := if u.isGlobal then u.name else v.name (.symbol i) u.name }
  | .func f => .func f
  | .struct d => .struct { d with fields := v.table d.fields }

/-- All symbols as they are seen. -/
def arena (a : Arena) : Arena := ⟨a.symbols.mapIdx fun i s => v.symbol i s⟩

@[simp] theorem get?_arena (a : Arena) (i : Int) : (v.arena a).get? i = (a.get? i).map (v.symbol i) := by
  cases i with
  | ofNat n => simp [Arena.get?, arena]
  | negSucc n => rfl

@[simp] theorem size_arena (a : Arena) : (v.arena a).size = a.size := by simp [Arena.size, arena]

@[simp] theorem ty_symbol (i : Int) (s : Symbol) : (v.symbol i s).ty = s.ty := by cases s <;> rfl

theorem push_arena (a : Arena) (s : Symbol) : v.arena (a.push s) = (v.arena a).push (v.symbol a.size s) := by
  simp [Arena.push, arena, Arena.size, Array.mapIdx_push]

theorem set_arena (a : Arena) (i : Int) (s : Symbol) :
    v.arena (a.set i s) = (v.arena a).set i (v.symbol i s) := by
  cases i with
  | ofNat n => simp [Arena.set, arena, Array.mapIdx_setIfInBounds]
  | negSucc n => rfl

end Symbols

section Findings

def diagnostic (d : Diagnostic) : Diagnostic :=
  { severity := d.severity, finding := v.finding d.finding, file := d.file }

/-- The same is said again, as it is seen. -/
def Echoes (ds ds' : List Diagnostic) : Prop := ds'.map v.diagnostic = ds.map v.diagnostic

variable {v} {ds ds' es es' : List Diagnostic}

theorem Echoes.append (h : v.Echoes ds ds') (h' : v.Echoes es es') : v.Echoes (ds ++ es) (ds' ++ es') := by
  rw [Echoes, List.map_append, List.map_append, h, h']

theorem Echoes.about {file : Option String} (h : v.Echoes ds ds') :
    v.Echoes (ds.map (Proofs.about file)) (ds'.map (Proofs.about file)) := by
  have hsame (es : List Diagnostic) : (es.map (Proofs.about file)).map v.diagnostic =
      (es.map v.diagnostic).map (Proofs.about file) := by
    rw [List.map_map, List.map_map]
    rfl
  rw [Echoes, hsame, h, hsame]

end Findings

end View

section Typing

open Typing Verdicts

variable {v : View} {arena : Arena} {α β : Type}

/-- Two pieces of the check give the same, and say the same as it is seen. -/
structure View.Matches (v : View) (x y : TypingM α) : Prop where
  outcome : outcome y = outcome x
  said : v.Echoes (said x) (said y)

namespace View.Matches

variable {x x' y y' : TypingM α} {f g : α → TypingM β}

theorem refl (x : TypingM α) : v.Matches x x := ⟨rfl, rfl⟩

theorem ite {p : Prop} [Decidable p] (h : v.Matches x y) (h' : v.Matches x' y') :
    v.Matches (if p then x else x') (if p then y else y') := by
  split
  · exact h
  · exact h'

theorem bind (h : v.Matches x y) (hf : ∀ a, v.Matches (f a) (g a)) (hx : Steady x) (hy : Steady y)
    (hx' : ∀ a, Steady (f a)) (hy' : ∀ a, Steady (g a)) : v.Matches (x >>= f) (y >>= g) := by
  refine ⟨?_, ?_⟩
  · rw [outcome_bind hx (hx' _), outcome_bind hy (hy' _), h.outcome]
    exact (hf _).outcome
  · rw [said_bind hx (hx' _), said_bind hy (hy' _), h.outcome]
    exact h.said.append (hf _).said

end View.Matches

section Rules

theorem matches_report {finding finding' : TypeFinding} (span span' : Option Span)
    (h : v.finding (.typing finding') = v.finding (.typing finding)) :
    v.Matches (report finding span) (report finding' span') := by
  refine ⟨rfl, ?_⟩
  show [v.diagnostic _] = [v.diagnostic _]
  simp [View.diagnostic, Diagnostic.atSpan, h]

theorem matches_reported {finding finding' : TypeFinding} (span span' : Option Span)
    (h : v.finding (.typing finding') = v.finding (.typing finding)) (a : α) :
    v.Matches (do report finding span; return a) (do report finding' span'; return a) :=
  ⟨rfl, (matches_report span span' h).said⟩

theorem matches_operand (op : BinaryOp) (e : Expr) (t : Ty) :
    v.Matches (operand op e t) (operand op (v.expr e) t) := by
  unfold operand
  split
  · exact .ite (.refl _) (.ite (.refl _) (matches_reported _ _ rfl _))
  · exact .refl _

theorem matches_unary (op : UnaryOp) (span : Option Span) (e : Expr) (t : Ty) :
    v.Matches (unaryTy op span e t) (unaryTy op none (v.expr e) t) := by
  cases op with
  | neg | not => exact .ite (.refl _) (.ite (.refl _) (matches_reported _ _ rfl _))
  | other sign => exact ⟨rfl, rfl⟩

theorem matches_combined (op : BinaryOp) (span : Option Span) (t u : Ty) (ok : Bool) :
    v.Matches (combined op span t u ok) (combined op none t u ok) := by
  unfold combined
  split
  · exact .refl _
  · exact .ite (.refl _) (.ite (matches_reported _ _ rfl _) (.ite (matches_reported _ _ rfl _)
      (.ite (matches_reported _ _ rfl _) (.ite (matches_reported _ _ rfl _) (.ite (.refl _)
        (matches_reported _ _ rfl _))))))

theorem matches_assign (span : Option Span) (t u : Ty) :
    v.Matches (assignTy span t u) (assignTy none t u) :=
  .ite (.refl _) (.ite (matches_reported _ _ rfl _) (.ite (matches_reported _ _ rfl _)
    (.ite (matches_reported _ _ rfl _) (.ite (.refl _) (matches_reported _ _ rfl _)))))

theorem matches_arguments : (args : List (Expr × Ty)) → (params : List Ty) →
    v.Matches (checkArguments args params) (checkArguments (args.map (Prod.map v.expr id)) params)
  | [], _ | _ :: _, [] => .refl _
  | _ :: args, _ :: params =>
    .ite ((matches_report _ _ rfl).bind (fun _ => matches_arguments args params) (steady_report _ _)
      (steady_report _ _) (fun _ => steady_arguments _ _) fun _ => steady_arguments _ _)
      (matches_arguments args params)

theorem matches_call (arena : Arena) (span : Option Span) (callee : Ident) (t : Ty) (args : List (Expr × Ty)) :
    v.Matches (callTy arena span callee t args)
      (callTy (v.arena arena) none (v.ident callee) t (args.map (Prod.map v.expr id))) := by
  refine .ite (.refl _) (.ite (matches_reported _ _ ?_ _) ?_)
  · exact v.finding_name (fun n => .typing (.notCallable n)) _ _
  have hbinding : (v.ident callee).binding = callee.binding := rfl
  rw [hbinding]
  cases callee.binding with
  | unvisited | unresolved => exact .refl _
  | symbol i =>
    dsimp only
    rw [v.get?_arena]
    cases arena.get? i with
    | none => exact .refl _
    | some s =>
      cases s with
      | var u | struct d => exact ⟨rfl, rfl⟩
      | func f =>
        dsimp only [Option.map_some, View.symbol]
        rw [List.length_map]
        refine .ite (matches_reported _ _ rfl _) ((matches_arguments args f.params).bind ?_ ?_ ?_ ?_ ?_)
        · exact fun _ => .refl _
        · exact steady_arguments _ _
        · exact steady_arguments _ _
        · exact fun _ => steady_pure _
        · exact fun _ => steady_pure _

theorem matches_condition (complaint : TypeFinding) (e : Expr) (t : Ty) :
    v.Matches (checkCondition complaint e t) (checkCondition complaint (v.expr e) t) :=
  .ite (matches_report _ _ rfl) (.refl _)

theorem matches_counted (e : Expr) (t : Ty) : v.Matches (checkCounted e t) (checkCounted (v.expr e) t) :=
  .ite (matches_report _ _ rfl) (.refl _)

theorem matches_read (e : Expr) (t : Ty) : v.Matches (checkRead e t) (checkRead (v.expr e) t) :=
  .ite (matches_report _ _ rfl) (.ite (matches_report _ _ rfl) (.ite (matches_report _ _ rfl) (.refl _)))

theorem matches_written (e : Expr) (t : Ty) : v.Matches (checkWritten e t) (checkWritten (v.expr e) t) :=
  .ite (matches_report _ _ rfl) (.ite (matches_report _ _ rfl) (.ite (matches_report _ _ rfl)
    (.ite (matches_report _ _ rfl) (.refl _))))

theorem matches_returned (result : Ty) (e : Expr) (t : Ty) :
    v.Matches (checkReturned result e t) (checkReturned result (v.expr e) t) :=
  .ite (matches_report _ _ rfl) (.ite (matches_report _ _ rfl) (.refl _))

end Rules

theorem seenTy_seen (x : Ident) : seenTy (v.arena arena) (v.ident x) = seenTy arena x := by
  have hty : ∀ i, Symbol.ty ∘ v.symbol i = Symbol.ty := fun i => funext (v.ty_symbol i)
  simp only [seenTy, View.ident, v.get?_arena, Option.map_map, hty]

mutual

/-- What is seen of an expression gets the same type, for the same reasons. -/
theorem expr_typed : (e : Expr) → typeOf (v.arena arena) (v.expr e) = typeOf arena e ∧
    v.Echoes (remarks arena e) (remarks (v.arena arena) (v.expr e))
  | .int .. | .string .. | .bool .. | .misfit .. => ⟨rfl, rfl⟩
  | .ident x => ⟨seenTy_seen x, rfl⟩
  | .dot _ obj field _ bad => by
    rw [View.expr, typeOf, typeOf, remarks, remarks, seenTy_seen]
    exact ⟨rfl, (expr_typed obj).2⟩
  | .assign n target value => by
    obtain ⟨htarget, hsaid⟩ := expr_typed target
    obtain ⟨hvalue, hsaid'⟩ := expr_typed value
    have hrule := matches_assign (v := v) n.span (typeOf arena target) (typeOf arena value)
    rw [View.expr, typeOf, typeOf, remarks, remarks, htarget, hvalue]
    exact ⟨hrule.outcome, (hsaid.append hsaid').append hrule.said⟩
  | .call n callee args => by
    obtain ⟨hargs, hsaid⟩ := exprs_typed args
    have hrule := matches_call (v := v) arena n.span callee (seenTy arena callee) (typesOf arena args)
    rw [View.expr, typeOf, typeOf, remarks, remarks, hargs, seenTy_seen]
    exact ⟨hrule.outcome, hsaid.append hrule.said⟩
  | .unary n op e => by
    obtain ⟨he, hsaid⟩ := expr_typed e
    have hrule := matches_unary (v := v) op n.span e (typeOf arena e)
    rw [View.expr, typeOf, typeOf, remarks, remarks, he]
    exact ⟨hrule.outcome, hsaid.append hrule.said⟩
  | .binary n op left right => by
    obtain ⟨hleft, hsaid⟩ := expr_typed left
    obtain ⟨hright, hsaid'⟩ := expr_typed right
    have hasked := matches_operand (v := v) op left (typeOf arena left)
    have hasked' := matches_operand (v := v) op right (typeOf arena right)
    have hrule := matches_combined (v := v) op n.span (typeOf arena left) (typeOf arena right)
    rw [View.expr, typeOf, typeOf, remarks, remarks, hleft, hright, hasked.outcome, hasked'.outcome]
    exact ⟨(hrule _).outcome,
      ((hsaid.append hasked.said).append (hsaid'.append hasked'.said)).append (hrule _).said⟩

theorem exprs_typed : (es : List Expr) →
    typesOf (v.arena arena) (v.exprs es) = (typesOf arena es).map (Prod.map v.expr id) ∧
    v.Echoes (remarksAll arena es) (remarksAll (v.arena arena) (v.exprs es))
  | [] => ⟨rfl, rfl⟩
  | e :: es => by
    obtain ⟨he, hsaid⟩ := expr_typed e
    obtain ⟨hes, hsaid'⟩ := exprs_typed es
    rw [View.exprs, typesOf, typesOf, remarksAll, remarksAll, he, hes]
    exact ⟨rfl, hsaid.append hsaid'⟩

end

/-- What is seen of an expression gets the types that are seen on it. -/
theorem expr_retyped (e parts : Expr) :
    v.expr (parts.withTy (typeOf arena e)) = (v.expr parts).withTy (typeOf (v.arena arena) (v.expr e)) := by
  rw [v.withTy_expr, (expr_typed e).1]

mutual

theorem typed_seen : (e : Expr) → typed (v.arena arena) (v.expr e) = v.expr (typed arena e)
  | .int .. | .string .. | .bool .. | .misfit .. => rfl
  | .ident x => by
    rw [View.expr, typed, typed, seenTy_seen]
    rfl
  | .dot _ obj _ _ _ => by
    rw [typed, expr_retyped, View.expr, View.expr, typed, typed_seen obj]
  | .assign _ target value => by
    rw [typed, expr_retyped, View.expr, View.expr, typed, typed_seen target, typed_seen value]
  | .call _ _ args => by
    rw [typed, expr_retyped, View.expr, View.expr, typed, typedAll_seen args, seenTy_seen]
    rfl
  | .unary _ _ e => by rw [typed, expr_retyped, View.expr, View.expr, typed, typed_seen e]
  | .binary _ _ left right => by
    rw [typed, expr_retyped, View.expr, View.expr, typed, typed_seen left, typed_seen right]

theorem typedAll_seen : (es : List Expr) → typedAll (v.arena arena) (v.exprs es) = v.exprs (typedAll arena es)
  | [] => rfl
  | e :: es => by rw [View.exprs, typedAll, typedAll, View.exprs, typed_seen e, typedAll_seen es]

end

theorem asked_seen {check : Expr → Ty → TypingM Unit} {e : Expr}
    (h : ∀ t, v.Matches (check e t) (check (v.expr e) t)) :
    v.Echoes (asked arena check e) (asked (v.arena arena) check (v.expr e)) := by
  obtain ⟨he, hsaid⟩ := expr_typed e
  rw [asked, asked, he]
  exact hsaid.append (h _).said

theorem isReturn_stmt (st : Stmt) : (v.stmt st).isReturn = st.isReturn := by
  cases st with
  | ret span value => cases value <;> rfl
  | _ => rfl

mutual

/-- What is seen of a statement is checked in the same way. -/
theorem stmt_typed (result : Ty) : (st : Stmt) →
    typedStmt (v.arena arena) (v.stmt st) = v.stmt (typedStmt arena st) ∧
    v.Echoes (stmtRemarks arena result st) (stmtRemarks (v.arena arena) result (v.stmt st))
  | .assign _ e | .call _ e => by
    rw [View.stmt, typedStmt, typedStmt, View.stmt, typed_seen, stmtRemarks, stmtRemarks]
    exact ⟨rfl, (expr_typed e).2⟩
  | .increment _ e | .decrement _ e => by
    rw [View.stmt, typedStmt, typedStmt, View.stmt, typed_seen, stmtRemarks, stmtRemarks]
    exact ⟨rfl, asked_seen (matches_counted e)⟩
  | .read _ e => by
    rw [View.stmt, typedStmt, typedStmt, View.stmt, typed_seen, stmtRemarks, stmtRemarks]
    exact ⟨rfl, asked_seen (matches_read e)⟩
  | .write _ e => by
    rw [View.stmt, typedStmt, typedStmt, View.stmt, typed_seen, stmtRemarks, stmtRemarks]
    exact ⟨rfl, asked_seen (matches_written e)⟩
  | .ifThen _ cond body | .loop _ cond body => by
    obtain ⟨hbody, hsaid⟩ := block_typed result body
    rw [View.stmt, typedStmt, typedStmt, View.stmt, typed_seen, hbody, stmtRemarks, stmtRemarks]
    exact ⟨rfl, (asked_seen (matches_condition _ cond)).append hsaid⟩
  | .ifElse _ cond body other => by
    obtain ⟨hbody, hsaid⟩ := block_typed result body
    obtain ⟨hother, hsaid'⟩ := block_typed result other
    rw [View.stmt, typedStmt, typedStmt, View.stmt, typed_seen, hbody, hother, stmtRemarks, stmtRemarks]
    exact ⟨rfl, (asked_seen (matches_condition _ cond)).append (hsaid.append hsaid')⟩
  | .ret span none => by
    refine ⟨rfl, ?_⟩
    rw [View.stmt, stmtRemarks, stmtRemarks]
    split
    · rfl
    · exact (matches_report span none rfl).said
  | .ret _ (some e) => by
    rw [View.stmt, typedStmt, typedStmt, View.stmt, typed_seen, stmtRemarks, stmtRemarks]
    exact ⟨rfl, asked_seen (matches_returned result e)⟩
  | .misfit .. => ⟨rfl, rfl⟩

theorem stmts_typed (result : Ty) (returned : Bool) : (ss : List Stmt) →
    typedStmts (v.arena arena) (v.stmts ss) = v.stmts (typedStmts arena ss) ∧
    v.Echoes (stmtsRemarks arena result returned ss) (stmtsRemarks (v.arena arena) result returned (v.stmts ss))
  | [] => ⟨rfl, rfl⟩
  | st :: ss => by
    obtain ⟨hst, hsaid⟩ := stmt_typed result st
    obtain ⟨hss, hsaid'⟩ := stmts_typed result st.isReturn ss
    rw [View.stmts, typedStmts, typedStmts, View.stmts, hst, hss, stmtsRemarks, stmtsRemarks, isReturn_stmt]
    refine ⟨rfl, View.Echoes.append ?_ (hsaid.append hsaid')⟩
    cases returned <;> rfl

theorem block_typed (result : Ty) : (b : Block) →
    typedBlock (v.arena arena) (v.block b) = v.block (typedBlock arena b) ∧
    v.Echoes (blockRemarks arena result b) (blockRemarks (v.arena arena) result (v.block b))
  | .mk _ _ body => by
    obtain ⟨hbody, hsaid⟩ := stmts_typed result false body
    rw [View.block, typedBlock, typedBlock, View.block, hbody, blockRemarks, blockRemarks]
    exact ⟨rfl, hsaid⟩

end

theorem decl_typed (d : Decl) : typedDecl (v.arena arena) (v.decl d) = v.decl (typedDecl arena d) ∧
    v.Echoes (declRemarks arena d) (declRemarks (v.arena arena) (v.decl d)) := by
  cases d with
  | fn d =>
    obtain ⟨hbody, hsaid⟩ := block_typed ((Ty.ofWord? d.result.name).getD .error) d.body
    rw [View.decl, typedDecl, typedDecl, View.decl, hbody, declRemarks, declRemarks]
    exact ⟨rfl, hsaid⟩
  | _ => exact ⟨rfl, rfl⟩

theorem isMain_decl (d : Decl) : isMain (v.decl d) = isMain d := by
  cases d with
  | fn d => simp [View.decl, isMain, unspannedIdent, unspannedType]
  | _ => rfl

/-- Type checking does the same to what is seen of a program. -/
theorem decls_typed (arena : Arena) (ds : List Decl) :
    (ds.map v.decl).map (typedDecl (v.arena arena)) = (ds.map (typedDecl arena)).map v.decl ∧
    v.Echoes (programRemarks arena ds) (programRemarks (v.arena arena) (ds.map v.decl)) := by
  have hmain : mainRemarks (ds.map v.decl) = mainRemarks ds := by
    simp only [mainRemarks, List.any_map, Function.comp_def, isMain_decl]
  refine ⟨?_, View.Echoes.append ?_ (congrArg _ hmain)⟩
  · rw [List.map_map, List.map_map]
    exact List.map_congr_left fun d _ => (decl_typed d).1
  · clear hmain
    induction ds with
    | nil => rfl
    | cons d ds ih => exact (decl_typed d).2.append ih

end Typing

section Frames

open Frames Framing WellFormed

variable {v : View}

theorem placing_seen (slots : List Int) : ∀ {arena : Arena} {next : Int},
    placing (v.arena arena) next slots =
      (v.arena (placing arena next slots).1, (placing arena next slots).2) := by
  induction slots with
  | nil => exact rfl
  | cons i slots ih =>
    intro arena next
    rw [placing, placing, v.get?_arena]
    cases arena.get? i with
    | none => exact ih
    | some s =>
      cases s with
      | var u =>
        refine Eq.trans ?_ ih
        rw [v.set_arena]
        rfl
      | func f | struct d => exact ih

mutual

theorem stmtDecls_seen : (st : Stmt) → stmtDecls (v.stmt st) = (stmtDecls st).map v.var
  | .ifThen _ _ body | .loop _ _ body => by rw [View.stmt, stmtDecls, stmtDecls, blockDecls_seen body]
  | .ifElse _ _ body other => by
    rw [View.stmt, stmtDecls, stmtDecls, blockDecls_seen body, blockDecls_seen other, List.map_append]
  | .assign .. | .increment .. | .decrement .. | .read .. | .write .. | .call .. | .ret _ none
  | .ret _ (some _) | .misfit .. => rfl

theorem stmtsDecls_seen : (ss : List Stmt) → stmtsDecls (v.stmts ss) = (stmtsDecls ss).map v.var
  | [] => rfl
  | st :: ss => by
    rw [View.stmts, stmtsDecls, stmtsDecls, stmtDecls_seen st, stmtsDecls_seen ss, List.map_append]

theorem blockDecls_seen : (b : Block) → blockDecls (v.block b) = (blockDecls b).map v.var
  | .mk _ decls body => by
    rw [View.block, blockDecls, blockDecls, stmtsDecls_seen body, List.map_append]

end

/-- A state of frame layout as it is seen. -/
def View.layout (v : View) (s : Frames.State) : Frames.State := { s with arena := v.arena s.arena }

theorem laidOut_seen (s : Frames.State) (d : Decl) : laidOut (v.layout s) (v.decl d) = v.layout (laidOut s d) := by
  cases d with
  | fn d =>
    have hslots : ∀ ds : List VarDecl, declSlots (ds.map v.var) = declSlots ds := by
      intro ds
      rw [declSlots, List.filterMap_map]
      rfl
    rw [View.decl, laidOut, laidOut, fnDecls, blockDecls_seen, ← List.map_append, hslots]
    show _ = View.layout v { s with arena := _, next := _, frames := _ }
    dsimp only [View.layout]
    rw [placing_seen]
    rfl
  | _ => rfl

/-- Frame layout does the same to what is seen of a program. -/
theorem laidOut_decls (s : Frames.State) (ds : List Decl) :
    (ds.map v.decl).foldl laidOut (v.layout s) = v.layout (ds.foldl laidOut s) := by
  rw [List.foldl_map]
  exact List.foldl_hom v.layout laidOut_seen

end Frames

section Code

open Lowering (Env symbolOf variableOf location recordedTy)
open Code

/-- A part of some code as it is seen. -/
def View.item (v : View) : Item → Item
  | .op i comment => .op i (v.comment comment)
  | .label name comment => .label name (v.comment comment)
  | i => i

def View.env (v : View) (env : Env) : Env := ⟨env.file, v.arena env.arena, env.frames⟩

/-- A variable stands for another: they differ in the name only, and not if they are global. -/
structure View.Same (v : View) (u u' : Variable) : Prop where
  rest : u' = { u with name := u'.name }
  name : u.isGlobal → u'.name = u.name
  comment : ∀ make : String → String, v.comment (make u'.name) = v.comment (make u.name)

/-- Two things that were looked up belong together, or neither was found. -/
inductive Agree {α β : Type} (R : α → β → Prop) : Except Fault α → Except Fault β → Prop
  | found {a b} (h : R a b) : Agree R (.ok a) (.ok b)
  | missing {f g} : Agree R (.error f) (.error g)

variable {v : View} {env : Env}

theorem same_symbol {i : Int} {u u' : Variable} (h : v.symbol i (.var u) = .var u') : v.Same u u' := by
  obtain rfl := Symbol.var.inj h
  refine ⟨rfl, fun hglobal => if_pos hglobal, fun make => ?_⟩
  dsimp only
  split
  · rfl
  · exact v.comment_name _ _ _

theorem agree_symbolOf (v : View) (env : Env) (x x' : Ident) (h : x'.binding = x.binding) :
    Agree (fun s s' => ∃ i, x.binding = .symbol i ∧ env.arena.get? i = some s ∧ s' = v.symbol i s)
      (symbolOf env x) (symbolOf (v.env env) x') := by
  unfold symbolOf
  rw [h]
  cases hbinding : x.binding with
  | unvisited | unresolved => exact .missing
  | symbol i =>
    have hget : (v.env env).arena.get? i = (env.arena.get? i).map (v.symbol i) := v.get?_arena _ _
    dsimp only
    rw [hget]
    cases hs : env.arena.get? i with
    | none => exact .missing
    | some s => exact .found ⟨i, rfl, hs, rfl⟩

theorem agree_variableOf (v : View) (env : Env) (x x' : Ident) (h : x'.binding = x.binding) :
    Agree (fun u u' => ∃ i, x.binding = .symbol i ∧ env.arena.get? i = some (.var u) ∧ v.symbol i (.var u) = .var u')
      (variableOf env x) (variableOf (v.env env) x') := by
  have hsymbol := agree_symbolOf v env x x' h
  unfold variableOf
  generalize symbolOf env x = found, symbolOf (v.env env) x' = found' at hsymbol
  cases hsymbol with
  | missing => exact .missing
  | @found s _ h =>
    obtain ⟨i, hbinding, hs, rfl⟩ := h
    cases s with
    | var u => exact .found ⟨i, hbinding, hs, rfl⟩
    | func | struct => exact .missing

theorem Agree.bind {α β α' β' : Type} {R : α → β → Prop} {S : α' → β' → Prop} {x : Except Fault α}
    {y : Except Fault β} {f : α → Except Fault α'} {g : β → Except Fault β'} (h : Agree R x y)
    (hf : ∀ a b, R a b → Agree S (f a) (g b)) : Agree S (x >>= f) (y >>= g) := by
  cases h with
  | found h => exact hf _ _ h
  | missing => exact .missing

theorem agree_location (v : View) (env : Env) : (e : Expr) → Agree (fun p p' => v.Same p.1 p'.1 ∧ p'.2 = p.2)
    (location env e) (location (v.env env) (v.expr e))
  | .ident x => by
    rw [View.expr, location, location]
    refine (agree_variableOf v env x (v.ident x) rfl).bind ?_
    rintro u u' ⟨i, -, -, hu⟩
    exact .found ⟨same_symbol hu, rfl⟩
  | .dot n obj field reached bad => by
    rw [View.expr, location, location]
    cases bad with
    | true => exact .missing
    | false =>
      refine (agree_location v env obj).bind ?_
      rintro ⟨root, offset⟩ ⟨root', _⟩ ⟨hroot, rfl⟩
      dsimp only
      refine (agree_variableOf v env field (v.ident field) rfl).bind ?_
      rintro u u' ⟨i, -, -, hu⟩
      refine .found ⟨hroot, ?_⟩
      rw [(same_symbol hu).rest]
  | .int .. | .string .. | .bool .. | .assign .. | .call .. | .unary .. | .binary .. | .misfit .. => .missing

/-- Code that goes by the place of an expression is the same for what is seen of it. -/
theorem onPlace_seen (e : Expr) {items : Variable → Int → List Item}
    (h : ∀ {u u' : Variable} offset, v.Same u u' → items u' offset = items u offset) :
    onPlace (v.env env) (v.expr e) items = onPlace env e items := by
  have hagree := agree_location v env e
  unfold onPlace
  generalize location env e = found, location (v.env env) (v.expr e) = found' at hagree
  cases hagree with
  | missing => rfl
  | @found p p' hp =>
    obtain ⟨u', offset⟩ := p'
    obtain ⟨hu, rfl⟩ := hp
    exact h p.2 hu

theorem address_seen {u u' : Variable} (h : v.Same u u') (offset : Int) (r : Assembly.Reg) :
    address u' offset r = address u offset r := by
  rw [address, address, h.rest]
  by_cases hglobal : u.isGlobal
  · simp only [hglobal, if_true, h.name hglobal]
  · simp only [hglobal]
    rfl

theorem fetch_seen {u u' : Variable} (h : v.Same u u') (offset : Int) : fetch u' offset = fetch u offset := by
  rw [fetch, fetch, address_seen h, h.rest]
  by_cases hglobal : u.isGlobal
  · simp only [hglobal, if_true, h.name hglobal]
  · simp only [hglobal]
    rfl

theorem invoke_seen (callee : Ident) (count : Nat) :
    invoke (v.env env) (v.ident callee) count = invoke env callee count := by
  have hagree := agree_symbolOf v env callee (v.ident callee) rfl
  unfold invoke
  generalize symbolOf env callee = found, symbolOf (v.env env) (v.ident callee) = found' at hagree
  cases hagree with
  | missing => rfl
  | @found s _ h =>
    obtain ⟨i, -, -, rfl⟩ := h
    cases s <;> rfl

mutual

theorem exprAfter_seen : (e : Expr) → ∀ c, exprAfter (v.expr e) c = exprAfter e c
  | .assign _ _ value, c => exprAfter_seen value c
  | .call _ _ args, c => exprsAfter_seen args c
  | .unary _ _ operand, c => exprAfter_seen operand c
  | .binary _ op left right, c => by
    rw [View.expr, exprAfter, exprAfter]
    simp only [exprAfter_seen left, exprAfter_seen right]
  | .int .., _ | .string .., _ | .bool .., _ | .ident _, _ | .dot .., _ | .misfit .., _ => rfl

theorem exprsAfter_seen : (es : List Expr) → ∀ c, exprsAfter (v.exprs es) c = exprsAfter es c
  | [], _ => rfl
  | e :: es, c => by rw [View.exprs, exprsAfter, exprsAfter, exprAfter_seen e, exprsAfter_seen es]

end

mutual

/-- The code of an expression does not tell how its variables are named. -/
theorem expr_seen : (e : Expr) → ∀ c, expr (v.env env) (v.expr e) c = expr env e c
  | .ident x, _ => onPlace_seen (.ident x) fun offset h => by rw [fetch_seen h]
  | .dot n obj field reached bad, _ =>
    onPlace_seen (.dot n obj field reached bad) fun offset h => by rw [fetch_seen h]
  | .assign _ target value, c => by
    rw [View.expr, expr, expr, expr_seen value, onPlace_seen target fun offset h => by rw [address_seen h]]
  | .call _ callee args, c => by
    rw [View.expr, expr, expr, exprs_seen args, invoke_seen, v.exprs_eq_map, List.length_map]
  | .unary _ op operand, c => by rw [View.expr, expr, expr, expr_seen operand]
  | .binary _ op left right, c => by
    rw [View.expr, expr, expr]
    simp only [expr_seen left, expr_seen right, exprAfter_seen]
  | .int .., _ | .string .., _ | .bool .., _ | .misfit .., _ => rfl

theorem exprs_seen : (es : List Expr) → ∀ c, exprs (v.env env) (v.exprs es) c = exprs env es c
  | [], _ => rfl
  | e :: es, c => by rw [View.exprs, exprs, exprs, expr_seen e, exprs_seen es, exprAfter_seen]

end

theorem printer_seen (e : Expr) : printer (v.env env) (v.expr e) = printer env e := by
  unfold printer recordedTy
  rw [v.ty_expr]
  cases e.ty.bind Ty.known? with
  | none => rfl
  | some t =>
    by_cases herror : t.isError
    · simp only [herror, if_true]
    · simp only [herror]
      rfl

theorem count_seen (e : Expr) (delta : Int) : count (v.env env) (v.expr e) delta = count env e delta :=
  onPlace_seen e fun offset h => by rw [address_seen h]

mutual

theorem stmtAfter_seen : (st : Stmt) → ∀ c, stmtAfter (v.stmt st) c = stmtAfter st c
  | .assign _ e, c | .call _ e, c | .write _ e, c | .ret _ (some e), c => exprAfter_seen e c
  | .ifThen _ cond body, c | .loop _ cond body, c => by
    simp only [View.stmt, stmtAfter, exprAfter_seen, blockAfter_seen body]
  | .ifElse _ cond body other, c => by
    simp only [View.stmt, stmtAfter, exprAfter_seen, blockAfter_seen body, blockAfter_seen other]
  | .increment .., _ | .decrement .., _ | .read .., _ | .ret _ none, _ | .misfit .., _ => rfl

theorem stmtsAfter_seen : (ss : List Stmt) → ∀ c, stmtsAfter (v.stmts ss) c = stmtsAfter ss c
  | [], _ => rfl
  | st :: ss, c => by rw [View.stmts, stmtsAfter, stmtsAfter, stmtAfter_seen st, stmtsAfter_seen ss]

theorem blockAfter_seen : (b : Block) → ∀ c, blockAfter (v.block b) c = blockAfter b c
  | .mk _ _ body, c => by rw [View.block, blockAfter, blockAfter, stmtsAfter_seen body]

end

variable (f : String)

mutual

theorem stmt_seen : (st : Stmt) → ∀ c, stmt (v.env env) f (v.stmt st) c = stmt env f st c
  | .assign _ e, c | .call _ e, c | .ret _ (some e), c => by rw [View.stmt, stmt, stmt, expr_seen]
  | .increment _ e, _ | .decrement _ e, _ => count_seen e _
  | .read _ e, _ => by
    rw [View.stmt, stmt, stmt, onPlace_seen e fun offset h => by rw [address_seen h]]
  | .write _ e, c => by rw [View.stmt, stmt, stmt, expr_seen, printer_seen]
  | .ifThen _ cond body, c | .loop _ cond body, c => by
    simp only [View.stmt, stmt, expr_seen, exprAfter_seen, block_seen body]
  | .ifElse _ cond body other, c => by
    simp only [View.stmt, stmt, expr_seen, exprAfter_seen, blockAfter_seen, block_seen body, block_seen other]
  | .ret _ none, _ | .misfit .., _ => rfl

theorem stmts_seen : (ss : List Stmt) → ∀ c, stmts (v.env env) f (v.stmts ss) c = stmts env f ss c
  | [], _ => rfl
  | st :: ss, c => by rw [View.stmts, stmts, stmts, stmt_seen st, stmts_seen ss, stmtAfter_seen]

theorem block_seen : (b : Block) → ∀ c, block (v.env env) f (v.block b) c = block env f b c
  | .mk _ _ body, c => by rw [View.block, block, block, stmts_seen body]

end

/-- Parameters show in the comments to the code that copies the arguments. -/
theorem copyArguments_seen (ds : List VarDecl) :
    (Code.copyArguments (v.env env) (ds.map v.var)).map v.item = (Code.copyArguments env ds).map v.item := by
  induction ds with
  | nil => rfl
  | cons d ds ih =>
    have hagree := agree_variableOf v env d.name (v.var d).name rfl
    rw [List.map_cons, Code.copyArguments, Code.copyArguments, List.length_map]
    generalize variableOf env d.name = found, variableOf (v.env env) (v.var d).name = found' at hagree
    cases hagree with
    | missing => rfl
    | @found u u' h =>
      obtain ⟨i, -, -, hu⟩ := h
      have hcomment := (same_symbol hu).comment ("ARG " ++ ·)
      have hplace : u'.offset = u.offset := by rw [(same_symbol hu).rest]
      simp only [List.map_cons, View.item, hcomment, hplace, ih]

/-- What a name at the top of a program is bound to is seen as it is. -/
def View.Kept (v : View) (arena : Arena) (x : Ident) : Prop :=
  ∀ i u, x.binding = .symbol i → arena.get? i = some (.var u) → v.symbol i (.var u) = .var u

theorem decl_seen (d : Decl) (h : ∀ x, d = .var x → v.Kept env.arena x.name) (c : Counters) :
    (decl (v.env env) (v.decl d) c).map v.item = (decl env d c).map v.item := by
  cases d with
  | var d =>
    have hagree := agree_variableOf v env d.name (unspannedVar d).name rfl
    rw [View.decl, decl, decl]
    generalize variableOf env d.name = found, variableOf (v.env env) (unspannedVar d).name = found' at hagree
    cases hagree with
    | missing => rfl
    | @found u _ h' =>
      obtain ⟨i, hbinding, hu, hsame⟩ := h'
      obtain rfl := Symbol.var.inj ((h d rfl i u hbinding hu).symm.trans hsame)
      rfl
  | struct d =>
    have hagree := agree_symbolOf v env d.name (unspannedIdent d.name) rfl
    rw [View.decl, decl, decl]
    generalize symbolOf env d.name = found, symbolOf (v.env env) (unspannedIdent d.name) = found' at hagree
    cases hagree with
    | missing => rfl
    | @found s _ h' =>
      obtain ⟨i, -, -, rfl⟩ := h'
      cases s <;> rfl
  | fn d =>
    have hname : (unspannedIdent d.name).name = d.name.name := rfl
    have hframes : (v.env env).frames = env.frames := rfl
    simp only [View.decl, decl, function, entry, hname, hframes, block_seen, List.map_append, List.map_cons,
      copyArguments_seen]
  | misfit span kind => rfl

theorem declAfter_seen (d : Decl) (c : Counters) : declAfter (v.decl d) c = declAfter d c := by
  cases d with
  | fn d => exact blockAfter_seen d.body c
  | _ => rfl

/-- The code of what is seen of a program is what is seen of its code. -/
theorem decls_seen (ds : List Decl) (h : ∀ x, .var x ∈ ds → v.Kept env.arena x.name) : ∀ c,
    (decls (v.env env) (ds.map v.decl) c).map v.item = (decls env ds c).map v.item := by
  induction ds with
  | nil => exact fun c => rfl
  | cons d ds ih =>
    intro c
    have hd : ∀ x, d = .var x → v.Kept env.arena x.name := fun x hx => h x (by simp [hx])
    rw [List.map_cons, decls, decls, List.map_append, List.map_append, decl_seen d hd, declAfter_seen,
      ih fun x hx => h x (by simp [hx])]

end Code

end CMinusMinus.Proofs.Views
