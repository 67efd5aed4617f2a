import CMinusMinus.Analysis.Typing
import CMinusMinus.Proofs.Scopes

/-!
The check of types, as functions of the tree. Where names have been looked up the check is never stopped, and
what it does depends on the tree alone: it records types, and it adds to what was found before.
-/
namespace CMinusMinus.Proofs.Verdicts

open Typing WellFormed Naming Grammar

section Pieces

variable {α β : Type} {x y : TypingM α} {f : α → TypingM β} {a : α} {b : β} {ds es : List Diagnostic}

/-- The journal after something more has been said about its file. -/
def saying (j : Journal) (ds : List Diagnostic) : Journal :=
  { j with diagnostics := j.diagnostics ++ ds.map (about j.file) }

@[simp] theorem saying_nil (j : Journal) : saying j [] = j := by simp [saying]

/-- A piece of the check gives something and says something, whatever was said before. -/
def Says (x : TypingM α) (a : α) (ds : List Diagnostic) : Prop :=
  ∀ j : Journal, j.fault = none → x j = (a, saying j ds)

namespace Says

theorem pure (a : α) : Says (Pure.pure a) a [] := fun j _ => by
  rw [saying_nil]
  rfl

theorem bind (hx : Says x a ds) (hf : Says (f a) b es) : Says (x >>= f) b (ds ++ es) := by
  intro j h
  change f (x j).1 (x j).2 = _
  rw [hx j h, hf (saying j ds) h]
  simp only [saying, List.map_append, List.append_assoc]

/-- The last piece says nothing. -/
theorem last (hx : Says x a ds) (hf : Says (f a) b []) : Says (x >>= f) b ds := by
  simpa using hx.bind hf

end Says

/-- What a piece of the check gives on its own. -/
def outcome (x : TypingM α) : α := (x { file := none, diagnostics := [] }).1

/-- What a piece of the check says on its own. -/
def said (x : TypingM α) : List Diagnostic := (x { file := none, diagnostics := [] }).2.diagnostics

/-- A piece of the check is not stopped, and does not depend on what was said before. -/
def Steady (x : TypingM α) : Prop := Says x (outcome x) (said x)

theorem Says.steady (h : Says x a ds) : Steady x := by
  intro j hj
  rw [h j hj, outcome, said, h _ rfl]
  simp only [saying, List.nil_append, List.map_map]
  rfl

theorem Steady.said_eq (h : Steady x) : (said x).map (about none) = said x :=
  (congrArg (fun r => r.2.diagnostics) (h { file := none, diagnostics := [] } rfl)).symm

theorem outcome_bind (hx : Steady x) (hf : Steady (f (outcome x))) : outcome (x >>= f) = outcome (f (outcome x)) := by
  rw [outcome, Says.bind hx hf _ rfl]

theorem said_bind (hx : Steady x) (hf : Steady (f (outcome x))) :
    said (x >>= f) = said x ++ said (f (outcome x)) := by
  rw [said, Says.bind hx hf _ rfl]
  simp [saying, hx.said_eq, hf.said_eq]

theorem steady_pure (a : α) : Steady (pure a) := (Says.pure a).steady

theorem Steady.bind (hx : Steady x) (hf : ∀ a, Steady (f a)) : Steady (x >>= f) := (Says.bind hx (hf _)).steady

theorem Steady.ite {p : Prop} [Decidable p] (hx : Steady x) (hy : Steady y) : Steady (if p then x else y) := by
  split
  · exact hx
  · exact hy

/-- What the check has to say about a part of the source. -/
def remark (severity : Severity) (finding : TypeFinding) (span : Option Span) : Diagnostic :=
  .atSpan severity (.typing finding) none span

theorem says_report (finding : TypeFinding) (span : Option Span) :
    Says (report finding span) () [remark .error finding span] := fun j h => by
  change ((), j.add _) = _
  rw [Journal.add, if_neg (by simp [Journal.stopped, h])]
  rfl

theorem says_warn (finding : TypeFinding) (span : Option Span) :
    Says (warn finding span) () [remark .warning finding span] := fun j h => by
  change ((), j.add _) = _
  rw [Journal.add, if_neg (by simp [Journal.stopped, h])]
  rfl

theorem steady_report (finding : TypeFinding) (span : Option Span) : Steady (report finding span) :=
  (says_report finding span).steady

theorem steady_wrong (finding : TypeFinding) (span : Option Span) : Steady (wrong finding span) :=
  (steady_report finding span).bind fun _ => steady_pure _

theorem says_stopped : Says stopped false [] := fun j h => by
  change (j.stopped, j) = _
  rw [saying_nil, Journal.stopped, h]
  rfl

theorem says_record (e : Expr) (t : Ty) : Says (record e t) (e.withTy t, t) [] :=
  says_stopped.bind (f := fun b => if b = true then Pure.pure (e, t) else Pure.pure (e.withTy t, t)) (.pure _)

end Pieces

section Rules

variable {arena : Arena} {span : Option Span} {t u : Ty}

/-- The type of an identifier that has been looked up. -/
def seenTy (arena : Arena) (x : Ident) : Ty :=
  match x.binding with
  | .symbol i => ((arena.get? i).map Symbol.ty).getD .error
  | _ => .error

theorem seenTy_eq {x : Ident} {i : Int} {s : Symbol} (hbinding : x.binding = .symbol i)
    (hs : arena.get? i = some s) : seenTy arena x = s.ty := by
  simp [seenTy, hbinding, hs]

theorem identTy_seen {x : Ident} (h : Seen (shape arena) x) : identTy arena x = pure (seenTy arena x) := by
  unfold identTy seenTy
  rcases h with hnone | ⟨i, _, hi, ht⟩
  · rw [hnone]
  · obtain ⟨symbol, hsymbol, -⟩ := Option.map_eq_some_iff.mp ht
    simp only [hi, hsymbol]
    rfl

/-- What an operator asks of an operand. The equality operators ask for nothing. -/
def operand (op : BinaryOp) (e : Expr) (t : Ty) : TypingM Bool :=
  match operatorRule? op with
  | some rule => checkOperand rule e t
  | none => return true

/-- The type that an operator gives, when it is known whether the operands are as it asks. -/
def combined (op : BinaryOp) (span : Option Span) (t u : Ty) (ok : Bool) : TypingM Ty :=
  match operatorRule? op with
  | some rule => return if ok then rule.result else .error
  | none => equalityTy span t u

theorem infer_binary {note : Note} {op : BinaryOp} {left right : Expr} (hnote : note.ty = none)
    (hop : ∀ sign, op ≠ .other sign) : infer arena (.binary note op left right) = (do
      let (left, leftTy) ← infer arena left
      let leftOk ← operand op left leftTy
      let (right, rightTy) ← infer arena right
      let rightOk ← operand op right rightTy
      let t ← combined op note.span leftTy rightTy (leftOk && rightOk)
      record (.binary note op left right) t) := by
  rw [infer.eq_def]
  simp only [Expr.ty, Expr.note, hnote]
  cases op with
  | other sign => exact absurd rfl (hop sign)
  | _ => rfl

theorem steady_unary {op : UnaryOp} (hop : op = .neg ∨ op = .not) (e : Expr) : Steady (unaryTy op span e t) := by
  rcases hop with rfl | rfl
  all_goals exact .ite (steady_pure _) (.ite (steady_pure _) (steady_wrong _ _))

theorem steady_assign : Steady (assignTy span t u) :=
  .ite (steady_pure _) (.ite (steady_wrong _ _) (.ite (steady_wrong _ _) (.ite (steady_wrong _ _)
    (.ite (steady_pure _) (steady_wrong _ _)))))

theorem steady_operand (op : BinaryOp) (e : Expr) : Steady (operand op e t) := by
  unfold operand
  split
  · exact .ite (steady_pure _) (.ite (steady_pure _) ((steady_report _ _).bind fun _ => steady_pure _))
  · exact steady_pure _

theorem steady_combined (op : BinaryOp) (ok : Bool) : Steady (combined op span t u ok) := by
  unfold combined
  split
  · exact steady_pure _
  · exact .ite (steady_pure _) (.ite (steady_wrong _ _) (.ite (steady_wrong _ _) (.ite (steady_wrong _ _)
      (.ite (steady_wrong _ _) (.ite (steady_pure _) (steady_wrong _ _))))))

theorem steady_arguments : (args : List (Expr × Ty)) → (params : List Ty) → Steady (checkArguments args params)
  | [], _ | _ :: _, [] => steady_pure _
  | _ :: args, _ :: params =>
    .ite ((steady_report _ _).bind fun _ => steady_arguments args params) (steady_arguments args params)

/-- No variable and no struct has the type of a function. -/
theorem func_of_isFunction (harena : ArenaSane arena) {i : Int} {s : Symbol} (h : arena.get? i = some s)
    (hty : s.ty.isFunction) : ∃ f, s = .func f := by
  cases s with
  | func f => exact ⟨f, rfl⟩
  | struct d => simp [Symbol.ty, Ty.isFunction] at hty
  | var v =>
    rcases (harena h).2.2.2 with ⟨hscalar, -⟩ | ⟨name, k, d, hstruct, -⟩
    · rcases hscalar with hscalar | hscalar <;> simp [Symbol.ty, hscalar, Ty.isFunction] at hty
    · simp [Symbol.ty, hstruct, Ty.isFunction] at hty

theorem steady_call (harena : ArenaSane arena) {callee : Ident} (hseen : Seen (shape arena) callee)
    (args : List (Expr × Ty)) : Steady (callTy arena span callee (seenTy arena callee) args) := by
  unfold callTy
  refine .ite (steady_pure _) ?_
  rcases hseen with hnone | ⟨i, _, hi, ht⟩
  · simp only [hnone]
    exact .ite (steady_wrong _ _) (steady_pure _)
  · obtain ⟨s, hs, -⟩ := Option.map_eq_some_iff.mp ht
    by_cases hfunction : s.ty.isFunction
    · obtain ⟨f, rfl⟩ := func_of_isFunction harena hs hfunction
      simp only [hi, hs]
      refine .ite (steady_wrong _ _) (.ite ((steady_report _ _).bind fun _ => steady_pure _) ?_)
      exact (steady_arguments _ _).bind fun _ => steady_pure _
    · rw [if_pos (by simpa [seenTy, hi, hs] using hfunction)]
      exact steady_wrong _ _

end Rules

section Expressions

variable (arena : Arena)

mutual

/-- The type that the check gives an expression. -/
def typeOf : Expr → Ty
  | .int .. => .int
  | .string .. => .string
  | .bool .. => .bool
  | .ident x => seenTy arena x
  | .dot _ _ field _ bad => if bad then .error else seenTy arena field
  | .assign note target value => outcome (assignTy note.span (typeOf target) (typeOf value))
  | .call note callee args => outcome (callTy arena note.span callee (seenTy arena callee) (typesOf args))
  | .unary note op e => outcome (unaryTy op note.span e (typeOf e))
  | .binary note op left right => outcome (combined op note.span (typeOf left) (typeOf right)
      (outcome (operand op left (typeOf left)) && outcome (operand op right (typeOf right))))
  | .misfit .. => .error

def typesOf : List Expr → List (Expr × Ty)
  | [] => []
  | e :: es => (e, typeOf e) :: typesOf es

end

mutual

/-- An expression with the types that the check records on it and on its parts. -/
def typed : Expr → Expr
  | .dot note obj field reached bad =>
    (Expr.dot note (typed obj) field reached bad).withTy (typeOf arena (.dot note obj field reached bad))
  | .assign note target value =>
    (Expr.assign note (typed target) (typed value)).withTy (typeOf arena (.assign note target value))
  | .call note callee args =>
    (Expr.call note { callee with note.ty := some (seenTy arena callee) } (typedAll args)).withTy
      (typeOf arena (.call note callee args))
  | .unary note op e => (Expr.unary note op (typed e)).withTy (typeOf arena (.unary note op e))
  | .binary note op left right =>
    (Expr.binary note op (typed left) (typed right)).withTy (typeOf arena (.binary note op left right))
  | .int note value => .int { note with ty := some .int } value
  | .string note text => .string { note with ty := some .string } text
  | .bool note value => .bool { note with ty := some .bool } value
  | .ident x => .ident { x with note.ty := some (seenTy arena x) }
  | .misfit note kind => .misfit { note with ty := some .error } kind

def typedAll : List Expr → List Expr
  | [] => []
  | e :: es => typed e :: typedAll es

end

mutual

/-- What the check says about an expression, in order. -/
def remarks : Expr → List Diagnostic
  | .dot _ obj .. => remarks obj
  | .assign note target value =>
    remarks target ++ remarks value ++ said (assignTy note.span (typeOf arena target) (typeOf arena value))
  | .call note callee args =>
    remarksAll args ++ said (callTy arena note.span callee (seenTy arena callee) (typesOf arena args))
  | .unary note op e => remarks e ++ said (unaryTy op note.span e (typeOf arena e))
  | .binary note op left right =>
    remarks left ++ said (operand op left (typeOf arena left)) ++
      (remarks right ++ said (operand op right (typeOf arena right))) ++
      said (combined op note.span (typeOf arena left) (typeOf arena right)
        (outcome (operand op left (typeOf arena left)) && outcome (operand op right (typeOf arena right))))
  | .int .. | .string .. | .bool .. | .ident _ | .misfit .. => []

def remarksAll : List Expr → List Diagnostic
  | [] => []
  | e :: es => remarks e ++ remarksAll es

end

variable {arena}

@[simp] theorem span_withTy (e : Expr) (t : Ty) : (e.withTy t).span = e.span := by cases e <;> rfl

@[simp] theorem ty_withTy (e : Expr) (t : Ty) : (e.withTy t).ty = some t := by cases e <;> rfl

@[simp] theorem span_typed (e : Expr) : (typed arena e).span = e.span := by cases e <;> simp [typed] <;> rfl

theorem ty_typed (e : Expr) : (typed arena e).ty = some (typeOf arena e) := by
  cases e <;> simp [typed] <;> rfl

/-- What stands in an operand shows in its place only. -/
theorem operand_typed (op : BinaryOp) (e : Expr) (t : Ty) : operand op (typed arena e) t = operand op e t := by
  unfold operand
  split
  · simp only [checkOperand, span_typed]
  · rfl

theorem unary_typed (op : UnaryOp) (span : Option Span) (e : Expr) (t : Ty) :
    unaryTy op span (typed arena e) t = unaryTy op span e t := by
  cases op <;> simp only [unaryTy, span_typed]

/-- Expressions with the types that the check gives them. -/
def judgedAll (arena : Arena) (es : List Expr) : List (Expr × Ty) :=
  (typesOf arena es).map fun p => (typed arena p.1, p.2)

theorem arguments_typed : (args : List (Expr × Ty)) → (params : List Ty) →
    checkArguments (args.map fun p => (typed arena p.1, p.2)) params = checkArguments args params
  | [], _ | _ :: _, [] => rfl
  | (e, t) :: args, param :: params => by
    rw [List.map_cons, checkArguments, checkArguments, arguments_typed args params]
    simp only [span_typed]

theorem call_typed (span : Option Span) (callee : Ident) (t : Ty) (args : List (Expr × Ty)) :
    callTy arena span { callee with note.ty := some t } t (args.map fun p => (typed arena p.1, p.2)) =
      callTy arena span callee t args := by
  simp only [callTy, arguments_typed, List.length_map]

theorem exprs_judgedAll : (es : List Expr) → (judgedAll arena es).map Prod.fst = typedAll arena es
  | [] => rfl
  | e :: es => congrArg (typed arena e :: ·) (exprs_judgedAll es)

mutual

/-- The check of an expression whose names have been looked up. -/
theorem says_infer (harena : ArenaSane arena) : (e : Expr) → Visited (shape arena) e →
    Says (infer arena e) (typed arena e, typeOf arena e) (remarks arena e)
  | .int note _, hvisited | .string note _, hvisited | .bool note _, hvisited => by
    rw [Visited] at hvisited
    rw [infer, typed, typeOf, remarks]
    simp only [Expr.ty, Expr.note, hvisited]
    exact says_record _ _
  | .ident x, hvisited => by
    rw [infer, typed, typeOf, remarks, identTy_seen hvisited.2]
    simp only [Expr.ty, Expr.note, hvisited.1]
    exact says_record _ _
  | .dot note obj field reached bad, hvisited => by
    obtain ⟨hnote, hobj, hfield⟩ := hvisited
    rw [infer, typed, typeOf, remarks]
    simp only [Expr.ty, Expr.note, hnote]
    refine (says_infer harena obj hobj).last ?_
    cases bad with
    | true => exact says_record _ _
    | false =>
      obtain hbad | ⟨i, u, hi, hu, -⟩ := hfield
      · cases hbad
      · rw [identTy_seen (.inr ⟨i, _, hi, hu⟩)]
        exact says_record _ _
  | .assign note target value, hvisited => by
    obtain ⟨hnote, htarget, hvalue⟩ := hvisited
    rw [infer, typed, typeOf, remarks, List.append_assoc]
    simp only [Expr.ty, Expr.note, hnote]
    refine (says_infer harena target htarget).bind ((says_infer harena value hvalue).bind ?_)
    exact steady_assign.last (says_record _ _)
  | .call note callee args, hvisited => by
    obtain ⟨hnote, hcallee, hargs⟩ := hvisited
    rw [infer, typed, typeOf, remarks, ← exprs_judgedAll, identTy_seen hcallee]
    simp only [Expr.ty, Expr.note, hnote, pure_bind]
    refine says_stopped.bind ((says_inferAll harena args hargs).bind ?_)
    simp only [Bool.false_eq_true, if_false]
    rw [judgedAll, call_typed]
    exact (steady_call harena hcallee _).last (says_record _ _)
  | .unary note op e, hvisited => by
    obtain ⟨hnote, hop, he⟩ := hvisited
    rw [infer, typed, typeOf, remarks]
    simp only [Expr.ty, Expr.note, hnote]
    refine (says_infer harena e he).bind ?_
    dsimp only
    rw [unary_typed]
    exact (steady_unary hop e).last (says_record _ _)
  | .binary note op left right, hvisited => by
    obtain ⟨hnote, hop, hleft, hright⟩ := hvisited
    rw [infer_binary hnote hop, typed, typeOf, remarks]
    simp only [List.append_assoc]
    refine (says_infer harena left hleft).bind ?_
    dsimp only
    rw [operand_typed]
    refine Says.bind (steady_operand op left) ((says_infer harena right hright).bind ?_)
    dsimp only
    rw [operand_typed]
    exact Says.bind (steady_operand op right) ((steady_combined op _).last (says_record _ _))
  | .misfit .., hvisited => hvisited.elim

theorem says_inferAll (harena : ArenaSane arena) : (es : List Expr) → VisitedAll (shape arena) es →
    Says (inferAll arena es) (judgedAll arena es) (remarksAll arena es)
  | [], _ => .pure _
  | e :: es, hvisited => by
    rw [inferAll, remarksAll]
    exact (says_infer harena e hvisited.1).bind ((says_inferAll harena es hvisited.2).last (.pure _))

end

end Expressions

section Statements

/-- A check of an expression with a type goes by the place of the expression alone. -/
structure Asks (check : Expr → Ty → TypingM Unit) : Prop where
  place : ∀ {e e' : Expr} {t : Ty}, e'.span = e.span → check e' t = check e t
  steady : ∀ (e : Expr) (t : Ty), Steady (check e t)

theorem asks_counted : Asks checkCounted :=
  ⟨fun h => by simp only [checkCounted, h], fun _ _ => .ite (steady_report _ _) (steady_pure _)⟩

theorem asks_condition (complaint : TypeFinding) : Asks (checkCondition complaint) :=
  ⟨fun h => by simp only [checkCondition, h], fun _ _ => .ite (steady_report _ _) (steady_pure _)⟩

theorem asks_read : Asks checkRead :=
  ⟨fun h => by simp only [checkRead, h], fun _ _ => .ite (steady_report _ _) (.ite (steady_report _ _)
    (.ite (steady_report _ _) (steady_pure _)))⟩

theorem asks_written : Asks checkWritten :=
  ⟨fun h => by simp only [checkWritten, h], fun _ _ => .ite (steady_report _ _) (.ite (steady_report _ _)
    (.ite (steady_report _ _) (.ite (steady_report _ _) (steady_pure _))))⟩

theorem asks_returned (result : Ty) : Asks (checkReturned result) :=
  ⟨fun h => by simp only [checkReturned, h], fun _ _ => .ite (steady_report _ _)
    (.ite (steady_report _ _) (steady_pure _))⟩

variable (arena : Arena) (result : Ty)

mutual

/-- A statement with the types that the check records in it. -/
def typedStmt : Stmt → Stmt
  | .assign span e => .assign span (typed arena e)
  | .increment span e => .increment span (typed arena e)
  | .decrement span e => .decrement span (typed arena e)
  | .read span e => .read span (typed arena e)
  | .write span e => .write span (typed arena e)
  | .ifThen span cond body => .ifThen span (typed arena cond) (typedBlock body)
  | .ifElse span cond body other => .ifElse span (typed arena cond) (typedBlock body) (typedBlock other)
  | .loop span cond body => .loop span (typed arena cond) (typedBlock body)
  | .call span e => .call span (typed arena e)
  | .ret span none => .ret span none
  | .ret span (some e) => .ret span (some (typed arena e))
  | .misfit span kind => .misfit span kind

def typedStmts : List Stmt → List Stmt
  | [] => []
  | st :: ss => typedStmt st :: typedStmts ss

def typedBlock : Block → Block
  | .mk span decls body => .mk span decls (typedStmts body)

end

/-- What is said about an expression in a statement that makes a check on it. -/
def asked (check : Expr → Ty → TypingM Unit) (e : Expr) : List Diagnostic :=
  remarks arena e ++ said (check e (typeOf arena e))

mutual

/-- What the check says about a statement of a function with a result, in order. -/
def stmtRemarks : Stmt → List Diagnostic
  | .assign _ e | .call _ e => remarks arena e
  | .increment _ e | .decrement _ e => asked arena checkCounted e
  | .read _ e => asked arena checkRead e
  | .write _ e => asked arena checkWritten e
  | .ifThen _ cond body => asked arena (checkCondition .ifCondition) cond ++ blockRemarks body
  | .ifElse _ cond body other =>
    asked arena (checkCondition .ifCondition) cond ++ (blockRemarks body ++ blockRemarks other)
  | .loop _ cond body => asked arena (checkCondition .whileCondition) cond ++ blockRemarks body
  | .ret span none => if result.isVoid then [] else [remark .error .missingReturn span]
  | .ret _ (some e) => asked arena (checkReturned result) e
  | .misfit .. => []

def stmtsRemarks (returned : Bool) : List Stmt → List Diagnostic
  | [] => []
  | st :: ss => (if returned then [remark .warning .unreachable st.span] else []) ++
      (stmtRemarks st ++ stmtsRemarks st.isReturn ss)

def blockRemarks : Block → List Diagnostic
  | .mk _ _ body => stmtsRemarks false body

end

variable {arena result}

/-- A check is made on an expression with a type recorded on it. -/
theorem Asks.judges {check : Expr → Ty → TypingM Unit} (h : Asks check) (e : Expr) (t : Ty) :
    Says (check (typed arena e) t) () (said (check e t)) := by
  rw [h.place (span_typed e)]
  exact h.steady e t

mutual

/-- The check of a statement whose names have been looked up. -/
theorem says_stmt (harena : ArenaSane arena) : (st : Stmt) → VisitedStmt (shape arena) st →
    Says (stmt arena result st) (typedStmt arena st) (stmtRemarks arena result st)
  | .assign _ e, hvisited | .call _ e, hvisited => by
    rw [stmt, typedStmt, stmtRemarks]
    exact (says_infer harena e hvisited).last (.pure _)
  | .increment _ e, hvisited | .decrement _ e, hvisited => by
    rw [stmt, typedStmt, stmtRemarks]
    exact (says_infer harena e hvisited).bind ((asks_counted.judges e _).last (.pure _))
  | .read _ e, hvisited => by
    rw [stmt, typedStmt, stmtRemarks]
    exact (says_infer harena e hvisited).bind ((asks_read.judges e _).last (.pure _))
  | .write _ e, hvisited => by
    rw [stmt, typedStmt, stmtRemarks]
    exact (says_infer harena e hvisited).bind ((asks_written.judges e _).last (.pure _))
  | .ifThen _ cond body, hvisited | .loop _ cond body, hvisited => by
    rw [stmt, typedStmt, stmtRemarks, asked, List.append_assoc]
    refine (says_infer harena cond hvisited.1).bind (Says.bind ((asks_condition _).judges cond _) ?_)
    exact (says_block harena body hvisited.2).last (.pure _)
  | .ifElse _ cond body other, hvisited => by
    rw [stmt, typedStmt, stmtRemarks, asked, List.append_assoc]
    refine (says_infer harena cond hvisited.1).bind (Says.bind ((asks_condition _).judges cond _) ?_)
    refine (says_block harena body hvisited.2.1).bind ?_
    exact (says_block harena other hvisited.2.2).last (.pure _)
  | .ret span none, _ => by
    rw [stmt, typedStmt, stmtRemarks]
    cases result.isVoid with
    | true => exact .pure _
    | false => exact (says_report _ _).last (.pure _)
  | .ret _ (some e), hvisited => by
    rw [stmt, typedStmt, stmtRemarks]
    exact (says_infer harena e hvisited).bind (((asks_returned result).judges e _).last (.pure _))
  | .misfit .., hvisited => hvisited.elim

theorem says_stmts (harena : ArenaSane arena) (returned : Bool) : (ss : List Stmt) →
    VisitedStmts (shape arena) ss →
    Says (stmts arena result returned ss) (typedStmts arena ss) (stmtsRemarks arena result returned ss)
  | [], _ => .pure _
  | st :: ss, hvisited => by
    rw [stmts, typedStmts, stmtsRemarks]
    have hrest := (says_stmt harena st hvisited.1).bind (f := fun st' => do
      let ss ← stmts arena result st.isReturn ss
      return st' :: ss) ((says_stmts harena st.isReturn ss hvisited.2).last (.pure _))
    cases returned with
    | true => exact (says_warn _ _).bind hrest
    | false => exact hrest

theorem says_block (harena : ArenaSane arena) : (b : Block) → VisitedBlock (shape arena) b →
    Says (block arena result b) (typedBlock arena b) (blockRemarks arena result b)
  | .mk _ _ body, hvisited => by
    rw [block, typedBlock, blockRemarks]
    exact (says_stmts harena false body hvisited).last (.pure _)

end

end Statements

section Programs

variable (arena : Arena)

def typedDecl : Decl → Decl
  | .fn d => .fn { d with body := typedBlock arena d.body }
  | d => d

/-- What the check says about a declaration at the top of the program. -/
def declRemarks : Decl → List Diagnostic
  | .fn d => blockRemarks arena ((Ty.ofWord? d.result.name).getD .error) d.body
  | _ => []

def mainRemarks (ds : List Decl) : List Diagnostic :=
  if ds.any isMain then [] else [.atPlace .error (.typing .noMain) none (some ⟨0, 0⟩)]

/-- What the check says about a program. -/
def programRemarks (ds : List Decl) : List Diagnostic := ds.flatMap (declRemarks arena) ++ mainRemarks ds

variable {arena}

theorem says_decl (harena : ArenaSane arena) {d : Decl} (hvisited : VisitedDecl (shape arena) d) :
    Says (decl arena d) (typedDecl arena d) (declRemarks arena d) := by
  cases d with
  | var d | struct d => exact .pure _
  | fn d =>
    obtain ⟨result, hok, hsome, -⟩ := ofWord_of_typeWord hvisited.1
    rw [decl, typedDecl, declRemarks, hsome]
    simp only [hok]
    exact (says_block harena d.body hvisited.2.2).last (.pure _)
  | misfit => exact hvisited.elim

theorem says_decls (harena : ArenaSane arena) : (ds : List Decl) → (∀ d ∈ ds, VisitedDecl (shape arena) d) →
    Says (ds.mapM (decl arena)) (ds.map (typedDecl arena)) (ds.flatMap (declRemarks arena))
  | [], _ => .pure _
  | d :: ds, hvisited => by
    obtain ⟨hd, hds⟩ := List.forall_mem_cons.mp hvisited
    rw [List.mapM_cons]
    exact (says_decl harena hd).bind ((says_decls harena ds hds).last (.pure _))

theorem isMain_typedDecl (d : Decl) : isMain (typedDecl arena d) = isMain d := by cases d <;> rfl

theorem mainRemarks_typed (ds : List Decl) : mainRemarks (ds.map (typedDecl arena)) = mainRemarks ds := by
  simp only [mainRemarks, List.any_map, Function.comp_def, isMain_typedDecl]

/-- The check of a program consists of that of its declarations and the search for a function to start with. -/
theorem checkTypes_of_decls {a : Analysis} {p : Program} {ds : List Decl} {rs : List Diagnostic}
    (hp : a.program = some p) (hdecls : Says (p.decls.mapM (decl a.arena)) ds rs) : a.checkTypes =
      ({ a with
          program := some { p with decls := ds }
          diagnostics := a.diagnostics ++ (rs ++ mainRemarks ds).map (about a.file) }, none) := by
  have hmain : Says (checkMain ds) () (mainRemarks ds) := by
    intro j h
    simp only [checkMain, mainRemarks]
    cases ds.any isMain with
    | true => exact Says.pure () j h
    | false =>
      change ((), j.add _) = _
      rw [Journal.add, if_neg (by simp [Journal.stopped, h])]
      rfl
  have hcheck := hdecls.bind (f := fun ds => do
    checkMain ds
    return ds) (hmain.last (.pure _))
  simp only [Analysis.checkTypes, hp]
  exact congrArg (fun r : List Decl × Journal =>
    ({ a with program := some { p with decls := r.1 }, diagnostics := r.2.diagnostics }, r.2.fault))
    (hcheck { file := a.file, diagnostics := a.diagnostics } rfl)

/-- The check of types of a program whose names have been looked up. -/
theorem checkTypes_eq {a : Analysis} {p : Program} (hp : a.program = some p) (harena : ArenaSane a.arena)
    (hvisited : ∀ d ∈ p.decls, VisitedDecl (shape a.arena) d) : a.checkTypes =
      ({ a with
          program := some { p with decls := p.decls.map (typedDecl a.arena) }
          diagnostics := a.diagnostics ++ (programRemarks a.arena p.decls).map (about a.file) }, none) := by
  rw [checkTypes_of_decls hp (says_decls harena p.decls hvisited), mainRemarks_typed]
  rfl

end Programs

end CMinusMinus.Proofs.Verdicts
