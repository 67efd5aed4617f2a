import CMinusMinus.Assembly.Lowering

/-!
The depth of the evaluation stack while code is written. Whatever tree the code is written from, the code of
an expression leaves one word more than there was, the code of a statement leaves as many, and the depth is
never negative. The checks on the depth that are made on the way never fail, so that only other faults stop
the writing.
-/
namespace CMinusMinus.Proofs.Balance

open Assembly Lowering

/-- The faults of the checks on the evaluation stack. The check after a statement can fail only if the
statements start with words on the stack. -/
def Unbalanced (base : Nat) : Fault → Prop
  | .internal .stackUnderflow _ => True
  | .internal (.codeExprUnbalanced _) _ => True
  | .internal (.codeStmtUnbalanced _) _ => base = 0
  | _ => False

/-- Writing has ended at a depth, or another fault than those of the stack has stopped it. -/
def Ends {α : Type} (base : Nat) (r : Emitted α) (after : Nat) : Prop :=
  match r.value with
  | .ok _ => r.state.depth = after
  | .error fault => 0 ≤ r.state.depth ∧ ¬ Unbalanced base fault

/-- Writing leads from one depth to another. -/
structure Moves {α : Type} (base : Nat) (x : Emit α) (before after : Nat) : Prop where
  ends : ∀ st : EmitState, st.depth = before → Ends base (x st) after

namespace Ends

variable {α : Type} {base after : Nat} {r : Emitted α}

/-- The depth at the end is not negative, also where a fault has stopped the writing. -/
theorem nonneg (h : Ends base r after) : 0 ≤ r.state.depth := by
  unfold Ends at h
  split at h
  · omega
  · exact h.1

theorem depth (h : Ends base r after) {a : α} (hr : r.value = .ok a) : r.state.depth = after := by
  unfold Ends at h
  rwa [hr] at h

theorem balanced (h : Ends base r after) {fault : Fault} (hr : r.value = .error fault) : ¬ Unbalanced base fault := by
  unfold Ends at h
  rw [hr] at h
  exact h.2

end Ends

namespace Moves

variable {α β : Type} {base d d' d'' : Nat} {x : Emit α} {f : α → Emit β}

theorem pure (a : α) : Moves base (Pure.pure a) d d := ⟨fun _ h => h⟩

theorem bind (hx : Moves base x d d') (hf : ∀ a, Moves base (f a) d' d'') : Moves base (x >>= f) d d'' := by
  refine ⟨fun st hst => ?_⟩
  have hfirst := hx.ends st hst
  show Ends base (Emit.bind x f st) d''
  cases hvalue : (x st).value with
  | error fault =>
    simp only [Emit.bind, hvalue]
    exact ⟨hfirst.nonneg, hfirst.balanced hvalue⟩
  | ok a =>
    simp only [Emit.bind, hvalue]
    exact (hf a).ends (x st).state (hfirst.depth hvalue)

theorem ite {p : Prop} [Decidable p] {y : Emit α} (hx : Moves base x d d') (hy : Moves base y d d') :
    Moves base (if p then x else y) d d' := by
  split
  · exact hx
  · exact hy

theorem fail {fault : Fault} (h : ¬ Unbalanced base fault) : Moves base (Emit.fail fault : Emit α) d d' := by
  refine ⟨fun st hst => ⟨?_, h⟩⟩
  show 0 ≤ st.depth
  omega

theorem ofExcept {r : Except Fault α} (h : ∀ fault, r = .error fault → ¬ Unbalanced base fault) :
    Moves base (Emit.ofExcept r) d d := by
  cases r with
  | ok a => exact pure a
  | error fault => exact fail (h fault rfl)

theorem line (l : Line) : Moves base (Emit.line l) d d := ⟨fun _ h => h⟩

theorem number (n : Int) : Moves base (Emit.number n) d d := by
  unfold Emit.number
  exact .ite (pure _) (fail id)

theorem instr (i : Instr) (comment : String) : Moves base (Emit.instr i comment) d d := by
  unfold Emit.instr
  exact .ite (line _) (fail id)

/-- An instruction before other writing. -/
theorem op {i : Instr} {comment : String} {f : Unit → Emit β} (hf : Moves base (f ()) d d') :
    Moves base (Emit.instr i comment >>= f) d d' :=
  (instr i comment).bind fun _ => hf

theorem freshLabel (kind : LabelKind) : Moves base (Emit.freshLabel kind) d d := ⟨fun _ h => h⟩

theorem setDepth (n : Nat) : Moves base (Emit.setDepth n) d n := ⟨fun _ _ => rfl⟩

/-- Writing that looks at the depth. -/
theorem depth {f : Int → Emit β} (hf : Moves base (f d) d d') : Moves base (Emit.depth >>= f) d d' := by
  refine ⟨fun st hst => ?_⟩
  have hnext := hf.ends st hst
  rw [← hst] at hnext
  exact hnext

theorem shrink (n words : Nat) : Moves base (Emit.shrink words) (n + words) n := by
  have hless : ((n + words : Nat) : Int) - words = n := by omega
  refine depth ?_
  rw [hless]
  refine (setDepth n).bind fun _ => ?_
  rw [if_neg (by omega)]
  exact pure _

theorem push (r : Reg) : Moves base (Emit.push r) d (d + 1) := op (op (depth (setDepth (d + 1))))

theorem pop (r : Reg) : Moves base (Emit.pop r) (d + 1) d := op (op (shrink d 1))

theorem drop (words : Nat) : Moves base (Emit.drop words) (d + words) d := by
  unfold Emit.drop
  by_cases hzero : (words : Int) = 0
  · obtain rfl : words = 0 := by omega
    exact pure _
  · rw [if_pos hzero]
    exact (instr _ _).bind fun _ => shrink d words

end Moves

section Locations

variable {env : Env} {base d : Nat} {fault : Fault}

theorem balanced_symbolOf {x : Ident} (h : symbolOf env x = .error fault) : ¬ Unbalanced base fault := by
  unfold symbolOf faultAt Fault.outOfRange at h
  grind [Unbalanced]

theorem balanced_variableOf {x : Ident} (h : variableOf env x = .error fault) : ¬ Unbalanced base fault := by
  have hsymbol := @balanced_symbolOf env base fault x
  unfold variableOf faultAt at h
  grind [Unbalanced]

theorem balanced_location : (e : Expr) → ∀ {fault : Fault}, location env e = .error fault → ¬ Unbalanced base fault
  | .ident x, fault, h => by
    rw [location] at h
    cases hx : variableOf env x with
    | ok v => simp [hx, Except.map] at h
    | error other =>
      rw [hx] at h
      cases h
      exact balanced_variableOf hx
  | .dot note obj field reached bad, fault, h => by
    rw [location] at h
    cases bad with
    | true =>
      cases h
      exact id
    | false =>
      cases hobj : location env obj with
      | error other =>
        rw [hobj] at h
        cases h
        exact balanced_location obj hobj
      | ok found =>
        cases hfield : variableOf env field <;> rw [hobj, hfield] at h <;> cases h
        exact balanced_variableOf hfield
  | .int .., fault, h | .string .., fault, h | .bool .., fault, h | .assign .., fault, h | .call .., fault, h
  | .unary .., fault, h | .binary .., fault, h | .misfit .., fault, h => by
    rw [location] at h
    · cases h
      exact id
    all_goals simp

theorem balanced_lastVariable {e : Expr} (h : lastVariable env e = .error fault) : ¬ Unbalanced base fault := by
  have hvariable := @balanced_variableOf env base fault
  unfold lastVariable faultAt at h
  grind [Unbalanced]

theorem balanced_recordedTy {e : Expr} (h : recordedTy env e = .error fault) : ¬ Unbalanced base fault := by
  unfold recordedTy faultAt at h
  grind [Unbalanced]

theorem moves_symbolOf (x : Ident) : Moves base (Emit.ofExcept (symbolOf env x)) d d :=
  .ofExcept fun _ => balanced_symbolOf

theorem moves_variableOf (x : Ident) : Moves base (Emit.ofExcept (variableOf env x)) d d :=
  .ofExcept fun _ => balanced_variableOf

theorem moves_location (e : Expr) : Moves base (Emit.ofExcept (location env e)) d d :=
  .ofExcept fun _ => balanced_location e

theorem moves_loadAddress (e : Expr) (r : Reg) : Moves base (loadAddress env e r) d d :=
  (moves_location e).bind fun _ => .ite (.op (.ite (.instr _ _) (.pure _))) (.instr _ _)

theorem moves_load (e : Expr) : Moves base (load env e) d (d + 1) := by
  refine (moves_location e).bind fun (v, offset) => ?_
  refine (Moves.ofExcept fun _ => balanced_lastVariable).bind fun last => ?_
  have hfetch : Moves base (do
      if v.isGlobal then
        if offset = 0 then Emit.instr (.lw .t0 (.label (globalLabel v.name)))
        else
          loadAddress env e .t0
          Emit.instr (.lw .t0 (.indexed 0 .t0))
      else Emit.instr (.lw .t0 (.indexed (-(v.offset + offset)) .fp))
      Emit.push .t0) d (d + 1) := by
    refine .ite (.ite (.op (.push _)) ?_) (.op (.push _))
    exact (moves_loadAddress e _).bind fun _ => .op (.push _)
  exact .ite ((show Moves base _ d d from .fail id).bind fun _ => hfetch) hfetch

end Locations

section Expressions

variable {env : Env} {base d : Nat}

/-- The check on the code of an expression never fails. -/
theorem moves_oneWord {span : Option Span} {code : Emit Unit} (h : Moves base code d (d + 1)) :
    Moves base (oneWord env span code) d (d + 1) := by
  refine .depth (h.bind fun _ => .depth ?_)
  rw [if_neg (by simp)]
  exact .pure _

theorem moves_shortCircuit (isAnd : Bool) (right done : String) {code : Emit Unit} (h : Moves base code d (d + 1)) :
    Moves base (shortCircuit isAnd right done code) (d + 1) (d + 1) := by
  refine (Moves.pop _).bind fun _ => .op ((Moves.push _).bind fun _ => .op (.depth ?_))
  have hback : ((d + 1 : Nat) : Int) - 1 = d := by omega
  rw [hback]
  refine (Moves.setDepth d).bind fun _ => (Moves.line _).bind fun _ => ?_
  exact h.bind fun _ => .line _

mutual

/-- The code of an expression leaves one word more. -/
theorem moves_expr : (e : Expr) → ∀ d : Nat, Moves base (expr env e) d (d + 1)
  | .int .., _ | .bool .., _ => moves_oneWord (.op (.push _))
  | .string .., _ => moves_oneWord <| (Moves.freshLabel _).bind fun _ => (Moves.line _).bind fun _ =>
      (Moves.line _).bind fun _ => (Moves.line _).bind fun _ => .op (.push _)
  | .ident x, _ => moves_oneWord (moves_load _)
  | .dot .., _ => moves_oneWord (moves_load _)
  | .assign _ target value, d => by
    rw [expr]
    refine moves_oneWord ((moves_expr value d).bind fun _ => (moves_loadAddress target _).bind fun _ => ?_)
    exact (Moves.pop _).bind fun _ => .op (.push _)
  | .call _ callee args, d => by
    rw [expr]
    refine moves_oneWord ((moves_symbolOf callee).bind fun symbol => ?_)
    cases symbol with
    | func f => exact (moves_exprs args d).bind fun _ => .op ((Moves.drop _).bind fun _ => .push _)
    | var | struct => exact .fail id
  | .unary _ op operand, d => by
    rw [expr]
    refine moves_oneWord ((moves_expr operand d).bind fun _ => (Moves.pop _).bind fun _ => ?_)
    cases op with
    | neg | not => exact .op (.push _)
    | other sign => exact (show Moves base _ d d from .fail id).bind fun _ => .push _
  | .binary _ op left right, d => by
    have hcircuit : ∀ isAnd, Moves base (do
        let rightLabel ← Emit.freshLabel .shortCircuit
        let doneLabel ← Emit.freshLabel .shortCircuit
        expr env left
        shortCircuit isAnd rightLabel doneLabel (expr env right)) d (d + 1) := fun isAnd =>
      (Moves.freshLabel _).bind fun _ => (Moves.freshLabel _).bind fun _ => (moves_expr left d).bind fun _ =>
        moves_shortCircuit isAnd _ _ (moves_expr right d)
    have hcalc : ∀ calculation, Moves base (do
        expr env left
        expr env right
        Emit.pop .t1
        Emit.pop .t0
        Emit.instr (.compute calculation .t0 .t0 (.reg .t1))
        Emit.push .t0) d (d + 1) := fun calculation =>
      (moves_expr left d).bind fun _ => (moves_expr right (d + 1)).bind fun _ => (Moves.pop _).bind fun _ =>
        (Moves.pop _).bind fun _ => .op (.push _)
    rw [expr.eq_def]
    refine moves_oneWord ?_
    cases op with
    | and | or => exact hcircuit _
    | other sign => exact .fail id
    | _ => exact hcalc _
  | .misfit .., _ => moves_oneWord (.fail id)

theorem moves_exprs : (es : List Expr) → ∀ d : Nat, Moves base (exprs env es) d (d + es.length)
  | [], _ => .pure _
  | e :: es, d => by
    rw [exprs, List.length_cons, Nat.add_comm es.length, ← Nat.add_assoc]
    exact (moves_expr e d).bind fun _ => moves_exprs es (d + 1)

end

end Expressions

section Statements

variable {env : Env} {base d : Nat}

theorem moves_popped (e : Expr) (r : Reg) {f : Unit → Emit Unit} (hf : Moves base (f ()) d d) :
    Moves base (do
      expr env e
      let x ← Emit.pop r
      f x) d d :=
  (moves_expr e d).bind fun _ => (Moves.pop r).bind fun _ => hf

theorem moves_count (target : Expr) (delta : Int) : Moves base (count env target delta) d d :=
  (moves_loadAddress target _).bind fun _ => .op (.op (.instr _ _))

theorem moves_service (number : Int) : Moves base (service number) d d := .op (.instr _ _)

mutual

/-- The code of a statement leaves the words that there were. -/
theorem moves_stmt (function : String) : (s : Stmt) → Moves base (stmt env function s) base base
  | .assign _ e | .call _ e => (moves_expr e base).bind fun _ => .pop _
  | .increment _ target | .decrement _ target => moves_count target _
  | .read _ target => (moves_service _).bind fun _ => (moves_loadAddress target _).bind fun _ => .instr _ _
  | .write _ e => moves_popped e _ ((Moves.ofExcept fun _ => balanced_recordedTy).bind fun _ => moves_service _)
  | .ifThen _ cond body => by
    rw [stmt]
    refine moves_popped cond _ ((Moves.freshLabel _).bind fun _ => .op ?_)
    exact (moves_block function body).bind fun _ => .line _
  | .ifElse _ cond body other => by
    rw [stmt]
    refine moves_popped cond _ ((Moves.freshLabel _).bind fun _ => (Moves.freshLabel _).bind fun _ => .op ?_)
    refine (moves_block function body).bind fun _ => .op ((Moves.line _).bind fun _ => ?_)
    exact (moves_block function other).bind fun _ => .line _
  | .loop _ cond body => by
    rw [stmt]
    refine (Moves.freshLabel _).bind fun _ => (Moves.freshLabel _).bind fun _ => (Moves.line _).bind fun _ => ?_
    exact moves_popped cond _ (.op ((moves_block function body).bind fun _ => .op (.line _)))
  | .ret _ none => .instr _ _
  | .ret _ (some e) => moves_popped e _ (.instr _ _)
  | .misfit .. => .fail id

theorem moves_stmts (function : String) : (ss : List Stmt) → Moves base (stmts env function ss) base base
  | [] => .pure _
  | s :: ss => by
    rw [stmts]
    refine (moves_stmt function s).bind fun _ => .depth ?_
    by_cases hzero : base = 0
    · rw [if_neg (by simp [hzero])]
      exact moves_stmts function ss
    · have hfault : ¬ Unbalanced base (faultAt env (.codeStmtUnbalanced base) s.span) := hzero
      exact .ite ((show Moves base _ base base from .fail hfault).bind fun _ => moves_stmts function ss) (moves_stmts function ss)

theorem moves_block (function : String) : (b : Block) → Moves base (block env function b) base base
  | .mk _ _ body => by
    rw [block]
    exact moves_stmts function body

end

end Statements

section Programs

variable {env : Env}

theorem moves_copyArguments : (ds : List VarDecl) → Moves 0 (copyArguments env ds) 0 0
  | [] => .pure _
  | d :: ds => (moves_variableOf d.name).bind fun _ => .op (.op (moves_copyArguments ds))

theorem moves_prologue (frame : Int) : Moves 0 (prologue frame) 0 0 :=
  .op (.op (.op (.op (.op (.ite (.instr _ _) (.pure _))))))

theorem moves_epilogue (name : String) : Moves 0 (epilogue name) 0 0 :=
  (Moves.line _).bind fun _ => .ite (moves_service _) (.op (.op (.op (.op (.instr _ _)))))

theorem moves_fnDecl (d : FnDecl) : Moves 0 (fnDecl env d) 0 0 := by
  have hbody : Moves 0 (do
      Emit.line (.label (functionLabel d.name.name) ("FUNCTION " ++ d.name.name))
      prologue ((env.frames.lookup d.name.name).getD 0)
      copyArguments env d.formals
      block env d.name.name d.body
      epilogue d.name.name) 0 0 :=
    (Moves.line _).bind fun _ => (moves_prologue _).bind fun _ => (moves_copyArguments _).bind fun _ =>
      (moves_block _ _).bind fun _ => moves_epilogue _
  refine (moves_symbolOf d.name).bind fun symbol => ?_
  cases symbol with
  | var | struct => exact .fail id
  | func f =>
    dsimp only
    cases hframe : env.frames.lookup d.name.name with
    | none => exact .fail id
    | some frame =>
      rw [hframe, Option.getD_some] at hbody
      refine (Moves.setDepth 0).bind fun _ => (Moves.line _).bind fun _ => (Moves.line _).bind fun _ => ?_
      exact .ite ((Moves.line _).bind fun _ => hbody) hbody

theorem moves_decl (d : Decl) : Moves 0 (decl env d) 0 0 := by
  cases d with
  | var d =>
    refine (moves_variableOf d.name).bind fun v => (Moves.line _).bind fun _ => (Moves.line _).bind fun _ => ?_
    exact .ite ((Moves.number _).bind fun _ => .line _) (.line _)
  | struct d =>
    refine (moves_symbolOf d.name).bind fun symbol => ?_
    cases symbol with
    | struct | var => exact (Moves.number _).bind fun _ => .line _
    | func f => exact .fail id
  | fn d => exact moves_fnDecl d
  | misfit => exact .fail id

theorem moves_decls : (ds : List Decl) → Moves 0 (decls env ds) 0 0
  | [] => .pure _
  | d :: ds => (moves_decl d).bind fun _ => moves_decls ds

/-- The evaluation stack is balanced in all code that is written, whatever tree, symbols, types and frames it
is written from. None of the three checks on the depth ever fails: none takes a word from an empty stack,
finds a word left by a statement, or finds another number of words than one left by an expression. The depth
is never negative, also not where another fault stops the writing. Where the writing goes on, it is one more
after an expression and the same after a statement. -/
theorem stack_depth_balanced :
    (∀ (a : Analysis) (cause : FaultCause) (place : Option FaultPlace), a.lower = .error (.internal cause place) →
      cause ≠ .stackUnderflow ∧ (∀ n, cause ≠ .codeStmtUnbalanced n) ∧ ∀ n, cause ≠ .codeExprUnbalanced n) ∧
    (∀ (env : Env) (ds : List Decl), 0 ≤ (decls env ds {}).state.depth) ∧
    (∀ (env : Env) (e : Expr) (st : EmitState), 0 ≤ st.depth → 0 ≤ (expr env e st).state.depth ∧
      ((expr env e st).value = .ok () → (expr env e st).state.depth = st.depth + 1)) ∧
    (∀ (env : Env) (function : String) (s : Stmt) (st : EmitState), 0 ≤ st.depth →
      0 ≤ (stmt env function s st).state.depth ∧
      ((stmt env function s st).value = .ok () → (stmt env function s st).state.depth = st.depth)) := by
  refine ⟨fun a cause place h => ?_, fun env ds => ((moves_decls ds).ends {} rfl).nonneg, ?_, ?_⟩
  · unfold Analysis.lower at h
    split at h
    · cases h
      simp
    · rename_i p _
      split at h
      · cases h
        simp
      · cases hvalue : (decls ⟨a.file, a.arena, a.frames⟩ p.decls {}).value with
        | ok => simp [hvalue, Except.map] at h
        | error fault =>
          obtain rfl : fault = .internal cause place := by simpa [hvalue, Except.map] using h
          have hbalanced := ((moves_decls p.decls).ends {} rfl).balanced hvalue
          refine ⟨?_, fun n => ?_, fun n => ?_⟩ <;> rintro rfl <;> simp [Unbalanced] at hbalanced
  · intro env e st hst
    obtain ⟨d, hd⟩ := Int.eq_ofNat_of_zero_le hst
    have hmoves : Moves 0 (expr env e) d (d + 1) := moves_expr e d
    have hends := hmoves.ends st hd
    exact ⟨hends.nonneg, fun h => by rw [hends.depth h, hd]; rfl⟩
  · intro env function s st hst
    obtain ⟨d, hd⟩ := Int.eq_ofNat_of_zero_le hst
    have hmoves : Moves d (stmt env function s) d d := moves_stmt function s
    have hends := hmoves.ends st hd
    exact ⟨hends.nonneg, fun h => by rw [hends.depth h, hd]⟩

end Programs

end CMinusMinus.Proofs.Balance
