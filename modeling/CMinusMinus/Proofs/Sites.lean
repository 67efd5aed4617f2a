import CMinusMinus.Proofs.Blocks

/-!
Where the code of each expression and of each statement of a function stands. The places are worked
out from the widths of the code before them, along the tree of the function's body.
-/
namespace CMinusMinus.Proofs

open Assembly Machine WellFormed
open Code (Counters bump)

/-- A piece of a function that has code of its own. -/
inductive Part where
  | expr (e : Expr)
  | stmt (st : Stmt)

/-- A place at which the code of a piece starts, with the numbers of labels that the code was made
with, and the scopes of the function around it. -/
structure Site where
  part : Part
  counters : Counters
  start : Int
  locals : List Scope

/-- The scope that names make up, each with the symbol that it is bound to. -/
def scopeOf (names : List Ident) : Scope :=
  names.filterMap fun x =>
    match x.binding with
    | .symbol i => some (x.name, i)
    | _ => none

/-- The name that a declaration at the top of a program introduces. -/
def introduced : Decl → Option Ident
  | .var d => some d.name
  | .struct d => some d.name
  | .fn d => some d.name
  | .misfit .. => none

def globalsOf (p : Program) : Scope := scopeOf (p.decls.filterMap introduced)

theorem scopeOf_decls {σ : Symbols} {body : List Scope → Ty → List Stmt → Prop} {ds : List Decl}
    {before after : Scope} (h : DeclsShape σ body before ds after) :
    after = before ++ scopeOf (ds.filterMap introduced) := by
  induction ds generalizing before with
  | nil => simpa [scopeOf, DeclsShape] using h
  | cons d ds ih =>
    obtain ⟨i, -, hdecl, hrest⟩ := h
    rw [ih hrest, List.append_assoc]
    cases d with
    | var d | struct d | fn d => simp [scopeOf, introduced, declName, hdecl.1]
    | misfit span kind => exact hdecl.elim

theorem scopeOf_eq {σ : Symbols} {decls : List VarDecl} :
    ∀ {scope : Scope}, Declares σ decls scope → scopeOf (decls.map VarDecl.name) = scope := by
  induction decls with
  | nil => rintro _ rfl; rfl
  | cons d ds ih =>
    rintro _ ⟨i, rest, rfl, hbinding, -, hrest⟩
    simp only [scopeOf, List.map_cons, List.filterMap_cons, hbinding]
    exact congrArg _ (ih hrest)

namespace Site

/-- The code at a site of a function. -/
def code (env : Lowering.Env) (function : String) (site : Site) : List Code.Item :=
  match site.part with
  | .expr e => Code.expr env e site.counters
  | .stmt st => Code.stmt env function st site.counters

/-- Where the code at a site ends. -/
def stop (env : Lowering.Env) (function : String) (site : Site) : Int :=
  site.start + Code.width (site.code env function)

section Expressions

variable (env : Lowering.Env) (locals : List Scope)

mutual

/-- The sites of an expression and of its parts, if its code starts at a place. -/
def ofExpr : Expr → Counters → Int → List Site
  | .assign note target value, c, pc =>
    ⟨.expr (.assign note target value), c, pc, locals⟩ :: ofExpr value c pc
  | .call note callee args, c, pc =>
    ⟨.expr (.call note callee args), c, pc, locals⟩ :: ofExprs args c pc
  | .unary note op operand, c, pc =>
    ⟨.expr (.unary note op operand), c, pc, locals⟩ :: ofExpr operand c pc
  | .binary note op left right, c, pc =>
    let c' := if op = .and ∨ op = .or then bump .shortCircuit (bump .shortCircuit c) else c
    let between := if op = .and ∨ op = .or then 6 else 0
    ⟨.expr (.binary note op left right), c, pc, locals⟩ :: (ofExpr left c' pc ++
      ofExpr right (Code.exprAfter left c') (pc + Code.width (Code.expr env left c') + between))
  | e, c, pc => [⟨.expr e, c, pc, locals⟩]

def ofExprs : List Expr → Counters → Int → List Site
  | [], _, _ => []
  | e :: es, c, pc =>
    ofExpr e c pc ++ ofExprs es (Code.exprAfter e c) (pc + Code.width (Code.expr env e c))

end

end Expressions

section Statements

variable (env : Lowering.Env) (function : String)

mutual

/-- The sites of a statement and of its parts, if its code starts at a place. -/
def ofStmt (locals : List Scope) : Stmt → Counters → Int → List Site
  | .assign span e, c, pc => ⟨.stmt (.assign span e), c, pc, locals⟩ :: ofExpr env locals e c pc
  | .call span e, c, pc => ⟨.stmt (.call span e), c, pc, locals⟩ :: ofExpr env locals e c pc
  | .write span e, c, pc => ⟨.stmt (.write span e), c, pc, locals⟩ :: ofExpr env locals e c pc
  | .ret span (some e), c, pc =>
    ⟨.stmt (.ret span (some e)), c, pc, locals⟩ :: ofExpr env locals e c pc
  | .ifThen span cond body, c, pc =>
    let c' := Code.exprAfter cond c
    ⟨.stmt (.ifThen span cond body), c, pc, locals⟩ :: (ofExpr env locals cond c pc ++
      ofBlock locals body (bump .endIf c') (pc + Code.width (Code.expr env cond c) + 3))
  | .ifElse span cond body other, c, pc =>
    let c' := bump .endIf (bump .otherwise (Code.exprAfter cond c))
    let inner := pc + Code.width (Code.expr env cond c) + 3
    ⟨.stmt (.ifElse span cond body other), c, pc, locals⟩ :: (ofExpr env locals cond c pc ++
      (ofBlock locals body c' inner ++ ofBlock locals other (Code.blockAfter body c')
        (inner + Code.width (Code.block env function body c') + 1)))
  | .loop span cond body, c, pc =>
    let c' := bump .endLoop (bump .loop c)
    ⟨.stmt (.loop span cond body), c, pc, locals⟩ :: (ofExpr env locals cond c' pc ++
      ofBlock locals body (Code.exprAfter cond c') (pc + Code.width (Code.expr env cond c') + 3))
  | st, c, pc => [⟨.stmt st, c, pc, locals⟩]

def ofStmts (locals : List Scope) : List Stmt → Counters → Int → List Site
  | [], _, _ => []
  | st :: ss, c, pc => ofStmt locals st c pc ++
      ofStmts locals ss (Code.stmtAfter st c) (pc + Code.width (Code.stmt env function st c))

def ofBlock (locals : List Scope) : Block → Counters → Int → List Site
  | .mk _ decls body, c, pc => ofStmts (scopeOf (decls.map VarDecl.name) :: locals) body c pc

end

/-- The sites of a function whose code comes after that of some declarations. -/
def ofFunction (before : List Decl) (d : FnDecl) : List Site :=
  ofStmts env d.name.name [scopeOf ((d.formals ++ d.body.decls).map VarDecl.name)] d.body.stmts
    (Code.declsAfter before fun _ => 0) (Code.width (Code.decls env before fun _ => 0) +
      Code.width (Code.entry env d ((env.frames.lookup d.name.name).getD 0)))

end Statements

end Site

/-- The part of a function's code in which its body stands, and what the function sees. -/
structure Frame where
  image : Image
  env : Lowering.Env
  lit : String → Prop
  visible : Scope
  function : String
  frame : Int
  lo : Int
  hi : Int

namespace Frame

variable (F : Frame)

/-- Code of the function stands at a place. -/
structure Holds (items : List Code.Item) (pc : Int) : Prop where
  placed : CodeAt F.image pc items
  lo : F.lo ≤ pc
  hi : pc + Code.width items ≤ F.hi

/-- What is known of the piece at a site: its names are in sight, it fits, its variables have slots
of their own, and its code stands at its place. -/
structure Found (site : Site) : Prop where
  holds : F.Holds (site.code F.env F.function) site.start
  fits : match site.part with
    | .expr e => Separate F.env.arena F.frame (indicesOf site.locals) ∧
        ∃ t, Typed F.lit (shape F.env.arena) (site.locals ++ [F.visible]) e t ∧ IsOperand t
    | .stmt st => Separate F.env.arena F.frame (indicesOf site.locals ++ stmtSlots st) ∧
        ∃ result, StmtOk F.lit (shape F.env.arena) (site.locals ++ [F.visible]) result st

variable {F} {is js : List Code.Item} {pc pc' : Int}

theorem Holds.left (h : F.Holds (is ++ js) pc) : F.Holds is pc := by
  have hjs := Code.width_nonneg js
  have hhi := h.hi
  rw [Code.width_append] at hhi
  exact ⟨(codeAt_append.mp h.placed).1, h.lo, by omega⟩

theorem Holds.right (h : F.Holds (is ++ js) pc) (hpc : pc' = pc + Code.width is) : F.Holds js pc' := by
  have his := Code.width_nonneg is
  have hhi := h.hi
  have hlo := h.lo
  rw [Code.width_append] at hhi
  subst hpc
  exact ⟨(codeAt_append.mp h.placed).2, by omega, by omega⟩

theorem Holds.at_pc (h : F.Holds is pc) (hpc : pc' = pc) : F.Holds is pc' := hpc ▸ h

theorem Holds.tail {i : Code.Item} (h : F.Holds (i :: is) pc) (hpc : pc' = pc + i.width) :
    F.Holds is pc' := by
  have hsplit : F.Holds ([i] ++ is) pc := h
  exact hsplit.right (by simpa using hpc)

section Expressions

variable {locals : List Scope} {e : Expr} {c : Counters} {t : Ty}

theorem found_here (hslots : Separate F.env.arena F.frame (indicesOf locals))
    (htyped : Typed F.lit (shape F.env.arena) (locals ++ [F.visible]) e t) (hoperand : IsOperand t)
    (hholds : F.Holds (Code.expr F.env e c) pc) : F.Found ⟨.expr e, c, pc, locals⟩ :=
  ⟨hholds, hslots, t, htyped, hoperand⟩

mutual

/-- All sites of an expression are found. -/
theorem found_expr (hσ : SymbolsOk (shape F.env.arena))
    (hslots : Separate F.env.arena F.frame (indicesOf locals)) : (e : Expr) →
    ∀ {c : Counters} {pc : Int} {t : Ty},
      Typed F.lit (shape F.env.arena) (locals ++ [F.visible]) e t → IsOperand t →
      F.Holds (Code.expr F.env e c) pc →
      ∀ site ∈ Site.ofExpr F.env locals e c pc, F.Found site
  | .assign note target value, c, pc, t, htyped, hoperand, hholds => by
    rw [Site.ofExpr]
    refine List.forall_mem_cons.mpr ⟨found_here hslots htyped hoperand hholds, ?_⟩
    rw [Code.expr] at hholds
    exact found_expr hσ hslots value htyped.2.2.2 hoperand hholds.left
  | .call note callee args, c, pc, t, htyped, hoperand, hholds => by
    rw [Site.ofExpr]
    refine List.forall_mem_cons.mpr ⟨found_here hslots htyped hoperand hholds, ?_⟩
    obtain ⟨i, f, -, -, hf, -, hargs⟩ := htyped
    have hfunc : SymbolOk (shape F.env.arena) (.func f) := hσ i _ hf
    rw [Code.expr] at hholds
    exact found_exprs hσ hslots args hargs hfunc.2.1 hholds.left
  | .unary note op operand, c, pc, t, htyped, hoperand, hholds => by
    rw [Site.ofExpr]
    refine List.forall_mem_cons.mpr ⟨found_here hslots htyped hoperand hholds, ?_⟩
    rw [Code.expr] at hholds
    exact found_expr hσ hslots operand htyped.2 hoperand hholds.left
  | .binary note op left right, c, pc, t, htyped, hoperand, hholds => by
    rw [Site.ofExpr]
    refine List.forall_mem_cons.mpr ⟨found_here hslots htyped hoperand hholds, ?_⟩
    obtain ⟨u, hop, hleft, hright⟩ := htyped
    have hu : IsOperand u := operand_of_operator hop
    rw [Code.expr] at hholds
    refine List.forall_mem_append.mpr ?_
    by_cases hlogic : op = .and ∨ op = .or
    · simp only [if_pos hlogic] at hholds ⊢
      exact ⟨found_expr hσ hslots left hleft hu hholds.left,
        found_expr hσ hslots right hright hu ((hholds.right rfl).right rfl).left⟩
    · simp only [if_neg hlogic, Int.add_zero] at hholds ⊢
      exact ⟨found_expr hσ hslots left hleft hu hholds.left,
        found_expr hσ hslots right hright hu (hholds.right rfl).left⟩
  | .int note value, c, pc, t, htyped, hoperand, hholds =>
    List.forall_mem_singleton.mpr (found_here hslots htyped hoperand hholds)
  | .bool note value, c, pc, t, htyped, hoperand, hholds =>
    List.forall_mem_singleton.mpr (found_here hslots htyped hoperand hholds)
  | .string note text, c, pc, t, htyped, hoperand, hholds =>
    List.forall_mem_singleton.mpr (found_here hslots htyped hoperand hholds)
  | .ident x, c, pc, t, htyped, hoperand, hholds =>
    List.forall_mem_singleton.mpr (found_here hslots htyped hoperand hholds)
  | .dot note obj field reached bad, c, pc, t, htyped, hoperand, hholds =>
    List.forall_mem_singleton.mpr (found_here hslots htyped hoperand hholds)
  | .misfit span kind, c, pc, t, htyped, hoperand, hholds => htyped.elim

/-- All sites of expressions are found. -/
theorem found_exprs (hσ : SymbolsOk (shape F.env.arena))
    (hslots : Separate F.env.arena F.frame (indicesOf locals)) : (es : List Expr) →
    ∀ {c : Counters} {pc : Int} {ts : List Ty},
      TypedAll F.lit (shape F.env.arena) (locals ++ [F.visible]) es ts → (∀ t ∈ ts, IsScalar t) →
      F.Holds (Code.exprs F.env es c) pc →
      ∀ site ∈ Site.ofExprs F.env locals es c pc, F.Found site
  | [], c, pc, ts, _, _, _ => by simp [Site.ofExprs]
  | e :: es, c, pc, ts, htyped, hscalar, hholds => by
    obtain ⟨t, rest, rfl, he, hes⟩ := htyped
    obtain ⟨ht, hrest⟩ := List.forall_mem_cons.mp hscalar
    rw [Site.ofExprs]
    rw [Code.exprs] at hholds
    exact List.forall_mem_append.mpr ⟨found_expr hσ hslots e he (.inl ht) hholds.left,
      found_exprs hσ hslots es hes hrest (hholds.right rfl)⟩

end

end Expressions

section Statements

variable {st : Stmt} {c : Counters} {locals : List Scope} {result : Ty} {slots : List Int}

theorem found_stmt_here
    (hslots : Separate F.env.arena F.frame (indicesOf locals ++ stmtSlots st))
    (hok : StmtOk F.lit (shape F.env.arena) (locals ++ [F.visible]) result st)
    (hholds : F.Holds (Code.stmt F.env F.function st c) pc) :
    F.Found ⟨.stmt st, c, pc, locals⟩ :=
  ⟨hholds, hslots, result, hok⟩

theorem found_operand (hσ : SymbolsOk (shape F.env.arena))
    (hslots : Separate F.env.arena F.frame (indicesOf locals ++ slots)) {e : Expr} {t : Ty}
    (htyped : Typed F.lit (shape F.env.arena) (locals ++ [F.visible]) e t) (hoperand : IsOperand t)
    (hholds : F.Holds (Code.expr F.env e c) pc) :
    ∀ site ∈ Site.ofExpr F.env locals e c pc, F.Found site :=
  found_expr hσ (hslots.sublist (List.sublist_append_left _ _)) e htyped hoperand hholds

mutual

/-- All sites of a statement are found. -/
theorem found_stmt (hσ : SymbolsOk (shape F.env.arena)) : (st : Stmt) →
    ∀ {locals : List Scope} {result : Ty} {c : Counters} {pc : Int},
      StmtOk F.lit (shape F.env.arena) (locals ++ [F.visible]) result st →
      Separate F.env.arena F.frame (indicesOf locals ++ stmtSlots st) →
      F.Holds (Code.stmt F.env F.function st c) pc →
      ∀ site ∈ Site.ofStmt F.env F.function locals st c pc, F.Found site
  | .assign span e, locals, result, c, pc, hok, hslots, hholds => by
    rw [Site.ofStmt]
    refine List.forall_mem_cons.mpr ⟨found_stmt_here hslots hok hholds, ?_⟩
    obtain ⟨t, ht, htyped⟩ := hok
    rw [Code.stmt] at hholds
    exact found_operand hσ hslots htyped (.inl ht) hholds.left
  | .call span e, locals, result, c, pc, hok, hslots, hholds => by
    rw [Site.ofStmt]
    refine List.forall_mem_cons.mpr ⟨found_stmt_here hslots hok hholds, ?_⟩
    obtain ⟨note, callee, args, t, rfl, htyped⟩ := hok
    rw [Code.stmt] at hholds
    exact found_operand hσ hslots htyped (operand_of_call hσ htyped) hholds.left
  | .write span e, locals, result, c, pc, hok, hslots, hholds => by
    rw [Site.ofStmt]
    refine List.forall_mem_cons.mpr ⟨found_stmt_here hslots hok hholds, ?_⟩
    obtain ⟨t, ht, -, htyped⟩ := hok
    rw [Code.stmt] at hholds
    exact found_operand hσ hslots htyped (ht.imp_right .inl) hholds.left
  | .ret span (some e), locals, result, c, pc, hok, hslots, hholds => by
    rw [Site.ofStmt]
    refine List.forall_mem_cons.mpr ⟨found_stmt_here hslots hok hholds, ?_⟩
    rw [Code.stmt] at hholds
    exact found_operand hσ hslots hok.2 (.inl hok.1) hholds.left
  | .ifThen span cond body, locals, result, c, pc, hok, hslots, hholds => by
    rw [Site.ofStmt]
    refine List.forall_mem_cons.mpr ⟨found_stmt_here hslots hok hholds, ?_⟩
    rw [Code.stmt] at hholds
    refine List.forall_mem_append.mpr
      ⟨found_operand hσ hslots hok.1 (.inl (.inr rfl)) hholds.left, ?_⟩
    have hafter := ((hholds.right rfl).right rfl).tail rfl
    exact found_block hσ body hok.2 hslots (hafter.left.at_pc (by simp; omega))
  | .ifElse span cond body other, locals, result, c, pc, hok, hslots, hholds => by
    rw [Site.ofStmt]
    refine List.forall_mem_cons.mpr ⟨found_stmt_here hslots hok hholds, ?_⟩
    rw [Code.stmt] at hholds
    rw [stmtSlots] at hslots
    refine List.forall_mem_append.mpr
      ⟨found_operand hσ hslots hok.1 (.inl (.inr rfl)) hholds.left, ?_⟩
    have hafter := ((hholds.right rfl).right rfl).tail rfl
    have hother := ((hafter.right rfl).tail rfl).tail rfl
    refine List.forall_mem_append.mpr
      ⟨found_block hσ body hok.2.1 (hslots.sublist ?_) (hafter.left.at_pc (by simp; omega)),
        found_block hσ other hok.2.2 (hslots.sublist ?_) (hother.left.at_pc (by simp; omega))⟩
    · exact List.Sublist.append_left (List.sublist_append_left _ _) _
    · exact List.Sublist.append_left (List.sublist_append_right _ _) _
  | .loop span cond body, locals, result, c, pc, hok, hslots, hholds => by
    rw [Site.ofStmt]
    refine List.forall_mem_cons.mpr ⟨found_stmt_here hslots hok hholds, ?_⟩
    rw [Code.stmt] at hholds
    have hround := hholds.tail rfl
    have hafter := ((hround.right rfl).right rfl).tail rfl
    exact List.forall_mem_append.mpr
      ⟨found_operand hσ hslots hok.1 (.inl (.inr rfl)) (hround.left.at_pc (by simp)),
        found_block hσ body hok.2 hslots (hafter.left.at_pc (by simp; omega))⟩
  | .ret span none, locals, result, c, pc, hok, hslots, hholds =>
    List.forall_mem_singleton.mpr (found_stmt_here hslots hok hholds)
  | .increment span e, locals, result, c, pc, hok, hslots, hholds =>
    List.forall_mem_singleton.mpr (found_stmt_here hslots hok hholds)
  | .decrement span e, locals, result, c, pc, hok, hslots, hholds =>
    List.forall_mem_singleton.mpr (found_stmt_here hslots hok hholds)
  | .read span e, locals, result, c, pc, hok, hslots, hholds =>
    List.forall_mem_singleton.mpr (found_stmt_here hslots hok hholds)
  | .misfit span kind, locals, result, c, pc, hok, hslots, hholds =>
    List.forall_mem_singleton.mpr (found_stmt_here hslots hok hholds)

/-- All sites of statements are found. -/
theorem found_stmts (hσ : SymbolsOk (shape F.env.arena)) : (ss : List Stmt) →
    ∀ {locals : List Scope} {result : Ty} {c : Counters} {pc : Int},
      StmtsOk F.lit (shape F.env.arena) (locals ++ [F.visible]) result ss →
      Separate F.env.arena F.frame (indicesOf locals ++ stmtsSlots ss) →
      F.Holds (Code.stmts F.env F.function ss c) pc →
      ∀ site ∈ Site.ofStmts F.env F.function locals ss c pc, F.Found site
  | [], locals, result, c, pc, _, _, _ => by simp [Site.ofStmts]
  | st :: ss, locals, result, c, pc, hok, hslots, hholds => by
    rw [stmtsSlots] at hslots
    rw [Site.ofStmts]
    rw [Code.stmts] at hholds
    refine List.forall_mem_append.mpr ⟨found_stmt hσ st hok.1 (hslots.sublist ?_) hholds.left,
      found_stmts hσ ss hok.2 (hslots.sublist ?_) (hholds.right rfl)⟩
    · exact List.Sublist.append_left (List.sublist_append_left _ _) _
    · exact List.Sublist.append_left (List.sublist_append_right _ _) _

/-- All sites of a block are found. -/
theorem found_block (hσ : SymbolsOk (shape F.env.arena)) : (b : Block) →
    ∀ {locals : List Scope} {result : Ty} {c : Counters} {pc : Int},
      BlockOk F.lit (shape F.env.arena) (locals ++ [F.visible]) result b →
      Separate F.env.arena F.frame (indicesOf locals ++ blockSlots b) →
      F.Holds (Code.block F.env F.function b c) pc →
      ∀ site ∈ Site.ofBlock F.env F.function locals b c pc, F.Found site
  | .mk span decls body, locals, result, c, pc, hok, hslots, hholds => by
    obtain ⟨scope, hdeclares, -, hbody⟩ := hok
    rw [blockSlots, declSlots_eq hdeclares] at hslots
    rw [Site.ofBlock, scopeOf_eq hdeclares]
    have hbody : StmtsOk F.lit (shape F.env.arena) ((scope :: locals) ++ [F.visible]) result body :=
      hbody
    exact found_stmts hσ body hbody (Routine.separate_enter hslots) hholds

end

end Statements

end Frame

end CMinusMinus.Proofs
