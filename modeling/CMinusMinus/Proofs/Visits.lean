import CMinusMinus.Proofs.Resolution
import CMinusMinus.Proofs.Scopes

/-!
The expressions of a program in the order in which name analysis comes to them, each with what is in sight of it.
What the walk says is what it says about these expressions, and what it says about declarations in between.
-/
namespace CMinusMinus.Proofs.Resolution

open Names WellFormed Grammar Naming

section Expressions

mutual

/-- The expressions of a statement that are in no other expression, in order. -/
def stmtExprs : Stmt → List Expr
  | .assign _ e | .increment _ e | .decrement _ e | .read _ e | .write _ e | .call _ e | .ret _ (some e) => [e]
  | .ifThen _ cond body | .loop _ cond body => cond :: blockExprs body
  | .ifElse _ cond body other => cond :: (blockExprs body ++ blockExprs other)
  | .ret _ none | .misfit .. => []

def stmtsExprs : List Stmt → List Expr
  | [] => []
  | st :: ss => stmtExprs st ++ stmtsExprs ss

def blockExprs : Block → List Expr
  | .mk _ _ body => stmtsExprs body

end

def declExprs : Decl → List Expr
  | .fn d => blockExprs d.body
  | .var _ | .struct _ | .misfit .. => []

end Expressions

/-- A diagnostic of name analysis about the use of a name. -/
def isUse (d : Diagnostic) : Bool :=
  match d.finding with
  | .naming (.undeclared _) | .naming .dotOnNonStruct | .naming (.noSuchField _) => true
  | _ => false

/-- Expressions from a list have been looked up in order. Each was so where its names were in sight, among symbols that
are still there, and what was said is about the expressions or about declarations. -/
inductive Visits (lit : String → Prop) (arena : Arena) : List Expr → List Expr → List Diagnostic → Prop
  | aside {ds : List Diagnostic} (aside : ∀ d ∈ ds, isUse d = false) : Visits lit arena [] [] ds
  | expr {s : State} {e : Expr} (good : Good s) (raw : Raw lit e) (grows : Grows s.arena arena) :
      Visits lit arena [e] [resolved (sightOf s) e] (exprSays (sightOf s) e)
  | append {es es' fs fs' : List Expr} {ds ds' : List Diagnostic} (first : Visits lit arena es fs ds)
      (rest : Visits lit arena es' fs' ds') : Visits lit arena (es ++ es') (fs ++ fs') (ds ++ ds')

section Walk

variable {lit : String → Prop} {arena : Arena} {s : State}

theorem Visits.nil : Visits lit arena [] [] [] := .aside (by simp)

theorem isUse_newSays (w : Sight) (d : VarDecl) (isTaken : Bool) {twice : NameFinding}
    (h : isUse (objection twice d.name.note.span) = false) : ∀ e ∈ newSays w d isTaken twice, isUse e = false := by
  intro e he
  simp only [newSays, List.mem_append, List.mem_ite_nil_right, List.mem_singleton] at he
  rcases he with ⟨-, rfl⟩ | ⟨-, rfl⟩ | ⟨-, rfl⟩
  · rfl
  · rfl
  · exact h

theorem isUse_formalSays (w : Sight) (d : VarDecl) : ∀ e ∈ formalSays w d, isUse e = false := by
  intro e he
  simp only [formalSays, List.mem_append, List.mem_ite_nil_right, List.mem_singleton] at he
  rcases he with ⟨-, rfl⟩ | ⟨-, rfl⟩ <;> rfl

theorem isUse_allSay {f : Sight → VarDecl → VarDecl × Sight} {said : Sight → VarDecl → List Diagnostic}
    (h : ∀ w d, ∀ e ∈ said w d, isUse e = false) (ds : List VarDecl) :
    ∀ w, ∀ e ∈ allSay f said w ds, isUse e = false := by
  induction ds with
  | nil => simp [allSay]
  | cons d ds ih => exact fun w => List.forall_mem_append.mpr ⟨h w d, ih _⟩

theorem isUse_fieldsSay (ds : List VarDecl) : ∀ (w : Sight) (table : SymbolTable) (offset : Int),
    ∀ e ∈ fieldsSay w table offset ds, isUse e = false := by
  induction ds with
  | nil => simp [fieldsSay]
  | cons d ds ih =>
    intro w table offset
    rw [fieldsSay]
    refine List.forall_mem_append.mpr ⟨isUse_newSays w d _ rfl, ?_⟩
    split
    · exact ih w table offset
    · exact ih _ _ _

theorem visits_vars (w : Sight) (ds : List VarDecl) : Visits lit arena [] [] (allSay varIn varSays w ds) :=
  .aside (isUse_allSay (fun w d => isUse_newSays w d _ rfl) ds w)

theorem grows_block (w : Sight) (b : Block) : Grows w.arena (blockAfter w b).arena := (stable_grows _).block b fun h => h

mutual

/-- The expressions of a statement are visited in order. -/
theorem visits_stmt : (st : Stmt) → RawStmt lit st → ∀ {s : State}, Good s →
    Grows (stmtAfter (sightOf s) st).arena arena →
    Visits lit arena (stmtExprs st) (stmtExprs (stmtIn (sightOf s) st)) (stmtSays (sightOf s) st)
  | .assign .., hraw, _, h, hgrows | .increment .., hraw, _, h, hgrows | .decrement .., hraw, _, h, hgrows
  | .read .., hraw, _, h, hgrows | .call .., hraw, _, h, hgrows => .expr h hraw.2 hgrows
  | .write .., hraw, _, h, hgrows | .ret _ (some _), hraw, _, h, hgrows => .expr h hraw hgrows
  | .ifThen _ _ body, hraw, _, h, hgrows | .loop _ _ body, hraw, _, h, hgrows =>
    .append (.expr h hraw.1 (Grows.trans (grows_block _ body) hgrows)) (visits_block body hraw.2 h hgrows)
  | .ifElse _ _ body other, hraw, s, h, hgrows => by
    have hother : Grows (blockAfter (sightOf s) body).arena arena := Grows.trans (grows_block _ other) hgrows
    exact .append (.expr h hraw.1 (Grows.trans (grows_block _ body) hother)) (.append (visits_block body hraw.2.1 h hother)
      (visits_block other hraw.2.2 (goes_nested body hraw.2.1 h).good hgrows))
  | .ret _ none, _, _, _, _ => .nil
  | .misfit .., hraw, _, _, _ => hraw.elim

theorem visits_stmts : (ss : List Stmt) → RawStmts lit ss → ∀ {s : State}, Good s →
    Grows (stmtsAfter (sightOf s) ss).arena arena →
    Visits lit arena (stmtsExprs ss) (stmtsExprs (stmtsIn (sightOf s) ss)) (stmtsSay (sightOf s) ss)
  | [], _, _, _, _ => .nil
  | st :: ss, hraw, _, h, hgrows =>
    .append (visits_stmt st hraw.1 h (Grows.trans ((stable_grows _).stmts ss fun h => h) hgrows))
      (visits_stmts ss hraw.2 (goes_stmt st hraw.1 h).good hgrows)

theorem visits_block : (b : Block) → RawBlock lit b → ∀ {s : State}, Good s →
    Grows (blockAfter (sightOf s) b).arena arena →
    Visits lit arena (blockExprs b) (blockExprs (blockIn (sightOf s) b)) (blockSays (sightOf s) b)
  | .mk _ decls body, hraw, _, h, hgrows =>
    (visits_vars _ decls).append (visits_stmts body hraw.2
      (declared_vars hraw.1 h.push (depth_push h)).2.walked.advances.good hgrows)

end

/-- The expressions of a function are visited in order. -/
theorem visits_fn (h : Good s) {d : FnDecl} (hraw : RawDecl lit (.fn d)) (hgrows : Grows (fnIn (sightOf s) d).2.arena arena) :
    Visits lit arena (blockExprs d.body) (blockExprs (fnIn (sightOf s) d).1.body) (fnSays (sightOf s) d) := by
  obtain ⟨hname, hresult, hformals, hbody⟩ := hraw
  have hannounced := (announced_fn h hname hresult.word
    (if (sightOf s).isTaken d.name.name then [objection (.declaredTwice d.name.name) d.name.note.span] else [])).good
  obtain ⟨_, _, _, formals, ⟨_, decls, body⟩⟩ := d
  have hfirst := (declared_all (fun d hd _ h hdepth => ⟨gives_formal h (hformals d hd),
    declared_formal h (hformals d hd) hdepth⟩) hannounced.push (depth_push hannounced)).2
  have hsecond := (declared_vars hbody.1 hfirst.walked.advances.good
    (depth_eq hannounced.push hfirst.walked.advances.good hfirst.outer ▸ depth_push hannounced)).2
  refine (Visits.aside ?_).append ((Visits.aside (isUse_allSay isUse_formalSays formals _)).append
    ((visits_vars _ decls).append (visits_stmts body hbody.2 hsecond.walked.advances.good hgrows)))
  simp only [List.mem_ite_nil_right, List.mem_singleton]
  rintro e ⟨-, rfl⟩
  rfl

/-- The expressions of a program are visited in order. -/
theorem visits_decls {ds : List Decl} (hraw : ∀ d ∈ ds, RawDecl lit d) : ∀ {s : State}, Good s →
    Grows (declsIn (sightOf s) ds).2.arena arena →
    Visits lit arena (ds.flatMap declExprs) ((declsIn (sightOf s) ds).1.flatMap declExprs) (declsSay (sightOf s) ds) := by
  induction ds with
  | nil => exact fun _ _ => .nil
  | cons d ds ih =>
    intro s h hgrows
    obtain ⟨hd, hds⟩ := List.forall_mem_cons.mp hraw
    have hafter := (tops_decl h hd).2.adds.good
    refine .append ?_ (ih hds hafter hgrows)
    have hgrows : Grows (declIn (sightOf s) d).2.arena arena := Grows.trans (declsIn_grows ds _) hgrows
    cases d with
    | var d => exact .aside (isUse_newSays _ d _ rfl)
    | struct d =>
      refine .aside (List.forall_mem_append.mpr ⟨?_, isUse_fieldsSay d.fields _ _ _⟩)
      simp only [List.mem_ite_nil_right, List.mem_singleton]
      rintro e ⟨-, rfl⟩
      rfl
    | fn d => exact visits_fn h hd hgrows
    | misfit span kind => exact hd.elim

end Walk

end CMinusMinus.Proofs.Resolution
