import CMinusMinus.Proofs.Scoping

/-!
A second check of types. The types of all expressions are on record after the first one, so none is worked out
again, and nothing is said while working it out. What statements and the program are asked for is asked again,
and answered as before.
-/
namespace CMinusMinus.Proofs.Rechecking

open Typing WellFormed Naming Grammar Verdicts Resolution

/-- What makes the check of types say something. -/
inductive Origin where
  | expression
  | statement
  | unreachable
  | main
deriving DecidableEq

/-- Something that the check says, and what makes it say so. -/
structure Issue where
  origin : Origin
  diagnostic : Diagnostic

/-- What is said again by a second check: all that is not said while the type of an expression is worked out. -/
def again (issues : List Issue) : List Diagnostic := (issues.filter (·.origin ≠ .expression)).map (·.diagnostic)

/-- Issues as diagnostics about a file. -/
def inFile (file : Option String) (issues : List Issue) : List Diagnostic := issues.map (about file ·.diagnostic)

section Issues

variable (arena : Arena) (result : Ty)

/-- What is said while the type of an expression is worked out. -/
def inferred (e : Expr) : List Issue := (said (infer arena e)).map (⟨.expression, ·⟩)

/-- What is said about an expression with a rule of its statement. -/
def ruled (check : Expr → Ty → TypingM Unit) (e : Expr) : List Issue :=
  inferred arena e ++ (said (check e (outcome (infer arena e)).2)).map (⟨.statement, ·⟩)

mutual

/-- What the first check says about a statement of a function with a result. -/
def stmtIssues : Stmt → List Issue
  | .assign _ e | .call _ e => inferred arena e
  | .increment _ e | .decrement _ e => ruled arena checkCounted e
  | .read _ e => ruled arena checkRead e
  | .write _ e => ruled arena checkWritten e
  | .ifThen _ cond body => ruled arena (checkCondition .ifCondition) cond ++ blockIssues body
  | .ifElse _ cond body other =>
    ruled arena (checkCondition .ifCondition) cond ++ (blockIssues body ++ blockIssues other)
  | .loop _ cond body => ruled arena (checkCondition .whileCondition) cond ++ blockIssues body
  | .ret span none => if result.isVoid then [] else [⟨.statement, remark .error .missingReturn span⟩]
  | .ret _ (some e) => ruled arena (checkReturned result) e
  | .misfit .. => []

def stmtsIssues (returned : Bool) : List Stmt → List Issue
  | [] => []
  | st :: ss => (if returned then [⟨.unreachable, remark .warning .unreachable st.span⟩] else []) ++
      (stmtIssues st ++ stmtsIssues st.isReturn ss)

def blockIssues : Block → List Issue
  | .mk _ _ body => stmtsIssues false body

end

def declIssues : Decl → List Issue
  | .fn d => blockIssues arena ((Ty.ofWord? d.result.name).getD .error) d.body
  | _ => []

/-- What the first check says about a program, in order. -/
def programIssues (ds : List Decl) : List Issue :=
  ds.flatMap (declIssues arena) ++ (mainRemarks ds).map (⟨.main, ·⟩)

end Issues

section Checks

variable {arena : Arena} {result : Ty} {file : Option String} {e : Expr}

@[simp] theorem inFile_append (is js : List Issue) : inFile file (is ++ js) = inFile file is ++ inFile file js :=
  List.map_append

@[simp] theorem again_append (is js : List Issue) : again (is ++ js) = again is ++ again js := by simp [again]

theorem said_infer (harena : ArenaSane arena) (h : Visited (shape arena) e) :
    said (infer arena e) = (remarks arena e).map (about none) ∧ (outcome (infer arena e)).2 = typeOf arena e := by
  rw [said, outcome, says_infer harena e h _ rfl]
  exact ⟨rfl, rfl⟩

theorem inFile_inferred (harena : ArenaSane arena) (h : Visited (shape arena) e) :
    inFile file (inferred arena e) = (remarks arena e).map (about file) := by
  rw [inFile, inferred, (said_infer harena h).1, List.map_map, List.map_map]
  rfl

@[simp] theorem again_inferred (arena : Arena) (e : Expr) : again (inferred arena e) = [] := by simp [again, inferred]

theorem inFile_ruled (harena : ArenaSane arena) (h : Visited (shape arena) e) (check : Expr → Ty → TypingM Unit) :
    inFile file (ruled arena check e) = (asked arena check e).map (about file) := by
  rw [ruled, inFile_append, inFile_inferred harena h, (said_infer harena h).2, asked, List.map_append, inFile,
    List.map_map]
  rfl

/-- A rule of a statement goes by the type of an expression, which is the same in both checks. -/
theorem again_ruled (harena : ArenaSane arena) (h : Visited (shape arena) e) (check : Expr → Ty → TypingM Unit) :
    again (ruled arena check e) = said (check e (typeOf arena e)) := by
  rw [ruled, again_append, again_inferred, (said_infer harena h).2, again, List.filter_map]
  simp [Function.comp_def]

/-- A type on record is not worked out again. -/
theorem infer_again (e : Expr) : Says (infer arena (typed arena e)) (typed arena e, typeOf arena e) [] := by
  rw [infer.eq_def, ty_typed]
  exact .pure _

theorem typedStmt_alike (st : Stmt) :
    (typedStmt arena st).span = st.span ∧ (typedStmt arena st).isReturn = st.isReturn := by
  cases st with
  | ret span e => cases e <;> exact ⟨rfl, rfl⟩
  | _ => exact ⟨rfl, rfl⟩

mutual

/-- What a statement is found to be in the first check, and what is said of it in the second. -/
theorem stmt_again (harena : ArenaSane arena) : (st : Stmt) → VisitedStmt (shape arena) st →
    inFile file (stmtIssues arena result st) = (stmtRemarks arena result st).map (about file) ∧
      Says (stmt arena result (typedStmt arena st)) (typedStmt arena st) (again (stmtIssues arena result st))
  | .assign _ e, h | .call _ e, h => by
    rw [stmtIssues, stmtRemarks, typedStmt, stmt, inFile_inferred harena h, again_inferred]
    exact ⟨rfl, (infer_again e).last (.pure _)⟩
  | .increment _ e, h | .decrement _ e, h => by
    rw [stmtIssues, stmtRemarks, typedStmt, stmt, inFile_ruled harena h, again_ruled harena h]
    exact ⟨rfl, (infer_again e).bind ((asks_counted.judges e _).last (.pure _))⟩
  | .read _ e, h => by
    rw [stmtIssues, stmtRemarks, typedStmt, stmt, inFile_ruled harena h, again_ruled harena h]
    exact ⟨rfl, (infer_again e).bind ((asks_read.judges e _).last (.pure _))⟩
  | .write _ e, h => by
    rw [stmtIssues, stmtRemarks, typedStmt, stmt, inFile_ruled harena h, again_ruled harena h]
    exact ⟨rfl, (infer_again e).bind ((asks_written.judges e _).last (.pure _))⟩
  | .ret _ (some e), h => by
    rw [stmtIssues, stmtRemarks, typedStmt, stmt, inFile_ruled harena h, again_ruled harena h]
    exact ⟨rfl, (infer_again e).bind (((asks_returned result).judges e _).last (.pure _))⟩
  | .ifThen _ cond body, h | .loop _ cond body, h => by
    obtain ⟨hissues, hagain⟩ := block_again harena body h.2
    rw [stmtIssues, stmtRemarks, typedStmt, stmt, inFile_append, inFile_ruled harena h.1, hissues, again_append,
      again_ruled harena h.1, List.map_append]
    exact ⟨rfl, (infer_again cond).bind (((asks_condition _).judges cond _).bind (hagain.last (.pure _)))⟩
  | .ifElse _ cond body other, h => by
    obtain ⟨hissues, hagain⟩ := block_again harena body h.2.1
    obtain ⟨hissues', hagain'⟩ := block_again harena other h.2.2
    rw [stmtIssues, stmtRemarks, typedStmt, stmt, inFile_append, inFile_ruled harena h.1, inFile_append, hissues,
      hissues', again_append, again_append, again_ruled harena h.1, List.map_append, List.map_append]
    exact ⟨rfl, (infer_again cond).bind (((asks_condition _).judges cond _).bind
      (hagain.bind (hagain'.last (.pure _))))⟩
  | .ret span none, h => by
    rw [stmtIssues, stmtRemarks, typedStmt, stmt]
    cases result.isVoid with
    | true => exact ⟨rfl, .pure _⟩
    | false => exact ⟨rfl, (says_report _ _).last (.pure _)⟩
  | .misfit .., h => h.elim

theorem stmts_again (harena : ArenaSane arena) (returned : Bool) : (ss : List Stmt) → VisitedStmts (shape arena) ss →
    inFile file (stmtsIssues arena result returned ss) = (stmtsRemarks arena result returned ss).map (about file) ∧
      Says (stmts arena result returned (typedStmts arena ss)) (typedStmts arena ss)
        (again (stmtsIssues arena result returned ss))
  | [], _ => ⟨rfl, .pure _⟩
  | st :: ss, h => by
    obtain ⟨hissues, hagain⟩ := stmt_again harena st h.1
    obtain ⟨hissues', hagain'⟩ := stmts_again harena st.isReturn ss h.2
    obtain ⟨hspan, hreturns⟩ := @typedStmt_alike arena st
    have hrest := hagain.bind (f := fun st' => do
      let ss ← stmts arena result st.isReturn (typedStmts arena ss)
      return st' :: ss) (hagain'.last (.pure _))
    simp only [stmtsIssues, stmtsRemarks, typedStmts, stmts, hspan, hreturns, again_append, inFile_append, hissues,
      hissues', List.map_append]
    cases returned with
    | true => exact ⟨rfl, (says_warn _ _).bind hrest⟩
    | false => exact ⟨rfl, hrest⟩

theorem block_again (harena : ArenaSane arena) : (b : Block) → VisitedBlock (shape arena) b →
    inFile file (blockIssues arena result b) = (blockRemarks arena result b).map (about file) ∧
      Says (block arena result (typedBlock arena b)) (typedBlock arena b) (again (blockIssues arena result b))
  | .mk _ _ body, h => by
    obtain ⟨hissues, hagain⟩ := stmts_again harena false body h
    rw [blockIssues, blockRemarks, typedBlock, block]
    exact ⟨hissues, hagain.last (.pure _)⟩

end

theorem decls_again (harena : ArenaSane arena) : (ds : List Decl) → (∀ d ∈ ds, VisitedDecl (shape arena) d) →
    inFile file (ds.flatMap (declIssues arena)) = (ds.flatMap (declRemarks arena)).map (about file) ∧
      Says ((ds.map (typedDecl arena)).mapM (decl arena)) (ds.map (typedDecl arena)) (again (ds.flatMap (declIssues arena)))
  | [], _ => ⟨rfl, .pure _⟩
  | d :: ds, h => by
    obtain ⟨hd, hds⟩ := List.forall_mem_cons.mp h
    obtain ⟨hissues, hagain⟩ := decls_again harena ds hds
    have hfirst : inFile file (declIssues arena d) = (declRemarks arena d).map (about file) ∧
        Says (decl arena (typedDecl arena d)) (typedDecl arena d) (again (declIssues arena d)) := by
      cases d with
      | var d | struct d => exact ⟨rfl, .pure _⟩
      | fn d =>
        obtain ⟨result, hok, hsome, -⟩ := ofWord_of_typeWord hd.1
        rw [declIssues, declRemarks, typedDecl, decl, hsome]
        simp only [hok]
        obtain ⟨hissues, hagain⟩ : inFile file (blockIssues arena result d.body) = _ ∧ _ :=
          block_again harena d.body hd.2.2
        exact ⟨hissues, hagain.last (.pure _)⟩
      | misfit => exact hd.elim
    rw [List.flatMap_cons, List.flatMap_cons, inFile_append, again_append, hfirst.1, hissues, List.map_append,
      List.map_cons, List.mapM_cons]
    exact ⟨rfl, hfirst.2.bind (hagain.last (.pure _))⟩

/-- A program whose names have been looked up is checked twice. -/
theorem checked_twice {a : Analysis} {q : Program} (hq : a.program = some q) (harena : ArenaSane a.arena)
    (hvisited : ∀ d ∈ q.decls, VisitedDecl (shape a.arena) d) : ∃ b, a.checkTypes = (b, none) ∧
    b.diagnostics = a.diagnostics ++ inFile a.file (programIssues a.arena q.decls) ∧
    b.checkTypes =
      ({ b with diagnostics := b.diagnostics ++ (again (programIssues a.arena q.decls)).map (about a.file) }, none) := by
  obtain ⟨hissues, hagain⟩ : inFile a.file _ = _ ∧ _ := decls_again harena _ hvisited
  have hmain : again ((mainRemarks q.decls).map (⟨.main, ·⟩)) = mainRemarks q.decls := by
    simp [again, List.filter_map, Function.comp_def]
  refine ⟨_, checkTypes_eq hq harena hvisited, ?_, ?_⟩
  · rw [programIssues, inFile_append, hissues, programRemarks, List.map_append, inFile, List.map_map]
    rfl
  · rw [checkTypes_of_decls rfl hagain, mainRemarks_typed, programIssues, again_append, hmain]

end Checks

/-- A second check of types leaves all types as they are on record. It says again, in the same order, what was
said by the rules of statements, about statements after a return and about the missing function to start with,
and nothing of what was said while the types of expressions were worked out. -/
theorem second_check_repeats_rules_of_statements {text : String} {tokens : List Token} {p : Program} (file : String)
    (hlex : Token.lex text = .ok tokens) (hparse : Program.ofTokens tokens = .ok p) : ∃ a q b,
    (readFrom file p).resolveNames = (a, none) ∧ a.program = some q ∧ a.checkTypes = (b, none) ∧
    b.diagnostics = a.diagnostics ++ inFile a.file (programIssues a.arena q.decls) ∧
    b.checkTypes =
      ({ b with diagnostics := b.diagnostics ++ (again (programIssues a.arena q.decls)).map (about a.file) }, none) := by
  have hraw := raw_of_tokens (tokens_ok hlex) hparse
  have hlooked := looked (a := readFrom file p) rfl hraw
  have hresolve := resolveNames_eq (a := readFrom file p) rfl rfl hraw
  obtain ⟨b, hchecked⟩ := checked_twice (a := (readFrom file p).resolveNames.1) (by rw [hresolve])
    (by rw [hresolve]; exact hlooked.adds.good.arena) (by rw [hresolve]; exact hlooked.visited)
  exact ⟨_, _, b, by rw [hresolve], by rw [hresolve], hchecked⟩

/-- A text in which a function is written, a truth value is negated and a statement stands after a return, without
a function to start with. -/
def faultyText : String := "int f()\x7bcout<<f;return -true;return 1;\x7d"

/-- The first check says four things, the second one three of them. -/
theorem second_check_is_silent_on_negation : ∃ a b c, TypeRules.namesOf faultyText = some a ∧ a.checkTypes = (b, none) ∧
    b.checkTypes = (c, none) ∧ c.program = b.program ∧ b.diagnostics.length = 4 ∧ c.diagnostics.length = 7 := by
  have hfound : ∃ a, TypeRules.namesOf faultyText = some a ∧
      (a.checkTypes.1.diagnostics.length == 4 && a.checkTypes.1.checkTypes.1.diagnostics.length == 7) := by
    rw [← Option.any_eq_true]
    decide +kernel
  obtain ⟨a, ha, hlengths⟩ := hfound
  obtain ⟨tokens, p, hlex, hparse, hnames⟩ := TypeRules.read_of_namesOf ha
  obtain ⟨a', q, b, hresolve, -, hfirst, -, hsecond⟩ := second_check_repeats_rules_of_statements "main.cmm" hlex hparse
  obtain rfl : a' = a := by rw [← hnames, hresolve]
  refine ⟨a', b, _, ha, hfirst, hsecond, rfl, ?_⟩
  simpa [hfirst, hsecond] using hlengths

end CMinusMinus.Proofs.Rechecking
