import CMinusMinus.Proofs.Correctness

/-!
The check of types and the typing rules agree. The check changes nothing about a program but the
types recorded on its expressions, and accepts it exactly if it follows the rules.
-/
namespace CMinusMinus.Proofs.TypeRules

open Typing WellFormed Naming Grammar Checking Verdicts

section Untyped

def untypedIdent (x : Ident) : Ident := { x with note.ty := none }

mutual

/-- An expression without the types recorded on it and its parts. -/
def untyped : Expr → Expr
  | .int note value => .int { note with ty := none } value
  | .string note text => .string { note with ty := none } text
  | .bool note value => .bool { note with ty := none } value
  | .ident x => .ident (untypedIdent x)
  | .dot note obj field reached bad => .dot { note with ty := none } (untyped obj) field reached bad
  | .assign note target value => .assign { note with ty := none } (untyped target) (untyped value)
  | .call note callee args => .call { note with ty := none } (untypedIdent callee) (untypedAll args)
  | .unary note op operand => .unary { note with ty := none } op (untyped operand)
  | .binary note op left right => .binary { note with ty := none } op (untyped left) (untyped right)
  | .misfit note kind => .misfit { note with ty := none } kind

def untypedAll : List Expr → List Expr
  | [] => []
  | e :: es => untyped e :: untypedAll es

end

mutual

def untypedStmt : Stmt → Stmt
  | .assign span e => .assign span (untyped e)
  | .increment span e => .increment span (untyped e)
  | .decrement span e => .decrement span (untyped e)
  | .read span e => .read span (untyped e)
  | .write span e => .write span (untyped e)
  | .ifThen span cond body => .ifThen span (untyped cond) (untypedBlock body)
  | .ifElse span cond body other =>
    .ifElse span (untyped cond) (untypedBlock body) (untypedBlock other)
  | .loop span cond body => .loop span (untyped cond) (untypedBlock body)
  | .call span e => .call span (untyped e)
  | .ret span none => .ret span none
  | .ret span (some e) => .ret span (some (untyped e))
  | .misfit span kind => .misfit span kind

def untypedStmts : List Stmt → List Stmt
  | [] => []
  | st :: ss => untypedStmt st :: untypedStmts ss

def untypedBlock : Block → Block
  | .mk span decls body => .mk span decls (untypedStmts body)

end

/-- A declaration without the types recorded in it. -/
def untypedDecl : Decl → Decl
  | .fn d => .fn { d with body := untypedBlock d.body }
  | d => d

end Untyped

section Erasure

variable {arena : Arena}

theorem untyped_withTy (e : Expr) (t : Ty) : untyped (e.withTy t) = untyped e := by
  cases e <;> rfl

mutual

/-- The check of an expression changes nothing but types. -/
theorem untyped_typed : (e : Expr) → untyped (typed arena e) = untyped e
  | .int .. | .string .. | .bool .. | .ident _ | .misfit .. => rfl
  | .dot _ obj .. => by rw [typed, untyped_withTy, untyped, untyped, untyped_typed obj]
  | .assign _ target value => by
    rw [typed, untyped_withTy, untyped, untyped, untyped_typed target, untyped_typed value]
  | .call _ _ args => by
    rw [typed, untyped_withTy, untyped, untyped, untypedAll_typedAll args]
    rfl
  | .unary _ _ e => by rw [typed, untyped_withTy, untyped, untyped, untyped_typed e]
  | .binary _ _ left right => by
    rw [typed, untyped_withTy, untyped, untyped, untyped_typed left, untyped_typed right]

theorem untypedAll_typedAll : (es : List Expr) → untypedAll (typedAll arena es) = untypedAll es
  | [] => rfl
  | e :: es => by rw [typedAll, untypedAll, untypedAll, untyped_typed e, untypedAll_typedAll es]

end

mutual

theorem untyped_typedStmt : (st : Stmt) → untypedStmt (typedStmt arena st) = untypedStmt st
  | .assign _ e | .increment _ e | .decrement _ e | .read _ e | .write _ e | .call _ e | .ret _ (some e) => by
    rw [typedStmt, untypedStmt, untypedStmt, untyped_typed e]
  | .ifThen _ cond body | .loop _ cond body => by
    rw [typedStmt, untypedStmt, untypedStmt, untyped_typed cond, untyped_typedBlock body]
  | .ifElse _ cond body other => by
    rw [typedStmt, untypedStmt, untypedStmt, untyped_typed cond, untyped_typedBlock body, untyped_typedBlock other]
  | .ret _ none | .misfit .. => rfl

theorem untyped_typedStmts : (ss : List Stmt) → untypedStmts (typedStmts arena ss) = untypedStmts ss
  | [] => rfl
  | st :: ss => by rw [typedStmts, untypedStmts, untypedStmts, untyped_typedStmt st, untyped_typedStmts ss]

theorem untyped_typedBlock : (b : Block) → untypedBlock (typedBlock arena b) = untypedBlock b
  | .mk _ _ body => by rw [typedBlock, untypedBlock, untypedBlock, untyped_typedStmts body]

end

theorem untyped_typedDecl (d : Decl) : untypedDecl (typedDecl arena d) = untypedDecl d := by
  cases d with
  | fn d => simp only [typedDecl, untypedDecl, untyped_typedBlock]
  | _ => rfl

end Erasure

section Completeness

variable {arena : Arena} {ds : List Decl}

/-- The check of declarations whose bodies fit them. -/
theorem passes_decls (hσ : SymbolsOk (shape arena)) (hvisited : ∀ d ∈ ds, VisitedDecl (shape arena) d)
    (hbodies : ∀ f, .fn f ∈ ds → ∃ result, Ty.ofWord? f.result.name = some result ∧ FitsBlock arena result f.body) :
    Passes arena (ds.flatMap (declRemarks arena)) ((ds.map (typedDecl arena)).flatMap declParts) := by
  induction ds with
  | nil => exact ⟨quiet_nil, by simp⟩
  | cons d ds ih =>
    obtain ⟨hd, hds⟩ := List.forall_mem_cons.mp hvisited
    rw [List.flatMap_cons, List.map_cons, List.flatMap_cons]
    refine .append ?_ (ih hds fun f hf => hbodies f (by simp [hf]))
    cases d with
    | var d | struct d => exact ⟨quiet_nil, by simp [typedDecl, declParts]⟩
    | misfit => exact hd.elim
    | fn d =>
      obtain ⟨t, -, hsome, -, ht⟩ := ofWord_of_typeWord hd.1
      obtain ⟨result, hresult, hfits⟩ := hbodies d (by simp)
      obtain rfl : t = result := by simpa [hsome] using hresult
      have hplain : IsPlain t := ht.imp_left fun hscalar => shown_of_scalar (.inl hscalar)
      rw [declRemarks, hsome]
      exact passes_block hσ hplain d.body hfits

/-- The check of a program that follows the rules. -/
theorem passes_program (hσ : SymbolsOk (shape arena)) (hvisited : ∀ d ∈ ds, VisitedDecl (shape arena) d)
    (h : WellTyped arena ds) :
    Passes arena (programRemarks arena ds) ((ds.map (typedDecl arena)).flatMap declParts) := by
  rw [programRemarks, mainRemarks, if_pos (any_isMain_iff.mpr h.main), List.append_nil]
  exact passes_decls hσ hvisited h.bodies

end Completeness

section Programs

variable {a : Analysis}

/-- The check of types agrees with the rules. For every program that was read and in whose names no
error was found, the check is not stopped and changes nothing but the types that are recorded. It finds
no error exactly if the program is well typed; then all expressions carry the type that they have. -/
theorem check_agrees_with_rules {text file : String} {tokens : List Token} {p : Program} {a : Analysis}
    (hlex : Token.lex text = .ok tokens) (hparse : Program.ofTokens tokens = .ok p)
    (ha : (readFrom file p).resolveNames.1 = a) (hnames : a.hasErrors = false) :
    ∃ q checked, a.program = some q ∧ a.checkTypes.1.program = some checked ∧
      a.checkTypes.2 = none ∧ checked.decls.map untypedDecl = q.decls.map untypedDecl ∧
      (a.checkTypes.1.hasErrors = false ↔ WellTyped a.arena q.decls) ∧
      (WellTyped a.arena q.decls → ∀ e ∈ checked.decls.flatMap declParts,
        ∃ t, e.ty = some t ∧ ∀ u, HasType a.arena e u ↔ u = t) := by
  have hraw := raw_of_tokens (tokens_ok hlex) hparse
  obtain ⟨ds, s, hpassed⟩ : ∃ ds s, Passed _ (readFrom file p) _ ds s := ⟨_, _, passes (a := readFrom file p) rfl hraw rfl⟩
  rw [hpassed.names] at ha
  subst ha
  have hquiet : Quiet s.diagnostics := (quiet_iff _).mpr hnames
  have hvisited := hpassed.looked.visited
  have hσ : SymbolsOk (shape s.arena) := hpassed.looked.symbols rfl hquiet
  obtain ⟨globals, -, hshape⟩ := hpassed.looked.shaped hquiet
  rw [hpassed.types]
  refine ⟨_, _, rfl, rfl, rfl, ?_, ?_, fun h e he => ?_⟩
  · simp only [List.map_map, Function.comp_def, untyped_typedDecl]
  · rw [← quiet_iff, typedAs, quiet_append, quiet_about]
    exact ⟨fun h => (fits_program _ hσ hvisited h.2 hshape).1, fun h => ⟨hquiet, (passes_program hσ hvisited h).quiet⟩⟩
  · obtain ⟨t, hty, htyped⟩ := (passes_program hσ hvisited h).recorded e he
    refine ⟨t, hty, fun u => ⟨fun hu => hu.unique htyped, ?_⟩⟩
    rintro rfl
    exact htyped

/-- What name analysis makes of a text, if the text can be read. -/
def namesOf (text : String) : Option Analysis :=
  match Token.lex text with
  | .error _ => none
  | .ok tokens =>
    match Program.ofTokens tokens with
    | .error _ => none
    | .ok p => some (readFrom "main.cmm" p).resolveNames.1

theorem read_of_namesOf {text : String} (h : namesOf text = some a) : ∃ tokens p,
    Token.lex text = .ok tokens ∧ Program.ofTokens tokens = .ok p ∧
      (readFrom "main.cmm" p).resolveNames.1 = a := by
  unfold namesOf at h
  split at h
  · cases h
  · split at h
    · cases h
    · exact ⟨_, _, ‹_›, ‹_›, Option.some.inj h⟩

/-- A text with a struct, a function and a condition. -/
def wellTypedText : String :=
  "struct P\x7bint x;\x7d;struct P p;int f(int n)\x7breturn -n;\x7d" ++
    "void main()\x7bp.x=f(2*3);if(!(p.x<1))\x7bcout<<\"a\";\x7d\x7d"

/-- A text in which a number is written into a truth value. -/
def illTypedText : String := "bool b;void main(){b=1;}"

/-- The first text is accepted, so it follows the rules; the second is not, so it does not. -/
theorem sample_texts_follow_rules :
    (∃ a q, namesOf wellTypedText = some a ∧ a.program = some q ∧ WellTyped a.arena q.decls) ∧
    ∃ a q, namesOf illTypedText = some a ∧ a.program = some q ∧ ¬ WellTyped a.arena q.decls := by
  have hgood : ∃ a, namesOf wellTypedText = some a ∧ (!a.hasErrors && !a.checkTypes.1.hasErrors) := by
    rw [← Option.any_eq_true]
    decide +kernel
  have hbad : ∃ a, namesOf illTypedText = some a ∧ (!a.hasErrors && a.checkTypes.1.hasErrors) := by
    rw [← Option.any_eq_true]
    decide +kernel
  constructor
  · obtain ⟨a, ha, hfine⟩ := hgood
    simp only [Bool.and_eq_true, Bool.not_eq_true'] at hfine
    obtain ⟨tokens, p, hlex, hparse, hread⟩ := read_of_namesOf ha
    obtain ⟨q, -, hq, -, -, -, hiff, -⟩ := check_agrees_with_rules hlex hparse hread hfine.1
    exact ⟨a, q, ha, hq, hiff.mp hfine.2⟩
  · obtain ⟨a, ha, hwrong⟩ := hbad
    simp only [Bool.and_eq_true, Bool.not_eq_true'] at hwrong
    obtain ⟨tokens, p, hlex, hparse, hread⟩ := read_of_namesOf ha
    obtain ⟨q, -, hq, -, -, -, hiff, -⟩ := check_agrees_with_rules hlex hparse hread hwrong.1
    refine ⟨a, q, ha, hq, fun h => ?_⟩
    simp [hiff.mpr h] at hwrong

end Programs

end CMinusMinus.Proofs.TypeRules
