import CMinusMinus.Proofs.Resemblance
import CMinusMinus.Proofs.Tandem

/-!
Places in the source do not matter. Texts whose tokens differ in nothing but places are both seen as one
program without places. That program is analysed like each of them, and has the same code.
-/
namespace CMinusMinus.Proofs.Places

open Views Printing Grammar Naming WellFormed
open Lexical (unboundIdent unboundVar unboundExpr unboundExprs unboundStmt unboundStmts unboundBlock
  unboundDecl)

section Sight

def unplacedFault : Fault → Fault
  | .internal cause (some place) => .internal cause (some ⟨place.file, none⟩)
  | fault => fault

/-- Programs without places. All else shows as it is. -/
def bare : View where
  name _ n := n
  finding finding := finding
  fault := unplacedFault
  comment comment := comment
  finding_name _ _ _ := rfl
  fault_name _ _ _ _ _ := rfl
  comment_name _ _ _ := rfl

theorem bare_plain : bare.Plain := fun _ _ => rfl

theorem bare_faithful (τ : Symbols) : bare.Faithful τ where
  apart _ _ hname := .inr hname
  kept _ _ := rfl
  unresolved _ := rfl
  unvisited _ := rfl

mutual

theorem bare_expr : ∀ e : Expr, bare.expr e = unspanned e
  | .int .. | .string .. | .bool .. | .ident _ | .misfit .. => rfl
  | .dot _ obj _ _ _ => by rw [View.expr, unspanned, bare_expr obj]; rfl
  | .assign _ target value => by rw [View.expr, unspanned, bare_expr target, bare_expr value]
  | .call _ _ args => by rw [View.expr, unspanned, bare_exprs args]; rfl
  | .unary _ _ operand => by rw [View.expr, unspanned, bare_expr operand]
  | .binary _ _ left right => by rw [View.expr, unspanned, bare_expr left, bare_expr right]

theorem bare_exprs : ∀ es : List Expr, bare.exprs es = unspannedAll es
  | [] => rfl
  | e :: es => by rw [View.exprs, unspannedAll, bare_expr e, bare_exprs es]

end

theorem bare_vars (ds : List VarDecl) : ds.map bare.var = ds.map unspannedVar := rfl

mutual

theorem bare_stmt : ∀ st : Stmt, bare.stmt st = unspannedStmt st
  | .assign _ e | .increment _ e | .decrement _ e | .read _ e | .write _ e | .call _ e => by
    rw [View.stmt, unspannedStmt, bare_expr e]
  | .ret _ (some e) => by rw [View.stmt, unspannedStmt, bare_expr e, Option.map_some]
  | .ifThen _ cond body | .loop _ cond body => by
    rw [View.stmt, unspannedStmt, bare_expr cond, bare_block body]
  | .ifElse _ cond body other => by
    rw [View.stmt, unspannedStmt, bare_expr cond, bare_block body, bare_block other]
  | .ret _ none | .misfit .. => rfl

theorem bare_stmts : ∀ ss : List Stmt, bare.stmts ss = unspannedStmts ss
  | [] => rfl
  | st :: ss => by rw [View.stmts, unspannedStmts, bare_stmt st, bare_stmts ss]

theorem bare_block : ∀ b : Block, bare.block b = unspannedBlock b
  | .mk _ decls body => by rw [View.block, unspannedBlock, bare_vars, bare_stmts body]

end

theorem bare_decl (d : Decl) : bare.decl d = unspannedDecl d := by
  cases d with
  | var d => rfl
  | struct d => rfl
  | fn d => rw [View.decl, unspannedDecl, bare_vars, bare_block]
  | misfit span kind => rfl

theorem bare_scope (s : Scope) : bare.scope s = s := List.map_id s

theorem bare_table (t : SymbolTable) : bare.table t = t := by
  have hscopes : t.scopes.map bare.scope = t.scopes := by
    rw [funext bare_scope]
    exact List.map_id _
  rw [View.table, hscopes]

theorem bare_symbol (i : Int) (s : Symbol) : bare.symbol i s = s := by
  cases s with
  | var u =>
    have hname : (if u.isGlobal then u.name else bare.name (.symbol i) u.name) = u.name := ite_self _
    rw [View.symbol, hname]
  | func f => rfl
  | struct d => rw [View.symbol, bare_table]

theorem bare_arena (a : Arena) : bare.arena a = a := by
  have hsymbols : a.symbols.mapIdx (fun i s => bare.symbol i s) = a.symbols := by
    simp only [bare_symbol]
    exact Array.mapIdx_eq_iff.mpr (by simp)
  rw [View.arena, hsymbols]

theorem bare_items (items : List Code.Item) : items.map bare.item = items := by
  have hitem : ∀ i, bare.item i = i := by
    intro i
    cases i <;> rfl
  rw [funext hitem, List.map_id']

end Sight

section Erasures

mutual

theorem unspanned_unboundExpr : ∀ e : Expr, unspanned (unboundExpr e) = unboundExpr (unspanned e)
  | .int .. | .string .. | .bool .. | .ident _ | .misfit .. => rfl
  | .dot _ obj _ _ _ => by
    simp only [unboundExpr, unspanned, unspanned_unboundExpr obj]
    rfl
  | .assign _ target value => by
    simp only [unboundExpr, unspanned, unspanned_unboundExpr target, unspanned_unboundExpr value]
  | .call _ _ args => by
    simp only [unboundExpr, unspanned, unspannedAll_unboundExprs args]
    rfl
  | .unary _ _ operand => by simp only [unboundExpr, unspanned, unspanned_unboundExpr operand]
  | .binary _ _ left right => by
    simp only [unboundExpr, unspanned, unspanned_unboundExpr left, unspanned_unboundExpr right]

theorem unspannedAll_unboundExprs :
    ∀ es : List Expr, unspannedAll (unboundExprs es) = unboundExprs (unspannedAll es)
  | [] => rfl
  | e :: es => by
    simp only [unboundExprs, unspannedAll, unspanned_unboundExpr e, unspannedAll_unboundExprs es]

end

theorem unspanned_unboundVars (ds : List VarDecl) :
    (ds.map unboundVar).map unspannedVar = (ds.map unspannedVar).map unboundVar := by
  rw [List.map_map, List.map_map]
  rfl

mutual

theorem unspanned_unboundStmt :
    ∀ st : Stmt, unspannedStmt (unboundStmt st) = unboundStmt (unspannedStmt st)
  | .assign _ e | .increment _ e | .decrement _ e | .read _ e | .write _ e | .call _ e => by
    simp only [unboundStmt, unspannedStmt, unspanned_unboundExpr e]
  | .ret _ (some e) => by
    simp only [unboundStmt, unspannedStmt, Option.map_some, unspanned_unboundExpr e]
  | .ifThen _ cond body | .loop _ cond body => by
    simp only [unboundStmt, unspannedStmt, unspanned_unboundExpr cond, unspanned_unboundBlock body]
  | .ifElse _ cond body other => by
    simp only [unboundStmt, unspannedStmt, unspanned_unboundExpr cond, unspanned_unboundBlock body,
      unspanned_unboundBlock other]
  | .ret _ none | .misfit .. => rfl

theorem unspanned_unboundStmts :
    ∀ ss : List Stmt, unspannedStmts (unboundStmts ss) = unboundStmts (unspannedStmts ss)
  | [] => rfl
  | st :: ss => by
    simp only [unboundStmts, unspannedStmts, unspanned_unboundStmt st, unspanned_unboundStmts ss]

theorem unspanned_unboundBlock :
    ∀ b : Block, unspannedBlock (unboundBlock b) = unboundBlock (unspannedBlock b)
  | .mk _ decls body => by
    simp only [unboundBlock, unspannedBlock, unspanned_unboundVars, unspanned_unboundStmts body]

end

theorem unspanned_unboundDecl (d : Decl) : unspannedDecl (unboundDecl d) = unboundDecl (unspannedDecl d) := by
  cases d with
  | var d => rfl
  | struct d =>
    simp only [unboundDecl, unspannedDecl, unspanned_unboundVars]
    rfl
  | fn d =>
    simp only [unboundDecl, unspannedDecl, unspanned_unboundVars, unspanned_unboundBlock]
    rfl
  | misfit span kind => rfl

/-- Without bindings and places, a program is the same before and after its names are analysed. -/
theorem bare_unbound {ds ds' : List Decl} (h : ds'.map unboundDecl = ds.map unboundDecl) :
    (ds'.map bare.decl).map unboundDecl = (ds.map unspannedDecl).map unboundDecl := by
  have hcommute : ∀ es : List Decl, (es.map unspannedDecl).map unboundDecl =
      (es.map unboundDecl).map unspannedDecl := by
    intro es
    rw [List.map_map, List.map_map]
    exact List.map_congr_left fun d _ => (unspanned_unboundDecl d).symm
  rw [List.map_congr_left fun d _ => bare_decl d, hcommute, hcommute, h]

end Erasures

section Programs

variable {text file : String} {tokens : List Token} {a a' m : Analysis} {p r : Program}

/-- The names of a program that was read can be analysed, and nothing changes but what they are bound to. -/
theorem names_resolve (file : String) (hlex : Token.lex text = .ok tokens)
    (hparse : Program.ofTokens tokens = .ok p) :
    ∃ b q, (readFrom file p).resolveNames = (b, none) ∧ b.program = some q ∧
      q.decls.map unboundDecl = p.decls.map unboundDecl := by
  have hraw := raw_of_tokens (tokens_ok hlex) hparse
  exact ⟨_, _, resolveNames_eq (a := readFrom file p) rfl rfl hraw, rfl,
    Lexical.unbound_declsIn p.decls Resolution.outset⟩

/-- A program that was read is analysed like the program that it is without places. -/
theorem bare_sees (file : String) (hlex : Token.lex text = .ok tokens) (hparse : Program.ofTokens tokens = .ok p)
    (hr : r.decls = (p.decls.map unspannedDecl).map unboundDecl) :
    bare.Sees (Analysis.ofSource text file).result (readFrom file r).complete.result ∧
    (readFrom file r).complete.fault = (Analysis.ofSource text file).fault := by
  obtain ⟨b, q, hb, hq, hsame⟩ := names_resolve file hlex hparse
  have hraw := raw_of_tokens (tokens_ok hlex) hparse
  obtain ⟨hresult, hfault⟩ := ofSource_program file hlex hparse
  rw [hresult, hfault]
  have hr := hr.trans (bare_unbound hsame).symm
  refine sees_complete hraw ?_ hb hq (bare_faithful _) (.inl bare_plain) hr
  rw [hr]
  exact raw_of_seen id hraw hsame

/-- What is found out about a program that was read holds together, unless there are errors. -/
theorem source_analysed (file : String) (hlex : Token.lex text = .ok tokens)
    (hparse : Program.ofTokens tokens = .ok p) (hquiet : (Analysis.ofSource text file).result.hasErrors = false) :
    ∃ q globals, Analysed quoted (Analysis.ofSource text file).result q globals := by
  have hraw := raw_of_tokens (tokens_ok hlex) hparse
  rw [← quiet_iff] at hquiet
  rw [(ofSource_program file hlex hparse).1] at hquiet ⊢
  exact (completes (a := readFrom file p) rfl hraw rfl).analysed hquiet

/-- The code is the same without places, and so are the comments in it. -/
theorem bare_code (h : bare.Sees a m) (hp : a.program = some p) (hr : m.program = some r) :
    codeOf m r = codeOf a p := by
  have hcode := sees_code h hp hr fun x _ i u _ _ => bare_symbol i _
  rwa [bare_items, bare_items] at hcode

/-- Programs that are the same without places have the same code. -/
theorem same_assembly (h : bare.Sees a m) (h' : bare.Sees a' m)
    (hanalysed : a.hasErrors = false → ∃ p globals, Analysed quoted a p globals)
    (hanalysed' : a'.hasErrors = false → ∃ p globals, Analysed quoted a' p globals) (comments : Bool) :
    (a'.assembly comments).result = (a.assembly comments).result := by
  have herrors : a'.hasErrors = a.hasErrors := h'.hasErrors.symm.trans h.hasErrors
  cases hquiet : a.hasErrors with
  | true => rw [assembly_of_errors hquiet, assembly_of_errors (herrors.trans hquiet)]
  | false =>
    obtain ⟨p, globals, ha⟩ := hanalysed hquiet
    obtain ⟨p', globals', ha'⟩ := hanalysed' (herrors.trans hquiet)
    obtain ⟨r, hr, -⟩ := h.program ha.program
    refine assembly_of_code (v := bare) ha ha' hquiet (herrors.trans hquiet) ?_ fun items => by rw [bare_items]
    rw [bare_items, bare_items, ← bare_code h ha.program hr, bare_code h' ha'.program hr]

/-- What a diagnostic says without telling where. -/
def told (d : Diagnostic) : Severity × Option String × String := (d.severity, d.file, d.message)

/-- Two analyses have found out the same, places apart, and lead to the same code. -/
structure SameButPlaces (w w' : Worked Analysis) : Prop where
  fault : w'.fault = w.fault
  program : (w'.result.program.map fun p => p.decls.map unspannedDecl) =
    w.result.program.map fun p => p.decls.map unspannedDecl
  diagnostics : w'.result.diagnostics.map told = w.result.diagnostics.map told
  arena : w'.result.arena = w.result.arena
  globals : w'.result.globals = w.result.globals
  frames : w'.result.frames = w.result.frames
  code : ∀ comments, (w'.result.assembly comments).result = (w.result.assembly comments).result

/-- What is seen of the diagnostics without places is all that they say. -/
theorem told_of_sees (h : bare.Sees a m) : m.diagnostics.map told = a.diagnostics.map told := by
  have hseen : ∀ ds : List Diagnostic, ds.map told = (ds.map bare.diagnostic).map told := by
    intro ds
    rw [List.map_map]
    rfl
  rw [hseen, h.diagnostics, ← hseen]

theorem program_of_sees (h : bare.Sees a m) :
    m.program.map Program.decls = a.program.map fun p => p.decls.map unspannedDecl := by
  rw [h.decls, funext bare_decl]

/-- Analyses of one program without places differ in places only. -/
theorem same_of_sees {w w' : Worked Analysis} {fault : Option Fault} (h : bare.Sees w.result m)
    (h' : bare.Sees w'.result m) (hfault : fault = w.fault) (hfault' : fault = w'.fault)
    (hcode : ∀ comments, (w'.result.assembly comments).result = (w.result.assembly comments).result) :
    SameButPlaces w w' where
  fault := hfault'.symm.trans hfault
  program := (program_of_sees h').symm.trans (program_of_sees h)
  diagnostics := (told_of_sees h').symm.trans (told_of_sees h)
  arena := by rw [← bare_arena w'.result.arena, ← bare_arena w.result.arena, ← h'.arena, h.arena]
  globals := by
    have hglobals := h'.globals.symm.trans h.globals
    rwa [funext bare_table, Option.map_id', Option.map_id'] at hglobals
  frames := h'.frames.symm.trans h.frames
  code := hcode

end Programs

section Texts

variable {text text' : String} {tokens tokens' : List Token}

/-- The wording of an error tells of the token to blame what it is, and not where. -/
theorem message_congr {e e' : ParseError} (hcause : e'.cause = e.cause) (htoken : exactly e'.token = exactly e.token) :
    e'.message = e.message := by
  have hkind : e'.token.kind = e.token.kind := congrArg Piece.kind htoken
  have htext : e'.token.text = e.token.text := congrArg Piece.text htoken
  have hshown : e'.token.shown = e.token.shown := by rw [Token.shown, Token.shown, hkind, htext]
  rw [ParseError.message, ParseError.message, hcause, hshown, hkind, htext]

theorem ofSource_ungrammatical (file : String) {e : ParseError} (hlex : Token.lex text = .ok tokens)
    (hparse : Program.ofTokens tokens = .error e) :
    (Analysis.ofSource text file).fault = none ∧
    (Analysis.ofSource text file).result = Analysis.unreadable { file := some file } (.grammatical e)
      (Analysis.sourceName { file := some file }) e.token.start := by
  simp only [Analysis.ofSource, Analysis.ofText, hlex, hparse, and_self]

/-- The layout of the source is irrelevant. Texts whose tokens differ in nothing but places are analysed
alike: the passes say the same, find the same symbols, globals and frames, and give the same code, with
comments and without. -/
theorem layout_is_irrelevant (file : String) (hlex : Token.lex text = .ok tokens)
    (hlex' : Token.lex text' = .ok tokens') (htokens : tokens'.map exactly = tokens.map exactly) :
    SameButPlaces (Analysis.ofSource text file) (Analysis.ofSource text' file) := by
  have htogether := Tandem.ofTokens_together hlex htokens
  cases hparse : Program.ofTokens tokens with
  | ok p =>
    cases hparse' : Program.ofTokens tokens' with
    | ok p' =>
      rw [hparse, hparse'] at htogether
      have hdecls : p'.decls.map unspannedDecl = p.decls.map unspannedDecl := htogether
      let r : Program := { p with decls := (p.decls.map unspannedDecl).map unboundDecl }
      obtain ⟨hsees, hfault⟩ := bare_sees (r := r) file hlex hparse rfl
      obtain ⟨hsees', hfault'⟩ := bare_sees (r := r) file hlex' hparse' (by rw [hdecls])
      exact same_of_sees hsees hsees' hfault hfault'
        (same_assembly hsees hsees' (source_analysed file hlex hparse) (source_analysed file hlex' hparse'))
    | error e' =>
      rw [hparse, hparse'] at htogether
      exact htogether.elim
  | error e =>
    cases hparse' : Program.ofTokens tokens' with
    | ok p' =>
      rw [hparse, hparse'] at htogether
      exact htogether.elim
    | error e' =>
      rw [hparse, hparse'] at htogether
      obtain ⟨hcause, htoken⟩ := htogether
      obtain ⟨hfault, hresult⟩ := ofSource_ungrammatical file hlex hparse
      obtain ⟨hfault', hresult'⟩ := ofSource_ungrammatical file hlex' hparse'
      refine ⟨by rw [hfault, hfault'], ?_, ?_, ?_, ?_, ?_, ?_⟩ <;> rw [hresult, hresult']
      · rfl
      · show [(Severity.error, _, e'.message)] = [(Severity.error, _, e.message)]
        rw [message_congr hcause htoken]
        rfl
      · rfl
      · rfl
      · rfl
      · exact fun comments => rfl

def sameTokens (text text' : String) : Bool :=
  match Token.lex text, Token.lex text' with
  | .ok tokens, .ok tokens' => tokens'.map exactly = tokens.map exactly
  | _, _ => false

theorem tokens_of_sameTokens (h : sameTokens text text') : ∃ tokens tokens', Token.lex text = .ok tokens ∧
    Token.lex text' = .ok tokens' ∧ tokens'.map exactly = tokens.map exactly := by
  unfold sameTokens at h
  split at h
  next tokens tokens' hlex hlex' => exact ⟨tokens, tokens', hlex, hlex', of_decide_eq_true h⟩
  next => cases h

/-- A text with an unused result and a value that no type allows, in one line. -/
def inOneLine : String := "bool b;int f(int a){return a;}void main(){f(3);b=f(4)<5;b=f(6);}"

/-- The same tokens over some lines, with comments. -/
def spreadOut : String :=
  "bool b; // one flag\nint f(int a) \x7b\n\treturn a;\n\x7d\n\n## main\nvoid main() \x7b f(3);\n  b = f(4) < 5; b=\nf(6); \x7d\n"

/-- Both texts are blamed for the same assignment. -/
theorem spread_out_is_same : inOneLine ≠ spreadOut ∧
    SameButPlaces (Analysis.ofSource inOneLine "main.cmm") (Analysis.ofSource spreadOut "main.cmm") ∧
    ((Analysis.ofSource inOneLine "main.cmm").result.diagnostics.map told) =
      [(.error, some "main.cmm", "[TYP-0040] type mismatch: 'bool' vs 'int'")] := by
  have htokens : sameTokens inOneLine spreadOut := by decide +kernel
  obtain ⟨tokens, tokens', hlex, hlex', hsame⟩ := tokens_of_sameTokens htokens
  exact ⟨by decide, layout_is_irrelevant "main.cmm" hlex hlex' hsame, by decide +kernel⟩

end Texts

end CMinusMinus.Proofs.Places
