import CMinusMinus.Proofs.Correctness
import CMinusMinus.Proofs.Retracing

/-!
Analyses of programs that look alike. A program is analysed up to the bindings of its names, and what is
seen of it, without the bindings, is analysed as a program of its own. The passes find the same in both, and
write the same code, as far as it is seen.
-/
namespace CMinusMinus.Proofs.Views

open WellFormed Grammar Naming Resolution Verdicts
open Lexical (unboundIdent unboundVar unboundExpr unboundExprs unboundStmt unboundStmts unboundBlock
  unboundDecl)

/-- What is known about one program is what is seen of what is known about another. -/
structure View.Sees (v : View) (a a' : Analysis) : Prop where
  file : a'.file = a.file
  decls : a'.program.map Program.decls = a.program.map fun p => p.decls.map v.decl
  arena : a'.arena = v.arena a.arena
  globals : a'.globals = a.globals.map v.table
  frames : a'.frames = a.frames
  diagnostics : a'.diagnostics.map v.diagnostic = a.diagnostics.map v.diagnostic

variable {v : View} {lit : String → Prop} {a a' b : Analysis} {p p' q : Program} {file : String}

theorem View.Sees.program (h : v.Sees a a') (hp : a.program = some p) :
    ∃ p', a'.program = some p' ∧ p'.decls = p.decls.map v.decl := by
  have hdecls := h.decls
  rw [hp, Option.map_some] at hdecls
  exact Option.map_eq_some_iff.mp hdecls

/-- Errors are seen as errors. -/
theorem View.Sees.hasErrors (h : v.Sees a a') : a'.hasErrors = a.hasErrors := by
  have hseen : ∀ ds : List Diagnostic, (ds.map v.diagnostic).any Diagnostic.isError = ds.any Diagnostic.isError := by
    intro ds
    rw [List.any_map]
    rfl
  rw [Analysis.hasErrors, Analysis.hasErrors, ← hseen a'.diagnostics, h.diagnostics, hseen]

section Raw

theorem unboundIdent_of_raw {x : Ident} (h : RawIdent x) : unboundIdent x = x := by
  rw [unboundIdent, ← h.binding]

mutual

theorem unbound_of_raw : ∀ {e : Expr}, Raw lit e → unboundExpr e = e
  | .int .., _ | .string .., _ | .bool .., _ => rfl
  | .ident x, h => by rw [unboundExpr, unboundIdent_of_raw h]
  | .dot _ obj field _ _, h => by
    obtain ⟨-, -, hobj, hfield, rfl, rfl⟩ := h
    rw [unboundExpr, unbound_of_raw hobj, unboundIdent_of_raw hfield]
  | .assign _ target value, h => by rw [unboundExpr, unbound_of_raw h.2.2.1, unbound_of_raw h.2.2.2]
  | .call _ callee args, h => by rw [unboundExpr, unboundIdent_of_raw h.2.1, unbounds_of_raw h.2.2]
  | .unary _ _ operand, h => by rw [unboundExpr, unbound_of_raw h.2.2]
  | .binary _ _ left right, h => by rw [unboundExpr, unbound_of_raw h.2.2.1, unbound_of_raw h.2.2.2]

theorem unbounds_of_raw : ∀ {es : List Expr}, RawAll lit es → unboundExprs es = es
  | [], _ => rfl
  | e :: es, h => by rw [unboundExprs, unbound_of_raw h.1, unbounds_of_raw h.2]

end

theorem unboundVars_of_raw {ds : List VarDecl} (h : ∀ d ∈ ds, RawIdent d.name) : ds.map unboundVar = ds := by
  have hsame : ∀ d ∈ ds, unboundVar d = d := fun d hd => by rw [unboundVar, unboundIdent_of_raw (h d hd)]
  rw [List.map_congr_left hsame, List.map_id']

mutual

theorem unboundStmt_of_raw : ∀ {st : Stmt}, RawStmt lit st → unboundStmt st = st
  | .assign _ e, h | .increment _ e, h | .decrement _ e, h | .read _ e, h | .call _ e, h => by
    rw [unboundStmt, unbound_of_raw h.2]
  | .write _ e, h | .ret _ (some e), h => by rw [unboundStmt, unbound_of_raw h]
  | .ifThen _ cond body, h | .loop _ cond body, h => by
    rw [unboundStmt, unbound_of_raw h.1, unboundBlock_of_raw h.2]
  | .ifElse _ cond body other, h => by
    rw [unboundStmt, unbound_of_raw h.1, unboundBlock_of_raw h.2.1, unboundBlock_of_raw h.2.2]
  | .ret _ none, _ => rfl

theorem unboundStmts_of_raw : ∀ {ss : List Stmt}, RawStmts lit ss → unboundStmts ss = ss
  | [], _ => rfl
  | st :: ss, h => by rw [unboundStmts, unboundStmt_of_raw h.1, unboundStmts_of_raw h.2]

theorem unboundBlock_of_raw : ∀ {b : Block}, RawBlock lit b → unboundBlock b = b
  | .mk _ decls body, h => by
    rw [unboundBlock, unboundVars_of_raw fun d hd => (h.1 d hd).name, unboundStmts_of_raw h.2]

end

/-- What no analysis has seen has no bindings that could be taken away. -/
theorem unboundDecl_of_raw {d : Decl} (h : RawDecl lit d) : unboundDecl d = d := by
  cases d with
  | var d =>
    have hname : RawIdent d.name := RawVar.name h
    rw [unboundDecl, unboundVar, unboundIdent_of_raw hname]
  | struct d =>
    rw [unboundDecl, unboundIdent_of_raw h.1, unboundVars_of_raw fun f hf => (h.2.2 f hf).name]
  | fn d =>
    obtain ⟨hname, -, hformals, hbody⟩ := h
    rw [unboundDecl, unboundIdent_of_raw hname, unboundVars_of_raw fun f hf => (hformals f hf).name,
      unboundBlock_of_raw hbody]
  | misfit span kind => rfl

theorem unboundDecls_of_raw {ds : List Decl} (h : ∀ d ∈ ds, RawDecl lit d) : ds.map unboundDecl = ds := by
  rw [List.map_congr_left fun d hd => unboundDecl_of_raw (h d hd), List.map_id']

def Nameable (v : View) : Prop := ∀ {b n}, IsName n → IsName (v.name b n)

theorem isLocation_seen (e : Expr) : (unboundExpr (v.expr e)).isLocation = (unboundExpr e).isLocation := by
  cases e <;> rfl

theorem rawIdent_seen (hv : Nameable v) {x : Ident}
    (h : RawIdent (unboundIdent x)) : RawIdent (unboundIdent (v.ident x)) := ⟨hv h.name, rfl, h.ty⟩

mutual

theorem raw_seen (hv : Nameable v) :
    ∀ {e : Expr}, Raw lit (unboundExpr e) → Raw lit (unboundExpr (v.expr e))
  | .int .., h | .string .., h | .bool .., h => h
  | .ident _, h => rawIdent_seen hv h
  | .dot _ obj field _ _, h => by
    obtain ⟨hty, hlocation, hobj, hfield, -, -⟩ := h
    exact ⟨hty, (isLocation_seen obj).trans hlocation, raw_seen hv hobj, rawIdent_seen hv hfield, rfl, rfl⟩
  | .assign _ target value, h => by
    obtain ⟨hty, hlocation, htarget, hvalue⟩ := h
    exact ⟨hty, (isLocation_seen target).trans hlocation, raw_seen hv htarget, raw_seen hv hvalue⟩
  | .call _ callee args, h => ⟨h.1, rawIdent_seen hv h.2.1, raws_seen hv h.2.2⟩
  | .unary _ _ operand, h => ⟨h.1, h.2.1, raw_seen hv h.2.2⟩
  | .binary _ _ left right, h => ⟨h.1, h.2.1, raw_seen hv h.2.2.1, raw_seen hv h.2.2.2⟩

theorem raws_seen (hv : Nameable v) :
    ∀ {es : List Expr}, RawAll lit (unboundExprs es) → RawAll lit (unboundExprs (v.exprs es))
  | [], _ => trivial
  | _ :: _, h => ⟨raw_seen hv h.1, raws_seen hv h.2⟩

end

theorem isAssign_seen {e : Expr} (h : ∃ note target value, unboundExpr e = .assign note target value) :
    ∃ note target value, unboundExpr (v.expr e) = .assign note target value := by
  obtain ⟨note, target, value, he⟩ := h
  cases e with
  | assign => exact ⟨_, _, _, rfl⟩
  | _ => cases he

theorem isCall_seen {e : Expr} (h : ∃ note callee args, unboundExpr e = .call note callee args) :
    ∃ note callee args, unboundExpr (v.expr e) = .call note callee args := by
  obtain ⟨note, callee, args, he⟩ := h
  cases e with
  | call => exact ⟨_, _, _, rfl⟩
  | _ => cases he

theorem rawVar_seen (hv : Nameable v) {d : VarDecl} (h : RawVar (unboundVar d)) :
    RawVar (unboundVar (v.var d)) := ⟨rawIdent_seen hv h.name, h.type, h.struct⟩

theorem rawFormal_seen (hv : Nameable v) {d : VarDecl}
    (h : RawFormal (unboundVar d)) : RawFormal (unboundVar (v.var d)) :=
  ⟨rawIdent_seen hv h.name, h.type.word, h.type.plain⟩

mutual

theorem rawStmt_seen (hv : Nameable v) :
    ∀ {st : Stmt}, RawStmt lit (unboundStmt st) → RawStmt lit (unboundStmt (v.stmt st))
  | .assign _ _, h => ⟨isAssign_seen h.1, raw_seen hv h.2⟩
  | .call _ _, h => ⟨isCall_seen h.1, raw_seen hv h.2⟩
  | .increment _ e, h | .decrement _ e, h | .read _ e, h =>
    ⟨(isLocation_seen e).trans h.1, raw_seen hv h.2⟩
  | .write _ e, h => raw_seen (e := e) hv h
  | .ret _ (some e), h => raw_seen (e := e) hv h
  | .ifThen _ _ _, h | .loop _ _ _, h => ⟨raw_seen hv h.1, rawBlock_seen hv h.2⟩
  | .ifElse _ _ _ _, h => ⟨raw_seen hv h.1, rawBlock_seen hv h.2.1, rawBlock_seen hv h.2.2⟩
  | .ret _ none, _ => trivial

theorem rawStmts_seen (hv : Nameable v) :
    ∀ {ss : List Stmt}, RawStmts lit (unboundStmts ss) → RawStmts lit (unboundStmts (v.stmts ss))
  | [], _ => trivial
  | _ :: _, h => ⟨rawStmt_seen hv h.1, rawStmts_seen hv h.2⟩

theorem rawBlock_seen (hv : Nameable v) :
    ∀ {b : Block}, RawBlock lit (unboundBlock b) → RawBlock lit (unboundBlock (v.block b))
  | .mk _ decls body, h => by
    obtain ⟨hdecls, hbody⟩ := h
    have hseen : ∀ d ∈ (decls.map v.var).map unboundVar, RawVar d := by
      rw [List.map_map, List.forall_mem_map]
      rw [List.forall_mem_map] at hdecls
      exact fun d hd => rawVar_seen hv (hdecls d hd)
    exact ⟨hseen, rawStmts_seen hv hbody⟩

end

/-- With names that can be written, a program keeps the grammar's shape. -/
theorem rawDecl_seen (hv : Nameable v) {d : Decl} (h : RawDecl lit (unboundDecl d)) :
    RawDecl lit (unboundDecl (v.decl d)) := by
  cases d with
  | var d => exact ⟨⟨h.name.name, rfl, h.name.ty⟩, h.type, h.struct⟩
  | struct d =>
    obtain ⟨hname, hnonempty, hfields⟩ := h
    have hseen : ∀ f ∈ (d.fields.map v.var).map unboundVar, RawVar f := by
      rw [List.map_map, List.forall_mem_map]
      rw [List.forall_mem_map] at hfields
      exact fun f hf => rawVar_seen hv (hfields f hf)
    refine ⟨⟨hname.name, rfl, hname.ty⟩, ?_, hseen⟩
    simpa [View.decl] using hnonempty
  | fn d =>
    obtain ⟨hname, hresult, hformals, hbody⟩ := h
    have hseen : ∀ f ∈ (d.formals.map v.var).map unboundVar, RawFormal f := by
      rw [List.map_map, List.forall_mem_map]
      rw [List.forall_mem_map] at hformals
      exact fun f hf => rawFormal_seen hv (hformals f hf)
    exact ⟨⟨hname.name, rfl, hname.ty⟩, ⟨hresult.word, hresult.plain⟩, hseen, rawBlock_seen hv hbody⟩
  | misfit span kind => exact h.elim

/-- What is seen of an analysed program has the grammar's shape. -/
theorem raw_of_seen (hv : Nameable v) (hraw : ∀ d ∈ p.decls, RawDecl lit d)
    (hsame : q.decls.map unboundDecl = p.decls.map unboundDecl) :
    ∀ d ∈ (q.decls.map v.decl).map unboundDecl, RawDecl lit d := by
  have hunbound : ∀ d ∈ q.decls.map unboundDecl, RawDecl lit d := by
    rw [hsame, unboundDecls_of_raw hraw]
    exact hraw
  rw [List.forall_mem_map] at hunbound
  rw [List.map_map, List.forall_mem_map]
  exact fun d hd => rawDecl_seen hv (hunbound d hd)

end Raw

section Names

theorem tagged_outset : Tagged outset := ⟨labelled_empty _, fun hd => by simp [outset, get?_empty] at hd⟩

/-- What is seen of a program whose names have been analysed is analysed in the same way. -/
theorem sees_names (hraw : ∀ d ∈ p.decls, RawDecl lit d)
    (hv : v.Faithful (shape (declsIn outset p.decls).2.arena)) (hhushed : v.Hushed (declsSay outset p.decls))
    (hp' : p'.decls = ((declsIn outset p.decls).1.map v.decl).map unboundDecl) :
    declsIn outset p'.decls = ((declsIn outset p.decls).1.map v.decl, v.sight (declsIn outset p.decls).2) ∧
    v.Echoes (declsSay outset p.decls) (declsSay outset p'.decls) := by
  rw [hp']
  exact declsIn_seen hv hraw tagged_outset rfl (fun _ _ h => h) hhushed

end Names

section Whole

variable {ds ds' : List Decl} {s s' : Names.State}

/-- The passes after name analysis find the same in what is seen of a program. -/
theorem sees_framed (h : v.Sees (namedAs a p ds s) (namedAs a' p' ds' s')) :
    v.Sees (framedAs a p ds s) (framedAs a' p' ds' s') := by
  obtain rfl : ds' = ds.map v.decl := Option.some.inj h.decls
  have harena : s'.arena = v.arena s.arena := h.arena
  obtain ⟨hdecls, hechoes⟩ := decls_typed (v := v) s.arena ds
  rw [← harena] at hdecls hechoes
  have hstart : framesStart (typedAs a' p' (ds.map v.decl) s') = v.layout (framesStart (typedAs a p ds s)) := by
    have hfile : a'.file = a.file := h.file
    have hframes : a'.frames = a.frames := h.frames
    simp only [framesStart, typedAs, namedAs, View.layout, hfile, harena, hframes]
  have hlaid := laidOut_decls (v := v) (framesStart (typedAs a p ds s)) (ds.map (typedDecl s.arena))
  rw [← hdecls, ← hstart] at hlaid
  have hframes := congrArg Frames.State.frames hlaid
  refine ⟨h.file, congrArg some hdecls, congrArg Frames.State.arena hlaid, h.globals, hframes, ?_⟩
  have hfile : a'.file = a.file := h.file
  have hbefore : v.Echoes s.diagnostics s'.diagnostics := h.diagnostics
  show v.Echoes (_ ++ _) (_ ++ (programRemarks _ _).map (about a'.file))
  rw [hfile]
  exact hbefore.append hechoes.about

/-- Only a frame whose size cannot be written stops the analysis at its end. -/
theorem complete_fault (h : Passed lit a p ds s) :
    a.complete.fault = if a.complete.result.frames.all fun (_, size) => Text.isWritable size then none
      else some .numeralTooLong := by
  rw [h.result]
  simp only [Analysis.complete, h.names, h.types, h.layout]
  split <;> rfl

/-- The passes find the same in what is seen of a program. -/
theorem sees_complete (hraw : ∀ d ∈ p.decls, RawDecl lit d) (hraw' : ∀ d ∈ p'.decls, RawDecl lit d)
    (hb : (readFrom file p).resolveNames = (b, none))
    (hq : b.program = some q) (hv : v.Faithful (shape b.arena)) (hquiet : v.Plain ∨ Quiet b.diagnostics)
    (hp' : p'.decls = (q.decls.map v.decl).map unboundDecl) :
    v.Sees (readFrom file p).complete.result (readFrom file p').complete.result ∧
    (readFrom file p').complete.fault = (readFrom file p).complete.fault := by
  have hpassed := passes (a := readFrom file p) rfl hraw rfl
  have hpassed' := passes (a := readFrom file p') rfl hraw' rfl
  obtain rfl := congrArg Prod.fst (hb.symm.trans hpassed.names)
  obtain rfl := Option.some.inj hq
  have hhushed : v.Hushed (declsSay outset p.decls) := by
    refine hquiet.imp_right fun hquiet => ?_
    rwa [← quiet_about, ← List.nil_append (List.map _ _)]
  obtain ⟨hseen, hechoes⟩ := sees_names hraw hv hhushed hp'
  obtain ⟨hdecls, hsight⟩ := Prod.mk.inj hseen
  obtain ⟨htable, harena⟩ := Sight.mk.inj hsight
  have hsees : v.Sees (readFrom file p).complete.result (readFrom file p').complete.result := by
    rw [hpassed.result, hpassed'.result]
    exact sees_framed ⟨rfl, congrArg some hdecls, harena, congrArg some htable, rfl, hechoes.about⟩
  refine ⟨hsees, ?_⟩
  rw [complete_fault hpassed, complete_fault hpassed', hsees.frames]

end Whole

section Code

open Assembly Code

/-- The code of what is seen of a program is what is seen of its code. -/
theorem sees_code (h : v.Sees a a') (hp : a.program = some p) (hp' : a'.program = some p')
    (hkept : ∀ x, .var x ∈ p.decls → v.Kept a.arena x.name) :
    (codeOf a' p').map v.item = (codeOf a p).map v.item := by
  obtain ⟨r, hr, hdecls⟩ := h.program hp
  obtain rfl := Option.some.inj (hp'.symm.trans hr)
  have henv : envOf a' = v.env (envOf a) := by
    rw [envOf, h.file, h.arena, h.frames]
    rfl
  rw [codeOf, henv, hdecls]
  exact decls_seen p.decls hkept _

theorem writable_seen (items : List Item) : Writable (items.map v.item) ↔ Writable items := by
  have hnumbers : ∀ i : Item, (v.item i).numbers = i.numbers := by
    intro i
    cases i <;> rfl
  simp [Writable, hnumbers]

variable {globals globals' : Scope} {comments : Bool}

open scoped Classical in
theorem assembly_result (h : Analysed lit a p globals) (hquiet : a.hasErrors = false) :
    (a.assembly comments).result =
      if Writable (codeOf a p) then some (render comments (linesOf (codeOf a p))) else none := by
  obtain ⟨hdone, hstopped⟩ := lower_of_analysed h hquiet
  split
  · rename_i hwritable
    simp only [Analysis.assembly, hdone hwritable]
  · rename_i hwritable
    simp only [Analysis.assembly, hstopped hwritable]

theorem assembly_of_errors (h : a.hasErrors = true) : (a.assembly comments).result = none := by
  cases hp : a.program <;> simp only [Analysis.assembly, Analysis.lower, hp, h, if_true]

open scoped Classical in
/-- Code of which the same is seen is written alike, if what is seen of code is written like the code. -/
theorem assembly_of_code (h : Analysed lit a p globals) (h' : Analysed lit a' p' globals')
    (hquiet : a.hasErrors = false) (hquiet' : a'.hasErrors = false)
    (hcode : (codeOf a' p').map v.item = (codeOf a p).map v.item)
    (hrender : ∀ items, render comments (linesOf (items.map v.item)) = render comments (linesOf items)) :
    (a'.assembly comments).result = (a.assembly comments).result := by
  have hwritable : Writable (codeOf a' p') ↔ Writable (codeOf a p) := by
    rw [← writable_seen (v := v), hcode, writable_seen]
  have htext : render comments (linesOf (codeOf a' p')) = render comments (linesOf (codeOf a p)) := by
    rw [← hrender, hcode, hrender]
  rw [assembly_result h hquiet, assembly_result h' hquiet']
  exact if_congr hwritable (congrArg some htext) rfl

end Code

end CMinusMinus.Proofs.Views
