import CMinusMinus.Proofs.Scoping
import CMinusMinus.Proofs.Resolution

/-!
Programs with expressions replaced by a name that is declared nowhere. The same is in sight at every place
of such a program and of the original one, since expressions declare nothing. What name analysis makes of
the two differs in the replaced names, which stand for nothing, and in the field accesses on top of them,
which are given up without another error.
-/
namespace CMinusMinus.Proofs.Cascades

open Names WellFormed Grammar Naming
open Resolution

/-- What may differ between two trees of one form: the identifiers that stand in place of expressions,
what is known about expressions, and what is known about field accesses. -/
structure Difference where
  hole : Option Span → Ident → Prop
  note : Note → Note → Prop
  access : Ident × Option Int × Bool → Ident × Option Int × Bool → Prop

section Trees

variable (δ : Difference)

def Hole (e e' : Expr) : Prop := ∃ x, e' = .ident x ∧ δ.hole e.span x

/-- Two names of functions in calls: one stands in place of the other, or they are the same name. -/
def CalleeDiffers (x x' : Ident) : Prop :=
  δ.hole x.note.span x' ∨ ∃ note, x' = { x with note } ∧ δ.note x.note note

mutual

/-- Two expressions have the same form at the root, and may differ further in. -/
def Inside : Expr → Expr → Prop
  | .int note value, e' => ∃ note', e' = .int note' value ∧ δ.note note note'
  | .string note text, e' => ∃ note', e' = .string note' text ∧ δ.note note note'
  | .bool note value, e' => ∃ note', e' = .bool note' value ∧ δ.note note note'
  | .ident x, e' => ∃ note, e' = .ident { x with note } ∧ δ.note x.note note
  | .dot note obj field reached bad, e' => ∃ note' obj' field' reached' bad',
      e' = .dot note' obj' field' reached' bad' ∧ δ.note note note' ∧
      (Hole δ obj obj' ∨ Inside obj obj') ∧ δ.access (field, reached, bad) (field', reached', bad')
  | .assign note target value, e' => ∃ note' target' value', e' = .assign note' target' value' ∧
      δ.note note note' ∧ (Hole δ target target' ∨ Inside target target') ∧
      (Hole δ value value' ∨ Inside value value')
  | .call note callee args, e' => ∃ note' callee' args', e' = .call note' callee' args' ∧
      δ.note note note' ∧ CalleeDiffers δ callee callee' ∧ InsideAll args args'
  | .unary note op operand, e' => ∃ note' operand', e' = .unary note' op operand' ∧
      δ.note note note' ∧ (Hole δ operand operand' ∨ Inside operand operand')
  | .binary note op left right, e' => ∃ note' left' right', e' = .binary note' op left' right' ∧
      δ.note note note' ∧ (Hole δ left left' ∨ Inside left left') ∧
      (Hole δ right right' ∨ Inside right right')
  | .misfit note kind, e' => ∃ note', e' = .misfit note' kind ∧ δ.note note note'

def InsideAll : List Expr → List Expr → Prop
  | [], es' => es' = []
  | e :: es, es' => ∃ e' rest, es' = e' :: rest ∧ (Hole δ e e' ∨ Inside e e') ∧ InsideAll es rest

end

def Differs (e e' : Expr) : Prop := Hole δ e e' ∨ Inside δ e e'

mutual

/-- Two statements differ in their expressions. What stands alone as a statement keeps its form. -/
def StmtDiffers : Stmt → Stmt → Prop
  | .assign span e, st' => ∃ e', st' = .assign span e' ∧ Inside δ e e'
  | .increment span e, st' => ∃ e', st' = .increment span e' ∧ Differs δ e e'
  | .decrement span e, st' => ∃ e', st' = .decrement span e' ∧ Differs δ e e'
  | .read span e, st' => ∃ e', st' = .read span e' ∧ Differs δ e e'
  | .write span e, st' => ∃ e', st' = .write span e' ∧ Differs δ e e'
  | .ifThen span cond body, st' => ∃ cond' body', st' = .ifThen span cond' body' ∧
      Differs δ cond cond' ∧ BlockDiffers body body'
  | .ifElse span cond body other, st' => ∃ cond' body' other',
      st' = .ifElse span cond' body' other' ∧ Differs δ cond cond' ∧ BlockDiffers body body' ∧
      BlockDiffers other other'
  | .loop span cond body, st' => ∃ cond' body', st' = .loop span cond' body' ∧
      Differs δ cond cond' ∧ BlockDiffers body body'
  | .call span e, st' => ∃ e', st' = .call span e' ∧ Inside δ e e'
  | .ret span none, st' => st' = .ret span none
  | .ret span (some e), st' => ∃ e', st' = .ret span (some e') ∧ Differs δ e e'
  | .misfit span kind, st' => st' = .misfit span kind

def StmtsDiffer : List Stmt → List Stmt → Prop
  | [], ss' => ss' = []
  | st :: ss, ss' => ∃ st' rest, ss' = st' :: rest ∧ StmtDiffers st st' ∧ StmtsDiffer ss rest

def BlockDiffers : Block → Block → Prop
  | .mk span decls body, b' => ∃ body', b' = .mk span decls body' ∧ StmtsDiffer body body'

end

/-- Two declarations at the top of a program differ in the body of a function. -/
def DeclDiffers : Decl → Decl → Prop
  | .fn d, d' => ∃ body, d' = .fn { d with body } ∧ BlockDiffers δ d.body body
  | d, d' => d' = d

/-- Declarations differ one by one. -/
def DeclsDiffer : List Decl → List Decl → Prop
  | [], ds' => ds' = []
  | d :: ds, ds' => ∃ d' rest, ds' = d' :: rest ∧ DeclDiffers δ d d' ∧ DeclsDiffer ds rest

end Trees

/-- Expressions are replaced by a name, which stands where they stood. -/
def replaced (name : String) : Difference where
  hole span x := x = { note := { span }, name }
  note n n' := n' = n
  access a a' := a' = a

/-- The name stands for nothing, and accesses to fields may be given up. -/
def poisoned (name : String) : Difference where
  hole span x := x = { note := { span }, name, binding := .unresolved }
  note n n' := n' = n
  access a a' := a' = a ∨ a' = ({ a.1 with binding := .unresolved }, none, true)

section Raw

variable {lit : String → Prop} {name : String}

theorem rawIdent_hole (hname : IsName name) (span : Option Span) :
    RawIdent { note := { span }, name } := ⟨hname, rfl, rfl⟩

/-- An expression is raw if the name stands in its place, or if it is raw further in. -/
theorem raw_either (hname : IsName name) {e e' : Expr}
    (hinside : Inside (replaced name) e e' → Raw lit e' ∧ SameForm e e')
    (h : Differs (replaced name) e e') : Raw lit e' ∧ (e.isLocation → e'.isLocation) := by
  rcases h with ⟨x, rfl, rfl⟩ | h
  · rw [Raw]
    exact ⟨rawIdent_hole hname _, fun _ => rfl⟩
  · exact ⟨(hinside h).1, (hinside h).2.location⟩

mutual

/-- An expression with names in place of others is raw and keeps its form. -/
theorem raw_inside (hname : IsName name) : (e : Expr) → Raw lit e → ∀ {e' : Expr},
    Inside (replaced name) e e' → Raw lit e' ∧ SameForm e e'
  | .int note value, hraw, e', h | .string note text, hraw, e', h | .bool note value, hraw, e', h
  | .ident x, hraw, e', h => by
    obtain ⟨_, rfl, rfl⟩ := h
    exact ⟨hraw, id, id, id⟩
  | .dot note obj field reached bad, hraw, e', h => by
    obtain ⟨_, obj', _, _, _, rfl, rfl, hobj, ⟨⟩⟩ := h
    obtain ⟨hnote, hlocation, hraw, hfield⟩ := hraw
    obtain ⟨hraw', hlocation'⟩ := raw_either hname (raw_inside hname obj hraw) hobj
    exact ⟨⟨hnote, hlocation' hlocation, hraw', hfield⟩, fun _ => rfl, by simp, by simp⟩
  | .assign note target value, hraw, e', h => by
    obtain ⟨_, target', value', rfl, rfl, htarget, hvalue⟩ := h
    obtain ⟨hnote, hlocation, hrawTarget, hrawValue⟩ := hraw
    obtain ⟨hraw', hlocation'⟩ := raw_either hname (raw_inside hname target hrawTarget) htarget
    exact ⟨⟨hnote, hlocation' hlocation, hraw',
      (raw_either hname (raw_inside hname value hrawValue) hvalue).1⟩,
      by simp [Expr.isLocation], by simp, by simp⟩
  | .call note callee args, hraw, e', h => by
    obtain ⟨_, callee', args', rfl, rfl, hcallee, hargs⟩ := h
    refine ⟨⟨hraw.1, ?_, raw_insideAll hname args hraw.2.2 hargs⟩, by simp [Expr.isLocation], by simp,
      by simp⟩
    rcases hcallee with rfl | ⟨_, rfl, rfl⟩
    · exact rawIdent_hole hname _
    · exact hraw.2.1
  | .unary note op operand, hraw, e', h => by
    obtain ⟨_, operand', rfl, rfl, hoperand⟩ := h
    exact ⟨⟨hraw.1, hraw.2.1, (raw_either hname (raw_inside hname operand hraw.2.2) hoperand).1⟩,
      by simp [Expr.isLocation], by simp, by simp⟩
  | .binary note op left right, hraw, e', h => by
    obtain ⟨_, left', right', rfl, rfl, hleft, hright⟩ := h
    exact ⟨⟨hraw.1, hraw.2.1, (raw_either hname (raw_inside hname left hraw.2.2.1) hleft).1,
      (raw_either hname (raw_inside hname right hraw.2.2.2) hright).1⟩,
      by simp [Expr.isLocation], by simp, by simp⟩
  | .misfit .., hraw, e', h => hraw.elim

theorem raw_insideAll (hname : IsName name) : (es : List Expr) → RawAll lit es → ∀ {es' : List Expr},
    InsideAll (replaced name) es es' → RawAll lit es'
  | [], _, es', h => by
    rw [h, RawAll]
    trivial
  | e :: es, hraw, es', h => by
    obtain ⟨e', rest, rfl, he, hes⟩ := h
    exact ⟨(raw_either hname (raw_inside hname e hraw.1) he).1, raw_insideAll hname es hraw.2 hes⟩

end

theorem raw_differs (hname : IsName name) {e e' : Expr} (hraw : Raw lit e) :
    Differs (replaced name) e e' → Raw lit e' ∧ (e.isLocation → e'.isLocation) :=
  raw_either hname (raw_inside hname e hraw)

mutual

theorem raw_stmt (hname : IsName name) : (st : Stmt) → RawStmt lit st → ∀ {st' : Stmt},
    StmtDiffers (replaced name) st st' → RawStmt lit st'
  | .assign span e, hraw, st', h => by
    obtain ⟨e', rfl, he⟩ := h
    obtain ⟨hraw', hform⟩ := raw_inside hname e hraw.2 he
    exact ⟨hform.assign hraw.1, hraw'⟩
  | .call span e, hraw, st', h => by
    obtain ⟨e', rfl, he⟩ := h
    obtain ⟨hraw', hform⟩ := raw_inside hname e hraw.2 he
    exact ⟨hform.call hraw.1, hraw'⟩
  | .increment span e, hraw, st', h | .decrement span e, hraw, st', h | .read span e, hraw, st', h => by
    obtain ⟨e', rfl, he⟩ := h
    obtain ⟨hraw', hlocation⟩ := raw_differs hname hraw.2 he
    exact ⟨hlocation hraw.1, hraw'⟩
  | .write span e, hraw, st', h | .ret span (some e), hraw, st', h => by
    obtain ⟨e', rfl, he⟩ := h
    exact (raw_differs hname hraw he).1
  | .ifThen span cond body, hraw, st', h | .loop span cond body, hraw, st', h => by
    obtain ⟨cond', body', rfl, hcond, hbody⟩ := h
    exact ⟨(raw_differs hname hraw.1 hcond).1, raw_block hname body hraw.2 hbody⟩
  | .ifElse span cond body other, hraw, st', h => by
    obtain ⟨cond', body', other', rfl, hcond, hbody, hother⟩ := h
    exact ⟨(raw_differs hname hraw.1 hcond).1, raw_block hname body hraw.2.1 hbody,
      raw_block hname other hraw.2.2 hother⟩
  | .ret span none, hraw, st', h => by
    rw [h]
    exact hraw
  | .misfit .., hraw, st', h => hraw.elim

theorem raw_stmts (hname : IsName name) : (ss : List Stmt) → RawStmts lit ss → ∀ {ss' : List Stmt},
    StmtsDiffer (replaced name) ss ss' → RawStmts lit ss'
  | [], hraw, ss', h => by
    rw [h]
    exact hraw
  | st :: ss, hraw, ss', h => by
    obtain ⟨st', rest, rfl, hst, hss⟩ := h
    exact ⟨raw_stmt hname st hraw.1 hst, raw_stmts hname ss hraw.2 hss⟩

theorem raw_block (hname : IsName name) : (b : Block) → RawBlock lit b → ∀ {b' : Block},
    BlockDiffers (replaced name) b b' → RawBlock lit b'
  | .mk span decls body, hraw, b', h => by
    obtain ⟨body', rfl, hbody⟩ := h
    exact ⟨hraw.1, raw_stmts hname body hraw.2 hbody⟩

end

/-- A program with names in place of expressions is one that no analysis has seen. -/
theorem raw_decls (hname : IsName name) {ds : List Decl} (hraw : ∀ d ∈ ds, RawDecl lit d) :
    ∀ {ds' : List Decl}, DeclsDiffer (replaced name) ds ds' → ∀ d ∈ ds', RawDecl lit d := by
  induction ds with
  | nil =>
    rintro _ rfl
    exact hraw
  | cons d ds ih =>
    rintro _ ⟨d', rest, rfl, hd, hds⟩
    rw [List.forall_mem_cons] at hraw ⊢
    refine ⟨?_, ih hraw.2 hds⟩
    cases d with
    | fn d =>
      obtain ⟨body, rfl, hbody⟩ := hd
      exact ⟨hraw.1.1, hraw.1.2.1, hraw.1.2.2.1, raw_block hname d.body hraw.1.2.2.2 hbody⟩
    | var d => exact hd ▸ hraw.1
    | struct d => exact hd ▸ hraw.1
    | misfit span kind => exact hd ▸ hraw.1

end Raw

section Walk

variable {name : String} {w : Sight}

/-- No scope has the name. -/
def Absent (name : String) (t : SymbolTable) : Prop := ∀ scope ∈ t.scopes, ∀ p ∈ scope, p.1 ≠ name

theorem Absent.find {t : SymbolTable} (h : Absent name t) : t.find? name = none := by
  rw [SymbolTable.find?, List.findSome?_eq_none_iff]
  intro scope hscope
  rw [List.lookup_eq_none_iff]
  intro p hp
  have := h scope hscope p hp
  simpa using this.symm

theorem Absent.push {t : SymbolTable} (h : Absent name t) : Absent name t.push :=
  List.forall_mem_cons.mpr ⟨by simp, h⟩

theorem Absent.declare {t t' : SymbolTable} {x : String} (h : Absent name t) (hx : x ≠ name) (hdeclares : Declares x t t') :
    Absent name t' := by
  rcases hdeclares with rfl | ⟨i, rfl⟩
  · exact h
  · obtain ⟨scopes, frozen⟩ := t
    cases scopes with
    | nil => exact h
    | cons scope outer =>
      have h := List.forall_mem_cons.mp h
      exact List.forall_mem_cons.mpr ⟨List.forall_mem_append.mpr ⟨h.1, by simpa using hx⟩, h.2⟩

theorem Absent.all {f : Sight → VarDecl → VarDecl × Sight}
    (hf : ∀ w d, Declares d.name.name w.table (f w d).2.table) {ds : List VarDecl}
    (hds : ∀ d ∈ ds, d.name.name ≠ name) : ∀ {w : Sight}, Absent name w.table →
      Absent name (allIn f w ds).2.table := by
  induction ds with
  | nil => exact id
  | cons d ds ih =>
    intro w h
    rw [List.forall_mem_cons] at hds
    exact ih hds.2 (h.declare hds.1 (hf w d))

/-- The name that is declared nowhere stands for nothing. -/
theorem bound_absent (h : Absent name w.table) (span : Option Span) :
    bound w { note := { span }, name } = { note := { span }, name, binding := .unresolved } := by
  simp [bound, h.find]

theorem span_resolved (e : Expr) : (resolved w e).span = e.span := by cases e <;> rfl

/-- The function of a call is looked up, or the name in its place. -/
theorem bound_callee (h : Absent name w.table) {x x' : Ident} (hdiffers : CalleeDiffers (replaced name) x x') :
    CalleeDiffers (poisoned name) (bound w x) (bound w x') := by
  rcases hdiffers with rfl | ⟨_, rfl, rfl⟩
  · exact .inl (bound_absent h _)
  · exact .inr ⟨_, rfl, rfl⟩

/-- The struct that the object of an access offers is the same in both, or none after an error. -/
theorem owner_differs (arena : Arena) {obj obj' : Expr} (hdiffers : Differs (poisoned name) obj obj') :
    ownerOf arena obj' = ownerOf arena obj ∨ ownerOf arena obj' = none := by
  rcases hdiffers with ⟨x, rfl, rfl⟩ | hinside
  · exact .inr rfl
  cases obj <;> rw [Inside] at hinside
  case ident x =>
    obtain ⟨_, rfl, rfl⟩ := hinside
    exact .inl rfl
  case dot note inner field reached bad =>
    obtain ⟨_, inner', field', reached', bad', rfl, -, -, hsame | hpoisoned⟩ := hinside
    · -- the struct is recorded on the access itself
      obtain ⟨-, hrest⟩ := Prod.mk.inj hsame
      obtain ⟨rfl, rfl⟩ := Prod.mk.inj hrest
      exact .inl rfl
    · obtain ⟨-, hrest⟩ := Prod.mk.inj hpoisoned
      obtain ⟨rfl, rfl⟩ := Prod.mk.inj hrest
      exact .inr rfl
  all_goals
    left
    obtain ⟨_, h⟩ := hinside
    first
    | (obtain ⟨rfl, -⟩ := h; rfl)
    | (obtain ⟨_, rfl, -⟩ := h; rfl)
    | (obtain ⟨_, _, rfl, -⟩ := h; rfl)

/-- A field is looked up in both, or given up. -/
theorem access_differs (arena : Arena) (note : Note) {obj obj' : Expr} (field : Ident)
    (hdiffers : Differs (poisoned name) obj obj') :
    Inside (poisoned name) (access arena note obj field) (access arena note obj' field) := by
  rw [access, Inside]
  refine ⟨note, obj', _, _, _, rfl, rfl, hdiffers, ?_⟩
  rcases owner_differs arena hdiffers with hsame | hnone
  · exact .inl (by rw [hsame])
  · right
    have hfield : { (accessIn arena (ownerOf arena obj) field).1 with binding := .unresolved } =
        { field with binding := .unresolved } := by
      unfold accessIn
      split <;> rfl
    rw [hnone]
    simp only [hfield]
    rfl

/-- An expression is looked up in both, or the name in its place. -/
theorem resolved_either (h : Absent name w.table) {e e' : Expr}
    (hinside : Inside (replaced name) e e' → Inside (poisoned name) (resolved w e) (resolved w e'))
    (hdiffers : Differs (replaced name) e e') : Differs (poisoned name) (resolved w e) (resolved w e') := by
  rcases hdiffers with ⟨x, rfl, rfl⟩ | hsame
  · exact .inl ⟨_, congrArg Expr.ident (bound_absent h _), by rw [span_resolved]; rfl⟩
  · exact .inr (hinside hsame)

mutual

/-- An expression is looked up in both. -/
theorem resolved_inside (h : Absent name w.table) : (e : Expr) → ∀ {e' : Expr},
    Inside (replaced name) e e' → Inside (poisoned name) (resolved w e) (resolved w e')
  | .int note value, e', hsame | .string note text, e', hsame | .bool note value, e', hsame
  | .ident x, e', hsame | .misfit note kind, e', hsame => by
    obtain ⟨_, rfl, rfl⟩ := hsame
    simp only [resolved, Inside]
    exact ⟨_, rfl, rfl⟩
  | .dot note obj field reached bad, e', hsame => by
    obtain ⟨_, obj', _, _, _, rfl, rfl, hobj, ⟨⟩⟩ := hsame
    exact access_differs w.arena _ _ (resolved_either h (resolved_inside h obj) hobj)
  | .assign note target value, e', hsame => by
    obtain ⟨_, target', value', rfl, rfl, htarget, hvalue⟩ := hsame
    simp only [resolved, Inside]
    exact ⟨_, _, _, rfl, rfl, resolved_either h (resolved_inside h target) htarget,
      resolved_either h (resolved_inside h value) hvalue⟩
  | .call note callee args, e', hsame => by
    obtain ⟨_, callee', args', rfl, rfl, hcallee, hargs⟩ := hsame
    simp only [resolved, Inside]
    exact ⟨_, _, _, rfl, rfl, bound_callee h hcallee, resolved_insideAll h args hargs⟩
  | .unary note op operand, e', hsame => by
    obtain ⟨_, operand', rfl, rfl, hoperand⟩ := hsame
    simp only [resolved, Inside]
    exact ⟨_, _, rfl, rfl, resolved_either h (resolved_inside h operand) hoperand⟩
  | .binary note op left right, e', hsame => by
    obtain ⟨_, left', right', rfl, rfl, hleft, hright⟩ := hsame
    simp only [resolved, Inside]
    exact ⟨_, _, _, rfl, rfl, resolved_either h (resolved_inside h left) hleft,
      resolved_either h (resolved_inside h right) hright⟩

theorem resolved_insideAll (h : Absent name w.table) : (es : List Expr) → ∀ {es' : List Expr},
    InsideAll (replaced name) es es' → InsideAll (poisoned name) (resolvedAll w es) (resolvedAll w es')
  | [], es', hsame => by
    subst hsame
    simp only [resolvedAll, InsideAll]
  | e :: es, es', hsame => by
    obtain ⟨e', rest, rfl, he, hes⟩ := hsame
    simp only [resolvedAll, InsideAll]
    exact ⟨_, _, rfl, resolved_either h (resolved_inside h e) he, resolved_insideAll h es hes⟩

end

theorem resolved_differs (h : Absent name w.table) {e e' : Expr} :
    Differs (replaced name) e e' → Differs (poisoned name) (resolved w e) (resolved w e') :=
  resolved_either h (resolved_inside h e)

mutual

/-- What is in sight after a statement does not depend on its expressions. -/
theorem stmtAfter_differs {δ : Difference} (w : Sight) : (st : Stmt) → ∀ {st' : Stmt}, StmtDiffers δ st st' →
    stmtAfter w st' = stmtAfter w st
  | .assign span e, st', h | .increment span e, st', h | .decrement span e, st', h | .read span e, st', h
  | .write span e, st', h | .call span e, st', h | .ret span (some e), st', h => by
    obtain ⟨e', rfl, -⟩ := h
    rfl
  | .ret span none, st', h | .misfit span kind, st', h => by
    rw [h]
  | .ifThen span cond body, st', h | .loop span cond body, st', h => by
    obtain ⟨_, body', rfl, -, hbody⟩ := h
    exact blockAfter_differs w body hbody
  | .ifElse span cond body other, st', h => by
    obtain ⟨_, body', other', rfl, -, hbody, hother⟩ := h
    rw [stmtAfter, blockAfter_differs w body hbody, blockAfter_differs _ other hother, stmtAfter]

theorem stmtsAfter_differs {δ : Difference} (w : Sight) : (ss : List Stmt) → ∀ {ss' : List Stmt},
    StmtsDiffer δ ss ss' → stmtsAfter w ss' = stmtsAfter w ss
  | [], ss', h => by
    rw [h]
  | st :: ss, ss', h => by
    obtain ⟨st', rest, rfl, hst, hss⟩ := h
    rw [stmtsAfter, stmtAfter_differs w st hst, stmtsAfter_differs _ ss hss, stmtsAfter]

theorem blockAfter_differs {δ : Difference} (w : Sight) : (b : Block) → ∀ {b' : Block}, BlockDiffers δ b b' →
    blockAfter w b' = blockAfter w b
  | .mk span decls body, b', h => by
    obtain ⟨body', rfl, hbody⟩ := h
    rw [blockAfter, stmtsAfter_differs _ body hbody, blockAfter]

end

/-- No declaration among some occurrences is one of a name. -/
def Undeclared (name : String) (os : List Lexical.Occurrence) : Prop :=
  ∀ o ∈ os, o.role.isSome → o.id.name ≠ name

theorem Undeclared.append {os os' : List Lexical.Occurrence} (h : Undeclared name (os ++ os')) :
    Undeclared name os ∧ Undeclared name os' :=
  ⟨fun o ho => h o (List.mem_append_left _ ho), fun o ho => h o (List.mem_append_right _ ho)⟩

theorem Undeclared.declared {nest : Lexical.Nest} {role : TypeName → Lexical.Role} {ds : List VarDecl}
    (h : Undeclared name (Lexical.declaredAt nest role ds)) : ∀ d ∈ ds, d.name.name ≠ name := by
  intro d hd
  exact h ⟨nest, d.name, some (role d.type)⟩ (List.mem_map.mpr ⟨d, hd, rfl⟩) rfl

mutual

/-- A statement is visited in both. -/
theorem stmtIn_differs : (st : Stmt) → ∀ {st' : Stmt} {w : Sight} {nest : Lexical.Nest} {k : Nat},
    StmtDiffers (replaced name) st st' → Undeclared name (Lexical.inStmt nest k st) → Absent name w.table →
      StmtDiffers (poisoned name) (stmtIn w st) (stmtIn w st')
  | .assign span e, st', w, nest, k, hdiffers, hundeclared, h | .call span e, st', w, nest, k, hdiffers, hundeclared, h => by
    obtain ⟨e', rfl, he⟩ := hdiffers
    simp only [stmtIn, StmtDiffers]
    exact ⟨_, rfl, resolved_inside h e he⟩
  | .increment span e, st', w, nest, k, hdiffers, hundeclared, h
  | .decrement span e, st', w, nest, k, hdiffers, hundeclared, h
  | .read span e, st', w, nest, k, hdiffers, hundeclared, h
  | .write span e, st', w, nest, k, hdiffers, hundeclared, h
  | .ret span (some e), st', w, nest, k, hdiffers, hundeclared, h => by
    obtain ⟨e', rfl, he⟩ := hdiffers
    simp only [stmtIn, StmtDiffers]
    exact ⟨_, rfl, resolved_differs h he⟩
  | .ifThen span cond body, st', w, nest, k, hdiffers, hundeclared, h
  | .loop span cond body, st', w, nest, k, hdiffers, hundeclared, h => by
    obtain ⟨cond', body', rfl, hcond, hbody⟩ := hdiffers
    rw [Lexical.inStmt] at hundeclared
    simp only [stmtIn, StmtDiffers]
    exact ⟨_, _, rfl, resolved_differs h hcond, blockIn_differs body hbody hundeclared.append.2 h⟩
  | .ifElse span cond body other, st', w, nest, k, hdiffers, hundeclared, h => by
    obtain ⟨cond', body', other', rfl, hcond, hbody, hother⟩ := hdiffers
    rw [Lexical.inStmt] at hundeclared
    obtain ⟨hundeclared, hundeclared'⟩ := hundeclared.append.2.append
    have h' : Absent name (blockAfter w body).table := by rwa [blockAfter_table]
    simp only [stmtIn, StmtDiffers, blockAfter_differs w body hbody]
    exact ⟨_, _, _, rfl, resolved_differs h hcond, blockIn_differs body hbody hundeclared h,
      blockIn_differs other hother hundeclared' h'⟩
  | .ret span none, st', w, nest, k, hdiffers, _, _ | .misfit span kind, st', w, nest, k, hdiffers, _, _ => by
    rw [hdiffers, stmtIn, StmtDiffers]

theorem stmtsIn_differ : (ss : List Stmt) → ∀ {ss' : List Stmt} {w : Sight} {nest : Lexical.Nest} {k : Nat},
    StmtsDiffer (replaced name) ss ss' → Undeclared name (Lexical.inStmts nest k ss) → Absent name w.table →
      StmtsDiffer (poisoned name) (stmtsIn w ss) (stmtsIn w ss')
  | [], ss', w, nest, k, hdiffers, _, _ => by
    rw [hdiffers, stmtsIn, StmtsDiffer]
  | st :: ss, ss', w, nest, k, hdiffers, hundeclared, h => by
    obtain ⟨st', rest, rfl, hst, hss⟩ := hdiffers
    rw [Lexical.inStmts] at hundeclared
    have h' : Absent name (stmtAfter w st).table := by rwa [stmtAfter_table]
    simp only [stmtsIn, StmtsDiffer, stmtAfter_differs w st hst]
    exact ⟨_, _, rfl, stmtIn_differs st hst hundeclared.append.1 h, stmtsIn_differ ss hss hundeclared.append.2 h'⟩

theorem blockIn_differs : (b : Block) → ∀ {b' : Block} {w : Sight} {nest : Lexical.Nest},
    BlockDiffers (replaced name) b b' → Undeclared name (Lexical.inBlock nest b) → Absent name w.table →
      BlockDiffers (poisoned name) (blockIn w b) (blockIn w b')
  | .mk span decls body, b', w, nest, hdiffers, hundeclared, h => by
    obtain ⟨body', rfl, hbody⟩ := hdiffers
    rw [Lexical.inBlock] at hundeclared
    simp only [blockIn, BlockDiffers]
    exact ⟨_, rfl, stmtsIn_differ body hbody hundeclared.append.2
      (Absent.all declares_var hundeclared.append.1.declared h.push)⟩

end

/-- A function is visited in both. -/
theorem fnIn_differs {d : FnDecl} {body : Block} {k : Nat} (hbody : BlockDiffers (replaced name) d.body body)
    (hundeclared : Undeclared name (Lexical.inDecl k (.fn d))) (h : Absent name w.table) :
    DeclDiffers (poisoned name) (.fn (fnIn w d).1) (.fn (fnIn w { d with body }).1) ∧
      (fnIn w { d with body }).2 = (fnIn w d).2 := by
  obtain ⟨hname, hrest⟩ := List.forall_mem_cons.mp hundeclared
  obtain ⟨hformals, hrest⟩ := Undeclared.append hrest
  have hnamed : Absent name (fnNamed w d).push.table := (h.declare (hname rfl) (declares_fnName w d)).push
  have hformals : Absent name (fnFormals w d).2.table := Absent.all declares_formal hformals.declared hnamed
  obtain ⟨_, _, _, formals, ⟨span, decls, stmts⟩⟩ := d
  obtain ⟨stmts', rfl, hstmts⟩ := hbody
  rw [Lexical.inBlock] at hrest
  have hinside := Absent.all declares_var hrest.append.1.declared hformals
  refine ⟨⟨_, rfl, ?_⟩, congrArg Sight.pop (stmtsAfter_differs _ stmts hstmts)⟩
  rw [fnIn, BlockDiffers]
  exact ⟨_, rfl, stmtsIn_differ stmts hstmts hrest.append.2 hinside⟩

/-- The declarations of a program are visited in both. -/
theorem declsIn_differ {ds : List Decl} : ∀ {ds' : List Decl} {w : Sight} {k : Nat}, DeclsDiffer (replaced name) ds ds' →
    Undeclared name (Lexical.inDecls k ds) → Absent name w.table →
      DeclsDiffer (poisoned name) (declsIn w ds).1 (declsIn w ds').1 ∧ (declsIn w ds').2 = (declsIn w ds).2 := by
  induction ds with
  | nil =>
    rintro _ w k rfl _ _
    exact ⟨rfl, rfl⟩
  | cons d ds ih =>
    rintro _ w k ⟨d', rest, rfl, hd, hds⟩ hundeclared h
    rw [Lexical.inDecls] at hundeclared
    obtain ⟨hundeclared, hlater⟩ := hundeclared.append
    have hstep : DeclDiffers (poisoned name) (declIn w d).1 (declIn w d').1 ∧ (declIn w d').2 = (declIn w d).2 ∧
        Absent name (declIn w d).2.table := by
      cases d with
      | var d =>
        obtain rfl := hd
        exact ⟨rfl, rfl, h.declare (hundeclared.declared d (by simp)) (declares_var w d)⟩
      | struct d =>
        obtain rfl := hd
        exact ⟨rfl, rfl, h.declare (hundeclared.append.2 ⟨[], d.name, some .struct⟩ (by simp) rfl) (declares_struct w d)⟩
      | fn d =>
        obtain ⟨body, rfl, hbody⟩ := hd
        obtain ⟨hdiffers, hsight⟩ := fnIn_differs hbody hundeclared h
        obtain ⟨hname, -⟩ := List.forall_mem_cons.mp hundeclared
        refine ⟨hdiffers, hsight, ?_⟩
        rw [declIn, fnIn_table]
        exact h.declare (hname rfl) (declares_fnName w d)
      | misfit span kind =>
        obtain rfl := hd
        exact ⟨rfl, rfl, h⟩
    obtain ⟨hdiffers, hsight, h'⟩ := hstep
    obtain ⟨hrest, hend⟩ := ih hds hlater h'
    simp only [declsIn, hsight]
    exact ⟨⟨_, _, rfl, hdiffers, hrest⟩, hend⟩

end Walk

end CMinusMinus.Proofs.Cascades
