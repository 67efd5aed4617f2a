import CMinusMinus.Proofs.Accepted

/-!
What name analysis leaves as it was. A declaration adds at most its own name to the innermost scope, scopes
are gone with their blocks, and symbols stay.
-/
namespace CMinusMinus.Proofs.Resolution

open Names WellFormed Grammar Naming

section Tables

/-- A declaration of a name adds at most that name to the innermost scope. -/
def Declares (name : String) (t t' : SymbolTable) : Prop := t' = t ∨ ∃ i, t' = t.insert name i

theorem declares_var (w : Sight) (d : VarDecl) : Declares d.name.name w.table (varIn w d).2.table := by
  unfold varIn
  split
  · exact .inl rfl
  · exact .inr ⟨_, rfl⟩

theorem declares_formal (w : Sight) (d : VarDecl) : Declares d.name.name w.table (formalIn w d).2.table := by
  unfold formalIn
  split
  · exact .inl rfl
  · exact .inr ⟨_, rfl⟩

theorem declares_fnName (w : Sight) (d : FnDecl) : Declares d.name.name w.table (fnNamed w d).table := by
  unfold fnNamed
  split
  · exact .inl rfl
  · exact .inr ⟨_, rfl⟩

theorem declares_struct (w : Sight) (d : StructDecl) : Declares d.name.name w.table (structDeclIn w d).2.table := by
  have hfields := fieldsIn_table d.fields w {} 0
  unfold structDeclIn
  split
  · exact .inl hfields
  · exact .inr ⟨_, congrArg (SymbolTable.insert · d.name.name _) hfields⟩

theorem Declares.pop {name : String} {t t' : SymbolTable} (h : Declares name t t') : t'.pop = t.pop := by
  rcases h with rfl | ⟨i, rfl⟩
  · rfl
  · obtain ⟨scopes, frozen⟩ := t
    cases scopes <;> rfl

/-- Declarations change the innermost scope alone. -/
theorem allIn_pop {f : Sight → VarDecl → VarDecl × Sight}
    (hf : ∀ w d, Declares d.name.name w.table (f w d).2.table) (ds : List VarDecl) : ∀ w : Sight,
    (allIn f w ds).2.table.pop = w.table.pop := by
  induction ds with
  | nil => exact fun _ => rfl
  | cons d ds ih => exact fun w => (ih _).trans (hf w d).pop

mutual

/-- A statement leaves the scopes as they were. -/
theorem stmtAfter_table (w : Sight) : (st : Stmt) → (stmtAfter w st).table = w.table
  | .ifThen _ _ body | .loop _ _ body => blockAfter_table w body
  | .ifElse _ _ body other => (blockAfter_table _ other).trans (blockAfter_table w body)
  | .assign .. | .increment .. | .decrement .. | .read .. | .write .. | .call .. | .ret .. | .misfit .. => rfl

theorem stmtsAfter_table (w : Sight) : (ss : List Stmt) → (stmtsAfter w ss).table = w.table
  | [] => rfl
  | st :: ss => (stmtsAfter_table _ ss).trans (stmtAfter_table w st)

theorem blockAfter_table (w : Sight) : (b : Block) → (blockAfter w b).table = w.table
  | .mk _ decls body => by
    rw [blockAfter, Sight.pop]
    exact (congrArg SymbolTable.pop (stmtsAfter_table _ body)).trans (allIn_pop declares_var decls w.push)

end

/-- A function adds at most its own name to the scopes around it. -/
theorem fnIn_table (w : Sight) (d : FnDecl) : (fnIn w d).2.table = (fnNamed w d).table := by
  rw [fnIn, Sight.pop, stmtsAfter_table]
  exact (allIn_pop declares_var _ _).trans (allIn_pop declares_formal _ _)

theorem depth_declares {name : String} {t t' : SymbolTable} (h : Declares name t t') : t'.depth = t.depth := by
  rcases h with rfl | ⟨i, rfl⟩
  · rfl
  · obtain ⟨scopes, frozen⟩ := t
    cases scopes <;> rfl

/-- No scope is left open at the top of a program. -/
theorem declIn_depth (w : Sight) (d : Decl) : (declIn w d).2.table.depth = w.table.depth := by
  cases d with
  | var d => exact depth_declares (declares_var w d)
  | struct d => exact depth_declares (declares_struct w d)
  | fn d =>
    rw [declIn, fnIn_table]
    exact depth_declares (declares_fnName w d)
  | misfit span kind => rfl

end Tables

/-- What holds of what is in sight goes on to hold inside of a function. -/
structure Stable (P : Sight → Prop) : Prop where
  push : ∀ {w}, P w → P w.push
  pop : ∀ {w}, P w → P w.pop
  var : ∀ {w} d, P w → P (varIn w d).2
  formal : ∀ {w} d, P w → P (formalIn w d).2

namespace Stable

variable {P : Sight → Prop}

theorem all {f : Sight → VarDecl → VarDecl × Sight} (hf : ∀ {w} d, P w → P (f w d).2) (ds : List VarDecl) :
    ∀ {w : Sight}, P w → P (allIn f w ds).2 := by
  induction ds with
  | nil => exact id
  | cons d ds ih => exact fun h => ih (hf d h)

mutual

theorem stmt (hP : Stable P) : (st : Stmt) → ∀ {w : Sight}, P w → P (stmtAfter w st)
  | .ifThen _ _ body, _, h | .loop _ _ body, _, h => block hP body h
  | .ifElse _ _ body other, _, h => block hP other (block hP body h)
  | .assign .., _, h | .increment .., _, h | .decrement .., _, h | .read .., _, h | .write .., _, h
  | .call .., _, h | .ret .., _, h | .misfit .., _, h => h

theorem stmts (hP : Stable P) : (ss : List Stmt) → ∀ {w : Sight}, P w → P (stmtsAfter w ss)
  | [], _, h => h
  | st :: ss, _, h => stmts hP ss (stmt hP st h)

theorem block (hP : Stable P) : (b : Block) → ∀ {w : Sight}, P w → P (blockAfter w b)
  | .mk _ decls body, _, h => hP.pop (stmts hP body (all hP.var decls (hP.push h)))

end

theorem fn (hP : Stable P) {w : Sight} (d : FnDecl) (h : P (fnNamed w d)) : P (fnIn w d).2 :=
  hP.pop (hP.stmts _ (all hP.var _ (all hP.formal _ (hP.push h))))

end Stable

section Growth

/-- Symbols stay. -/
theorem stable_grows (arena : Arena) : Stable fun w => Grows arena w.arena where
  push h := h
  pop h := h
  var d h := by
    unfold varIn
    split
    · exact h
    · exact Grows.trans h grows_push
  formal d h := by
    unfold formalIn
    split
    · exact h
    · exact Grows.trans h grows_push

theorem fieldsIn_grows (ds : List VarDecl) : ∀ (w : Sight) (table : SymbolTable) (offset : Int),
    Grows w.arena (fieldsIn w table offset ds).2.arena := by
  induction ds with
  | nil => exact fun _ _ _ _ _ h => h
  | cons d ds ih =>
    intro w table offset
    rw [fieldsIn]
    split
    · exact ih w table offset
    · exact fun h => ih _ _ _ (grows_push h)

theorem declIn_grows (w : Sight) (d : Decl) : Grows w.arena (declIn w d).2.arena := by
  cases d with
  | var d => exact (stable_grows w.arena).var d fun h => h
  | struct d =>
    have hfields : Grows w.arena (fieldsIn w {} 0 d.fields).2.arena := fieldsIn_grows d.fields w {} 0
    intro i s h
    rw [declIn, structDeclIn]
    split
    · exact hfields h
    · exact grows_push (hfields h)
  | fn d =>
    refine (stable_grows w.arena).fn d ?_
    unfold fnNamed
    split
    · exact fun h => h
    · exact grows_push
  | misfit span kind => exact fun h => h

theorem declsIn_grows (ds : List Decl) : ∀ w : Sight, Grows w.arena (declsIn w ds).2.arena := by
  induction ds with
  | nil => exact fun _ _ _ h => h
  | cons d ds ih => exact fun w => Grows.trans (declIn_grows w d) (ih _)

end Growth

end CMinusMinus.Proofs.Resolution
