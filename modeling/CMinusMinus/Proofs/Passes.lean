import CMinusMinus.Proofs.WellFormed

/-!
Passes of the analysis. A pass only adds to what has been found, and it has found no error in the end
exactly if it never took one down.
-/
namespace CMinusMinus.Proofs

def Quiet (ds : List Diagnostic) : Prop := ∀ d ∈ ds, d.isError = false

theorem Quiet.earlier {ds ds' : List Diagnostic} (h : Quiet ds') (hearlier : ds <+: ds') : Quiet ds :=
  fun d hd => h d (hearlier.subset hd)

theorem quiet_nil : Quiet [] := by simp [Quiet]

@[simp] theorem quiet_append {ds es : List Diagnostic} : Quiet (ds ++ es) ↔ Quiet ds ∧ Quiet es :=
  List.forall_mem_append

/-- A diagnostic, said about a file. -/
def about (file : Option String) (d : Diagnostic) : Diagnostic := { d with file }

@[simp] theorem quiet_about {file : Option String} (ds : List Diagnostic) : Quiet (ds.map (about file)) ↔ Quiet ds := by
  simp [Quiet, about, Diagnostic.isError]

theorem quiet_iff (a : Analysis) : Quiet a.diagnostics ↔ a.hasErrors = false := by
  simp [Quiet, Analysis.hasErrors]

/-- A pass has kept the form of an expression. -/
structure SameForm (e e' : Expr) : Prop where
  location : e.isLocation → e'.isLocation
  assign : (∃ note target value, e = .assign note target value) →
    ∃ note target value, e' = .assign note target value
  call : (∃ note callee args, e = .call note callee args) →
    ∃ note callee args, e' = .call note callee args

section Declarations

open WellFormed

mutual

/-- The variables that a statement declares in its blocks, in order. -/
def stmtDecls : Stmt → List VarDecl
  | .ifThen _ _ body | .loop _ _ body => blockDecls body
  | .ifElse _ _ body other => blockDecls body ++ blockDecls other
  | _ => []

def stmtsDecls : List Stmt → List VarDecl
  | [] => []
  | s :: ss => stmtDecls s ++ stmtsDecls ss

def blockDecls : Block → List VarDecl
  | .mk _ decls body => decls ++ stmtsDecls body

end

theorem declSlots_append (ds es : List VarDecl) :
    declSlots (ds ++ es) = declSlots ds ++ declSlots es := by simp [declSlots]

mutual

theorem stmtSlots_eq : (s : Stmt) → stmtSlots s = declSlots (stmtDecls s)
  | .ifThen _ _ body | .loop _ _ body => by rw [stmtSlots, stmtDecls, blockSlots_eq]
  | .ifElse _ _ body other => by
    rw [stmtSlots, stmtDecls, declSlots_append, blockSlots_eq, blockSlots_eq]
  | .assign .. | .increment .. | .decrement .. | .read .. | .write .. | .call .. | .ret ..
  | .misfit .. => by simp [stmtSlots, stmtDecls, declSlots]

theorem stmtsSlots_eq : (ss : List Stmt) → stmtsSlots ss = declSlots (stmtsDecls ss)
  | [] => rfl
  | s :: ss => by rw [stmtsSlots, stmtsDecls, declSlots_append, stmtSlots_eq, stmtsSlots_eq]

theorem blockSlots_eq : (b : Block) → blockSlots b = declSlots (blockDecls b)
  | .mk _ decls body => by rw [blockSlots, blockDecls, declSlots_append, stmtsSlots_eq]

end

/-- The variables of a function, in order: its parameters, and what its body declares. -/
def fnDecls (d : FnDecl) : List VarDecl := d.formals ++ blockDecls d.body

theorem fnDecls_slots (d : FnDecl) : declSlots (fnDecls d) =
    declSlots (d.formals ++ d.body.decls) ++ stmtsSlots d.body.stmts := by
  obtain ⟨_, _, _, formals, ⟨span, decls, stmts⟩⟩ := d
  simp [fnDecls, blockDecls, declSlots_append, stmtsSlots_eq, Block.decls, Block.stmts]

end Declarations

end CMinusMinus.Proofs
