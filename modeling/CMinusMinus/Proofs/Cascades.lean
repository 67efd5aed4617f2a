import CMinusMinus.Proofs.Replacement

/-!
Errors do not cascade. The check of types goes through a program and through one in which expressions
are replaced by a name that is declared nowhere. An expression that holds the name has the type it had
or is in error, and whatever is complained about is complained about in the original as well: a rule
says nothing about operands in error, and it says the same about all others.
-/
namespace CMinusMinus.Proofs.Cascades

open Typing WellFormed Naming Grammar Checking Verdicts Resolution
open Lexical (isTyping)

/-- The name has the type of errors, and so may all that it is part of. -/
def faded (name : String) : Difference where
  hole span x := x = { note := { span, ty := some .error }, name, binding := .unresolved }
  note n n' := n'.span = n.span ∧ (n'.ty = n.ty ∨ n'.ty = some .error)
  access a a' := a' = a ∨ a' = ({ a.1 with binding := .unresolved }, none, true)

def Dims (t u : Ty) : Prop := u = t ∨ u = .error

section Rules

variable {α : Type} {x y : TypingM α} {z : α} {name : String} {a b : Expr} {t u t' u' : Ty} {span : Option Span}

/-- A piece of the check is the same in both, or left out in the second. -/
theorem milder (h : y = x ∨ y = pure z) :
    (outcome y = outcome x ∨ outcome y = z) ∧ (said y).Sublist (said x) := by
  rcases h with rfl | rfl
  · exact ⟨.inl rfl, .refl _⟩
  · exact ⟨.inr rfl, List.nil_sublist _⟩

theorem unary_dims (op : UnaryOp) (span : Option Span) (hspan : b.span = a.span) (h : Dims t u) :
    unaryTy op span b u = unaryTy op span a t ∨ unaryTy op span b u = pure .error := by
  rcases h with rfl | rfl
  · exact .inl (by cases op <;> simp only [unaryTy, hspan])
  · cases op with
    | other sign => exact .inl rfl
    | _ => exact .inr rfl

theorem assign_dims (span : Option Span) (h : Dims t u) (h' : Dims t' u') :
    assignTy span u u' = assignTy span t t' ∨ assignTy span u u' = pure .error := by
  rcases h with rfl | rfl
  · rcases h' with rfl | rfl
    · exact .inl rfl
    · exact .inr (by simp [assignTy, Ty.isError])
  · exact .inr rfl

theorem operand_dims (op : BinaryOp) (hspan : b.span = a.span) (h : Dims t u) :
    operand op b u = operand op a t ∨ operand op b u = pure false := by
  unfold operand
  split
  · rcases h with rfl | rfl
    · exact .inl (by simp only [checkOperand, hspan])
    · exact .inr rfl
  · exact .inl rfl

theorem combined_dims (op : BinaryOp) (span : Option Span) {ok ok' : Bool} (h : Dims t u) (h' : Dims t' u') (hok : ok' = ok ∨ ok' = false) :
    combined op span u u' ok' = combined op span t t' ok ∨ combined op span u u' ok' = pure .error := by
  unfold combined
  split
  · rcases hok with rfl | rfl
    · exact .inl rfl
    · exact .inr rfl
  · rcases h with rfl | rfl
    · rcases h' with rfl | rfl
      · exact .inl rfl
      · exact .inr (by simp [equalityTy, Ty.isError])
    · exact .inr rfl

/-- What differs stands in the same place. -/
theorem span_differs {e e' : Expr} (h : Differs (poisoned name) e e') : e'.span = e.span := by
  rcases h with ⟨x, rfl, rfl⟩ | h
  · rfl
  · cases e with
    | int | string | bool | ident | misfit =>
      obtain ⟨_, rfl, rfl⟩ := h
      rfl
    | dot =>
      obtain ⟨_, _, _, _, _, rfl, rfl, -⟩ := h
      rfl
    | assign | call | binary =>
      obtain ⟨_, _, _, rfl, rfl, -⟩ := h
      rfl
    | unary =>
      obtain ⟨_, _, rfl, rfl, -⟩ := h
      rfl

/-- Arguments in the same places, with types that may be in error. -/
abbrev ArgsDim : List (Expr × Ty) → List (Expr × Ty) → Prop :=
  List.Forall₂ fun arg arg' => arg'.1.span = arg.1.span ∧ Dims arg.2 arg'.2

/-- Less is said about arguments of which some are in error. -/
theorem arguments_dim {args args' : List (Expr × Ty)} (h : ArgsDim args args') : ∀ params : List Ty,
    (said (checkArguments args' params)).Sublist (said (checkArguments args params)) := by
  induction h with
  | nil => exact fun _ => .refl _
  | @cons arg arg' rest rest' hfirst _ ih =>
    intro params
    cases params with
    | nil => exact .refl _
    | cons param params =>
      have hreport : ∀ {args : List (Expr × Ty)} {span}, said (do report .argumentType span; checkArguments args params) =
          said (report .argumentType span) ++ said (checkArguments args params) :=
        said_bind (steady_report _ _) (steady_arguments _ _)
      obtain ⟨hspan, hsame | herror⟩ := hfirst
      · rw [checkArguments, checkArguments, hsame, hspan]
        split
        · rw [hreport, hreport]
          exact (ih params).append_left _
        · exact ih params
      · have hsilent : checkArguments (arg' :: rest') (param :: params) = checkArguments rest' params := by
          simp [checkArguments, herror, Ty.isError]
        rw [hsilent, checkArguments]
        split
        · rw [hreport]
          exact (ih params).trans (List.sublist_append_right _ _)
        · exact ih params

/-- The call of a function is judged alike, with arguments of which some are in error. -/
theorem call_dims {arena : Arena} {callee : Ident} {args args' : List (Expr × Ty)} (h : ArgsDim args args') :
    Dims (outcome (callTy arena span callee t args)) (outcome (callTy arena span callee t args')) ∧
      (said (callTy arena span callee t args')).Sublist (said (callTy arena span callee t args)) := by
  have hmilder : ∀ {x : TypingM Ty}, Dims (outcome x) (outcome x) ∧ (said x).Sublist (said x) := ⟨.inl rfl, .refl _⟩
  unfold callTy
  rw [h.length_eq]
  split
  · exact hmilder
  · split
    · exact hmilder
    · split
      · exact hmilder
      · exact hmilder
      · split
        · exact hmilder
        · split
          · exact hmilder
          · rename_i f _ _
            have hchecked : ∀ args, outcome (do checkArguments args f.params; pure f.result) = f.result ∧
                said (do checkArguments args f.params; pure f.result) = said (checkArguments args f.params) := fun args =>
              ⟨outcome_bind (steady_arguments args f.params) (steady_pure _),
                (said_bind (steady_arguments args f.params) (steady_pure _)).trans (List.append_nil _)⟩
            rw [(hchecked _).1, (hchecked _).1, (hchecked _).2, (hchecked _).2]
            exact ⟨.inl rfl, arguments_dim h f.params⟩
        · exact hmilder

end Rules

section Expressions

variable {arena : Arena} {name : String}

theorem note_faded (note : Note) {t u : Ty} (h : Dims t u) :
    (faded name).note { note with ty := some t } { note with ty := some u } := by
  refine ⟨rfl, ?_⟩
  rcases h with rfl | rfl
  · exact .inl rfl
  · exact .inr rfl

/-- Of two expressions the second has the type of the first or is in error, and less is said about it. -/
structure Milder (arena : Arena) (e e' : Expr) : Prop where
  dims : Dims (typeOf arena e) (typeOf arena e')
  fewer : (remarks arena e').Sublist (remarks arena e)

theorem access_dims (arena : Arena) {a a' : Ident × Option Int × Bool} (h : (poisoned name).access a a') :
    Dims (if a.2.2 then .error else seenTy arena a.1) (if a'.2.2 then .error else seenTy arena a'.1) := by
  rcases h with rfl | rfl
  · exact .inl rfl
  · exact .inr rfl

/-- An expression is checked, or the name in its place. -/
theorem differs_either {e e' : Expr} (hinside : Inside (poisoned name) e e' →
      Inside (faded name) (typed arena e) (typed arena e') ∧ Milder arena e e') (h : Differs (poisoned name) e e') :
    Differs (faded name) (typed arena e) (typed arena e') ∧ Milder arena e e' := by
  rcases h with ⟨x, rfl, rfl⟩ | hsame
  · exact ⟨.inl ⟨_, rfl, by rw [span_typed]; rfl⟩, .inr rfl, List.nil_sublist _⟩
  · exact ⟨.inr (hinside hsame).1, (hinside hsame).2⟩

mutual

/-- Less is said about an expression that holds the name. -/
theorem typed_inside : (e : Expr) → ∀ {e' : Expr}, Inside (poisoned name) e e' →
    Inside (faded name) (typed arena e) (typed arena e') ∧ Milder arena e e'
  | .int .., e', h | .string .., e', h | .bool .., e', h | .ident _, e', h | .misfit .., e', h => by
    obtain ⟨_, rfl, rfl⟩ := h
    refine ⟨?_, .inl rfl, .refl _⟩
    rw [typed, Inside]
    exact ⟨_, rfl, note_faded _ (.inl rfl)⟩
  | .dot _ obj field reached bad, e', h => by
    obtain ⟨_, obj', _, _, _, rfl, rfl, hobj, haccess⟩ := h
    obtain ⟨hobj, hmilder⟩ := differs_either (typed_inside obj) hobj
    have hdims := access_dims arena haccess
    refine ⟨?_, by rwa [typeOf, typeOf], by rw [remarks, remarks]; exact hmilder.fewer⟩
    rw [typed, typed, typeOf, typeOf]
    simp only [Expr.withTy, Expr.withNote]
    exact ⟨_, _, _, _, _, rfl, note_faded _ hdims, hobj, haccess⟩
  | .assign _ target value, e', h => by
    obtain ⟨note, target', value', rfl, rfl, htarget, hvalue⟩ := h
    obtain ⟨htarget, hmilder⟩ := differs_either (typed_inside target) htarget
    obtain ⟨hvalue, hmilder'⟩ := differs_either (typed_inside value) hvalue
    obtain ⟨hdims, hfewer⟩ := milder (assign_dims note.span hmilder.dims hmilder'.dims)
    refine ⟨?_, by rwa [typeOf, typeOf], ?_⟩
    · rw [typed, typed, typeOf, typeOf]
      simp only [Expr.withTy, Expr.withNote]
      exact ⟨_, _, _, rfl, note_faded _ hdims, htarget, hvalue⟩
    · rw [remarks, remarks]
      exact (hmilder.fewer.append hmilder'.fewer).append hfewer
  | .call _ callee args, e', h => by
    obtain ⟨note, callee', args', rfl, rfl, hcallee, hargs⟩ := h
    obtain ⟨hargs, hdim, hfewer⟩ := typedAll_inside args hargs
    have hcall : CalleeDiffers (faded name) { callee with note.ty := some (seenTy arena callee) }
          { callee' with note.ty := some (seenTy arena callee') } ∧
        Dims (outcome (callTy arena note.span callee (seenTy arena callee) (typesOf arena args)))
          (outcome (callTy arena note.span callee' (seenTy arena callee') (typesOf arena args'))) ∧
        (said (callTy arena note.span callee' (seenTy arena callee') (typesOf arena args'))).Sublist
          (said (callTy arena note.span callee (seenTy arena callee) (typesOf arena args))) := by
      rcases hcallee with rfl | ⟨_, rfl, rfl⟩
      · -- nothing is said about the call of what is in error
        exact ⟨.inl rfl, .inr rfl, List.nil_sublist _⟩
      · exact ⟨.inr ⟨_, rfl, rfl, .inl rfl⟩, call_dims hdim⟩
    obtain ⟨hcallee, hdims, hfewer'⟩ := hcall
    refine ⟨?_, by rwa [typeOf, typeOf], by rw [remarks, remarks]; exact hfewer.append hfewer'⟩
    rw [typed, typed, typeOf, typeOf]
    simp only [Expr.withTy, Expr.withNote]
    exact ⟨_, _, _, rfl, note_faded _ hdims, hcallee, hargs⟩
  | .unary _ op operand, e', h => by
    obtain ⟨note, operand', rfl, rfl, hoperand⟩ := h
    have hspan := span_differs hoperand
    obtain ⟨hoperand, hmilder⟩ := differs_either (typed_inside operand) hoperand
    obtain ⟨hdims, hfewer⟩ := milder (unary_dims op note.span hspan hmilder.dims)
    refine ⟨?_, by rwa [typeOf, typeOf], by rw [remarks, remarks]; exact hmilder.fewer.append hfewer⟩
    rw [typed, typed, typeOf, typeOf]
    simp only [Expr.withTy, Expr.withNote]
    exact ⟨_, _, rfl, note_faded _ hdims, hoperand⟩
  | .binary _ op left right, e', h => by
    obtain ⟨note, left', right', rfl, rfl, hleft, hright⟩ := h
    obtain ⟨hspan, hspan'⟩ := And.intro (span_differs hleft) (span_differs hright)
    obtain ⟨hleft, hmilder⟩ := differs_either (typed_inside left) hleft
    obtain ⟨hright, hmilder'⟩ := differs_either (typed_inside right) hright
    obtain ⟨hok, hsaid⟩ := milder (operand_dims op hspan hmilder.dims)
    obtain ⟨hok', hsaid'⟩ := milder (operand_dims op hspan' hmilder'.dims)
    have hboth : ∀ {x y x' y' : Bool}, (y = x ∨ y = false) → (y' = x' ∨ y' = false) →
        ((y && y') = (x && x') ∨ (y && y') = false) := by decide
    obtain ⟨hdims, hfewer⟩ := milder (combined_dims op note.span hmilder.dims hmilder'.dims (hboth hok hok'))
    refine ⟨?_, by rwa [typeOf, typeOf], ?_⟩
    · rw [typed, typed, typeOf, typeOf]
      simp only [Expr.withTy, Expr.withNote]
      exact ⟨_, _, _, rfl, note_faded _ hdims, hleft, hright⟩
    · rw [remarks, remarks]
      exact ((hmilder.fewer.append hsaid).append (hmilder'.fewer.append hsaid')).append hfewer

theorem typedAll_inside : (es : List Expr) → ∀ {es' : List Expr}, InsideAll (poisoned name) es es' →
    InsideAll (faded name) (typedAll arena es) (typedAll arena es') ∧
      ArgsDim (typesOf arena es) (typesOf arena es') ∧ (remarksAll arena es').Sublist (remarksAll arena es)
  | [], es', h => by
    subst h
    refine ⟨?_, .nil, .refl _⟩
    rw [typedAll, InsideAll]
  | e :: es, es', h => by
    obtain ⟨e', rest, rfl, he, hes⟩ := h
    have hspan := span_differs he
    obtain ⟨he, hmilder⟩ := differs_either (typed_inside e) he
    obtain ⟨hes, hdim, hfewer⟩ := typedAll_inside es hes
    refine ⟨?_, .cons ⟨hspan, hmilder.dims⟩ hdim, hmilder.fewer.append hfewer⟩
    rw [typedAll, typedAll, InsideAll]
    exact ⟨_, _, rfl, he, hes⟩

end

theorem typed_differs (arena : Arena) {e e' : Expr} (h : Differs (poisoned name) e e') :
    Differs (faded name) (typed arena e) (typed arena e') ∧ Milder arena e e' :=
  differs_either (typed_inside e) h

end Expressions

section Statements

variable {arena : Arena} {name : String} {e e' : Expr} {result : Ty}

/-- An expression in error passes a check, or fails it whatever its type. -/
structure Lenient (check : Expr → Ty → TypingM Unit) : Prop extends Asks check where
  error : ∀ e t, check e .error = check e t ∨ check e .error = pure ()

theorem lenient_returned (result : Ty) : Lenient (checkReturned result) where
  toAsks := asks_returned result
  error e t := by
    by_cases hvoid : result.isVoid
    · exact .inl (by simp only [checkReturned, hvoid, if_true])
    · exact .inr (by simp [checkReturned, hvoid, Ty.isError])

/-- An expression with a check on it differs. -/
theorem asked_differs (arena : Arena) {check : Expr → Ty → TypingM Unit} (hcheck : Lenient check) (h : Differs (poisoned name) e e') :
    Differs (faded name) (typed arena e) (typed arena e') ∧
      (asked arena check e').Sublist (asked arena check e) := by
  obtain ⟨hdiffers, hmilder⟩ := typed_differs arena h
  refine ⟨hdiffers, hmilder.fewer.append (milder (z := ()) ?_).2⟩
  rw [hcheck.place (span_differs h)]
  rcases hmilder.dims with hsame | herror
  · exact .inl (by rw [hsame])
  · rw [herror]
    exact hcheck.error e _

/-- Statements that differ stand in the same place, and both return or none does. -/
theorem stmt_alike {δ : Difference} {st st' : Stmt} (h : StmtDiffers δ st st') :
    st'.span = st.span ∧ st'.isReturn = st.isReturn := by
  cases st with
  | ret span e =>
    cases e with
    | none =>
      rw [h]
      exact ⟨rfl, rfl⟩
    | some e =>
      obtain ⟨_, rfl, -⟩ := h
      exact ⟨rfl, rfl⟩
  | misfit span kind =>
    rw [h]
    exact ⟨rfl, rfl⟩
  | ifElse =>
    obtain ⟨_, _, _, rfl, -⟩ := h
    exact ⟨rfl, rfl⟩
  | ifThen | loop =>
    obtain ⟨_, _, rfl, -⟩ := h
    exact ⟨rfl, rfl⟩
  | _ =>
    obtain ⟨_, rfl, -⟩ := h
    exact ⟨rfl, rfl⟩

mutual

/-- Less is said about a statement that holds the name. -/
theorem typed_stmt : (st : Stmt) → ∀ {st' : Stmt}, StmtDiffers (poisoned name) st st' →
    StmtDiffers (faded name) (typedStmt arena st) (typedStmt arena st') ∧
      (stmtRemarks arena result st').Sublist (stmtRemarks arena result st)
  | .assign span e, st', h | .call span e, st', h => by
    obtain ⟨e', rfl, he⟩ := h
    obtain ⟨he, hmilder⟩ := @typed_inside arena _ e _ he
    rw [typedStmt, typedStmt, StmtDiffers, stmtRemarks, stmtRemarks]
    exact ⟨⟨_, rfl, he⟩, hmilder.fewer⟩
  | .increment span e, st', h | .decrement span e, st', h => by
    obtain ⟨e', rfl, he⟩ := h
    obtain ⟨he, hfewer⟩ := asked_differs arena ⟨asks_counted, fun _ _ => .inr rfl⟩ he
    rw [typedStmt, typedStmt, StmtDiffers, stmtRemarks, stmtRemarks]
    exact ⟨⟨_, rfl, he⟩, hfewer⟩
  | .read span e, st', h => by
    obtain ⟨e', rfl, he⟩ := h
    obtain ⟨he, hfewer⟩ := asked_differs arena ⟨asks_read, fun _ _ => .inr rfl⟩ he
    rw [typedStmt, typedStmt, StmtDiffers, stmtRemarks, stmtRemarks]
    exact ⟨⟨_, rfl, he⟩, hfewer⟩
  | .write span e, st', h => by
    obtain ⟨e', rfl, he⟩ := h
    obtain ⟨he, hfewer⟩ := asked_differs arena ⟨asks_written, fun _ _ => .inr rfl⟩ he
    rw [typedStmt, typedStmt, StmtDiffers, stmtRemarks, stmtRemarks]
    exact ⟨⟨_, rfl, he⟩, hfewer⟩
  | .ret span (some e), st', h => by
    obtain ⟨e', rfl, he⟩ := h
    obtain ⟨he, hfewer⟩ := asked_differs arena (lenient_returned result) he
    rw [typedStmt, typedStmt, StmtDiffers, stmtRemarks, stmtRemarks]
    exact ⟨⟨_, rfl, he⟩, hfewer⟩
  | .ifThen span cond body, st', h | .loop span cond body, st', h => by
    obtain ⟨cond', body', rfl, hcond, hbody⟩ := h
    obtain ⟨hcond, hfewer⟩ := asked_differs arena ⟨asks_condition _, fun _ _ => .inr rfl⟩ hcond
    obtain ⟨hbody, hfewer'⟩ := typed_block body hbody
    rw [typedStmt, typedStmt, StmtDiffers, stmtRemarks, stmtRemarks]
    exact ⟨⟨_, _, rfl, hcond, hbody⟩, hfewer.append hfewer'⟩
  | .ifElse span cond body other, st', h => by
    obtain ⟨cond', body', other', rfl, hcond, hbody, hother⟩ := h
    obtain ⟨hcond, hfewer⟩ := asked_differs arena ⟨asks_condition _, fun _ _ => .inr rfl⟩ hcond
    obtain ⟨hbody, hfewer'⟩ := typed_block body hbody
    obtain ⟨hother, hfewer''⟩ := typed_block other hother
    rw [typedStmt, typedStmt, StmtDiffers, stmtRemarks, stmtRemarks]
    exact ⟨⟨_, _, _, rfl, hcond, hbody, hother⟩, hfewer.append (hfewer'.append hfewer'')⟩
  | .ret span none, st', h | .misfit span _, st', h => by
    subst h
    refine ⟨?_, .refl _⟩
    rw [typedStmt, StmtDiffers]

theorem typed_stmts : (ss : List Stmt) → ∀ {ss' : List Stmt} (returned : Bool),
    StmtsDiffer (poisoned name) ss ss' → StmtsDiffer (faded name) (typedStmts arena ss) (typedStmts arena ss') ∧
      (stmtsRemarks arena result returned ss').Sublist (stmtsRemarks arena result returned ss)
  | [], ss', _, h => by
    subst h
    refine ⟨?_, .refl _⟩
    rw [typedStmts, StmtsDiffer]
  | st :: ss, ss', returned, h => by
    obtain ⟨st', rest, rfl, hst, hss⟩ := h
    obtain ⟨hspan, hreturns⟩ := stmt_alike hst
    obtain ⟨hst, hfewer⟩ := typed_stmt st hst
    obtain ⟨hss, hfewer'⟩ := typed_stmts ss st.isReturn hss
    rw [typedStmts, typedStmts, StmtsDiffer, stmtsRemarks, stmtsRemarks, hspan, hreturns]
    exact ⟨⟨_, _, rfl, hst, hss⟩, (hfewer.append hfewer').append_left _⟩

theorem typed_block : (b : Block) → ∀ {b' : Block}, BlockDiffers (poisoned name) b b' →
    BlockDiffers (faded name) (typedBlock arena b) (typedBlock arena b') ∧
      (blockRemarks arena result b').Sublist (blockRemarks arena result b)
  | .mk span decls body, b', h => by
    obtain ⟨body', rfl, hbody⟩ := h
    obtain ⟨hbody, hfewer⟩ := typed_stmts body false hbody
    rw [typedBlock, typedBlock, BlockDiffers, blockRemarks, blockRemarks]
    exact ⟨⟨_, rfl, hbody⟩, hfewer⟩

end

end Statements

section Programs

variable {arena : Arena} {name : String} {lit : String → Prop}

theorem typed_decls (arena : Arena) {ds : List Decl} : ∀ {ds' : List Decl}, DeclsDiffer (poisoned name) ds ds' →
    DeclsDiffer (faded name) (ds.map (typedDecl arena)) (ds'.map (typedDecl arena)) ∧
      (ds'.flatMap (declRemarks arena)).Sublist (ds.flatMap (declRemarks arena)) ∧
      ds'.any isMain = ds.any isMain := by
  induction ds with
  | nil =>
    rintro _ rfl
    exact ⟨rfl, .refl _, rfl⟩
  | cons d ds ih =>
    rintro _ ⟨d', rest, rfl, hd, hds⟩
    obtain ⟨hds, hfewer, hmain⟩ := ih hds
    have hdecl : DeclDiffers (faded name) (typedDecl arena d) (typedDecl arena d') ∧
        (declRemarks arena d').Sublist (declRemarks arena d) ∧ isMain d' = isMain d := by
      cases d with
      | fn d =>
        obtain ⟨body, rfl, hbody⟩ := hd
        obtain ⟨hbody, hfewer⟩ := typed_block d.body hbody
        exact ⟨⟨_, rfl, hbody⟩, hfewer, rfl⟩
      | var | struct | misfit =>
        obtain rfl := hd
        exact ⟨rfl, .refl _, rfl⟩
    rw [List.map_cons, List.map_cons, List.flatMap_cons, List.flatMap_cons, List.any_cons, List.any_cons]
    exact ⟨⟨_, _, rfl, hdecl.1, hds⟩, hdecl.2.1.append hfewer, by rw [hdecl.2.2, hmain]⟩

/-- The analysis of two programs ends alike once their names are looked up alike. -/
theorem both_complete {a a' : Analysis} {p p' : Program} {ds ds' : List Decl} {s s' : Names.State}
    (h : Passed lit a p ds s) (h' : Passed lit a' p' ds' s') (hfile : a'.file = a.file)
    (hsymbols : s'.arena = s.arena) (hdiffers : DeclsDiffer (poisoned name) ds ds')
    (huntyped : s'.diagnostics.filter isTyping = []) :
    ∃ q q', a.complete.result.program = some q ∧ a'.complete.result.program = some q' ∧
      DeclsDiffer (faded name) q.decls q'.decls ∧
      (a'.complete.result.diagnostics.filter isTyping).Sublist
        (a.complete.result.diagnostics.filter isTyping) := by
  obtain ⟨hfaded, hfewer, hmain⟩ := typed_decls s.arena hdiffers
  rw [h.result, h'.result]
  refine ⟨_, _, rfl, rfl, by rw [hsymbols]; exact hfaded, ?_⟩
  simp only [framedAs, typedAs, List.filter_append, huntyped, List.nil_append, hfile, hsymbols, programRemarks,
    mainRemarks, hmain]
  exact (((hfewer.append_right _).map _).filter _).trans (List.sublist_append_right _ _)

/-- Name analysis says nothing about types. -/
theorem names_untyped {ds : List Decl} (hraw : ∀ d ∈ ds, RawDecl lit d) (file : Option String) :
    ((declsSay outset ds).map (about file)).filter isTyping = [] := by
  rw [Lexical.filter_about _ (fun _ => rfl), (Lexical.reached_program hraw).untyped, List.map_nil]

/-- Errors do not cascade. In a program that was read, let expressions be replaced by a name that is
declared nowhere in it. What the analysis then complains about in the types it complained about before,
and each expression has the type that it had or is in error. -/
theorem errors_never_cascade {text : String} {tokens : List Token} {p p' : Program}
    (file : String) (hlex : Token.lex text = .ok tokens) (hparse : Program.ofTokens tokens = .ok p)
    (hname : IsName name) (hundeclared : Undeclared name (Lexical.inDecls 0 p.decls))
    (hreplaced : DeclsDiffer (replaced name) p.decls p'.decls) :
    ∃ q q', (readFrom file p).complete.result.program = some q ∧
      (readFrom file p').complete.result.program = some q' ∧
      DeclsDiffer (faded name) q.decls q'.decls ∧
      ((readFrom file p').complete.result.diagnostics.filter isTyping).Sublist
        ((readFrom file p).complete.result.diagnostics.filter isTyping) := by
  have hraw := raw_of_tokens (tokens_ok hlex) hparse
  have hraw' := raw_decls hname hraw hreplaced
  obtain ⟨hdiffers, hsight⟩ := declsIn_differ hreplaced hundeclared (w := outset)
    fun scope hscope => by simp_all [outset]
  exact both_complete (passes (a := readFrom file p) rfl hraw rfl) (passes (a := readFrom file p') rfl hraw' rfl)
    rfl (congrArg Sight.arena hsight) hdiffers (names_untyped hraw' _)

/-- A program that returns the negation of a value of four letters, although it should return none. -/
def negating (value : Note → Expr) : Program where
  span := some ⟨⟨1, 1⟩, ⟨1, 27⟩⟩
  decls :=
    [.fn { span := some ⟨⟨1, 1⟩, ⟨1, 27⟩⟩
           result := { span := some ⟨⟨1, 1⟩, ⟨1, 5⟩⟩, name := "void" }
           name := { note := { span := some ⟨⟨1, 6⟩, ⟨1, 10⟩⟩ }, name := "main" }
           formals := []
           body := .mk (some ⟨⟨1, 12⟩, ⟨1, 27⟩⟩) [] [.ret (some ⟨⟨1, 13⟩, ⟨1, 26⟩⟩)
             (some (.unary { span := some ⟨⟨1, 20⟩, ⟨1, 25⟩⟩ } .neg
               (value { span := some ⟨⟨1, 21⟩, ⟨1, 25⟩⟩ })))] }]

def negatingTokens : List Token :=
  [⟨.voidKw, "void", ⟨1, 1⟩⟩, ⟨.ident, "main", ⟨1, 6⟩⟩, ⟨.lparen, "(", ⟨1, 10⟩⟩, ⟨.rparen, ")", ⟨1, 11⟩⟩,
    ⟨.lbrace, "\x7b", ⟨1, 12⟩⟩, ⟨.returnKw, "return", ⟨1, 13⟩⟩, ⟨.minus, "-", ⟨1, 20⟩⟩,
    ⟨.trueKw, "true", ⟨1, 21⟩⟩, ⟨.semi, ";", ⟨1, 25⟩⟩, ⟨.rbrace, "\x7d", ⟨1, 26⟩⟩, ⟨.eof, "", ⟨1, 27⟩⟩]

theorem lex_negating : Token.lex "void main()\x7breturn -true;\x7d" = .ok negatingTokens := by
  decide +kernel

/-- The program that negates the truth. -/
def truthful : Program := negating fun note => .bool note true

/-- The program that negates a stranger. -/
def estranged : Program := negating fun note => .ident { note, name := "oops" }

theorem estranged_replaced : DeclsDiffer (replaced "oops") truthful.decls estranged.decls := by
  refine ⟨_, _, rfl, ⟨_, rfl, ?_⟩, rfl⟩
  simp only [BlockDiffers, StmtsDiffer, StmtDiffers]
  refine ⟨_, rfl, _, _, rfl, ⟨_, rfl, .inr ?_⟩, rfl⟩
  exact ⟨_, _, rfl, rfl, .inl ⟨_, rfl, rfl⟩⟩

/-- The truth can be neither negated nor returned here. Where a stranger stands in its place, only the
second is complained about. -/
theorem negated_stranger_is_returned :
    ∃ q q', (readFrom "main.cmm" truthful).complete.result.program = some q ∧
      (readFrom "main.cmm" estranged).complete.result.program = some q' ∧
      DeclsDiffer (faded "oops") q.decls q'.decls ∧
      ((readFrom "main.cmm" estranged).complete.result.diagnostics.filter isTyping).Sublist
        ((readFrom "main.cmm" truthful).complete.result.diagnostics.filter isTyping) ∧
      ((readFrom "main.cmm" truthful).complete.result.diagnostics.filter isTyping).length = 2 ∧
      ((readFrom "main.cmm" estranged).complete.result.diagnostics.filter isTyping).length = 1 := by
  have hparse : Program.ofTokens negatingTokens = .ok truthful := rfl
  have hword : IsName "oops" := by
    refine ⟨⟨by decide, ?_, ?_⟩, by decide⟩
    · simp [Token.isWordStart]
    · simp [Token.isWordPart]
  have hundeclared : Undeclared "oops" (Lexical.inDecls 0 truthful.decls) := by
    have hnames : (Lexical.inDecls 0 truthful.decls).map (·.id.name) = ["main"] := rfl
    intro o ho _ heq
    have hmem : "oops" ∈ (Lexical.inDecls 0 truthful.decls).map (·.id.name) := List.mem_map.mpr ⟨o, ho, heq⟩
    simp [hnames] at hmem
  obtain ⟨q, q', hq, hq', hdiffers, hsublist⟩ := errors_never_cascade "main.cmm" lex_negating hparse hword
    hundeclared estranged_replaced
  exact ⟨q, q', hq, hq', hdiffers, hsublist, by decide +kernel, by decide +kernel⟩

end Programs

end CMinusMinus.Proofs.Cascades
