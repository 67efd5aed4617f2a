import CMinusMinus.Proofs.Spans
import CMinusMinus.Proofs.Visits
import CMinusMinus.Proofs.WellTyped

/-!
Where errors in types come from. A rule gives the error type only where one of the parts is in error or where it says
what is wrong, and a name is in error only if it could not be looked up. So an error in an expression can be followed
down to a place within the expression about which something was said.
-/
namespace CMinusMinus.Proofs.Explanations

open Names Typing WellFormed Grammar Naming Resolution Verdicts Spans TypeRules

section Places

/-- An error at a place in a span, the ends of the span included. -/
def Hits (span : Option Span) (d : Diagnostic) : Prop :=
  d.isError ∧ ∃ s p, span = some s ∧ d.line = some p.line ∧ d.column = some p.column ∧ Upto s.start p ∧ Upto p s.stop

/-- Something is wrong at a place in a span. -/
def Explained (all : List Diagnostic) (span : Option Span) : Prop := ∃ d ∈ all, Hits span d

/-- An expression has a type recorded on it, and an error in the type is explained. -/
def Accounted (all : List Diagnostic) (e : Expr) : Prop :=
  ∃ t, e.ty = some t ∧ (t = .error → Explained all e.span)

variable {all : List Diagnostic} {o : Outline} {parts : List Outline} {span : Option Span}

theorem span_outline (w : Sight) (e : Expr) : (resolved w e).span = (exprOutline e).span := by cases e <;> rfl

theorem placed_part (h : Placed (.node span parts)) (hpart : o ∈ parts) : Placed o := by
  cases h with
  | node _ _ _ each => exact each o hpart

/-- What is said about a node hits it. -/
theorem explained_own {finding : Finding} (h : Placed o) (hall : .atSpan .error finding none o.span ∈ all) :
    Explained all o.span := by
  refine ⟨_, hall, rfl, ?_⟩
  cases h with
  | node upto _ _ _ => exact ⟨_, _, rfl, rfl, rfl, .refl _, upto⟩

/-- What explains a part explains the whole. -/
theorem explained_part (h : Placed (.node span parts)) (hpart : o ∈ parts) (hall : Explained all o.span) :
    Explained all span := by
  obtain ⟨d, hd, herror, s, p, hs, hline, hcolumn, hstart, hstop⟩ := hall
  cases h with
  | node _ within _ _ =>
    obtain ⟨s', hs', hfirst, hlast⟩ := within o hpart
    obtain rfl : s = s' := Option.some.inj (hs.symm.trans hs')
    exact ⟨d, hd, herror, _, p, rfl, hline, hcolumn, hfirst.trans hstart, hstop.trans hlast⟩

end Places

section Rules

variable {arena : Arena} {α : Type} {x y : TypingM Ty} {p : Prop} {span place : Option Span} {t u : Ty}

/-- A rule gives the error type only for a reason, or with an error at a place. -/
def Blames (x : TypingM Ty) (p : Prop) (place : Option Span) : Prop :=
  outcome x = .error → p ∨ ∃ finding, remark .error finding place ∈ said x

namespace Blames

theorem pure (h : t = .error → p) : Blames (Pure.pure t) p place := fun herror => .inl (h herror)

theorem wrong {finding : TypeFinding} : Blames (wrong finding place) p place := fun _ => .inr ⟨finding, .head _⟩

theorem ite {c : Prop} [Decidable c] (hx : c → Blames x p place) (hy : ¬ c → Blames y p place) :
    Blames (if c then x else y) p place := by
  split
  · exact hx ‹_›
  · exact hy ‹_›

/-- The type does not depend on what is checked before it. -/
theorem after {z : TypingM α} (hz : Steady z) (h : t = .error → p) : Blames (z >>= fun _ => Pure.pure t) p place := by
  intro herror
  rw [outcome_bind hz (steady_pure t)] at herror
  exact .inl (h herror)

end Blames

theorem eq_error (h : t.isError = true) : t = .error := by cases t <;> simp [Ty.isError] at h ⊢

theorem error_of_either (h : (t.isError || u.isError) = true) : t = .error ∨ u = .error :=
  ((Bool.or_eq_true _ _).mp h).imp eq_error eq_error

theorem blames_assign : Blames (assignTy span t u) (t = .error ∨ u = .error) span :=
  .ite (fun h => .pure fun _ => error_of_either h) fun _ => .ite (fun _ => .wrong) fun _ => .ite (fun _ => .wrong)
    fun _ => .ite (fun _ => .wrong) fun _ => .ite (fun _ => .pure .inl) fun _ => .wrong

theorem blames_equality : Blames (equalityTy span t u) (t = .error ∨ u = .error) span :=
  .ite (fun h => .pure fun _ => error_of_either h) fun _ => .ite (fun _ => .wrong) fun _ => .ite (fun _ => .wrong)
    fun _ => .ite (fun _ => .wrong) fun _ => .ite (fun _ => .wrong) fun _ =>
      .ite (fun _ => .pure fun h => by cases h) fun _ => .wrong

theorem blames_unary {op : UnaryOp} (hop : op = .neg ∨ op = .not) {e : Expr} :
    Blames (unaryTy op span e t) (t = .error) e.span := by
  rcases hop with rfl | rfl
  all_goals
    refine .ite (fun h => .pure fun _ => eq_error h) fun _ => ?_
    exact .ite (fun _ => .pure fun h => by cases h) fun _ => .wrong

/-- An operand is not as it is asked for only if it is in error, or with an error at its place. -/
theorem blames_operand {op : BinaryOp} {e : Expr} (h : outcome (operand op e t) = false) :
    t = .error ∨ ∃ finding, remark .error finding e.span ∈ said (operand op e t) := by
  unfold operand at h ⊢
  split at h
  · unfold checkOperand at h ⊢
    split at h
    · exact .inl (eq_error ‹_›)
    · split at h
      · cases h
      · rw [if_neg ‹_›, if_neg ‹_›]
        exact .inr ⟨_, .head _⟩
  · cases h

theorem blames_combined {op : BinaryOp} {ok : Bool} :
    Blames (combined op span t u ok) (t = .error ∨ u = .error ∨ ok = false) span := by
  unfold combined
  split
  · rename_i rule hrule
    refine .pure fun herror => .inr (.inr ?_)
    by_contra hok
    rw [Bool.not_eq_false] at hok
    rw [if_pos hok] at herror
    cases op <;> cases hrule <;> cases herror
  · exact fun herror => (blames_equality herror).imp_left fun h => h.imp_right .inl

/-- The type of a symbol is not in error. -/
theorem ty_of_sane {s : Symbol} (h : Sane arena s) : s.ty ≠ .error := by
  cases s with
  | var v => rcases h.2.2.2 with ⟨hscalar | hscalar, -⟩ | ⟨name, k, d, hty, -⟩ <;> simp [Symbol.ty, *]
  | _ => simp [Symbol.ty]

theorem unresolved_of_error (harena : ArenaSane arena) {x : Ident} (hseen : Seen (shape arena) x)
    (herror : seenTy arena x = .error) : x.binding = .unresolved := by
  refine hseen.resolve_right ?_
  rintro ⟨i, _, hi, hs⟩
  obtain ⟨s, hs, -⟩ := Option.map_eq_some_iff.mp hs
  exact ty_of_sane (harena hs) (seenTy_eq hi hs ▸ herror)

theorem blames_call (harena : ArenaSane arena) {callee : Ident} (hseen : Seen (shape arena) callee)
    {args : List (Expr × Ty)} : Blames (callTy arena span callee (seenTy arena callee) args)
      (callee.binding = .unresolved) callee.note.span := by
  refine .ite (fun h => .pure fun _ => unresolved_of_error harena hseen (eq_error h)) fun _ => ?_
  refine .ite (fun _ => .wrong) fun hfunction => ?_
  rcases hseen with hnone | ⟨i, _, hi, hs⟩
  · exact fun _ => .inl hnone
  obtain ⟨s, hs, -⟩ := Option.map_eq_some_iff.mp hs
  obtain ⟨f, rfl⟩ := func_of_isFunction harena hs (by simpa [seenTy_eq hi hs] using hfunction)
  simp only [hi, hs]
  have hresult (p : Prop) : f.result = .error → p := by rcases (harena hs).2 with (h | h) | h <;> simp [h]
  exact .ite (fun _ => .after (steady_report _ _) (hresult _)) fun _ => .after (steady_arguments _ _) (hresult _)

end Rules

section Expressions

variable {arena : Arena} {all : List Diagnostic} {w : Sight}

theorem accounted_node {e : Expr} {t : Ty} (hroot : t = .error → Explained all e.span)
    (hinner : ∀ f ∈ inner e, Accounted all f) : ∀ f ∈ parts (e.withTy t), Accounted all f := by
  rw [parts, inner_withTy]
  exact List.forall_mem_cons.mpr ⟨⟨t, ty_withTy e t, by rwa [span_withTy]⟩, hinner⟩

theorem explained_root {e : Expr} (h : ∀ f ∈ parts (typed arena (resolved w e)), Accounted all f)
    (herror : typeOf arena (resolved w e) = .error) : Explained all (exprOutline e).span := by
  obtain ⟨t, ht, hexplained⟩ := h _ (.head _)
  rw [span_typed, span_outline] at hexplained
  rw [ty_typed, herror] at ht
  exact hexplained (Option.some.inj ht).symm

/-- What is said about an expression hits it. -/
theorem explained_remark {e : Expr} {finding : Finding} (h : Placed (exprOutline e))
    (hall : .atSpan .error finding none (resolved w e).span ∈ all) : Explained all (exprOutline e).span :=
  explained_own h (span_outline w e ▸ hall)

/-- A name in error could not be looked up. -/
theorem explained_use {x : Ident} (hplaced : Placed (identOutline x)) (hnamed : useSays w x ⊆ all)
    (h : (bound w x).binding = .unresolved) : Explained all x.note.span := by
  cases hfind : w.table.find? x.name with
  | none => exact explained_own hplaced (hnamed (by rw [useSays, hfind]; exact .head _))
  | some i => simp [bound, hfind] at h

/-- An access is given up for the object, or for the field. -/
theorem explained_access {obj : Expr} {field : Ident} {span : Option Span}
    (hplaced : Placed (.node span [exprOutline obj, identOutline field]))
    (hparts : ∀ f ∈ parts (typed arena (resolved w obj)), Accounted all f)
    (hnamed : accessSays w.arena (resolved w obj) field ⊆ all)
    (h : (accessIn w.arena (ownerOf w.arena (resolved w obj)) field).2.2 = true) : Explained all span := by
  rw [accessSays, List.append_subset] at hnamed
  cases howner : ownerOf w.arena (resolved w obj) with
  | none =>
    refine explained_part hplaced (o := exprOutline obj) (by simp) ?_
    cases hlost : isLost (resolved w obj) with
    | false => exact explained_remark (placed_part hplaced (by simp)) (hnamed.1 (by simp [ownerSays, howner, hlost]; rfl))
    | true =>
      refine explained_root hparts ?_
      cases hresolved : resolved w obj <;> simp_all [isLost, typeOf, seenTy]
  | some k =>
    refine explained_part hplaced (o := identOutline field) (by simp) ?_
    cases hfield : fieldOf w.arena k field.name with
    | none => exact explained_own (placed_part hplaced (by simp)) (hnamed.2 (by simp [howner, fieldSays, hfield]; rfl))
    | some q => simp [howner, accessIn, hfield] at h

/-- An operand is not as it is asked for. -/
theorem explained_operand {op : BinaryOp} {e : Expr} (hplaced : Placed (exprOutline e))
    (hparts : ∀ f ∈ parts (typed arena (resolved w e)), Accounted all f)
    (hsaid : said (operand op (resolved w e) (typeOf arena (resolved w e))) ⊆ all)
    (h : outcome (operand op (resolved w e) (typeOf arena (resolved w e))) = false) :
    Explained all (exprOutline e).span := by
  rcases blames_operand h with herror | ⟨finding, hfinding⟩
  · exact explained_root hparts herror
  · exact explained_remark hplaced (hsaid hfinding)

mutual

/-- The errors in an expression and its parts are explained. -/
theorem accounted (harena : ArenaSane arena) : (e : Expr) → Visited (shape arena) (resolved w e) →
    Placed (exprOutline e) → exprSays w e ⊆ all → remarks arena (resolved w e) ⊆ all →
    ∀ f ∈ parts (typed arena (resolved w e)), Accounted all f
  | .int note value, _, _, _, _ => accounted_node (e := .int note value) (fun h => by cases h) (by simp [TypeRules.inner])
  | .string note text, _, _, _, _ => accounted_node (e := .string note text) (fun h => by cases h) (by simp [TypeRules.inner])
  | .bool note value, _, _, _, _ => accounted_node (e := .bool note value) (fun h => by cases h) (by simp [TypeRules.inner])
  | .ident x, hvisited, hplaced, hnamed, _ => by
    refine accounted_node (e := .ident (bound w x)) (fun herror => ?_) (by simp [TypeRules.inner])
    exact explained_use hplaced hnamed (unresolved_of_error harena hvisited.2 herror)
  | .dot note obj field _ _, hvisited, hplaced, hnamed, hremarks => by
    rw [exprSays, List.append_subset] at hnamed
    rw [resolved, access] at hvisited hremarks ⊢
    have hobj := accounted harena obj hvisited.2.1 (placed_part hplaced (by simp)) hnamed.1 hremarks
    rw [typed]
    refine accounted_node (fun herror => explained_access hplaced hobj hnamed.2 ?_) hobj
    by_contra hbad
    obtain ⟨i, u, hi, hu, -⟩ := hvisited.2.2.resolve_left hbad
    rw [typeOf, if_neg hbad] at herror
    cases hi.symm.trans (unresolved_of_error harena (.inr ⟨i, _, hi, hu⟩) herror)
  | .assign note target value, hvisited, hplaced, hnamed, hremarks => by
    rw [exprSays, List.append_subset] at hnamed
    rw [resolved, remarks, List.append_subset, List.append_subset] at hremarks
    obtain ⟨⟨hleft, hright⟩, hremarks⟩ := hremarks
    have hleft := accounted harena target hvisited.2.1 (placed_part hplaced (by simp)) hnamed.2 hleft
    have hright := accounted harena value hvisited.2.2 (placed_part hplaced (by simp)) hnamed.1 hright
    rw [resolved, typed]
    refine accounted_node (fun herror => ?_) (List.forall_mem_append.mpr ⟨hleft, hright⟩)
    rcases blames_assign herror with (herror | herror) | ⟨finding, hfinding⟩
    · exact explained_part hplaced (by simp) (explained_root hleft herror)
    · exact explained_part hplaced (by simp) (explained_root hright herror)
    · exact explained_own hplaced (hremarks hfinding)
  | .call note callee args, hvisited, hplaced, hnamed, hremarks => by
    rw [exprSays, List.append_subset] at hnamed
    rw [resolved, remarks, List.append_subset] at hremarks
    have hargs := accountedAll harena args hvisited.2.2 (fun o ho => placed_part hplaced (.tail _ ho)) hnamed.2 hremarks.1
    have hcallee := placed_part hplaced (o := identOutline callee) (.head _)
    rw [resolved, typed]
    refine accounted_node (fun herror => ?_) (List.forall_mem_cons.mpr ⟨⟨_, rfl, fun herror => ?_⟩, hargs⟩)
    · refine explained_part hplaced (o := identOutline callee) (.head _) ?_
      rcases blames_call harena hvisited.2.1 herror with hnone | ⟨finding, hfinding⟩
      · exact explained_use hcallee hnamed.1 hnone
      · exact explained_own hcallee (hremarks.2 hfinding)
    · exact explained_use hcallee hnamed.1 (unresolved_of_error harena hvisited.2.1 herror)
  | .unary note op operand, hvisited, hplaced, hnamed, hremarks => by
    rw [resolved, remarks, List.append_subset] at hremarks
    have hplaced' := placed_part hplaced (o := exprOutline operand) (.head _)
    have hoperand := accounted harena operand hvisited.2.2 hplaced' hnamed hremarks.1
    rw [resolved, typed]
    refine accounted_node (fun herror => explained_part hplaced (o := exprOutline operand) (.head _) ?_) hoperand
    rcases blames_unary hvisited.2.1 herror with herror | ⟨finding, hfinding⟩
    · exact explained_root hoperand herror
    · exact explained_remark hplaced' (hremarks.2 hfinding)
  | .binary note op left right, hvisited, hplaced, hnamed, hremarks => by
    rw [exprSays, List.append_subset] at hnamed
    simp only [resolved, remarks, List.append_subset] at hremarks
    obtain ⟨⟨⟨hleft, hokLeft⟩, hright, hokRight⟩, hremarks⟩ := hremarks
    have hplacedLeft := placed_part hplaced (o := exprOutline left) (by simp)
    have hplacedRight := placed_part hplaced (o := exprOutline right) (by simp)
    have hleft := accounted harena left hvisited.2.2.1 hplacedLeft hnamed.1 hleft
    have hright := accounted harena right hvisited.2.2.2 hplacedRight hnamed.2 hright
    rw [resolved, typed]
    refine accounted_node (fun herror => ?_) (List.forall_mem_append.mpr ⟨hleft, hright⟩)
    rcases blames_combined herror with (herror | herror | hok) | ⟨finding, hfinding⟩
    · exact explained_part hplaced (by simp) (explained_root hleft herror)
    · exact explained_part hplaced (by simp) (explained_root hright herror)
    · rcases (Bool.and_eq_false_iff).mp hok with hok | hok
      · exact explained_part hplaced (by simp) (explained_operand hplacedLeft hleft hokLeft hok)
      · exact explained_part hplaced (by simp) (explained_operand hplacedRight hright hokRight hok)
    · exact explained_own hplaced (hremarks hfinding)
  | .misfit .., hvisited, _, _, _ => hvisited.elim

theorem accountedAll (harena : ArenaSane arena) : (es : List Expr) → VisitedAll (shape arena) (resolvedAll w es) →
    (∀ o ∈ exprOutlines es, Placed o) → exprsSay w es ⊆ all → remarksAll arena (resolvedAll w es) ⊆ all →
    ∀ f ∈ partsAll (typedAll arena (resolvedAll w es)), Accounted all f
  | [], _, _, _, _ => by simp [resolvedAll, typedAll, partsAll]
  | e :: es, hvisited, hplaced, hnamed, hremarks => by
    rw [exprsSay, List.append_subset] at hnamed
    rw [resolvedAll, remarksAll, List.append_subset] at hremarks
    obtain ⟨he, hes⟩ := List.forall_mem_cons.mp hplaced
    rw [resolvedAll, typedAll, partsAll]
    exact List.forall_mem_append.mpr ⟨accounted harena e hvisited.1 he hnamed.1 hremarks.1,
      accountedAll harena es hvisited.2 hes hnamed.2 hremarks.2⟩

end

end Expressions

section Statements

variable {lit : String → Prop} {arena : Arena} {result : Ty} {all ds ds' : List Diagnostic} {es es' fs fs' : List Expr}

mutual

theorem placed_stmt : (st : Stmt) → Placed (stmtOutline st) → ∀ e ∈ stmtExprs st, Placed (exprOutline e)
  | .assign .., h | .increment .., h | .decrement .., h | .read .., h | .write .., h | .call .., h
  | .ret _ (some _), h => by simpa [stmtExprs] using placed_part h (.head _)
  | .ifThen _ _ body, h | .loop _ _ body, h =>
    List.forall_mem_cons.mpr ⟨placed_part h (.head _), placed_block body (placed_part h (by simp))⟩
  | .ifElse _ _ body other, h => List.forall_mem_cons.mpr ⟨placed_part h (.head _), List.forall_mem_append.mpr
      ⟨placed_block body (placed_part h (by simp)), placed_block other (placed_part h (by simp))⟩⟩
  | .ret _ none, _ | .misfit .., _ => by simp [stmtExprs]

theorem placed_stmts : (ss : List Stmt) → (∀ o ∈ stmtOutlines ss, Placed o) → ∀ e ∈ stmtsExprs ss, Placed (exprOutline e)
  | [], _ => by simp [stmtsExprs]
  | st :: ss, h => List.forall_mem_append.mpr ⟨placed_stmt st (h _ (.head _)), placed_stmts ss fun o ho => h o (.tail _ ho)⟩

theorem placed_block : (b : Block) → Placed (blockOutline b) → ∀ e ∈ blockExprs b, Placed (exprOutline e)
  | .mk _ _ body, h => placed_stmts body fun _ ho => placed_part h (List.mem_append_right _ ho)

end

/-- The parts of a program are parts of its expressions, and what is said about these is said about the program. -/
def Speaks (arena : Arena) (es : List Expr) (ds : List Diagnostic) (fs : List Expr) : Prop :=
  ∀ f ∈ fs, ∃ e ∈ es, f ∈ parts (typed arena e) ∧ remarks arena e ⊆ ds

theorem Speaks.expr {e : Expr} : Speaks arena [e] (remarks arena e ++ ds) (parts (typed arena e)) :=
  fun _ hf => ⟨e, .head _, hf, List.subset_append_left _ _⟩

theorem Speaks.append (h : Speaks arena es ds fs) (h' : Speaks arena es' ds' fs') :
    Speaks arena (es ++ es') (ds ++ ds') (fs ++ fs') := by
  refine List.forall_mem_append.mpr ⟨fun f hf => ?_, fun f hf => ?_⟩
  · obtain ⟨e, he, hpart, hsaid⟩ := h f hf
    exact ⟨e, List.mem_append_left _ he, hpart, List.Subset.trans hsaid (List.subset_append_left _ _)⟩
  · obtain ⟨e, he, hpart, hsaid⟩ := h' f hf
    exact ⟨e, List.mem_append_right _ he, hpart, List.Subset.trans hsaid (List.subset_append_right _ _)⟩

mutual

theorem speaks_stmt : (st : Stmt) →
    Speaks arena (stmtExprs st) (stmtRemarks arena result st) (stmtParts (typedStmt arena st))
  | .assign _ e | .call _ e => by
    rw [stmtRemarks, ← List.append_nil (remarks arena e)]
    exact .expr
  | .increment .. | .decrement .. | .read .. | .write .. | .ret _ (some _) => Speaks.expr
  | .ifThen _ _ body | .loop _ _ body => Speaks.expr.append (speaks_block body)
  | .ifElse _ _ body other => Speaks.expr.append ((speaks_block body).append (speaks_block other))
  | .ret _ none | .misfit .. => by simp [Speaks, typedStmt, stmtParts]

theorem speaks_stmts : (ss : List Stmt) → {returned : Bool} →
    Speaks arena (stmtsExprs ss) (stmtsRemarks arena result returned ss) (stmtsParts (typedStmts arena ss))
  | [], _ => by simp [Speaks, typedStmts, stmtsParts]
  | st :: ss, _ => by
    have hnothing : ∀ ds, Speaks arena [] ds [] := by simp [Speaks]
    exact (hnothing _).append ((speaks_stmt st).append (speaks_stmts ss))

theorem speaks_block : (b : Block) →
    Speaks arena (blockExprs b) (blockRemarks arena result b) (blockParts (typedBlock arena b))
  | .mk _ _ body => speaks_stmts body

end

theorem speaks_decls (cs : List Decl) : Speaks arena (cs.flatMap declExprs) (cs.flatMap (declRemarks arena))
    ((cs.map (typedDecl arena)).flatMap declParts) := by
  induction cs with
  | nil => simp [Speaks]
  | cons d cs ih =>
    refine Speaks.append ?_ ih
    cases d with
    | fn d => exact speaks_block d.body
    | _ => simp [Speaks, typedDecl, declParts]

/-- Along a walk, the errors in expressions are explained. -/
theorem accounted_visits (harena : ArenaSane arena) (h : Resolution.Visits lit arena es fs ds)
    (hplaced : ∀ e ∈ es, Placed (exprOutline e)) (hnamed : ds ⊆ all) :
    ∀ e ∈ fs, remarks arena e ⊆ all → ∀ f ∈ parts (typed arena e), Accounted all f := by
  induction h with
  | aside => simp
  | expr hgood hraw hgrows =>
    have hvisited := (visited_resolved hgood _ hraw).mono (shape_earlier (fun _ _ h => h) hgrows)
    simpa using accounted harena _ hvisited (hplaced _ (.head _)) hnamed
  | append _ _ ih ih' =>
    rw [List.append_subset] at hnamed
    rw [List.forall_mem_append] at hplaced
    exact List.forall_mem_append.mpr ⟨ih hplaced.1 hnamed.1, ih' hplaced.2 hnamed.2⟩

end Statements

section Programs

variable {text : String} {tokens : List Token} {p : Program}

/-- Errors in types are explained where they are. When the analysis of a program that was read is through, all
expressions in its functions have a type recorded on them. If it is the error type, an error was taken down at a place
within the expression; so if there is no error, no expression has the error type. -/
theorem error_types_are_explained (file : String) (hlex : Token.lex text = .ok tokens)
    (hparse : Program.ofTokens tokens = .ok p) : ∃ a q, (readFrom file p).complete.result = a ∧ a.program = some q ∧
      ∀ e ∈ q.decls.flatMap declParts, ∃ t, e.ty = some t ∧
        (t = .error → ∃ d ∈ a.diagnostics, Hits e.span d) ∧ (a.hasErrors = false → t ≠ .error) := by
  have hraw := raw_of_tokens (tokens_ok hlex) hparse
  have hpassed := passes (a := readFrom file p) rfl hraw rfl
  have hvisits := visits_decls hraw (good_start (a := readFrom file p) rfl) fun h => h
  have hplaced : ∀ e ∈ p.decls.flatMap declExprs, Placed (exprOutline e) := by
    intro e he
    obtain ⟨d, hd, he⟩ := List.mem_flatMap.mp he
    cases d with
    | fn d =>
      have hdecl := placed_part (spans_form_tree hlex hparse) (List.mem_map_of_mem hd)
      exact placed_block d.body (placed_part hdecl (by simp)) e he
    | _ => simp [declExprs] at he
  refine ⟨_, _, rfl, congrArg Analysis.program hpassed.result, fun e he => ?_⟩
  rw [hpassed.result]
  obtain ⟨f, hf, hpart, hremarks⟩ := speaks_decls _ e he
  obtain ⟨t, ht, hexplained⟩ := accounted_visits hpassed.looked.adds.good.arena hvisits hplaced
    (List.subset_append_left _ (programRemarks _ _)) f hf
    (List.Subset.trans hremarks (List.Subset.trans (List.subset_append_left _ _) (List.subset_append_right _ _))) e hpart
  have hexplained (herror : t = .error) : ∃ d ∈ (declsSay outset p.decls).map (about file) ++
      (programRemarks (declsIn outset p.decls).2.arena (declsIn outset p.decls).1).map (about file), Hits e.span d := by
    obtain ⟨d, hd, hhits⟩ := hexplained herror
    rw [← List.map_append]
    exact ⟨about file d, List.mem_map_of_mem hd, hhits⟩
  refine ⟨t, ht, hexplained, fun hquiet herror => ?_⟩
  obtain ⟨d, hd, hhits⟩ := hexplained herror
  cases hhits.1.symm.trans ((quiet_iff _).mpr hquiet d hd)

/-- A text in which a name is not declared and a field is missing. -/
def unknownNamesText : String := "struct P\x7bint x;\x7d;struct P p;void main()\x7bp.x=-(p.y+z)*f(p);\x7d"

/-- Eight of its expressions have the error type, and each is explained. -/
theorem unknown_names_are_explained : ∃ tokens p a q, Token.lex unknownNamesText = .ok tokens ∧
    Program.ofTokens tokens = .ok p ∧ (readFrom "main.cmm" p).complete.result = a ∧ a.program = some q ∧
    ((q.decls.flatMap declParts).filter fun e => e.ty.any Ty.isError).length = 8 ∧
    ∀ e ∈ q.decls.flatMap declParts, e.ty = some .error → ∃ d ∈ a.diagnostics, Hits e.span d := by
  have hread : Fidelity.readsAs unknownNamesText fun p => (readFrom "main.cmm" p).complete.result.program.any fun q =>
      ((q.decls.flatMap declParts).filter fun e => e.ty.any Ty.isError).length = 8 := by
    decide +kernel
  obtain ⟨tokens, p, hlex, hparse, hcount⟩ := Fidelity.read_of_readsAs hread
  obtain ⟨a, q, ha, hq, hexplained⟩ := error_types_are_explained "main.cmm" hlex hparse
  rw [ha, hq] at hcount
  refine ⟨tokens, p, a, q, hlex, hparse, ha, hq, by simpa using hcount, fun e he herror => ?_⟩
  obtain ⟨t, ht, hhits, -⟩ := hexplained e he
  exact hhits (Option.some.inj (ht.symm.trans herror))

end Programs

end CMinusMinus.Proofs.Explanations
