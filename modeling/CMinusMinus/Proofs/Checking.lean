import CMinusMinus.Proofs.TypeRules

/-!
Type checking. If the check of a program whose names have been looked up takes down no error, the program
follows the typing rules. The types that the rules give its expressions are then recorded on them.
-/
namespace CMinusMinus.Proofs.Checking

open Typing WellFormed Naming Grammar TypeRules Verdicts

section Types

def Known (t : Ty) : Prop :=
  IsScalar t ∨ t = .string ∨ t = .void ∨ t.isStruct ∨ t.isStructDef ∨ t.isFunction

variable {σ : Symbols} {arena : Arena}

theorem known_of_symbol {symbol : Symbol} (h : SymbolOk σ symbol) : Known symbol.ty := by
  cases symbol with
  | var v =>
    rcases h.2 with ⟨hscalar, -⟩ | ⟨name, k, d, hty, -⟩
    · exact .inl hscalar
    · exact .inr (.inr (.inr (.inl (by simp [Symbol.ty, hty, Ty.isStruct]))))
  | func f => exact .inr (.inr (.inr (.inr (.inr rfl))))
  | struct d => exact .inr (.inr (.inr (.inr (.inl rfl))))

theorem known_of_get (hσ : SymbolsOk (shape arena)) {i : Int} {s : Symbol} (h : arena.get? i = some s) : Known s.ty :=
  ty_unplaced s ▸ known_of_symbol (hσ i _ (by simp [shape, h]))

/-- An expression with a type is not in error. -/
theorem known_of_hasType (hσ : SymbolsOk (shape arena)) {e : Expr} {t : Ty} (h : HasType arena e t) : Known t := by
  cases h with
  | int | negation | arithmetic => exact .inl (.inl rfl)
  | string => exact .inr (.inl rfl)
  | bool | complement | logical | relational | equality => exact .inl (.inr rfl)
  | ident _ symbol | dot _ _ symbol => exact known_of_get hσ symbol
  | assignment _ _ plain => rcases plain with (rfl | rfl | rfl) | rfl <;> simp [Known, IsScalar]
  | call callee args =>
    obtain ⟨i, f, -, -, -, rfl, hok⟩ := func_of_hasType hσ callee
    exact hok.2.2.imp_right fun hvoid => .inr (.inl hvoid)

theorem not_error_of_known {t : Ty} (h : Known t) : t.isError = false := by
  cases t <;> simp [Known, IsScalar, Ty.isError, Ty.isStruct, Ty.isStructDef, Ty.isFunction] at h ⊢

theorem eq_of_agrees_scalar {t u : Ty} (h : t.agrees u) (hu : IsScalar u) : t = u := by
  rcases hu with rfl | rfl <;> cases t <;> simp_all [Ty.agrees]

end Types

section Rules

variable {arena : Arena} {α β : Type} {x y : TypingM α} {P : α → Prop}

/-- If a piece of the check says that nothing is wrong, what it gives has a property. -/
def Fine (x : TypingM α) (P : α → Prop) : Prop := Quiet (said x) → P (outcome x)

namespace Fine

theorem pure {a : α} (h : P a) : Fine (Pure.pure a) P := fun _ => h

theorem wrong {P : Ty → Prop} {finding : TypeFinding} {span : Option Span} : Fine (wrong finding span) P :=
  fun h => by cases h (remark .error finding span) (.head _)

theorem report {P : Unit → Prop} {finding : TypeFinding} {span : Option Span} : Fine (report finding span) P :=
  fun h => by cases h (remark .error finding span) (.head _)

theorem ite {p : Prop} [Decidable p] (hx : p → Fine x P) (hy : ¬ p → Fine y P) : Fine (if p then x else y) P := by
  split
  · exact hx ‹_›
  · exact hy ‹_›

theorem seq {f : α → TypingM β} {Q : β → Prop} (hsteady : Steady x) (hsteady' : ∀ a, Steady (f a))
    (hx : Fine x P) (hf : ∀ a, P a → Fine (f a) Q) : Fine (x >>= f) Q := by
  intro hquiet
  rw [said_bind hsteady (hsteady' _), quiet_append] at hquiet
  rw [outcome_bind hsteady (hsteady' _)]
  exact hf _ (hx hquiet.1) hquiet.2

end Fine

theorem fine_unary {op : UnaryOp} {span : Option Span} {e : Expr} {t : Ty} (hop : op = .neg ∨ op = .not) :
    Fine (unaryTy op span e t) fun u =>
      t.isError = false → (op = .neg ∧ u = .int ∨ op = .not ∧ u = .bool) ∧ t = u := by
  rcases hop with rfl | rfl
  all_goals
    refine .ite (fun herror => .pure fun hfine => by simp [hfine] at herror) fun _ => ?_
    refine .ite (fun hty => .pure fun _ => ?_) fun _ => .wrong
  · cases t <;> simp [Ty.isInt] at hty ⊢
  · cases t <;> simp [Ty.isBool] at hty ⊢

theorem fine_equality {span : Option Span} {left right : Ty} : Fine (equalityTy span left right) fun u =>
    Known left → Known right → u = .bool ∧ left = right ∧ (IsScalar left ∨ left = .string) := by
  refine .ite (fun herror => .pure fun hleft hright => ?_) fun _ => ?_
  · simp [not_error_of_known hleft, not_error_of_known hright] at herror
  refine .ite (fun _ => .wrong) fun hvoid => .ite (fun _ => .wrong) fun hfunction =>
    .ite (fun _ => .wrong) fun hname => .ite (fun _ => .wrong) fun hstruct => ?_
  refine .ite (fun hagrees => .pure fun _ _ => ⟨rfl, ?_⟩) fun _ => .wrong
  cases left <;> cases right <;>
    simp_all [Ty.agrees, Ty.isVoid, Ty.isFunction, Ty.isStructDef, Ty.isStruct, IsScalar]

theorem fine_assign {span : Option Span} {target value : Ty} : Fine (assignTy span target value) fun u =>
    Known target → Known value → u = target ∧ target = value ∧ IsPlain target := by
  refine .ite (fun herror => .pure fun hleft hright => ?_) fun _ => ?_
  · simp [not_error_of_known hleft, not_error_of_known hright] at herror
  refine .ite (fun _ => .wrong) fun hfunction => .ite (fun _ => .wrong) fun hname =>
    .ite (fun _ => .wrong) fun hstruct => ?_
  refine .ite (fun hagrees => .pure fun _ _ => ⟨rfl, ?_⟩) fun _ => .wrong
  cases target <;> cases value <;>
    simp_all [Ty.agrees, Ty.isFunction, Ty.isStructDef, Ty.isStruct, IsPlain, IsShown]

/-- The operands of a rule are words of one type. -/
theorem rule_types {op : BinaryOp} {rule : OperatorRule} (h : operatorRule? op = some rule) :
    OperatorTypes op rule.operand rule.result ∧ IsScalar rule.operand := by
  cases op with
  | eq | ne | other sign => cases h
  | and | or =>
    obtain rfl := Option.some.inj h
    exact ⟨⟨rfl, rfl⟩, .inr rfl⟩
  | _ =>
    obtain rfl := Option.some.inj h
    exact ⟨⟨rfl, rfl⟩, .inl rfl⟩

theorem fine_operand {op : BinaryOp} {rule : OperatorRule} (hrule : operatorRule? op = some rule) {e : Expr} {t : Ty} :
    Fine (operand op e t) fun b => t.isError = false → b = true ∧ t = rule.operand := by
  rw [operand, hrule]
  refine .ite (fun herror => .pure fun hfine => by simp [hfine] at herror) fun _ => ?_
  refine .ite (fun hagrees => .pure fun _ => ⟨rfl, eq_of_agrees_scalar hagrees (rule_types hrule).2⟩) fun _ => ?_
  exact .seq (steady_report _ _) (fun _ => steady_pure _) (.report (P := fun _ => False)) fun _ => False.elim

/-- An operator whose operands have types that are not in error. -/
theorem fine_combined {op : BinaryOp} (hop : ∀ sign, op ≠ .other sign) {span : Option Span} {e e' : Expr} {t u : Ty}
    (ht : Known t) (hu : Known u) (hleft : Quiet (said (operand op e t))) (hright : Quiet (said (operand op e' u))) :
    Fine (combined op span t u (outcome (operand op e t) && outcome (operand op e' u))) fun r =>
      t = u ∧ OperatorTypes op t r := by
  unfold combined
  split
  · rename_i rule hrule
    obtain ⟨hok, rfl⟩ := fine_operand hrule hleft (not_error_of_known ht)
    obtain ⟨hok', rfl⟩ := fine_operand hrule hright (not_error_of_known hu)
    rw [hok, hok']
    exact .pure ⟨rfl, (rule_types hrule).1⟩
  · rename_i hrule
    intro hquiet
    obtain ⟨hbool, rfl, hshown⟩ := fine_equality hquiet ht hu
    rw [hbool]
    cases op with
    | eq | ne => exact ⟨rfl, hshown, rfl⟩
    | other sign => exact absurd rfl (hop sign)
    | _ => cases hrule

/-- Arguments that fit their parameters have their types. -/
theorem fine_arguments : (args : List (Expr × Ty)) → (params : List Ty) → args.length = params.length →
    Fine (checkArguments args params) fun _ =>
      (∀ a ∈ args, a.2.isError = false) → (∀ t ∈ params, IsScalar t) → args.map Prod.snd = params
  | [], [], _ => .pure fun _ _ => rfl
  | (arg, t) :: args, param :: params, hlength => by
    have hrest := fine_arguments args params (by simpa using hlength)
    rw [checkArguments]
    refine .ite (fun _ => ?_) fun hfits => fun hquiet hargs hparams => ?_
    · refine .seq (steady_report _ _) (fun _ => steady_arguments _ _) (.report (P := fun _ => False)) fun _ => False.elim
    · rw [List.forall_mem_cons] at hargs hparams
      have hscalar : param.isError = false := not_error_of_known (.inl hparams.1)
      simp only [hargs.1, hscalar, Bool.not_false, Bool.true_and, Bool.not_eq_true', Bool.not_eq_false] at hfits
      rw [List.map_cons, hrest hquiet hargs.2 hparams.2, eq_of_agrees_scalar hfits hparams.1]

/-- The type of a call whose callee has been looked up. -/
theorem fine_call (hσ : SymbolsOk (shape arena)) {span : Option Span} {callee : Ident} {i : Int} {s : Symbol}
    (hbinding : callee.binding = .symbol i) (hs : arena.get? i = some s) {args : List (Expr × Ty)}
    (hargs : ∀ a ∈ args, a.2.isError = false) : Fine (callTy arena span callee (seenTy arena callee) args) fun t =>
      ∃ f, s = .func f ∧ t = f.result ∧ args.map Prod.snd = f.params := by
  have hok : SymbolOk (shape arena) (unplaced s) := hσ i _ (by simp [shape, hs])
  have hknown := ty_unplaced s ▸ known_of_symbol hok
  rw [seenTy_eq hbinding hs]
  refine .ite (fun herror => by simp [not_error_of_known hknown] at herror) fun _ => ?_
  refine .ite (fun _ => .wrong) fun hfunction => ?_
  simp only [hbinding, hs]
  cases s with
  | func f =>
    refine .ite (fun _ => ?_) fun hcount => ?_
    · exact .seq (steady_report _ _) (fun _ => steady_pure _) (.report (P := fun _ => False)) fun _ => False.elim
    · refine .seq (steady_arguments _ _) (fun _ => steady_pure _) (fine_arguments _ _ (by simpa using hcount)) ?_
      exact fun _ htypes => .pure ⟨f, rfl, rfl, htypes hargs hok.2.1⟩
  | struct d => simp [Symbol.ty, Ty.isFunction] at hfunction
  | var v =>
    rcases hok.2 with ⟨hscalar, -⟩ | ⟨name, k, d, hstruct, -⟩
    · rcases hscalar with hty | hty <;> simp_all [Symbol.ty, unplaced, Ty.isFunction]
    · simp_all [Symbol.ty, unplaced, Ty.isFunction]

end Rules

section Expressions

variable {lit : String → Prop} {arena : Arena} {Γ : List Scope}

/-- A name that has been looked up has the type that is seen. -/
theorem hasType_ident {x : Ident} {i : Int} {s : Symbol} (hbinding : x.binding = .symbol i)
    (h : shape arena i = some s) : HasType arena (.ident x) (seenTy arena x) ∧ seenTy arena x = s.ty := by
  obtain ⟨s', hs', rfl⟩ := Option.map_eq_some_iff.mp h
  rw [seenTy_eq hbinding hs', ty_unplaced]
  exact ⟨.ident hbinding hs', rfl⟩

/-- A location has the type of the variable that it names. -/
theorem hasType_of_place : (e : Expr) → {v : Variable} → Place (shape arena) Γ e v →
    HasType arena e (typeOf arena e) ∧ typeOf arena e = v.ty
  | .ident x, v, h => by
    obtain ⟨i, -, hbinding, hv⟩ := h
    exact hasType_ident hbinding hv
  | .dot note obj field reached bad, v, h => by
    obtain ⟨rfl, -, u, k, d, j, hobj, -, -, -, hbinding, hv⟩ := h
    obtain ⟨s, hs, hvar⟩ := Option.map_eq_some_iff.mp hv
    rw [typeOf, if_neg (by decide), seenTy_eq hbinding hs]
    refine ⟨.dot (hasType_of_place obj hobj).1 hbinding hs, ?_⟩
    rw [← ty_unplaced, hvar]
    rfl
  | .int .., _, h | .string .., _, h | .bool .., _, h | .assign .., _, h | .call .., _, h
  | .unary .., _, h | .binary .., _, h | .misfit .., _, h => h.elim

theorem shown_of_scalar {t : Ty} (h : IsScalar t ∨ t = .string) : IsShown t := by
  rcases h with (h | h) | h
  · exact .inl h
  · exact .inr (.inl h)
  · exact .inr (.inr h)

/-- What an operator works on and gives is as the rule for its kind says. -/
theorem hasType_binary_iff {note : Note} {op : BinaryOp} {e e' : Expr} {t : Ty} :
    HasType arena (.binary note op e e') t ↔
      ∃ u, OperatorTypes op u t ∧ HasType arena e u ∧ HasType arena e' u := by
  constructor
  · intro h
    cases h with
    | arithmetic operator left right | logical operator left right | relational operator left right =>
      refine ⟨_, ?_, left, right⟩
      cases op <;> first | exact ⟨rfl, rfl⟩ | cases operator
    | equality operator left right shown =>
      refine ⟨_, ?_, left, right⟩
      have hshown := or_assoc.mpr shown
      cases op <;> first | exact ⟨hshown, rfl⟩ | cases operator
  · rintro ⟨u, h, hleft, hright⟩
    cases op with
    | add | sub | mul | div =>
      obtain ⟨rfl, rfl⟩ := h
      exact .arithmetic rfl hleft hright
    | and | or =>
      obtain ⟨rfl, rfl⟩ := h
      exact .logical rfl hleft hright
    | lt | gt | le | ge =>
      obtain ⟨rfl, rfl⟩ := h
      exact .relational rfl hleft hright
    | eq | ne =>
      obtain ⟨hshown, rfl⟩ := h
      exact .equality rfl hleft hright (shown_of_scalar hshown)
    | other sign => exact h.elim

/-- The types of arguments are not in error. -/
theorem not_error_of_hasTypes (hσ : SymbolsOk (shape arena)) : (es : List Expr) →
    HasTypes arena es ((typesOf arena es).map Prod.snd) → ∀ a ∈ typesOf arena es, a.2.isError = false
  | [], _ => by simp [typesOf]
  | e :: es, h => by
    rw [typesOf, List.map_cons] at h
    cases h with
    | cons first rest =>
      rw [typesOf, List.forall_mem_cons]
      exact ⟨not_error_of_known (known_of_hasType hσ first), not_error_of_hasTypes hσ es rest⟩

mutual

/-- If nothing is wrong with an expression, it has a type by the rules. -/
theorem hasType_of_quiet (hσ : SymbolsOk (shape arena)) : (e : Expr) → Bound lit (shape arena) Γ e →
    Quiet (remarks arena e) → HasType arena e (typeOf arena e)
  | .int .., _, _ => .int
  | .string .., _, _ => .string
  | .bool .., _, _ => .bool
  | .ident x, hbound, _ => by
    obtain ⟨i, symbol, -, hbinding, hsymbol⟩ := hbound
    exact (hasType_ident hbinding hsymbol).1
  | .dot .., hbound, _ => by
    obtain ⟨v, hplace⟩ := hbound
    exact (hasType_of_place _ hplace).1
  | .assign note target value, hbound, hquiet => by
    obtain ⟨-, htarget, hvalue⟩ := hbound
    rw [remarks, quiet_append, quiet_append] at hquiet
    obtain ⟨⟨hleft, hright⟩, hquiet⟩ := hquiet
    have htarget := hasType_of_quiet hσ target htarget hleft
    have hvalue := hasType_of_quiet hσ value hvalue hright
    obtain ⟨hty, hsame, hplain⟩ := fine_assign hquiet (known_of_hasType hσ htarget) (known_of_hasType hσ hvalue)
    rw [typeOf, hty]
    exact .assignment htarget (hsame ▸ hvalue) hplain
  | .call note callee args, hbound, hquiet => by
    obtain ⟨⟨i, symbol, -, hbinding, hsymbol⟩, hargs⟩ := hbound
    obtain ⟨s, hs, rfl⟩ := Option.map_eq_some_iff.mp hsymbol
    rw [remarks, quiet_append] at hquiet
    have htyped := hasTypes_of_quiet hσ args hargs hquiet.1
    obtain ⟨f, rfl, hty, hparams⟩ := fine_call hσ hbinding hs (not_error_of_hasTypes hσ args htyped) hquiet.2
    rw [typeOf, hty]
    exact .call (.ident hbinding hs) (hparams ▸ htyped)
  | .unary note op operand, hbound, hquiet => by
    rw [remarks, quiet_append] at hquiet
    have htyped := hasType_of_quiet hσ operand hbound.2 hquiet.1
    obtain ⟨⟨rfl, hty⟩ | ⟨rfl, hty⟩, hsame⟩ := fine_unary hbound.1 hquiet.2
      (not_error_of_known (known_of_hasType hσ htyped))
    · rw [typeOf, hty]
      exact .negation (hty ▸ hsame ▸ htyped)
    · rw [typeOf, hty]
      exact .complement (hty ▸ hsame ▸ htyped)
  | .binary note op left right, hbound, hquiet => by
    obtain ⟨hop, hleft, hright⟩ := hbound
    simp only [remarks, quiet_append] at hquiet
    obtain ⟨⟨⟨hquietLeft, hokLeft⟩, hquietRight, hokRight⟩, hquiet⟩ := hquiet
    have hleft := hasType_of_quiet hσ left hleft hquietLeft
    have hright := hasType_of_quiet hσ right hright hquietRight
    obtain ⟨hsame, htypes⟩ := fine_combined hop (known_of_hasType hσ hleft) (known_of_hasType hσ hright) hokLeft
      hokRight hquiet
    rw [typeOf]
    exact hasType_binary_iff.mpr ⟨_, htypes, hleft, hsame ▸ hright⟩
  | .misfit .., hbound, _ => hbound.elim

theorem hasTypes_of_quiet (hσ : SymbolsOk (shape arena)) : (es : List Expr) → BoundAll lit (shape arena) Γ es →
    Quiet (remarksAll arena es) → HasTypes arena es ((typesOf arena es).map Prod.snd)
  | [], _, _ => .nil
  | e :: es, hbound, hquiet => by
    rw [remarksAll, quiet_append] at hquiet
    exact .cons (hasType_of_quiet hσ e hbound.1 hquiet.1) (hasTypes_of_quiet hσ es hbound.2 hquiet.2)

end

end Expressions

section Records

variable {lit : String → Prop} {arena : Arena} {Γ : List Scope}

/-- What a location is called is a variable, a function or a struct. -/
theorem scalar_of_location (hσ : SymbolsOk (shape arena)) {e : Expr} {t : Ty} (hlocation : e.isLocation)
    (h : HasType arena e t) (hplain : IsPlain t) : IsScalar t := by
  have hsymbol : ∀ {i : Int} {s : Symbol}, arena.get? i = some s → IsPlain s.ty → IsScalar s.ty := by
    intro i s hs hplain
    have hok : SymbolOk (shape arena) (unplaced s) := hσ i _ (by simp [shape, hs])
    rw [← ty_unplaced] at hplain ⊢
    cases s with
    | var v =>
      rcases hok.2 with ⟨hscalar, -⟩ | ⟨name, k, d, hty, -⟩
      · exact hscalar
      · simp_all [Symbol.ty, unplaced, IsPlain, IsShown]
    | _ => simp [Symbol.ty, unplaced, IsPlain, IsShown] at hplain
  cases h with
  | ident _ symbol | dot _ _ symbol => exact hsymbol symbol hplain
  | _ => simp [Expr.isLocation] at hlocation

theorem place_withTy {σ : Symbols} {Γ : List Scope} {e : Expr} {v : Variable} (h : Place σ Γ e v)
    (t : Ty) : Place σ Γ (e.withTy t) v := by
  cases e with
  | ident x => exact h
  | dot note obj field reached bad =>
    simp only [Expr.withTy, Expr.withNote]
    exact h
  | _ => exact h.elim

theorem typed_withTy {σ : Symbols} {Γ : List Scope} {e : Expr} {u : Ty} (h : Typed lit σ Γ e u)
    (t : Ty) : Typed lit σ Γ (e.withTy t) u := by
  cases e with
  | dot note obj field reached bad =>
    obtain ⟨v, hplace, hu⟩ := h
    simp only [Expr.withTy, Expr.withNote]
    exact ⟨v, place_withTy hplace t, hu⟩
  | _ =>
    simp only [Expr.withTy, Expr.withNote]
    exact h

@[simp] theorem isLocation_typed (e : Expr) : (typed arena e).isLocation = e.isLocation := by cases e <;> rfl

/-- Where types are recorded, a location names the same variable. -/
theorem place_typed : (e : Expr) → {v : Variable} → Place (shape arena) Γ e v → Place (shape arena) Γ (typed arena e) v
  | .ident _, _, h => h
  | .dot note obj field reached bad, v, h => by
    rw [typed]
    refine place_withTy ?_ _
    obtain ⟨hbad, hreached, u, k, d, i, hu, hrest⟩ := h
    exact ⟨hbad, hreached, u, k, d, i, place_typed obj hu, hrest⟩
  | .int .., _, h | .string .., _, h | .bool .., _, h | .assign .., _, h | .call .., _, h | .unary .., _, h
  | .binary .., _, h | .misfit .., _, h => h.elim

mutual

/-- An expression with a type has it where types are recorded. -/
theorem typed_of_hasType (hσ : SymbolsOk (shape arena)) : (e : Expr) → {t : Ty} → Bound lit (shape arena) Γ e →
    HasType arena e t → Typed lit (shape arena) Γ (typed arena e) t
  | .int .., _, hbound, h => by
    cases h
    exact ⟨rfl, hbound⟩
  | .string .., _, hbound, h => by
    cases h
    exact ⟨rfl, hbound⟩
  | .bool .., _, _, h => by
    cases h
    exact rfl
  | .ident x, t, hbound, h => by
    obtain ⟨i, symbol, hfind, hbinding, hsymbol⟩ := hbound
    obtain ⟨htyped, hty⟩ := hasType_ident hbinding hsymbol
    exact ⟨i, symbol, hfind, hbinding, hsymbol, (h.unique htyped).trans hty⟩
  | .dot .., _, hbound, h => by
    obtain ⟨v, hplace⟩ := hbound
    obtain ⟨htyped, hty⟩ := hasType_of_place _ hplace
    rw [typed]
    exact ⟨v, place_typed _ hplace, (h.unique htyped).trans hty⟩
  | .assign _ target value, _, hbound, h => by
    cases h with
    | assignment left right plain =>
      rw [typed]
      refine typed_withTy ?_ _
      exact ⟨(isLocation_typed target).trans hbound.1, scalar_of_location hσ hbound.1 left plain,
        typed_of_hasType hσ target hbound.2.1 left, typed_of_hasType hσ value hbound.2.2 right⟩
  | .call _ callee args, _, hbound, h => by
    cases h with
    | call name typed =>
      obtain ⟨⟨i, symbol, hfind, hbinding, hsymbol⟩, hargs⟩ := hbound
      obtain ⟨j, f, hbinding', hf, rfl, rfl, -⟩ := func_of_hasType hσ name
      obtain rfl : i = j := by simpa using hbinding.symm.trans hbinding'
      rw [Verdicts.typed]
      refine typed_withTy ?_ _
      exact ⟨i, f, hfind, hbinding, by simp [shape, hf, unplaced], rfl, typedAll_of_hasTypes hσ args hargs typed⟩
  | .unary _ op operand, _, hbound, h => by
    rw [typed]
    refine typed_withTy ?_ _
    cases h with
    | negation typed => exact ⟨.inl ⟨rfl, rfl⟩, typed_of_hasType hσ operand hbound.2 typed⟩
    | complement typed => exact ⟨.inr ⟨rfl, rfl⟩, typed_of_hasType hσ operand hbound.2 typed⟩
  | .binary _ op left right, _, hbound, h => by
    obtain ⟨u, htypes, hleft, hright⟩ := hasType_binary_iff.mp h
    rw [typed]
    refine typed_withTy ?_ _
    exact ⟨u, htypes, typed_of_hasType hσ left hbound.2.1 hleft, typed_of_hasType hσ right hbound.2.2 hright⟩
  | .misfit .., _, hbound, _ => hbound.elim

theorem typedAll_of_hasTypes (hσ : SymbolsOk (shape arena)) : (es : List Expr) → {ts : List Ty} →
    BoundAll lit (shape arena) Γ es → HasTypes arena es ts → TypedAll lit (shape arena) Γ (typedAll arena es) ts
  | [], _, _, h => by
    cases h
    rfl
  | e :: es, _, hbound, h => by
    cases h with
    | cons first rest =>
      exact ⟨_, _, rfl, typed_of_hasType hσ e hbound.1 first, typedAll_of_hasTypes hσ es hbound.2 rest⟩

end

end Records

section Statements

variable {lit : String → Prop} {arena : Arena} {Γ : List Scope} {e : Expr} {t result : Ty}

theorem fine_condition {complaint : TypeFinding} :
    Fine (checkCondition complaint e t) fun _ => Known t → t = .bool :=
  .ite (fun _ => .report) fun hfine => .pure fun hknown => by
    cases t <;> simp_all [Ty.isBool, not_error_of_known hknown]

theorem fine_counted : Fine (checkCounted e t) fun _ => Known t → t = .int :=
  .ite (fun _ => .report) fun hfine => .pure fun hknown => by
    cases t <;> simp_all [Ty.isInt, not_error_of_known hknown]

theorem fine_read : Fine (checkRead e t) fun _ => Known t → IsPlain t :=
  .ite (fun _ => .report) fun hfunction => .ite (fun _ => .report) fun hname =>
    .ite (fun _ => .report) fun hstruct => .pure fun hknown => by
      simpa [Known, IsPlain, IsShown, IsScalar, or_assoc, hfunction, hname, hstruct] using hknown

theorem fine_written : Fine (checkWritten e t) fun _ => Known t → IsShown t :=
  .ite (fun _ => .report) fun hfunction => .ite (fun _ => .report) fun hname =>
    .ite (fun _ => .report) fun hstruct => .ite (fun _ => .report) fun hvoid => .pure fun hknown => by
      have hvoid : t ≠ .void := by rintro rfl; exact hvoid rfl
      simpa [Known, IsShown, IsScalar, or_assoc, hfunction, hname, hstruct, hvoid] using hknown

theorem fine_returned (hresult : IsScalar result ∨ result = .void) :
    Fine (checkReturned result e t) fun _ => Known t → result ≠ .void ∧ t = result :=
  .ite (fun _ => .report) fun hvoid => .ite (fun _ => .report) fun hfine => .pure fun hknown => by
    rcases hresult with hscalar | rfl
    · refine ⟨by rintro rfl; exact hvoid rfl, eq_of_agrees_scalar ?_ hscalar⟩
      simpa [not_error_of_known hknown] using hfine
    · exact absurd rfl hvoid

/-- A check is made on an expression, and nothing is wrong. -/
theorem hasType_of_asked (hσ : SymbolsOk (shape arena)) {check : Expr → Ty → TypingM Unit} {p : Prop}
    (hcheck : Fine (check e (typeOf arena e)) fun _ => Known (typeOf arena e) → p)
    (hbound : Bound lit (shape arena) Γ e) (hquiet : Quiet (asked arena check e)) :
    HasType arena e (typeOf arena e) ∧ p := by
  rw [asked, quiet_append] at hquiet
  have htyped := hasType_of_quiet hσ e hbound hquiet.1
  exact ⟨htyped, hcheck hquiet.2 (known_of_hasType hσ htyped)⟩

mutual

/-- If nothing is wrong with a statement, it fits its function. -/
theorem fits_stmt (hσ : SymbolsOk (shape arena)) (hresult : IsScalar result ∨ result = .void) :
    (st : Stmt) → {Γ : List Scope} → BoundStmt lit (shape arena) Γ st → Quiet (stmtRemarks arena result st) →
    FitsStmt arena result st
  | .assign span e, Γ, hbound, hquiet => by
    rw [stmtRemarks] at hquiet
    exact .assign (hasType_of_quiet hσ _ hbound.2 hquiet)
  | .increment span e, Γ, hbound, hquiet => by
    rw [stmtRemarks] at hquiet
    obtain ⟨htyped, hint⟩ := hasType_of_asked hσ fine_counted hbound.2 hquiet
    exact .increment (hint ▸ htyped)
  | .decrement span e, Γ, hbound, hquiet => by
    rw [stmtRemarks] at hquiet
    obtain ⟨htyped, hint⟩ := hasType_of_asked hσ fine_counted hbound.2 hquiet
    exact .decrement (hint ▸ htyped)
  | .read span e, Γ, hbound, hquiet => by
    rw [stmtRemarks] at hquiet
    obtain ⟨htyped, hplain⟩ := hasType_of_asked hσ fine_read hbound.2 hquiet
    exact .read htyped hplain
  | .write span e, Γ, hbound, hquiet => by
    rw [stmtRemarks] at hquiet
    obtain ⟨htyped, hshown⟩ := hasType_of_asked hσ fine_written hbound hquiet
    exact .write htyped hshown
  | .ifThen span cond body, Γ, hbound, hquiet => by
    rw [stmtRemarks, quiet_append] at hquiet
    obtain ⟨htyped, hbool⟩ := hasType_of_asked hσ fine_condition hbound.1 hquiet.1
    exact .ifThen (hbool ▸ htyped) (fits_block hσ hresult body hbound.2 hquiet.2)
  | .loop span cond body, Γ, hbound, hquiet => by
    rw [stmtRemarks, quiet_append] at hquiet
    obtain ⟨htyped, hbool⟩ := hasType_of_asked hσ fine_condition hbound.1 hquiet.1
    exact .loop (hbool ▸ htyped) (fits_block hσ hresult body hbound.2 hquiet.2)
  | .ifElse span cond body other, Γ, hbound, hquiet => by
    rw [stmtRemarks, quiet_append, quiet_append] at hquiet
    obtain ⟨htyped, hbool⟩ := hasType_of_asked hσ fine_condition hbound.1 hquiet.1
    exact .ifElse (hbool ▸ htyped) (fits_block hσ hresult body hbound.2.1 hquiet.2.1)
      (fits_block hσ hresult other hbound.2.2 hquiet.2.2)
  | .call span e, Γ, hbound, hquiet => by
    rw [stmtRemarks] at hquiet
    exact .call (hasType_of_quiet hσ _ hbound.2 hquiet)
  | .ret span none, Γ, _, hquiet => by
    rw [stmtRemarks] at hquiet
    refine .leave ?_
    split at hquiet
    · cases result <;> simp_all [Ty.isVoid]
    · cases hquiet _ (.head _)
  | .ret span (some e), Γ, hbound, hquiet => by
    rw [stmtRemarks] at hquiet
    obtain ⟨htyped, hvoid, hty⟩ := hasType_of_asked hσ (fine_returned hresult) hbound hquiet
    exact .ret hvoid (hty ▸ htyped)
  | .misfit .., Γ, hbound, _ => hbound.elim

theorem fits_stmts (hσ : SymbolsOk (shape arena)) (hresult : IsScalar result ∨ result = .void) :
    (ss : List Stmt) → {returned : Bool} → {Γ : List Scope} → BoundStmts lit (shape arena) Γ ss →
    Quiet (stmtsRemarks arena result returned ss) → FitsStmts arena result ss
  | [], _, _, _, _ => .nil
  | st :: ss, _, _, hbound, hquiet => by
    rw [stmtsRemarks, quiet_append, quiet_append] at hquiet
    exact .cons (fits_stmt hσ hresult st hbound.1 hquiet.2.1) (fits_stmts hσ hresult ss hbound.2 hquiet.2.2)

theorem fits_block (hσ : SymbolsOk (shape arena)) (hresult : IsScalar result ∨ result = .void) :
    (b : Block) → {Γ : List Scope} → BoundBlock lit (shape arena) Γ b → Quiet (blockRemarks arena result b) →
    FitsBlock arena result b
  | .mk span decls body, _, hbound, hquiet => by
    obtain ⟨scope, -, -, hbound⟩ := hbound
    rw [blockRemarks] at hquiet
    exact .mk (fits_stmts hσ hresult body hbound hquiet)

end

mutual

/-- A statement that fits its function is in order where types are recorded. -/
theorem ok_of_fits (hσ : SymbolsOk (shape arena)) (hresult : IsScalar result ∨ result = .void) :
    (st : Stmt) → {Γ : List Scope} → BoundStmt lit (shape arena) Γ st → FitsStmt arena result st →
    StmtOk lit (shape arena) Γ result (typedStmt arena st)
  | .assign span e, Γ, ⟨⟨note, target, value, hassign⟩, hbound⟩, .assign typed => by
    subst hassign
    have htyped := typed_of_hasType hσ _ hbound typed
    cases typed with
    | assignment left _ plain => exact ⟨_, scalar_of_location hσ hbound.1 left plain, htyped⟩
  | .increment span e, Γ, hbound, .increment typed | .decrement span e, Γ, hbound, .decrement typed =>
    ⟨(isLocation_typed e).trans hbound.1, typed_of_hasType hσ e hbound.2 typed⟩
  | .read span e, Γ, hbound, .read typed plain =>
    ⟨(isLocation_typed e).trans hbound.1, _, scalar_of_location hσ hbound.1 typed plain,
      typed_of_hasType hσ e hbound.2 typed⟩
  | .write span e, Γ, hbound, .write typed shown =>
    ⟨_, or_assoc.mpr shown, (confirms hσ e typed).type ▸ ty_typed e, typed_of_hasType hσ e hbound typed⟩
  | .ifThen span cond body, Γ, hbound, .ifThen condition fits | .loop span cond body, Γ, hbound, .loop condition fits =>
    ⟨typed_of_hasType hσ cond hbound.1 condition, ok_of_fitsBlock hσ hresult body hbound.2 fits⟩
  | .ifElse span cond body other, Γ, hbound, .ifElse condition fits fits' =>
    ⟨typed_of_hasType hσ cond hbound.1 condition, ok_of_fitsBlock hσ hresult body hbound.2.1 fits,
      ok_of_fitsBlock hσ hresult other hbound.2.2 fits'⟩
  | .call span e, Γ, ⟨⟨note, callee, args, hcall⟩, hbound⟩, .call typed => by
    subst hcall
    exact ⟨_, _, _, _, rfl, typed_of_hasType hσ _ hbound typed⟩
  | .ret span none, Γ, _, .leave void => void
  | .ret span (some e), Γ, hbound, .ret notVoid typed =>
    ⟨hresult.resolve_right notVoid, typed_of_hasType hσ e hbound typed⟩
  | .misfit .., Γ, hbound, _ => hbound.elim

theorem ok_of_fitsStmts (hσ : SymbolsOk (shape arena)) (hresult : IsScalar result ∨ result = .void) :
    (ss : List Stmt) → {Γ : List Scope} → BoundStmts lit (shape arena) Γ ss → FitsStmts arena result ss →
    StmtsOk lit (shape arena) Γ result (typedStmts arena ss)
  | [], _, _, _ => trivial
  | st :: ss, _, hbound, .cons first rest =>
    ⟨ok_of_fits hσ hresult st hbound.1 first, ok_of_fitsStmts hσ hresult ss hbound.2 rest⟩

theorem ok_of_fitsBlock (hσ : SymbolsOk (shape arena)) (hresult : IsScalar result ∨ result = .void) :
    (b : Block) → {Γ : List Scope} → BoundBlock lit (shape arena) Γ b → FitsBlock arena result b →
    BlockOk lit (shape arena) Γ result (typedBlock arena b)
  | .mk _ _ body, _, ⟨scope, hdeclares, hnodup, hbound⟩, .mk fits =>
    ⟨scope, hdeclares, hnodup, ok_of_fitsStmts hσ hresult body hbound fits⟩

end

mutual

/-- The check leaves declarations as they are. -/
theorem decls_typedStmt : (st : Stmt) → stmtDecls (typedStmt arena st) = stmtDecls st
  | .ifThen _ _ body | .loop _ _ body => by rw [typedStmt, stmtDecls, stmtDecls, decls_typedBlock]
  | .ifElse _ _ body other => by
    rw [typedStmt, stmtDecls, stmtDecls, decls_typedBlock, decls_typedBlock]
  | .ret _ none | .ret _ (some _) | .assign .. | .increment .. | .decrement .. | .read .. | .write .. | .call ..
  | .misfit .. => by simp [typedStmt, stmtDecls]

theorem decls_typedStmts : (ss : List Stmt) → stmtsDecls (typedStmts arena ss) = stmtsDecls ss
  | [] => rfl
  | st :: ss => by rw [typedStmts, stmtsDecls, stmtsDecls, decls_typedStmt, decls_typedStmts]

theorem decls_typedBlock : (b : Block) → blockDecls (typedBlock arena b) = blockDecls b
  | .mk _ decls body => by rw [typedBlock, blockDecls, blockDecls, decls_typedStmts]

end

end Statements

section Programs

variable {arena : Arena}

/-- The body of a function fits it. -/
def FitsDecl (arena : Arena) : Decl → Prop
  | .fn d => ∃ result, Ty.ofWord? d.result.name = some result ∧ FitsBlock arena result d.body
  | .var _ | .struct _ | .misfit .. => True

def Slotted (σ : Symbols) : Decl → Prop
  | .misfit .. => False
  | d => ∀ v ∈ localsOf d, SlotOk σ v

theorem declName_typedDecl (arena : Arena) (d : Decl) : declName (typedDecl arena d) = declName d := by cases d <;> rfl

theorem localsOf_typedDecl (d : Decl) : localsOf (typedDecl arena d) = localsOf d := by
  cases d with
  | fn d => simp only [typedDecl, localsOf, fnDecls, decls_typedBlock]
  | _ => rfl

theorem slotted_typedDecl {σ : Symbols} {d : Decl} (h : VisitedDecl σ d) : Slotted σ (typedDecl arena d) := by
  cases d with
  | var d | struct d => simp [typedDecl, Slotted, localsOf]
  | fn d =>
    intro v hv
    have hv : v ∈ localsOf (typedDecl arena (.fn d)) := hv
    rw [localsOf_typedDecl] at hv
    exact h.2.1 v hv
  | misfit => exact h.elim

/-- If nothing is wrong with a declaration, its statements fit it. -/
theorem fits_decl (lit : String → Prop) (hσ : SymbolsOk (shape arena)) {d : Decl} (hvisited : VisitedDecl (shape arena) d)
    (hquiet : Quiet (declRemarks arena d)) {globals : Scope} {i : Int}
    (h : DeclShape (shape arena) (fun Γ _ ss => BoundStmts lit (shape arena) Γ ss) globals i d) :
    FitsDecl arena d ∧ DeclOk lit (shape arena) globals i (typedDecl arena d) := by
  cases d with
  | var d | struct d => exact ⟨trivial, h⟩
  | fn d =>
    obtain ⟨hbinding, f, hf, hname, hresult, hformals, scope, hdeclares, hnodup, hbound⟩ := h
    obtain ⟨result, -, hsome, -, hplain⟩ := ofWord_of_typeWord hvisited.1
    obtain rfl : result = f.result := by simpa using hsome.symm.trans hresult
    rw [declRemarks, hresult] at hquiet
    obtain ⟨span, resultType, name, formals, ⟨bodySpan, decls, stmts⟩⟩ := d
    have hfits := fits_stmts hσ hplain stmts hbound hquiet
    exact ⟨⟨f.result, hresult, .mk hfits⟩, hbinding, f, hf, hname, hresult, hformals, scope, hdeclares, hnodup,
      ok_of_fitsStmts hσ hplain stmts hbound hfits⟩
  | misfit => exact hvisited.elim

/-- If nothing is wrong with the declarations of a program, their statements fit them. -/
theorem fits_decls (lit : String → Prop) (hσ : SymbolsOk (shape arena)) : (ds : List Decl) →
    (∀ d ∈ ds, VisitedDecl (shape arena) d) → Quiet (ds.flatMap (declRemarks arena)) → {before after : Scope} →
    DeclsShape (shape arena) (fun Γ _ ss => BoundStmts lit (shape arena) Γ ss) before ds after →
    (∀ d ∈ ds, FitsDecl arena d) ∧ DeclsOk lit (shape arena) before (ds.map (typedDecl arena)) after
  | [], _, _, _, _, h => ⟨by simp, h⟩
  | d :: ds, hvisited, hquiet, before, after, h => by
    obtain ⟨hd, hds⟩ := List.forall_mem_cons.mp hvisited
    rw [List.flatMap_cons, quiet_append] at hquiet
    obtain ⟨i, hnew, hshape, hrest⟩ := h
    obtain ⟨hfits, hok⟩ := fits_decl lit hσ hd hquiet.1 hshape
    rw [← declName_typedDecl arena] at hnew hok hrest
    obtain ⟨hfitsRest, hokRest⟩ := fits_decls lit hσ ds hds hquiet.2 hrest
    exact ⟨List.forall_mem_cons.mpr ⟨hfits, hfitsRest⟩, i, hnew, hok, hokRest⟩

/-- If nothing is wrong with a program, it follows the rules, and is in order where types are recorded. -/
theorem fits_program (lit : String → Prop) (hσ : SymbolsOk (shape arena)) {ds : List Decl}
    (hvisited : ∀ d ∈ ds, VisitedDecl (shape arena) d) (hquiet : Quiet (programRemarks arena ds)) {before after : Scope}
    (h : DeclsShape (shape arena) (fun Γ _ ss => BoundStmts lit (shape arena) Γ ss) before ds after) :
    WellTyped arena ds ∧ DeclsOk lit (shape arena) before (ds.map (typedDecl arena)) after := by
  rw [programRemarks, quiet_append] at hquiet
  obtain ⟨hfits, hok⟩ := fits_decls lit hσ ds hvisited hquiet.1 h
  refine ⟨⟨fun d hd => hfits _ hd, any_isMain_iff.mp ?_⟩, hok⟩
  have hmain := hquiet.2
  unfold mainRemarks at hmain
  split at hmain
  · assumption
  · cases hmain _ (.head _)

end Programs

end CMinusMinus.Proofs.Checking
