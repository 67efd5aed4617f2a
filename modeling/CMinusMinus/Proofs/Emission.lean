import CMinusMinus.Proofs.Slots

/-!
What is written for a well-formed program. The lines are those of its code, as long as all numbers in
it can be written; a number with too many digits stops the writing, and nothing else does. In
particular the checks on the evaluation stack never fail.
-/
namespace CMinusMinus.Proofs

open Assembly WellFormed
open Code (Item linesOf Writable)

namespace Code

@[simp] theorem linesOf_nil : linesOf [] = [] := rfl

@[simp] theorem linesOf_cons (i : Item) (is : List Item) : linesOf (i :: is) = i.lines ++ linesOf is :=
  List.flatMap_cons

@[simp] theorem linesOf_append (is js : List Item) : linesOf (is ++ js) = linesOf is ++ linesOf js :=
  List.flatMap_append

@[simp] theorem writable_nil : Writable [] := by simp [Writable]

theorem writable_append {is js : List Item} : Writable (is ++ js) ↔ Writable is ∧ Writable js := by
  simp only [Writable, List.mem_append, or_imp, forall_and]

theorem writable_cons {i : Item} {is : List Item} :
    Writable (i :: is) ↔ (∀ n ∈ i.numbers, Text.isWritable n) ∧ Writable is := by
  simp [Writable]

end Code

/-- A piece of writing gives a value and the lines of some code, or it stops because of a number in
the code. -/
structure Emits {α : Type} (x : Emit α) (st : EmitState) (a : α) (items : List Item)
    (st' : EmitState) : Prop where
  done : Writable items → x st = ⟨.ok a, linesOf items, st'⟩
  stopped : ¬ Writable items → (x st).value = .error .numeralTooLong

namespace Emits

variable {α β : Type} {x : Emit α} {f : α → Emit β} {st st' st'' : EmitState} {a : α} {b : β}
  {is js : List Item} {d : Int} {c : Code.Counters}

theorem bind (hx : Emits x st a is st') (hf : Emits (f a) st' b js st'') :
    Emits (x >>= f) st b (is ++ js) st'' where
  done h := by
    obtain ⟨his, hjs⟩ := Code.writable_append.mp h
    show Emit.bind x f st = _
    simp [Emit.bind, hx.done his, hf.done hjs]
  stopped h := by
    show (Emit.bind x f st).value = _
    by_cases his : Writable is
    · have hjs := hf.stopped fun hjs => h (Code.writable_append.mpr ⟨his, hjs⟩)
      simp [Emit.bind, hx.done his, hjs]
    · simp [Emit.bind, hx.stopped his]

/-- Writing that writes nothing. -/
theorem silent (h : x st = ⟨.ok a, [], st'⟩) : Emits x st a [] st' :=
  ⟨fun _ => h, fun hne => absurd Code.writable_nil hne⟩

/-- Writing that writes nothing, before other writing. -/
theorem first (h : x st = ⟨.ok a, [], st'⟩) (hf : Emits (f a) st' b js st'') :
    Emits (x >>= f) st b js st'' :=
  (silent h).bind hf

theorem pure (a : α) (st : EmitState) : Emits (Pure.pure a) st a [] st := silent rfl

/-- Writing that writes no numbers. -/
theorem plain (h : x st = ⟨.ok a, linesOf is, st'⟩) (hplain : ∀ i ∈ is, i.numbers = []) :
    Emits x st a is st' :=
  ⟨fun _ => h, fun hne => absurd (fun i hi n hn => by simp [hplain i hi] at hn) hne⟩

theorem instr (i : Instr) (comment : String) (st : EmitState) :
    Emits (Emit.instr i comment) st () [.op i comment] st where
  done h := by
    have hall : i.numbers.all Text.isWritable := by
      rw [List.all_eq_true]
      exact (Code.writable_cons.mp h).1
    rw [Emit.instr, if_pos hall]
    rfl
  stopped h := by
    have hall : ¬ i.numbers.all Text.isWritable := by
      rw [List.all_eq_true]
      exact fun hall => h (Code.writable_cons.mpr ⟨hall, Code.writable_nil⟩)
    rw [Emit.instr, if_neg hall]
    rfl

/-- An instruction before other writing. -/
theorem op {i : Instr} {comment : String} {f : Unit → Emit β} (hf : Emits (f ()) st b js st') :
    Emits (Emit.instr i comment >>= f) st b (.op i comment :: js) st' :=
  (instr i comment st).bind hf

/-- A part of the code without numbers, before other writing. -/
theorem lines {i : Item} {x y : Emit β}
    (hx : x st = ⟨(y st).value, i.lines ++ (y st).lines, (y st).state⟩) (hplain : i.numbers = [])
    (hy : Emits y st b js st') : Emits x st b (i :: js) st' where
  done h := by
    rw [hx, hy.done (Code.writable_cons.mp h).2]
    simp
  stopped h := by
    rw [hx]
    exact hy.stopped fun hjs => h (Code.writable_cons.mpr ⟨by simp [hplain], hjs⟩)

/-- The text of a literal, before other writing. -/
theorem literal (name text : String) {y : Emit β} (hy : Emits y st b js st') : Emits (do
    Emit.line (.directive ".data" "")
    Emit.line (.data name ".asciiz" ("\"" ++ text ++ "\"") "")
    Emit.line (.directive ".text" "")
    y) st b (.literal name text :: js) st' :=
  lines rfl rfl hy

theorem label (name comment : String) (st : EmitState) :
    Emits (Emit.line (.label name comment)) st () [.label name comment] st :=
  plain rfl (by simp [Item.numbers])

/-- A label before other writing. -/
theorem labelled {name comment : String} {f : Unit → Emit β} (hf : Emits (f ()) st b js st') :
    Emits (Emit.line (.label name comment) >>= f) st b (.label name comment :: js) st' :=
  (label name comment st).bind hf

theorem push (r : Reg) (d : Int) (c : Code.Counters) :
    Emits (Emit.push r) ⟨d, c⟩ () (Code.push r) ⟨d + 1, c⟩ :=
  op (op (first rfl (silent rfl)))

theorem shrink {n : Int} (hn : n ≤ d) : Emits (Emit.shrink n) ⟨d, c⟩ () [] ⟨d - n, c⟩ := by
  refine first rfl (first rfl ?_)
  show Emits (if d - n < 0 then Emit.fail _ else Pure.pure ()) _ _ _ _
  rw [if_neg (by omega)]
  exact pure () _

theorem pop (r : Reg) (hd : 1 ≤ d) : Emits (Emit.pop r) ⟨d, c⟩ () (Code.pop r) ⟨d - 1, c⟩ :=
  op (op (shrink hd))

theorem drop {n : Nat} (hd : n ≤ d) : Emits (Emit.drop n) ⟨d, c⟩ () (Code.drop n) ⟨d - n, c⟩ := by
  rw [Emit.drop, Code.drop]
  by_cases hn : (n : Int) = 0
  · rw [if_neg (by simpa using hn), if_neg (by simpa using hn), hn, Int.sub_zero]
    exact pure () _
  · rw [if_pos hn, if_pos hn]
    exact op (shrink hd)

end Emits

section Expressions

variable {env : Lowering.Env} {lit : String → Prop} {Γ : List Scope} {e : Expr} {t : Ty} {d : Int}
  {c : Code.Counters}

/-- A location of the type of operands is found, and its last variable is no struct. -/
theorem located (hσ : SymbolsOk (shape env.arena)) (hlocation : e.isLocation)
    (htyped : Typed lit (shape env.arena) Γ e t) (hoperand : IsOperand t) :
    ∃ v offset last, Lowering.location env e = .ok (v, offset) ∧
      Lowering.lastVariable env e = .ok last ∧ last.structDef = none := by
  obtain ⟨v, hplace, rfl, hscalar⟩ := place_of_typed hσ hlocation htyped hoperand
  have hnone := structDef_of_place hσ hplace hscalar
  obtain ⟨x, path, i, root, -, offset, -, -, -, hfound, -⟩ := location_of_place hplace
  cases e with
  | ident x =>
    obtain ⟨i, -, hbinding, hv⟩ := hplace
    obtain ⟨u, hu, rfl⟩ := shape_var hv
    exact ⟨root, offset, u, hfound, variableOf_eq hbinding hu, hnone⟩
  | dot note obj field reached bad =>
    obtain ⟨-, -, _, _, _, j, -, -, -, -, hbinding, hv⟩ := hplace
    obtain ⟨u, hu, rfl⟩ := shape_var hv
    exact ⟨root, offset, u, hfound, variableOf_eq hbinding hu, hnone⟩
  | _ => simp [Expr.isLocation] at hlocation

theorem emits_address {v : Variable} {offset : Int} (h : Lowering.location env e = .ok (v, offset))
    (r : Reg) (st : EmitState) :
    Emits (Lowering.loadAddress env e r) st () (Code.address v offset r) st := by
  rw [Lowering.loadAddress, h, Code.address]
  refine .first rfl ?_
  dsimp only
  by_cases hglobal : v.isGlobal
  · rw [if_pos hglobal, if_pos hglobal]
    refine .op ?_
    by_cases hoffset : offset = 0
    · rw [if_neg (by simpa using hoffset), if_neg (by simpa using hoffset)]
      exact .pure () st
    · rw [if_pos hoffset, if_pos hoffset]
      exact Emits.instr _ _ _
  · rw [if_neg hglobal, if_neg hglobal]
    exact Emits.instr _ _ _

theorem emits_load {v last : Variable} {offset : Int}
    (h : Lowering.location env e = .ok (v, offset)) (hlast : Lowering.lastVariable env e = .ok last)
    (hnone : last.structDef = none) :
    Emits (Lowering.load env e) ⟨d, c⟩ () (Code.fetch v offset ++ Code.push .t0) ⟨d + 1, c⟩ := by
  rw [Lowering.load, h, hlast, Code.fetch]
  refine .first rfl (.first rfl ?_)
  simp only [hnone, Option.isSome_none, Bool.false_eq_true, if_false]
  by_cases hglobal : v.isGlobal
  · rw [if_pos hglobal, if_pos hglobal]
    by_cases hoffset : offset = 0
    · rw [if_pos hoffset, if_pos hoffset]
      exact .op (Emits.push _ _ _)
    · rw [if_neg hoffset, if_neg hoffset]
      rw [List.append_assoc]
      exact (emits_address h _ _).bind (.op (Emits.push _ _ _))
  · rw [if_neg hglobal, if_neg hglobal]
    exact .op (Emits.push _ _ _)

/-- The check on the stack after the code of an expression. -/
theorem emits_oneWord {code : Emit Unit} {items : List Item} {c' : Code.Counters}
    {span : Option Span} (h : Emits code ⟨d, c⟩ () items ⟨d + 1, c'⟩) :
    Emits (Lowering.oneWord env span code) ⟨d, c⟩ () items ⟨d + 1, c'⟩ := by
  rw [← List.append_nil items]
  refine .first rfl (h.bind (.first rfl ?_))
  show Emits (if d + 1 ≠ d + 1 then Emit.fail _ else Pure.pure ()) _ _ _ _
  rw [if_neg (by simp)]
  exact .pure () _

def EmitsExpr (env : Lowering.Env) (lit : String → Prop) (Γ : List Scope) (e : Expr) : Prop :=
  ∀ {t d c}, 0 ≤ d → Typed lit (shape env.arena) Γ e t → IsOperand t →
    Emits (Lowering.expr env e) ⟨d, c⟩ () (Code.expr env e c) ⟨d + 1, Code.exprAfter e c⟩

theorem emits_location (hσ : SymbolsOk (shape env.arena)) (hlocation : e.isLocation)
    (htyped : Typed lit (shape env.arena) Γ e t) (hoperand : IsOperand t) :
    Emits (Lowering.load env e) ⟨d, c⟩ ()
      (Code.onPlace env e fun v offset => Code.fetch v offset ++ Code.push .t0) ⟨d + 1, c⟩ := by
  obtain ⟨v, offset, last, hfound, hlast, hnone⟩ := located hσ hlocation htyped hoperand
  rw [Code.onPlace, hfound]
  exact emits_load hfound hlast hnone

theorem emits_assign (hσ : SymbolsOk (shape env.arena)) {note : Note} {target value : Expr}
    (hvalue : EmitsExpr env lit Γ value) : EmitsExpr env lit Γ (.assign note target value) := by
  intro t d c hd htyped _
  obtain ⟨hlocation, hscalar, htarget, htyped⟩ := htyped
  obtain ⟨v, offset, -, hfound, -, -⟩ := located hσ hlocation htarget (.inl hscalar)
  rw [Lowering.expr, Code.expr, Code.exprAfter, Code.onPlace, hfound]
  refine emits_oneWord ((hvalue hd htyped (.inl hscalar)).bind ?_)
  refine (emits_address hfound _ _).bind ((Emits.pop _ (by omega)).bind (.op ?_))
  have hpush := Emits.push .t0 (d + 1 - 1) (Code.exprAfter value c)
  rwa [show d + 1 - 1 = d by omega] at hpush ⊢

theorem emits_unary {note : Note} {op : UnaryOp} {operand : Expr}
    (hoperand : EmitsExpr env lit Γ operand) : EmitsExpr env lit Γ (.unary note op operand) := by
  intro t d c hd htyped ht
  rw [Lowering.expr, Code.expr, Code.exprAfter]
  refine emits_oneWord ((hoperand hd htyped.2 ht).bind ((Emits.pop _ (by omega)).bind ?_))
  rw [show d + 1 - 1 = d by omega]
  rcases htyped.1 with ⟨rfl, -⟩ | ⟨rfl, -⟩
  · exact .op (Emits.push _ _ _)
  · exact .op (Emits.push _ _ _)

theorem emits_calc {note : Note} {op : BinaryOp} {left right : Expr} (hand : op ≠ .and)
    (hor : op ≠ .or) (hleft : EmitsExpr env lit Γ left) (hright : EmitsExpr env lit Γ right) :
    EmitsExpr env lit Γ (.binary note op left right) := by
  intro t d c hd htyped _
  obtain ⟨u, hop, hl, hr⟩ := htyped
  obtain ⟨what, hwhat⟩ : ∃ what, Lowering.calcOf? op = some what := by
    cases op <;> simp_all [Lowering.calcOf?, OperatorTypes]
  have hu := operand_of_operator hop
  have hlower : Lowering.expr env (.binary note op left right) =
      Lowering.oneWord env note.span (do
        Lowering.expr env left
        Lowering.expr env right
        Emit.pop .t1
        Emit.pop .t0
        Emit.instr (.compute what .t0 .t0 (.reg .t1))
        Emit.push .t0) := by
    rw [Lowering.expr]
    · rw [hwhat]
    · exact hand
    · exact hor
  have hcode : Code.binary op = [.op (.compute what .t0 .t0 (.reg .t1))] := by
    rw [Code.binary, hwhat]
  have hne : ¬ (op = .and ∨ op = .or) := by simp [hand, hor]
  rw [hlower, Code.expr, if_neg hne, Code.exprAfter, if_neg hne, hcode]
  refine emits_oneWord ((hleft hd hl hu).bind ((hright (by omega) hr hu).bind ?_))
  refine (Emits.pop _ (by omega)).bind ((Emits.pop _ (by omega)).bind (.op ?_))
  rw [show d + 1 + 1 - 1 - 1 = d by omega]
  exact Emits.push _ _ _

/-- The code between the operands of `a && b` and `a || b`, and the right operand after it. -/
theorem emits_shortCut {isAnd : Bool} {past done : String} {right : Emit Unit} {items : List Item}
    {c' : Code.Counters} (hd : 0 ≤ d) (hright : Emits right ⟨d, c⟩ () items ⟨d + 1, c'⟩) :
    Emits (Lowering.shortCircuit isAnd past done right) ⟨d + 1, c⟩ ()
      (Code.shortCut isAnd past done ++ (items ++ [.label done])) ⟨d + 1, c'⟩ := by
  rw [Lowering.shortCircuit]
  simp only [Code.shortCut, List.append_assoc, List.cons_append, List.nil_append]
  refine (Emits.pop _ (by omega)).bind (.op ?_)
  rw [show d + 1 - 1 = d by omega]
  refine (Emits.push _ _ _).bind (.op (.first rfl (.first rfl ?_)))
  show Emits _ ⟨d + 1 - 1, c⟩ _ _ _
  rw [show d + 1 - 1 = d by omega]
  exact (Emits.label _ _ _).bind (hright.bind (Emits.label _ _ _))

theorem emits_logic {note : Note} {op : BinaryOp} {left right : Expr} (hop : op = .and ∨ op = .or)
    (hleft : EmitsExpr env lit Γ left) (hright : EmitsExpr env lit Γ right) :
    EmitsExpr env lit Γ (.binary note op left right) := by
  intro t d c hd htyped _
  obtain ⟨u, htypes, hl, hr⟩ := htyped
  have hu := operand_of_operator htypes
  have hlower : Lowering.expr env (.binary note op left right) =
      Lowering.oneWord env note.span (do
        let past ← Emit.freshLabel .shortCircuit
        let done ← Emit.freshLabel .shortCircuit
        Lowering.expr env left
        Lowering.shortCircuit (op = .and) past done (Lowering.expr env right)) := by
    rcases hop with rfl | rfl <;> rw [Lowering.expr]
  rw [hlower, Code.expr, if_pos hop, Code.exprAfter, if_pos hop]
  refine emits_oneWord (.first rfl (.first rfl ((hleft hd hl hu).bind ?_)))
  exact emits_shortCut hd (hright hd hr hu)

theorem emits_call {note : Note} {callee : Ident} {args : List Expr} (hσ : SymbolsOk (shape env.arena))
    (hargs : ∀ {ts d c}, 0 ≤ d → TypedAll lit (shape env.arena) Γ args ts → (∀ t ∈ ts, IsScalar t) →
      Emits (Lowering.exprs env args) ⟨d, c⟩ () (Code.exprs env args c)
        ⟨d + args.length, Code.exprsAfter args c⟩) :
    EmitsExpr env lit Γ (.call note callee args) := by
  intro t d c hd htyped _
  obtain ⟨i, f, -, hbinding, hf, -, hall⟩ := htyped
  have hok : SymbolOk (shape env.arena) (.func f) := hσ i _ hf
  have hsymbol : Lowering.symbolOf env callee = .ok (.func f) := by
    simp [Lowering.symbolOf, hbinding, shape_func hf]
  rw [Lowering.expr, Code.expr, Code.exprAfter, Code.invoke, hsymbol]
  refine emits_oneWord (.first rfl ((hargs hd hall hok.2.1).bind (.op ?_)))
  refine (Emits.drop (by omega)).bind ?_
  rw [show d + args.length - args.length = d by omega]
  exact Emits.push _ _ _

theorem emits_string {note : Note} {text : String} : EmitsExpr env lit Γ (.string note text) := by
  intro t d c _ _ _
  rw [Lowering.expr, Code.expr, Code.exprAfter]
  exact emits_oneWord (.first rfl (.literal _ _ (.op (Emits.push _ _ _))))

mutual

/-- What is written for an expression is its code. -/
theorem emits_expr (hσ : SymbolsOk (shape env.arena)) : (e : Expr) → EmitsExpr env lit Γ e
  | .int _ _ => fun _ _ _ => by
    rw [Lowering.expr, Code.expr, Code.exprAfter]
    · exact emits_oneWord (.op (Emits.push _ _ _))
    all_goals simp
  | .bool _ _ => fun _ _ _ => by
    rw [Lowering.expr, Code.expr, Code.exprAfter]
    · exact emits_oneWord (.op (Emits.push _ _ _))
    all_goals simp
  | .string _ _ => emits_string
  | .ident x => fun _ htyped hoperand => by
    rw [Lowering.expr, Code.expr, Code.exprAfter]
    · exact emits_oneWord (emits_location hσ rfl htyped hoperand)
    all_goals simp
  | .dot note obj field reached bad => fun _ htyped hoperand => by
    rw [Lowering.expr, Code.expr, Code.exprAfter]
    · exact emits_oneWord (emits_location hσ rfl htyped hoperand)
    all_goals simp
  | .assign _ _ value => emits_assign hσ (emits_expr hσ value)
  | .call _ _ args => emits_call hσ (emits_exprs hσ args)
  | .unary _ _ operand => emits_unary (emits_expr hσ operand)
  | .binary _ op left right => by
    by_cases hop : op = .and ∨ op = .or
    · exact emits_logic hop (emits_expr hσ left) (emits_expr hσ right)
    · exact emits_calc (hop ∘ .inl) (hop ∘ .inr) (emits_expr hσ left) (emits_expr hσ right)
  | .misfit _ _ => fun _ htyped => htyped.elim

/-- What is written for expressions is their code. -/
theorem emits_exprs (hσ : SymbolsOk (shape env.arena)) : (es : List Expr) → ∀ {ts d c}, 0 ≤ d →
    TypedAll lit (shape env.arena) Γ es ts → (∀ t ∈ ts, IsScalar t) →
    Emits (Lowering.exprs env es) ⟨d, c⟩ () (Code.exprs env es c)
      ⟨d + es.length, Code.exprsAfter es c⟩
  | [], _, d, c, _, _, _ => by
    rw [Lowering.exprs, Code.exprs, Code.exprsAfter, List.length_nil]
    exact Emits.silent (by simp [Pure.pure])
  | e :: es, ts, d, c, hd, htyped, hscalar => by
    obtain ⟨t, ts', rfl, he, hes⟩ := htyped
    rw [Lowering.exprs, Code.exprs, Code.exprsAfter]
    refine (emits_expr hσ e hd he (.inl (hscalar t (by simp)))).bind ?_
    have hrest := emits_exprs hσ es (c := Code.exprAfter e c) (show 0 ≤ d + 1 by omega) hes
      fun t' ht' => hscalar t' (by simp [ht'])
    rwa [show d + 1 + (es.length : Int) = d + ((e :: es).length : Int) by simp; omega] at hrest

end

end Expressions

section Statements

variable {env : Lowering.Env} {lit : String → Prop} {Γ : List Scope} {function : String} {e : Expr}
  {t result : Ty} {c : Code.Counters}

/-- The code of an expression whose value is popped, from an empty stack to an empty stack. -/
theorem emits_popped (hσ : SymbolsOk (shape env.arena)) (r : Reg)
    (htyped : Typed lit (shape env.arena) Γ e t) (ht : IsOperand t) {α : Type} {y : Emit α}
    {a : α} {js : List Item} {st : EmitState} (hy : Emits y ⟨0, Code.exprAfter e c⟩ a js st) :
    Emits (do
      Lowering.expr env e
      Emit.pop r
      y) ⟨0, c⟩ a (Code.expr env e c ++ (Code.pop r ++ js)) st :=
  (emits_expr hσ e (Int.le_refl 0) htyped ht).bind ((Emits.pop r (by decide)).bind hy)

theorem emits_count (hσ : SymbolsOk (shape env.arena)) (hlocation : e.isLocation)
    (htyped : Typed lit (shape env.arena) Γ e .int) (delta : Int) (st : EmitState) :
    Emits (Lowering.count env e delta) st () (Code.count env e delta) st := by
  obtain ⟨v, offset, -, hfound, -, -⟩ := located hσ hlocation htyped (.inl (.inl rfl))
  rw [Lowering.count, Code.count, Code.onPlace, hfound]
  exact (emits_address hfound _ _).bind (.op (.op (Emits.instr _ _ _)))

theorem emits_service (number : Int) (st : EmitState) :
    Emits (Lowering.service number) st () (Code.service number) st :=
  .op (Emits.instr _ _ _)

/-- What is written for a statement is its code, with the stack empty before and after it. -/
def EmitsStmt (env : Lowering.Env) (lit : String → Prop) (function : String) (s : Stmt) : Prop :=
  ∀ {Γ result c}, StmtOk lit (shape env.arena) Γ result s →
    Emits (Lowering.stmt env function s) ⟨0, c⟩ () (Code.stmt env function s c)
      ⟨0, Code.stmtAfter s c⟩

/-- What is written for a block is its code, with the stack empty before and after it. -/
def EmitsBlock (env : Lowering.Env) (lit : String → Prop) (function : String) (b : Block) : Prop :=
  ∀ {Γ result c}, BlockOk lit (shape env.arena) Γ result b →
    Emits (Lowering.block env function b) ⟨0, c⟩ () (Code.block env function b c)
      ⟨0, Code.blockAfter b c⟩

theorem emits_read (hσ : SymbolsOk (shape env.arena)) {span : Option Span} :
    EmitsStmt env lit function (.read span e) := by
  intro Γ result c hok
  obtain ⟨hlocation, t, ht, htyped⟩ := hok
  obtain ⟨v, offset, -, hfound, -, -⟩ := located hσ hlocation htyped (.inl ht)
  rw [Lowering.stmt, Code.stmt, Code.stmtAfter, Code.onPlace, hfound]
  · exact (emits_service _ _).bind ((emits_address hfound _ _).bind (Emits.instr _ _ _))
  all_goals simp

theorem emits_write (hσ : SymbolsOk (shape env.arena)) {span : Option Span} :
    EmitsStmt env lit function (.write span e) := by
  intro Γ result c hok
  obtain ⟨t, ht, htype, htyped⟩ := hok
  have hrecorded : Lowering.recordedTy env e = .ok t := by
    rcases ht with (rfl | rfl) | rfl <;>
      simp [Lowering.recordedTy, htype, Ty.known?, Ty.isError]
  rw [Lowering.stmt, Code.stmt, Code.stmtAfter, Code.printer, hrecorded]
  refine emits_popped hσ .a0 htyped (ht.imp_right .inl) ?_
  exact .first rfl (emits_service _ _)

theorem emits_ifThen (hσ : SymbolsOk (shape env.arena)) {span : Option Span} {cond : Expr}
    {body : Block} (hbody : EmitsBlock env lit function body) :
    EmitsStmt env lit function (.ifThen span cond body) := by
  intro Γ result c hok
  rw [Lowering.stmt, Code.stmt, Code.stmtAfter]
  refine emits_popped hσ .t0 hok.1 (.inl (.inr rfl)) (.first rfl (.op ?_))
  exact (hbody hok.2).bind (Emits.label _ _ _)

theorem emits_ifElse (hσ : SymbolsOk (shape env.arena)) {span : Option Span} {cond : Expr}
    {body other : Block} (hbody : EmitsBlock env lit function body)
    (hother : EmitsBlock env lit function other) :
    EmitsStmt env lit function (.ifElse span cond body other) := by
  intro Γ result c hok
  rw [Lowering.stmt, Code.stmt, Code.stmtAfter]
  refine emits_popped hσ .t0 hok.1 (.inl (.inr rfl)) (.first rfl (.first rfl (.op ?_)))
  refine (hbody hok.2.1).bind (.op ((Emits.label _ _ _).bind ?_))
  exact (hother hok.2.2).bind (Emits.label _ _ _)

theorem emits_loop (hσ : SymbolsOk (shape env.arena)) {span : Option Span} {cond : Expr}
    {body : Block} (hbody : EmitsBlock env lit function body) :
    EmitsStmt env lit function (.loop span cond body) := by
  intro Γ result c hok
  rw [Lowering.stmt, Code.stmt, Code.stmtAfter]
  refine .first rfl (.first rfl ((Emits.label _ _ _).bind ?_))
  refine emits_popped hσ .t0 hok.1 (.inl (.inr rfl)) (.op ?_)
  exact (hbody hok.2).bind (.op (Emits.label _ _ _))

/-- An expression whose value is popped and not used. -/
theorem emits_discarded (hσ : SymbolsOk (shape env.arena))
    (htyped : Typed lit (shape env.arena) Γ e t) (ht : IsOperand t) :
    Emits (do
      Lowering.expr env e
      Emit.pop .t0) ⟨0, c⟩ () (Code.expr env e c ++ Code.pop .t0) ⟨0, Code.exprAfter e c⟩ :=
  (emits_expr hσ e (Int.le_refl 0) htyped ht).bind (Emits.pop .t0 (by decide))

theorem emits_ret (hσ : SymbolsOk (shape env.arena)) {span : Option Span} {value : Option Expr} :
    EmitsStmt env lit function (.ret span value) := by
  intro Γ result c hok
  cases value with
  | none =>
    rw [Lowering.stmt, Code.stmt, Code.stmtAfter]
    · exact Emits.instr _ _ _
    all_goals simp
  | some e =>
    rw [Lowering.stmt, Code.stmt, Code.stmtAfter]
    exact emits_popped hσ .v0 hok.2 (.inl hok.1) (Emits.instr _ _ _)

mutual

/-- What is written for a statement is its code. -/
theorem emits_stmt (hσ : SymbolsOk (shape env.arena)) : (s : Stmt) → EmitsStmt env lit function s
  | .assign _ e => fun hok => by
    obtain ⟨t, ht, htyped⟩ := hok
    rw [Lowering.stmt, Code.stmt, Code.stmtAfter]
    exact emits_discarded hσ htyped (.inl ht)
  | .call _ e => fun hok => by
    obtain ⟨note, callee, args, t, rfl, htyped⟩ := hok
    rw [Lowering.stmt, Code.stmt, Code.stmtAfter]
    exact emits_discarded hσ htyped (operand_of_call hσ htyped)
  | .increment _ e => fun hok => by
    rw [Lowering.stmt, Code.stmt, Code.stmtAfter]
    · exact emits_count hσ hok.1 hok.2 1 _
    all_goals simp
  | .decrement _ e => fun hok => by
    rw [Lowering.stmt, Code.stmt, Code.stmtAfter]
    · exact emits_count hσ hok.1 hok.2 (-1) _
    all_goals simp
  | .read _ _ => emits_read hσ
  | .write _ _ => emits_write hσ
  | .ifThen _ _ body => emits_ifThen hσ (emits_block hσ body)
  | .ifElse _ _ body other => emits_ifElse hσ (emits_block hσ body) (emits_block hσ other)
  | .loop _ _ body => emits_loop hσ (emits_block hσ body)
  | .ret _ _ => emits_ret hσ
  | .misfit _ _ => fun hok => hok.elim

/-- What is written for statements is their code. -/
theorem emits_stmts (hσ : SymbolsOk (shape env.arena)) : (ss : List Stmt) → ∀ {Γ result c},
    StmtsOk lit (shape env.arena) Γ result ss →
    Emits (Lowering.stmts env function ss) ⟨0, c⟩ () (Code.stmts env function ss c)
      ⟨0, Code.stmtsAfter ss c⟩
  | [], _, _, c, _ => by
    rw [Lowering.stmts, Code.stmts, Code.stmtsAfter]
    exact .pure () _
  | s :: ss, _, _, c, hok => by
    rw [Lowering.stmts, Code.stmts, Code.stmtsAfter]
    refine (emits_stmt hσ s hok.1).bind (.first rfl ?_)
    show Emits (if (0 : Int) ≠ 0 then _ else _) _ _ _ _
    rw [if_neg (by simp)]
    exact emits_stmts hσ ss hok.2

/-- What is written for a block is its code. -/
theorem emits_block (hσ : SymbolsOk (shape env.arena)) : (b : Block) → EmitsBlock env lit function b
  | .mk _ _ body => fun hok => by
    obtain ⟨scope, -, -, hok⟩ := hok
    rw [Lowering.block, Code.block, Code.blockAfter]
    exact emits_stmts hσ body hok

end

end Statements

section Declarations

variable {env : Lowering.Env} {lit : String → Prop} {c : Code.Counters}

theorem emits_prologue (frame : Int) (st : EmitState) :
    Emits (Lowering.prologue frame) st () (Code.prologue frame) st := by
  rw [Lowering.prologue, Code.prologue]
  refine .op (.op (.op (.op (.op ?_))))
  by_cases hframe : frame = 0
  · rw [if_neg (by simpa using hframe), if_neg (by simpa using hframe)]
    exact .pure () st
  · rw [if_pos hframe, if_pos hframe]
    exact Emits.instr _ _ _

theorem emits_copyArguments : (ds : List VarDecl) → ∀ {scope : Scope} {st : EmitState},
    Declares (shape env.arena) ds scope →
    Emits (Lowering.copyArguments env ds) st () (Code.copyArguments env ds) st
  | [], _, st, _ => .pure () st
  | d :: ds, _, st, ⟨i, _, rfl, hbinding, ⟨v, hv, _⟩, hdeclares⟩ => by
    obtain ⟨u, hu, -⟩ := shape_var hv
    rw [Lowering.copyArguments, Code.copyArguments, variableOf_eq hbinding hu]
    exact .first rfl (.op (.op (emits_copyArguments ds hdeclares)))

theorem emits_epilogue (name : String) (st : EmitState) :
    Emits (Lowering.epilogue name) st () (.label (exitLabel name) :: Code.epilogue name) st := by
  rw [Lowering.epilogue, Code.epilogue]
  refine .labelled ?_
  by_cases hmain : name = "main"
  · rw [if_pos hmain, if_pos hmain]
    exact emits_service _ _
  · rw [if_neg hmain, if_neg hmain]
    exact .op (.op (.op (.op (Emits.instr _ _ _))))

/-- The start of a function, before other writing. -/
theorem emits_start {name : String} {y : Emit Unit} {st st' : EmitState} {js : List Item}
    (hy : Emits y st () js st') : Emits (do
      Emit.line .blank
      Emit.line (.directive ".text" "")
      if name = "main" then Emit.line (.directive ".globl" "main")
      y) st () (.start (name = "main") :: js) st' := by
  by_cases hmain : name = "main"
  · simp only [hmain, if_true]
    exact .lines rfl rfl hy
  · simp only [hmain, if_false]
    exact .lines rfl rfl hy

theorem emits_function {globals : Scope} {i : Int} {d : FnDecl} {frame : Int}
    (hσ : SymbolsOk (shape env.arena)) (hok : DeclOk lit (shape env.arena) globals i (.fn d))
    (hframe : env.frames.lookup d.name.name = some frame) :
    Emits (Lowering.fnDecl env d) ⟨0, c⟩ () (Code.function env d c) ⟨0, Code.blockAfter d.body c⟩ := by
  obtain ⟨hbinding, f, hf, -, -, -, scope, hdeclares, -, hbody⟩ := hok
  obtain ⟨formals, rest, -, hformals, -⟩ := declares_append hdeclares
  have hsymbol : Lowering.symbolOf env d.name = .ok (.func f) := by
    simp [Lowering.symbolOf, hbinding, shape_func hf]
  have hblock : Emits (Lowering.block env d.name.name d.body) ⟨0, c⟩ ()
      (Code.block env d.name.name d.body c) ⟨0, Code.blockAfter d.body c⟩ := by
    have hstmts : Emits (Lowering.stmts env d.name.name d.body.stmts) ⟨0, c⟩ () _ _ :=
      emits_stmts hσ d.body.stmts hbody
    cases hd : d.body with
    | mk span decls stmts =>
      rw [hd] at hstmts
      rw [Lowering.block, Code.block, Code.blockAfter]
      exact hstmts
  rw [Lowering.fnDecl, Code.function, Code.entry, hsymbol, hframe]
  simp only [Option.getD_some, List.cons_append, List.append_assoc]
  refine .first rfl (.first rfl (emits_start (.labelled ?_)))
  refine (emits_prologue _ _).bind ((emits_copyArguments d.formals hformals).bind ?_)
  exact hblock.bind (emits_epilogue _ _)

theorem emits_globalVar {globals : Scope} {i : Int} {d : VarDecl} (st : EmitState)
    (hok : DeclOk lit (shape env.arena) globals i (.var d)) :
    Emits (Lowering.globalVar env d) st () (Code.decl env (.var d) c) st := by
  obtain ⟨hbinding, v, hv, -⟩ := hok
  obtain ⟨u, hu, -⟩ := shape_var hv
  rw [Lowering.globalVar, Code.decl, variableOf_eq hbinding hu]
  refine .first rfl ?_
  by_cases hstruct : u.structDef.isSome
  · simp only [hstruct, if_true, Emit.number]
    by_cases hwritable : Text.isWritable (u.size.fdiv wordSize)
    · refine ⟨fun _ => ?_, fun h => absurd ?_ h⟩
      · rw [if_pos hwritable]
        rfl
      · simpa [Writable, Item.numbers] using hwritable
    · refine ⟨fun h => absurd ?_ hwritable, fun _ => ?_⟩
      · simpa [Writable, Item.numbers] using h
      · rw [if_neg hwritable]
        rfl
  · simp only [hstruct, Bool.false_eq_true, if_false]
    exact .plain rfl (by simp [Item.numbers])

theorem emits_structNote {globals : Scope} {i : Int} {d : StructDecl} (st : EmitState)
    (hok : DeclOk lit (shape env.arena) globals i (.struct d)) :
    Emits (Lowering.structNote env d) st () (Code.decl env (.struct d) c) st := by
  obtain ⟨hbinding, s, hs⟩ := hok
  have hsymbol : Lowering.symbolOf env d.name = .ok (.struct s) := by
    simp [Lowering.symbolOf, hbinding, shape_struct hs]
  rw [Lowering.structNote, Code.decl, hsymbol]
  refine .first rfl ?_
  simp only [Emit.number]
  by_cases hwritable : Text.isWritable s.size
  · refine ⟨fun _ => ?_, fun h => absurd ?_ h⟩
    · rw [if_pos hwritable]
      rfl
    · simpa [Writable, Item.numbers] using hwritable
  · refine ⟨fun h => absurd ?_ hwritable, fun _ => ?_⟩
    · simpa [Writable, Item.numbers] using h
    · rw [if_neg hwritable]
      rfl

/-- What is written for declarations is their data and code. -/
theorem emits_decls (hσ : SymbolsOk (shape env.arena)) : (ds : List Decl) →
    ∀ {before after : Scope} {c : Code.Counters}, DeclsOk lit (shape env.arena) before ds after →
      (∀ d, .fn d ∈ ds → ∃ frame, env.frames.lookup d.name.name = some frame) →
      Emits (Lowering.decls env ds) ⟨0, c⟩ () (Code.decls env ds c) ⟨0, Code.declsAfter ds c⟩
  | [], _, _, c, _, _ => .pure () _
  | d :: ds, before, after, c, ⟨i, _, hok, hrest⟩, hframes => by
    have hds := emits_decls hσ ds (c := Code.declAfter d c) hrest
      fun d' hd' => hframes d' (List.mem_cons_of_mem _ hd')
    rw [Lowering.decls, Code.decls, Code.declsAfter]
    refine Emits.bind (a := ()) ?_ hds
    cases d with
    | var d => exact emits_globalVar _ hok
    | struct d => exact emits_structNote _ hok
    | fn d =>
      obtain ⟨frame, hframe⟩ := hframes d (by simp)
      exact emits_function hσ hok hframe
    | misfit span kind => exact hok.elim

end Declarations

end CMinusMinus.Proofs
