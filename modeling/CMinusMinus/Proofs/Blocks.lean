import CMinusMinus.Proofs.Statements

/-!
Statements in the body of a function. A block adds a scope to those in sight; its variables have
slots that nothing else in the function uses, so that the variables around it keep their values. A
loop is followed round by round, as far as the fuel goes.
-/
namespace CMinusMinus.Proofs

open Assembly Machine WellFormed
open Reference (EvalM Store Word Value Scopes Flow)

theorem names_eq {σ : Symbols} {decls : List VarDecl} :
    ∀ {scope : Scope}, Declares σ decls scope → Reference.names decls = scope.map Prod.fst := by
  induction decls with
  | nil => rintro _ rfl; rfl
  | cons d ds ih =>
    rintro _ ⟨i, rest, rfl, -, -, hrest⟩
    simp only [Reference.names, List.map_cons]
    exact congrArg _ (ih hrest)

section Scopes

variable {arena : Arena} {image : Image} {globals scope : Scope} {locals : List Scope} {fp : Int}
  {w : Store} {s : State} {l : Nat} {x : String} {path : List String} {n : Int}

theorem slotAt?_lt (h : slotAt? arena locals l x path = some n) : l < locals.length := by
  rw [slotAt?_eq] at h
  obtain ⟨i, hi, -⟩ := Option.bind_eq_some_iff.mp h
  exact (symbolAt?_mem hi).2

/-- The variables of a new block have no values yet. -/
theorem Agrees.enter (h : Agrees (layoutOf arena image globals locals) fp w s) :
    Agrees (layoutOf arena image globals (scope :: locals)) fp
      { w with locals := fun l x path => if l = locals.length then none else w.locals l x path } s where
  globals hx := h.globals hx
  locals {l x path n v} hx hv := by
    have hv : (if l = locals.length then none else w.locals l x path) = some v := hv
    rcases slotAt?_cons hx with ⟨hl, -⟩ | ⟨hl, hx⟩
    · simp [hl] at hv
    · rw [if_neg hl] at hv
      exact h.locals hx hv
  inputs := h.inputs
  output := h.output

/-- The variables around a block are still there after it. -/
theorem Agrees.leave (h : Agrees (layoutOf arena image globals (scope :: locals)) fp w s) :
    Agrees (layoutOf arena image globals locals) fp w s where
  globals hx := h.globals hx
  locals {l x path n v} hx hv := by
    refine h.locals (n := n) ?_ hv
    have hl := slotAt?_lt hx
    show slotAt? arena (scope :: locals) l x path = some n
    rw [slotAt?, if_neg (by omega)]
    exact hx
  inputs := h.inputs
  output := h.output

end Scopes

def Scene.withFuel (S : Scene) (fuel : Nat) : Scene := { S with fuel }

/-- What holds of a scene holds of it with less fuel. -/
theorem Scene.Sound.less_fuel {S : Scene} (hS : S.Sound) {fuel : Nat} (hle : fuel ≤ S.fuel) :
    (S.withFuel fuel).Sound where
  activation := hS.activation
  layout := hS.layout
  symbols := hS.symbols
  places := hS.places
  labels := hS.labels
  calls hfind hbinding hf := by
    obtain ⟨hsymbol, hinvokes⟩ := hS.calls hfind hbinding hf
    refine ⟨hsymbol, fun s w args hready hlength hargs => ?_⟩
    have hready' : S.Ready [.op (.jal _)] w s :=
      ⟨hready.placed, hready.lo, hready.hi, hready.inside, hready.agrees⟩
    refine ((hinvokes s w args hready' hlength hargs).less_fuel hle).mono ?_
    rintro v w' _ ⟨u, rfl, hu⟩
    exact ⟨u, rfl, hu.pc, hu.inside, hu.sp, hu.result, hu.agrees, hu.same⟩

/-- A function at work: a scene for whatever blocks are open. -/
structure Routine where
  image : Image
  env : Lowering.Env
  fuel : Nat
  call : String → List Word → EvalM (Option Word)
  A : Activation
  lit : String → Prop
  /-- The global names that the function sees. -/
  visible : Scope
  globals : Scope
  function : String
  exit : Int

namespace Routine

def scene (R : Routine) (locals : List Scope) : Scene where
  image := R.image
  env := R.env
  fuel := R.fuel
  call := R.call
  A := R.A
  lit := R.lit
  σ := shape R.env.arena
  Γ := locals ++ [R.visible]
  scopes := namesOf locals
  L := layoutOf R.env.arena R.image R.globals locals

/-- All scenes are sound in which variables have slots of their own, and the function has an end. -/
structure Sound (R : Routine) : Prop where
  scenes : ∀ {locals}, Separate R.env.arena R.A.frame (indicesOf locals) → (R.scene locals).Sound
  exit : ItemAt R.image R.exit (.label (exitLabel R.function))

/-- The code of a statement does what the statement means, whatever blocks are open. -/
def RunsStmt (R : Routine) (st : Stmt) : Prop :=
  ∀ {locals result c s w}, StmtOk R.lit (shape R.env.arena) (locals ++ [R.visible]) result st →
    Separate R.env.arena R.A.frame (indicesOf locals ++ stmtSlots st) →
    (R.scene locals).Ready (Code.stmt R.env R.function st c) w s →
    (R.scene locals).Meets s w (Reference.stmt R.fuel R.call (namesOf locals) st)
      ((R.scene locals).Done s (s.pc + Code.width (Code.stmt R.env R.function st c)) R.exit)

/-- The code of statements does what they mean, whatever blocks are open. -/
def RunsStmts (R : Routine) (ss : List Stmt) : Prop :=
  ∀ {locals result c s w}, StmtsOk R.lit (shape R.env.arena) (locals ++ [R.visible]) result ss →
    Separate R.env.arena R.A.frame (indicesOf locals ++ stmtsSlots ss) →
    (R.scene locals).Ready (Code.stmts R.env R.function ss c) w s →
    (R.scene locals).Meets s w (Reference.stmts R.fuel R.call (namesOf locals) ss)
      ((R.scene locals).Done s (s.pc + Code.width (Code.stmts R.env R.function ss c)) R.exit)

/-- The code of a block does what the block means, whatever blocks are open. -/
def RunsBlock (R : Routine) (b : Block) : Prop :=
  ∀ {locals result c s w}, BlockOk R.lit (shape R.env.arena) (locals ++ [R.visible]) result b →
    Separate R.env.arena R.A.frame (indicesOf locals ++ blockSlots b) →
    (R.scene locals).Ready (Code.block R.env R.function b c) w s →
    (R.scene locals).Meets s w (Reference.block R.fuel R.call (namesOf locals) b)
      ((R.scene locals).Done s (s.pc + Code.width (Code.block R.env R.function b c)) R.exit)

variable {R : Routine}

theorem runsStmts_nil : R.RunsStmts [] := by
  intro locals result c s w _ _ hready
  rw [Reference.stmts, Code.stmts]
  refine Scene.Meets.pure ⟨by simp, hready.inside, rfl, (fun _ h => (by cases h)), hready.agrees, ?_⟩
  exact .refl _ _ s

theorem runsStmts_cons {st : Stmt} {ss : List Stmt} (hst : R.RunsStmt st) (hss : R.RunsStmts ss) :
    R.RunsStmts (st :: ss) := by
  intro locals result c s w hok hseparate hready
  rw [stmtsSlots] at hseparate
  rw [Code.stmts] at hready ⊢
  rw [Reference.stmts]
  refine (hst hok.1 (hseparate.sublist ?_) hready.left).bind fun flow w₁ u₁ hu₁ => ?_
  · exact List.Sublist.append_left (List.sublist_append_left _ _) _
  cases flow with
  | returned value =>
    exact Scene.Meets.pure ⟨hu₁.pc, hu₁.inside, hu₁.sp, hu₁.result, hu₁.agrees, hu₁.same⟩
  | next =>
    have hready₁ := hready.right hu₁.pc hu₁.inside hu₁.agrees
    refine (hss hok.2 (hseparate.sublist ?_) hready₁).mono fun flow w₂ u₂ hu₂ => ?_
    · exact List.Sublist.append_left (List.sublist_append_right _ _) _
    · refine (hu₁.trans hu₂).at_pc ?_
      rw [hu₁.next_pc, Code.width_append]
      omega

/-- The slots of a block beside those of its variables. -/
theorem separate_enter {arena : Arena} {frame : Int} {scope : Scope} {locals : List Scope}
    {slots : List Int}
    (h : Separate arena frame (indicesOf locals ++ (scope.map Prod.snd ++ slots))) :
    Separate arena frame (indicesOf (scope :: locals) ++ slots) := by
  refine h.perm ?_
  rw [indicesOf, indicesOf, List.flatMap_cons, ← List.append_assoc]
  exact List.Perm.append_right _ List.perm_append_comm

theorem runsBlock_mk {span : Option Span} {decls : List VarDecl} {body : List Stmt}
    (hbody : R.RunsStmts body) : R.RunsBlock (.mk span decls body) := by
  intro locals result c s w hok hseparate hready
  obtain ⟨scope, hdeclares, -, hok⟩ := hok
  rw [blockSlots, declSlots_eq hdeclares] at hseparate
  rw [Code.block] at hready ⊢
  rw [Reference.block, names_eq hdeclares]
  have hlevel : (namesOf locals).length = locals.length := by simp [namesOf]
  refine Scene.Meets.bind (Q := fun _ w' u => u = s ∧ w' = { w with
    locals := fun l x path => if l = locals.length then none else w.locals l x path }) ?_ ?_
  · refine Proofs.Meets.of_eq (a := ()) _ (fun unknowns => ?_) ⟨s, rfl, rfl, rfl⟩
    rw [hlevel]
    rfl
  · rintro _ _ _ ⟨rfl, rfl⟩
    have hready' : (R.scene (scope :: locals)).Ready (Code.stmts R.env R.function body c) _ _ :=
      ⟨hready.placed, hready.lo, hready.hi, hready.inside, hready.agrees.enter⟩
    refine Proofs.Meets.mono (hbody hok (separate_enter hseparate) hready') ?_
    rintro flow w' _ ⟨u, rfl, hu⟩
    exact ⟨u, rfl, hu.pc, hu.inside, hu.sp, hu.result, hu.agrees.leave, hu.same⟩

theorem runsStmt_ifThen (hR : R.Sound) {span : Option Span} {cond : Expr} {body : Block}
    (hbody : R.RunsBlock body) : R.RunsStmt (.ifThen span cond body) := by
  intro locals result c s w hok hseparate hready
  rw [stmtSlots] at hseparate
  have hS := hR.scenes (hseparate.sublist (List.sublist_append_left _ _))
  rw [Code.stmt] at hready ⊢
  rw [Reference.stmt]
  generalize Code.exprAfter cond c = c' at hready ⊢
  generalize Code.labelOf .endIf c' = done at hready ⊢
  have hplaced := hready.placed
  simp only [codeAt_append, codeAt_cons, Code.width_op, Code.width_pop] at hplaced
  obtain ⟨-, -, -, -, hdone, -⟩ := hplaced
  refine Scene.decided hS R.exit hok.1 hready hdone (fun w₁ u₁ hu₁ hready₁ => ?_) fun w₁ u₁ hu₁ => ?_
  · refine (hbody hok.2 hseparate hready₁.left).mono fun flow w₂ u₂ hu₂ => ?_
    refine (hu₁.trans hu₂).at_pc ?_
    simp only [Code.width_append, Code.width_cons, Code.width_op, Code.width_pop, Code.width_label,
      Code.width_nil]
    rw [hu₁.next_pc]
    show s.pc + (Code.width (Code.expr R.env cond c) + _) =
      s.pc + (Code.width (Code.expr R.env cond c) + 3) + _
    omega
  · refine Scene.Meets.pure (hu₁.at_pc ?_)
    simp only [Code.width_append, Code.width_cons, Code.width_op, Code.width_pop, Code.width_label,
      Code.width_nil]
    show _ = s.pc + Code.width (Code.expr R.env cond c) + _ + _ + _
    omega

theorem runsStmt_ifElse (hR : R.Sound) {span : Option Span} {cond : Expr} {body other : Block}
    (hbody : R.RunsBlock body) (hother : R.RunsBlock other) :
    R.RunsStmt (.ifElse span cond body other) := by
  intro locals result c s w hok hseparate hready
  rw [stmtSlots] at hseparate
  have hS := hR.scenes (hseparate.sublist (List.sublist_append_left _ _))
  have hslots := hseparate.sublist
    (List.Sublist.append_left (List.sublist_append_left (blockSlots body) (blockSlots other)) _)
  have hslots' := hseparate.sublist
    (List.Sublist.append_left (List.sublist_append_right (blockSlots body) (blockSlots other)) _)
  rw [Code.stmt] at hready ⊢
  rw [Reference.stmt]
  generalize Code.exprAfter cond c = c' at hready ⊢
  generalize Code.labelOf .otherwise c' = otherwise at hready ⊢
  generalize Code.labelOf .endIf (Code.bump .otherwise c') = done at hready ⊢
  generalize Code.bump .endIf (Code.bump .otherwise c') = c'' at hready ⊢
  have hplaced := hready.placed
  simp only [codeAt_append, codeAt_cons, Code.width_op, Code.width_pop, Code.width_label] at hplaced
  obtain ⟨-, -, -, -, -, hotherwise, -, hdone, -⟩ := hplaced
  refine Scene.decided hS R.exit hok.1 hready hotherwise (fun w₁ u₁ hu₁ hready₁ => ?_) fun w₁ u₁ hu₁ => ?_
  · refine (hbody hok.2.1 hslots hready₁.left).andThen fun flow w₂ u₂ hu₂ => ?_
    cases flow with
    | returned value => exact Scene.Meets.pure (hu₁.trans
        ⟨hu₂.pc, hu₂.inside, hu₂.sp, hu₂.result, hu₂.agrees, hu₂.same⟩)
    | next =>
      have hready₂ := hready₁.right hu₂.next_pc hu₂.inside hu₂.agrees
      refine hready₂.goto hS _ (Scene.goto_label hdone) rfl fun u₃ hpc₃ hmoves => ?_
      refine Scene.Meets.pure (((hu₁.trans hu₂).moves hmoves).at_pc ?_)
      simp only [Code.width_append, Code.width_cons, Code.width_op, Code.width_pop,
        Code.width_label, Code.width_nil]
      rw [hpc₃]
      show _ = s.pc + Code.width (Code.expr R.env cond c) + _ + _ + _ + _ + _ + _
      omega
  · have hsplit : Code.expr R.env cond c ++ (Code.pop .t0 ++ .op (.beq .t0 .zero otherwise) ::
        (Code.block R.env R.function body c'' ++ .op (.j done) :: .label otherwise ::
          (Code.block R.env R.function other (Code.blockAfter body c'') ++ [.label done]))) =
        (Code.expr R.env cond c ++ (Code.pop .t0 ++ .op (.beq .t0 .zero otherwise) ::
          (Code.block R.env R.function body c'' ++ [.op (.j done), .label otherwise]))) ++
          (Code.block R.env R.function other (Code.blockAfter body c'') ++ [.label done]) := by
      simp
    rw [hsplit] at hready
    have hpc₁ := hu₁.next_pc
    refine (hother hok.2.2 hslots' (hready.right ?_ hu₁.inside hu₁.agrees).left).mono
      fun flow w₂ u₂ hu₂ => (hu₁.trans hu₂).at_pc ?_
    · rw [hpc₁]
      simp only [Code.width_append, Code.width_cons, Code.width_op, Code.width_pop,
        Code.width_label, Code.width_nil]
      omega
    · rw [hpc₁]
      simp only [Code.width_append, Code.width_cons, Code.width_op, Code.width_pop,
        Code.width_label, Code.width_nil]
      omega

/-- Each round of a loop takes the machine at least one step, so that a loop that goes on for as many
rounds as there is fuel takes as many steps. -/
theorem rounds (hR : R.Sound) {cond : Expr} {body : Block} (hbody : R.RunsBlock body)
    {locals : List Scope} {result : Ty} {c c' : Code.Counters} {again done : String}
    (hcond : Typed R.lit (shape R.env.arena) (locals ++ [R.visible]) cond .bool)
    (hok : BlockOk R.lit (shape R.env.arena) (locals ++ [R.visible]) result body)
    (hseparate : Separate R.env.arena R.A.frame (indicesOf locals ++ blockSlots body)) {k : Nat}
    (hk : k ≤ R.fuel) {s : State} {w : Store}
    (hready : (R.scene locals).Ready (.label again :: (Code.expr R.env cond c ++
      (Code.pop .t0 ++ .op (.beq .t0 .zero done) :: (Code.block R.env R.function body c' ++
        [.op (.j again), .label done])))) w s) :
    ((R.scene locals).withFuel k).Meets s w
      (Reference.rounds (Reference.word R.call (namesOf locals) cond)
        (Reference.block R.fuel R.call (namesOf locals) body) k)
      ((R.scene locals).Done s (s.pc + (Code.width (Code.expr R.env cond c) +
        Code.width (Code.block R.env R.function body c') + 4)) R.exit) := by
  induction k generalizing s w with
  | zero =>
    rw [Reference.rounds]
    exact Proofs.Meets.throw ⟨0, _, Nat.le_refl _, .refl _⟩
  | succ k ih =>
    rw [Reference.rounds]
    have hS := hR.scenes (hseparate.sublist (List.sublist_append_left _ _))
    have hplaced := hready.placed
    simp only [codeAt_append, codeAt_cons, Code.width_op, Code.width_pop, Code.width_label]
      at hplaced
    obtain ⟨hagain, -, -, -, -, -, hdone, -⟩ := hplaced
    have hcode := hready.tail (u := s) (by simp) hready.inside hready.agrees
    have hcode' : ((R.scene locals).withFuel (k + 1)).Ready _ w s :=
      ⟨hcode.placed, hcode.lo, hcode.hi, hcode.inside, hcode.agrees⟩
    refine Scene.decided (hS.less_fuel hk) R.exit hcond hcode' hdone (fun w₁ u₁ hu₁ hready₁ => ?_)
      fun w₁ u₁ hu₁ => ?_
    · have hu₁ : (R.scene locals).Done s _ R.exit .next w₁ u₁ :=
        ⟨hu₁.pc, hu₁.inside, hu₁.sp, hu₁.result, hu₁.agrees, hu₁.same⟩
      have hready₁ : (R.scene locals).Ready _ w₁ u₁ :=
        ⟨hready₁.placed, hready₁.lo, hready₁.hi, hready₁.inside, hready₁.agrees⟩
      refine Proofs.Meets.bind ((hbody hok hseparate hready₁.left).less_fuel hk) ?_
      rintro flow w₂ _ ⟨u₂, rfl, hu₂⟩
      cases flow with
      | returned value => exact Scene.Meets.pure (hu₁.trans
          ⟨hu₂.pc, hu₂.inside, hu₂.sp, hu₂.result, hu₂.agrees, hu₂.same⟩)
      | next =>
        have hready₂ := hready₁.right hu₂.next_pc hu₂.inside hu₂.agrees
        obtain ⟨hi, hlo, hhi⟩ := hready₂.op
        have hP := hS.activation.holds u₂ hlo hhi hu₂.inside.fp hu₂.inside.sp
        have hmoves : Scene.Moves u₂ (u₂.moveTo s.pc) := ⟨fun q => rfl, fun a => rfl, rfl, rfl⟩
        have hu₃ := (hu₁.trans hu₂).moves hmoves
        have hready₃ : (R.scene locals).Ready _ w₂ (u₂.moveTo s.pc) :=
          ⟨hready.placed, hready.lo, hready.hi, hu₃.inside, hu₃.agrees⟩
        -- the jump back to the condition is a step that the next round need not take
        refine Proofs.Meets.exec_counted hi rfl hP (Scene.goto_label hagain) ?_
        exact (ih (by omega) hready₃).mono fun flow w₄ u₄ hu₄ => hu₃.trans hu₄
    · refine Scene.Meets.pure ?_
      have hu₁ : (R.scene locals).Done s _ R.exit .next w₁ u₁ :=
        ⟨hu₁.pc, hu₁.inside, hu₁.sp, hu₁.result, hu₁.agrees, hu₁.same⟩
      exact hu₁.at_pc (by omega)

theorem runsStmt_loop (hR : R.Sound) {span : Option Span} {cond : Expr} {body : Block}
    (hbody : R.RunsBlock body) : R.RunsStmt (.loop span cond body) := by
  intro locals result c s w hok hseparate hready
  rw [stmtSlots] at hseparate
  rw [Code.stmt] at hready ⊢
  rw [Reference.stmt]
  refine (rounds hR hbody hok.1 hok.2 hseparate (Nat.le_refl _) hready).mono fun flow w' u hu =>
    hu.at_pc ?_
  simp only [Code.width_append, Code.width_cons, Code.width_op, Code.width_pop, Code.width_label,
    Code.width_nil]
  omega

/-- A statement without blocks is followed in one scene. -/
theorem runsStmt_of_scene (hR : R.Sound) {st : Stmt}
    (h : ∀ {locals result c s w}, (R.scene locals).Sound →
      StmtOk R.lit (shape R.env.arena) (locals ++ [R.visible]) result st →
      (R.scene locals).Ready (Code.stmt R.env R.function st c) w s →
      (R.scene locals).Meets s w (Reference.stmt R.fuel R.call (namesOf locals) st)
        ((R.scene locals).Done s (s.pc + Code.width (Code.stmt R.env R.function st c)) R.exit)) :
    R.RunsStmt st := fun hok hseparate hready =>
  h (hR.scenes (hseparate.sublist (List.sublist_append_left _ _))) hok hready

theorem runsStmt_assign (hR : R.Sound) {span : Option Span} {e : Expr} :
    R.RunsStmt (.assign span e) := runsStmt_of_scene hR fun hS hok hready => by
  obtain ⟨t, ht, htyped⟩ := hok
  rw [Code.stmt] at hready ⊢
  rw [Reference.stmt]
  exact Scene.discarded hS htyped (.inl ht) hready

theorem runsStmt_call (hR : R.Sound) {span : Option Span} {e : Expr} :
    R.RunsStmt (.call span e) := runsStmt_of_scene hR fun hS hok hready => by
  obtain ⟨note, callee, args, t, rfl, htyped⟩ := hok
  rw [Code.stmt] at hready ⊢
  rw [Reference.stmt]
  exact Scene.discarded hS htyped (operand_of_call hS.symbols htyped) hready

theorem runsStmt_increment (hR : R.Sound) {span : Option Span} {e : Expr} :
    R.RunsStmt (.increment span e) := runsStmt_of_scene hR fun hS hok hready => by
  rw [Code.stmt] at hready ⊢
  rw [Reference.stmt]
  exact Scene.counted hS rfl hok.1 hok.2 hready

theorem runsStmt_decrement (hR : R.Sound) {span : Option Span} {e : Expr} :
    R.RunsStmt (.decrement span e) := runsStmt_of_scene hR fun hS hok hready => by
  rw [Code.stmt] at hready ⊢
  rw [Reference.stmt]
  exact Scene.counted hS rfl hok.1 hok.2 hready

theorem runsStmt_read (hR : R.Sound) {span : Option Span} {e : Expr} :
    R.RunsStmt (.read span e) := runsStmt_of_scene hR fun hS hok hready => by
  obtain ⟨hlocation, t, ht, htyped⟩ := hok
  rw [Code.stmt] at hready ⊢
  rw [Reference.stmt]
  exact Scene.received hS hlocation htyped ht hready

theorem runsStmt_write (hR : R.Sound) {span : Option Span} {e : Expr} :
    R.RunsStmt (.write span e) := runsStmt_of_scene hR fun hS hok hready => by
  obtain ⟨t, ht, htype, htyped⟩ := hok
  rw [Code.stmt] at hready ⊢
  rw [Reference.stmt]
  exact Scene.written hS htyped htype ht hready

theorem runsStmt_ret (hR : R.Sound) {span : Option Span} {value : Option Expr} :
    R.RunsStmt (.ret span value) := runsStmt_of_scene hR fun {locals result c s w} hS hok hready => by
  cases value with
  | none =>
    rw [Code.stmt] at hready ⊢
    rw [Reference.stmt]
    have hs : (R.scene locals).Held "$v0" s s.pc (s.reg "$v0") w s :=
      ⟨rfl, hready.inside, rfl, rfl, hready.agrees, .refl _ _ s⟩
    exact Scene.returned hS hR.exit hs (by simp) hready
  | some e =>
    rw [Code.stmt] at hready ⊢
    rw [Reference.stmt]
    refine Scene.tested hS hok.2 hok.1 hready (by decide) (by decide) (by decide)
      fun word w₁ u₁ hu₁ hready₁ => ?_
    refine Scene.returned hS hR.exit hu₁ (fun word' hword => ?_) hready₁
    obtain rfl : word = word' := by simpa using hword
    exact hu₁.reg

mutual

/-- The code of every statement does what the statement means. -/
theorem runsStmt (hR : R.Sound) : (st : Stmt) → R.RunsStmt st
  | .assign _ _ => runsStmt_assign hR
  | .call _ _ => runsStmt_call hR
  | .increment _ _ => runsStmt_increment hR
  | .decrement _ _ => runsStmt_decrement hR
  | .read _ _ => runsStmt_read hR
  | .write _ _ => runsStmt_write hR
  | .ifThen _ _ body => runsStmt_ifThen hR (runsBlock hR body)
  | .ifElse _ _ body other => runsStmt_ifElse hR (runsBlock hR body) (runsBlock hR other)
  | .loop _ _ body => runsStmt_loop hR (runsBlock hR body)
  | .ret _ _ => runsStmt_ret hR
  | .misfit _ _ => runsStmt_of_scene hR fun _ hok => by rw [StmtOk] at hok; exact hok.elim

/-- The code of all statements does what they mean. -/
theorem runsStmts (hR : R.Sound) : (ss : List Stmt) → R.RunsStmts ss
  | [] => runsStmts_nil
  | st :: ss => runsStmts_cons (runsStmt hR st) (runsStmts hR ss)

/-- The code of every block does what the block means. -/
theorem runsBlock (hR : R.Sound) : (b : Block) → R.RunsBlock b
  | .mk _ _ body => runsBlock_mk (runsStmts hR body)

end

end Routine

end CMinusMinus.Proofs
