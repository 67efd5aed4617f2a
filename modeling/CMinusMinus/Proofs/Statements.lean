import CMinusMinus.Proofs.Expressions
import CMinusMinus.Proofs.Slots

/-!
The code of a statement does what the statement means, and leaves the stack as it was. A block adds a
scope, whose variables have slots of their own; a loop is followed round by round, as far as the fuel
goes.
-/
namespace CMinusMinus.Proofs

open Assembly Machine WellFormed
open Reference (EvalM Store Word Value Scopes Flow)

namespace Scene

/-- A state after the code of a statement that was started in another one. A return goes on at the end
of the function. -/
structure Done (S : Scene) (s : State) (pc exit : Int) (flow : Flow) (w : Store) (u : State) :
    Prop where
  pc : u.pc = match flow with
    | .next => pc
    | .returned _ => exit
  inside : S.A.In S.image u
  sp : u.reg "$sp" = s.reg "$sp"
  result : ∀ word, flow = .returned (some word) → u.reg "$v0" = word.toInt
  agrees : Agrees S.L S.A.fp w u
  same : S.Same (s.reg "$sp") s u

variable {S : Scene} {s u : State} {w w' : Store} {is : List Code.Item} {t : Ty} {e : Expr}
  {pc exit : Int}

theorem Held.next {r : String} {n : Int} (hu : S.Held r s pc n w u) :
    S.Done s pc exit .next w u :=
  ⟨hu.pc, hu.inside, hu.sp, (fun _ h => (by cases h)), hu.agrees, hu.same⟩

theorem Done.next_pc (hu : S.Done s pc exit .next w u) : u.pc = pc := hu.pc

theorem Done.at_pc {flow : Flow} {pc' : Int} (hu : S.Done s pc exit flow w u) (hpc : pc' = pc) :
    S.Done s pc' exit flow w u := hpc ▸ hu

/-- An expression whose value is not used. -/
theorem discarded (hS : S.Sound) {c : Code.Counters} (htyped : Typed S.lit S.σ S.Γ e t)
    (hoperand : IsOperand t) (hready : S.Ready (Code.expr S.env e c ++ Code.pop .t0) w s) :
    S.Meets s w (do let _ ← Reference.expr S.call S.scopes e; return Flow.next)
      (S.Done s (s.pc + Code.width (Code.expr S.env e c ++ Code.pop .t0)) exit) := by
  refine (simulates hS e c t s w htyped hoperand hready.left).bind fun v w₁ u₁ hu₁ => ?_
  refine hu₁.pop hS (hready.right hu₁.pc hu₁.inside hu₁.agrees) hready.inside.sp (by decide)
    (by decide) (by decide) fun u₂ hu₂ _ => ?_
  refine Meets.pure (hu₂.next.at_pc ?_)
  rw [Code.width_append, Code.width_pop]
  omega

/-- The word of a condition, popped into a register. -/
theorem tested (hS : S.Sound) {α : Type} {f : Word → EvalM α} {Q : α → Store → State → Prop}
    {c : Code.Counters} {r : String} (htyped : Typed S.lit S.σ S.Γ e t) (ht : IsScalar t)
    (hready : S.Ready (Code.expr S.env e c ++ (Code.pop r ++ is)) w s) (hr : r ≠ "$zero")
    (hrsp : r ≠ "$sp") (hrfp : r ≠ "$fp")
    (hrest : ∀ word w' u, S.Held r s (s.pc + (Code.width (Code.expr S.env e c) + 2)) word.toInt w' u →
      S.Ready is w' u → S.Meets u w' (f word) Q) :
    S.Meets s w (Reference.word S.call S.scopes e >>= f) Q := by
  refine ((simulates hS e).word htyped (.inl ht) (not_string_of_scalar ht) hready.left).bind
    fun word w₁ u₁ hu₁ => ?_
  have hready₁ := hready.right hu₁.pc hu₁.inside hu₁.agrees
  refine hu₁.pop hS hready₁.left hready.inside.sp hr hrsp hrfp fun u₂ hu₂ _ => ?_
  rw [hu₁.wrap_load, Int.add_assoc] at hu₂
  refine hrest word w₁ u₂ hu₂ (hready₁.right ?_ hu₂.inside hu₂.agrees)
  rw [hu₂.pc, hu₁.pc, Code.width_pop]
  omega

/-- The address of a location is put into a register. -/
theorem Ready.address (hS : S.Sound) {α : Type} {y : EvalM α} {Q : α → Store → State → Prop}
    {x r : String} {path : List String} {v : Variable} {offset : Int}
    (h : Resolved S.image S.env S.L S.scopes e x path v offset)
    (hs : S.Ready (Code.address v offset r ++ is) w s) (hr : r ≠ "$zero") (hrsp : r ≠ "$sp")
    (hrfp : r ≠ "$fp")
    (hrest : ∀ u, u.pc = s.pc + Code.width (Code.address v offset r) →
      Activation.Sets r (addressOf S.image S.A.fp v offset) s u → S.Ready is w u → S.Meets u w y Q) :
    S.Meets s w y Q :=
  h.address hS.layout hS.activation hs.inside hs.left.placed hs.lo hs.left.hi hr hrsp hrfp
    fun u hpc hu hset => hrest u hpc hset (hs.right hpc hu (hs.agrees.sets hset))

/-- The code that adds to the word at a location. -/
theorem counted (hS : S.Sound) {delta : Int} {step : Word} (hdelta : Int32.ofInt delta = step)
    (hlocation : e.isLocation) (htyped : Typed S.lit S.σ S.Γ e .int)
    (hready : S.Ready (Code.count S.env e delta) w s) :
    S.Meets s w (do Reference.count S.scopes e step; return Flow.next)
      (S.Done s (s.pc + Code.width (Code.count S.env e delta)) exit) := by
  obtain ⟨v, hplace, hty, -⟩ := place_of_typed hS.symbols hlocation htyped (.inl (.inl rfl))
  obtain ⟨x, path, v', offset, hresolved⟩ := hS.places hplace (.inl hty)
  rw [Code.count, onPlace_eq hresolved] at hready ⊢
  have hmeaning : (do Reference.count S.scopes e step; return Flow.next) = (do
      let word ← Reference.readWord S.scopes x path
      Reference.writeWord S.scopes x path (word + step)
      return Flow.next) := by
    rw [Reference.count, place_eq hresolved]
    simp
  rw [hmeaning]
  refine hready.address hS hresolved (by decide) (by decide) (by decide)
    fun u₁ hpc₁ hset₁ hready₁ => ?_
  have haddress : u₁.reg "$t1" = addressOf S.image S.A.fp v' offset := hset₁.reg
  refine Meets.bind (Q := fun word w' u => word = Int32.ofInt
    (u₁.load (addressOf S.image S.A.fp v' offset)) ∧ w = w' ∧ u₁ = u)
    (hresolved.read hready₁.agrees ⟨u₁, rfl, rfl, rfl, rfl⟩) ?_
  rintro word _ _ ⟨hword, rfl, rfl⟩
  refine hready₁.set hS (r := "$t0") (v := u₁.load (addressOf S.image S.A.fp v' offset)) ?_ rfl
    (by decide) (by decide) (by decide) fun u₂ hpc₂ hset₂ hready₂ => ?_
  · simp [effect, withPlace, locate?, Reg.t0, Reg.t1, haddress]
  refine hready₂.set hS (r := "$t0") (v := u₂.reg "$t0" + delta) ?_ rfl
    (by decide) (by decide) (by decide) fun u₃ hpc₃ hset₃ hready₃ => ?_
  · simp [effect, Machine.calculate, operandOf, Reg.t0]
  have hvalue : u₃.reg "$t0" = (word + step).toInt := by
    rw [hset₃.reg, hset₂.reg, hword, ← hdelta, ← Int32.ofInt_add, wrap_eq, wrap_eq]
    simp
  have hbase : u₃.reg "$t1" = addressOf S.image S.A.fp v' offset := by
    rw [hset₃.other _ (by decide), hset₂.other _ (by decide), haddress]
  refine hready₃.store hS hresolved hbase hvalue fun u₄ w₄ hpc₄ hreg₄ hsame₄ hready₄ => ?_
  refine Meets.pure ⟨?_, hready₄.inside, ?_, (fun _ h => (by cases h)), hready₄.agrees, ?_⟩
  · simp only [Code.width_append, Code.width_cons, Code.width_op, Code.width_nil, Reg.t1] at hpc₁ ⊢
    omega
  · rw [hreg₄, hset₃.other _ (by decide), hset₂.other _ (by decide), hset₁.other _ (by decide)]
  · exact (((Same.sets hset₁).trans (.sets hset₂) (Int.le_refl _)).trans (.sets hset₃)
      (Int.le_refl _)).trans (hsame₄ _) (Int.le_refl _)

/-- The number of a service is put into its register. -/
theorem Ready.request (hS : S.Sound) {α : Type} {y : EvalM α} {Q : α → Store → State → Prop}
    {number : Int} (hs : S.Ready (Code.service number ++ is) w s)
    (hrest : ∀ u, u.pc = s.pc + 1 → Activation.Sets "$v0" (wrap number) s u →
      S.Ready (.op .syscall :: is) w u → S.Meets u w y Q) : S.Meets s w y Q := by
  rw [Code.service, List.cons_append, List.cons_append, List.nil_append] at hs
  exact hs.set hS (r := "$v0") (v := number) rfl rfl (by decide) (by decide) (by decide) hrest

/-- The code that reads a number. -/
theorem Ready.input (hS : S.Sound) {α : Type} {f : Word → EvalM α} {Q : α → Store → State → Prop}
    (hs : S.Ready (Code.service Lowering.readInt ++ is) w s)
    (hrest : ∀ word w' u, u.pc = s.pc + 2 → u.reg "$v0" = word.toInt →
      (∀ q, q ≠ "$v0" → u.reg q = s.reg q) → (∀ a, u.load a = s.load a) → S.Ready is w' u →
      S.Meets u w' (f word) Q) : S.Meets s w (Reference.nextInput >>= f) Q := by
  refine hs.request hS fun u hpc hset hu => ?_
  obtain ⟨hi, hlo, hhi⟩ := hu.op
  have hP := hS.activation.holds u hlo hhi hu.inside.fp hu.inside.sp
  have hservice : u.next.reg "$v0" = 5 := hset.reg
  cases hinputs : w.inputs with
  | nil =>
    have hmachine : u.next.inputs = [] := by rw [State.inputs_next, hu.agrees.inputs, hinputs]
    refine Proofs.Meets.bind (Q := fun _ _ _ => False) (Proofs.Meets.congr (y := throw .inputExhausted)
      (fun unknowns => ?_) (Proofs.Meets.throw ?_)) fun _ _ _ h => h.elim
    · simp only [Reference.nextInput, evalM_get_bind, hinputs]
    · refine ⟨0, _, .refl _, hP, u.next, hu.agrees.output, ?_⟩
      exact (step_eq hi).trans (service_exhausted S.image hservice hmachine)
  | cons n inputs =>
    have hmachine : u.next.inputs = n :: inputs := by rw [State.inputs_next, hu.agrees.inputs, hinputs]
    have hset' := Activation.setReg_sets (s := { u with inputs }) n (r := "$v0") (by decide)
    refine Proofs.Meets.exec_plain hi rfl hP (service_readInt S.image hservice hmachine) ?_
    refine Proofs.Meets.bind (Proofs.Meets.of_eq (a := Int32.ofInt n) { w with inputs }
      (Q := fun word w' m => word = Int32.ofInt n ∧ w' = { w with inputs } ∧
        m = ⟨S.A.depth, ({ u with inputs } : State).next.setReg "$v0" n⟩) (fun unknowns => ?_)
      ⟨rfl, rfl, rfl⟩) ?_
    · simp only [Reference.nextInput, evalM_get_bind, hinputs]
      rfl
    · rintro _ _ _ ⟨rfl, rfl, rfl⟩
      have hagrees : Agrees S.L S.A.fp { w with inputs } { u with inputs } :=
        ⟨hu.agrees.globals, hu.agrees.locals, rfl, hu.agrees.output⟩
      have hinside : S.A.In S.image { u with inputs } :=
        ⟨hu.inside.fp, hu.inside.sp, hu.inside.low⟩
      refine hrest _ _ _ (by simp; omega) (hset'.reg.trans (wrap_eq n)) (fun q hq => ?_)
        (fun a => ?_) (hu.tail (by simp) (hinside.sets hset' (by decide) (by decide))
          (hagrees.sets hset'))
      · exact (hset'.other q hq).trans (hset.other q hq)
      · exact (hset'.load a).trans (hset.load a)

/-- The state after the machine has written a text. -/
theorem Ready.print (hS : S.Sound) {text : String}
    (hs : S.Ready (.op .syscall :: is) w s)
    (hservice : service S.image s.next = .ok false { s.next with output := s.output ++ text }) :
    S.Meets s w (Reference.print text) fun _ w' u => u.pc = s.pc + 1 ∧
      (∀ q, u.reg q = s.reg q) ∧ (∀ a, u.load a = s.load a) ∧ S.Ready is w' u := by
  obtain ⟨hi, hlo, hhi⟩ := hs.op
  refine Proofs.Meets.exec_plain hi rfl (hS.activation.holds s hlo hhi hs.inside.fp hs.inside.sp)
    hservice ?_
  refine Proofs.Meets.of_eq { w with output := w.output ++ text } (fun unknowns => rfl)
    ⟨_, rfl, rfl, fun q => rfl, fun a => rfl, hs.tail rfl ?_ ?_⟩
  · exact ⟨hs.inside.fp, hs.inside.sp, hs.inside.low⟩
  · exact ⟨hs.agrees.globals, hs.agrees.locals, hs.agrees.inputs, by simp [hs.agrees.output]⟩

/-- The code that reads a number into a location. -/
theorem received (hS : S.Sound) (hlocation : e.isLocation) (htyped : Typed S.lit S.σ S.Γ e t)
    (ht : IsScalar t) (hready : S.Ready (Code.service Lowering.readInt ++ Code.onPlace S.env e
      fun v offset => Code.address v offset .t0 ++ [.op (.sw .v0 (.indexed 0 .t0))]) w s) :
    S.Meets s w (do
      let word ← Reference.nextInput
      let (x, path) ← Reference.place e
      Reference.writeWord S.scopes x path word
      return Flow.next)
      (S.Done s (s.pc + Code.width (Code.service Lowering.readInt ++ Code.onPlace S.env e
        fun v offset => Code.address v offset .t0 ++ [.op (.sw .v0 (.indexed 0 .t0))])) exit) := by
  obtain ⟨v, hplace, rfl, -⟩ := place_of_typed hS.symbols hlocation htyped (.inl ht)
  obtain ⟨x, path, v', offset, hresolved⟩ := hS.places hplace ht
  rw [onPlace_eq hresolved] at hready ⊢
  rw [place_eq hresolved]
  simp only [pure_bind]
  refine hready.input hS fun word w₁ u₁ hpc₁ hv0 hother hload hready₁ => ?_
  refine hready₁.address hS hresolved (by decide) (by decide) (by decide)
    fun u₂ hpc₂ hset₂ hready₂ => ?_
  have hbase : u₂.reg Reg.t0 = addressOf S.image S.A.fp v' offset := hset₂.reg
  have hvalue : u₂.reg Reg.v0 = word.toInt := (hset₂.other _ (by decide)).trans hv0
  refine hready₂.store hS hresolved hbase hvalue fun u₃ w₃ hpc₃ hreg₃ hsame₃ hready₃ => ?_
  refine Meets.pure ⟨?_, hready₃.inside, ?_, (fun _ h => (by cases h)), hready₃.agrees, ?_⟩
  · simp only [Code.width_append, Code.width_cons, Code.width_op, Code.width_nil,
      Code.width_service, Reg.t0] at hpc₂ ⊢
    omega
  · rw [hreg₃, hset₂.other _ (by decide), hother _ (by decide)]
  · intro a ha hdata harea
    rw [hsame₃ _ a ha hdata harea, hset₂.load, hload]

/-- The type that is recorded on an expression decides how its value is written. -/
theorem printer_eq (htype : e.ty = some t) (ht : IsScalar t ∨ t = .string) :
    Code.printer S.env e = if t.isString then Lowering.printString else Lowering.printInt := by
  rcases ht with (rfl | rfl) | rfl <;>
    simp [Code.printer, Lowering.recordedTy, htype, Ty.known?, Ty.isError, Ty.isString]

/-- The code that writes the value of an expression. -/
theorem written (hS : S.Sound) {c : Code.Counters} (htyped : Typed S.lit S.σ S.Γ e t)
    (htype : e.ty = some t) (ht : IsScalar t ∨ t = .string)
    (hready : S.Ready (Code.expr S.env e c ++
      (Code.pop .a0 ++ Code.service (Code.printer S.env e))) w s) :
    S.Meets s w (do
      match ← Reference.expr S.call S.scopes e with
      | .text literal => Reference.print (String.ofList (Reference.shown literal.toList))
      | value => Reference.print (toString (← value.toWord).toInt)
      return Flow.next)
      (S.Done s (s.pc + Code.width (Code.expr S.env e c ++
        (Code.pop .a0 ++ Code.service (Code.printer S.env e)))) exit) := by
  have hoperand : IsOperand t := ht.imp_right .inl
  refine (simulates hS e c t s w htyped hoperand hready.left).bind fun v w₁ u₁ hu₁ => ?_
  have hready₁ := hready.right hu₁.pc hu₁.inside hu₁.agrees
  refine hu₁.pop hS hready₁.left hready.inside.sp (by decide) (by decide) (by decide)
    fun u₂ hu₂ _ => ?_
  have hready₂ := hready₁.right (hu₂.pc.trans (by rw [hu₁.pc]; rfl)) hu₂.inside hu₂.agrees
  rw [← List.append_nil (Code.service _)] at hready₂
  refine hready₂.request hS fun u₃ hpc₃ hset₃ hready₃ => ?_
  have ha0 : u₃.reg "$a0" = wrap (u₁.load (s.reg "$sp")) :=
    (hset₃.other _ (by decide)).trans hu₂.reg
  -- what the service writes is the value
  suffices hprint : ∀ text, service S.image u₃.next =
      .ok false { u₃.next with output := u₃.output ++ text } →
      S.Meets u₃ w₁ (do Reference.print text; return Flow.next)
        (S.Done s (s.pc + Code.width (Code.expr S.env e c ++
          (Code.pop .a0 ++ Code.service (Code.printer S.env e)))) exit) by
    have hv0 : u₃.next.reg "$v0" = wrap (Code.printer S.env e) := hset₃.reg
    rw [printer_eq htype ht] at hv0
    by_cases hstring : t = .string
    · subst hstring
      obtain ⟨literal, rfl⟩ := text_of_fits hu₁.fits
      refine hprint _ (service_printText S.image hv0 ?_)
      have ha0' : u₃.next.reg "$a0" = _ := ha0
      rw [ha0']
      exact hu₁.value
    · have hmeaning : ∀ v : Value, Fits t v → (do
          match v with
          | .text literal => Reference.print (String.ofList (Reference.shown literal.toList))
          | value => Reference.print (toString (← value.toWord).toInt)
          return Flow.next : EvalM Flow) = (do
          let word ← v.toWord
          Reference.print (toString word.toInt)
          return Flow.next) := by
        intro v hv
        cases v with
        | text literal => exact absurd hv hstring
        | word word => rfl
        | nothing => simp [Value.toWord]
      rw [hmeaning v hu₁.fits]
      refine (toWord hu₁.value hu₁.fits hstring).bind ?_
      rintro word w' u' ⟨rfl, rfl, hword⟩
      have hint : t.isString = false := by rcases ht.resolve_right hstring with rfl | rfl <;> rfl
      rw [hint] at hv0
      refine hprint _ ((service_printInt S.image hv0).trans ?_)
      have ha0' : u'.next.reg "$a0" = word.toInt := by
        rw [← hword, ← wrap_eq]
        exact ha0
      rw [ha0']
      rfl
  intro text hservice
  refine (hready₃.print hS hservice).bind ?_
  rintro _ w₄ u₄ ⟨hpc₄, hreg₄, hload₄, hready₄⟩
  refine Meets.pure ⟨?_, hready₄.inside, ?_, (fun _ h => (by cases h)), hready₄.agrees, ?_⟩
  · have hpc₂ := hu₂.pc
    simp only [Code.width_append, Code.width_pop, Code.width_service]
    omega
  · rw [hreg₄, hset₃.other _ (by decide), hu₂.sp]
  · intro a ha hdata harea
    rw [hload₄, hset₃.load, hu₂.same a ha hdata harea]

/-- A statement after another one. -/
theorem Done.trans {flow : Flow} {pc' : Int} {u' : State} (hu : S.Done s pc exit .next w u)
    (hu' : S.Done u pc' exit flow w' u') : S.Done s pc' exit flow w' u' where
  pc := hu'.pc
  inside := hu'.inside
  sp := by rw [hu'.sp, hu.sp]
  result := hu'.result
  agrees := hu'.agrees
  same := hu.same.trans hu'.same (Int.le_of_eq hu.sp)

theorem Done.moves {u' : State} (hu : S.Done s pc exit .next w u) (h : Moves u u') :
    S.Done s u'.pc exit .next w u' :=
  hu.trans ⟨rfl, h.inside hu.inside, h.reg _, (fun _ h => (by cases h)), h.agrees hu.agrees, h.same⟩

/-- A return goes to the end of the function. -/
theorem returned (hS : S.Sound) {r function : String} {n : Int} {value : Option Word}
    (hexit : ItemAt S.image exit (.label (exitLabel function))) (hu : S.Held r s pc n w u)
    (hvalue : ∀ word, value = some word → u.reg "$v0" = word.toInt)
    (hready : S.Ready [.op (.j (exitLabel function))] w u) {pc' : Int} :
    S.Meets u w (pure (Flow.returned value)) (S.Done s pc' exit) := by
  refine hready.goto hS _ (goto_label hexit) rfl fun u' hpc hmoves => ?_
  have hu' := hu.moves hmoves
  refine Meets.pure ⟨hpc, hu'.inside, hu'.sp, fun word hword => ?_, hu'.agrees, hu'.same⟩
  rw [hmoves.reg]
  exact hvalue word (by simpa using hword)

/-- The code of a condition goes on in its place if it holds, and elsewhere if not. -/
theorem decided (hS : S.Sound) (exit : Int) {α : Type} {x y : EvalM α} {Q : α → Store → State → Prop}
    {c : Code.Counters} {target comment : String} {there : Int}
    (htyped : Typed S.lit S.σ S.Γ e .bool)
    (hready : S.Ready (Code.expr S.env e c ++
      (Code.pop .t0 ++ .op (.beq .t0 .zero target) :: is)) w s)
    (htarget : ItemAt S.image there (.label target comment))
    (hthen : ∀ w' u, S.Done s (s.pc + (Code.width (Code.expr S.env e c) + 3)) exit .next w' u →
      S.Ready is w' u → S.Meets u w' x Q)
    (helse : ∀ w' u, S.Done s there exit .next w' u → S.Meets u w' y Q) :
    S.Meets s w (do if (← Reference.word S.call S.scopes e) ≠ 0 then x else y) Q := by
  refine tested hS htyped (.inr rfl) hready (by decide) (by decide) (by decide)
    fun word w₁ u₁ hu₁ hready₁ => ?_
  have hreg : u₁.reg "$t0" = word.toInt := hu₁.reg
  have hpc₁ := hu₁.pc
  by_cases hword : word = 0
  · rw [if_neg (by simpa using hword)]
    refine hready₁.goto hS there ?_ rfl fun u₂ hpc₂ hmoves => ?_
    · simpa [effect, Reg.t0, Reg.zero, hreg, hword] using goto_label (s := u₁.next) htarget
    · exact helse w₁ u₂ ((hu₁.next.moves hmoves).at_pc hpc₂.symm)
  · rw [if_pos hword]
    refine hready₁.goto hS (u₁.pc + 1) ?_ rfl fun u₂ hpc₂ hmoves => ?_
    · simp [effect, Reg.t0, Reg.zero, hreg, toInt_eq_zero, hword, State.next]
    · refine hthen w₁ u₂ ((hu₁.next.moves hmoves).at_pc (by omega)) ?_
      exact hready₁.tail hpc₂ (hmoves.inside hu₁.inside) (hmoves.agrees hu₁.agrees)

end Scene

end CMinusMinus.Proofs
