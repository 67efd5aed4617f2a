import CMinusMinus.Proofs.Execution

/-!
Runs with more input and more steps. A step looks at the input only to take its first number, so that with more
input behind it the step does the same, unless it found no input at all. Hence a run that ends by itself ends in
the same way with more of both, and what any run has written is the beginning of what a longer one writes.
-/
namespace CMinusMinus.Proofs.Prolonging

open Machine

variable {α β : Type}

/-- The state with more input behind what there is. -/
def feed (t : List Int) (s : State) : State := { s with inputs := s.inputs ++ t }

def feedResult (t : List Int) : EStateM.Result Error State α → EStateM.Result Error State α
  | .ok a s => .ok a (feed t s)
  | .error e s => .error e (feed t s)

/-- What has been written when a piece of work ends. -/
def written : EStateM.Result Error State α → String
  | .ok _ s | .error _ s => s.output

def Begins (text longer : String) : Prop := ∃ more, longer = text ++ more

theorem Begins.refl (text : String) : Begins text text := ⟨"", by simp⟩

theorem Begins.trans {a b c : String} (h : Begins a b) (h' : Begins b c) : Begins a c := by
  obtain ⟨more, rfl⟩ := h
  obtain ⟨more', rfl⟩ := h'
  exact ⟨more ++ more', by rw [String.append_assoc]⟩

/-- A piece of the machine's work only adds to what is written, and with more input it does the same, unless it
comes to the end of the input. -/
structure Steady (x : ExecM α) : Prop where
  grows : ∀ s, Begins s.output (written (x s))
  same : ∀ t s, x (feed t s) = feedResult t (x s) ∨
    (∃ s', x s = .error .inputExhausted s') ∧ Begins (written (x s)) (written (x (feed t s)))

section Steps

theorem steady_pure (a : α) : Steady (pure a : ExecM α) := ⟨fun _ => .refl _, fun _ _ => .inl rfl⟩

theorem steady_throw (e : Error) : Steady (throw e : ExecM α) := ⟨fun _ => .refl _, fun _ _ => .inl rfl⟩

theorem Steady.seq {x : ExecM α} {f : α → ExecM β} (hx : Steady x) (hf : ∀ a, Steady (f a)) : Steady (x >>= f) := by
  have hgrows : ∀ s, Begins (written (x s)) (written ((x >>= f) s)) := by
    intro s
    rw [bind_eq]
    cases x s with
    | ok a s' => exact (hf a).grows s'
    | error e s' => exact .refl _
  refine ⟨fun s => (hx.grows s).trans (hgrows s), fun t s => ?_⟩
  rcases hx.same t s with hsame | ⟨⟨s', hs'⟩, hbegins⟩
  · rw [bind_eq, bind_eq, hsame]
    cases x s with
    | ok a s' => exact (hf a).same t s'
    | error e s' => exact .inl rfl
  · have hends : (x >>= f) s = .error .inputExhausted s' := by rw [bind_eq, hs']
    rw [hs'] at hbegins
    exact .inr ⟨⟨s', hends⟩, by rw [hends]; exact hbegins.trans (hgrows _)⟩

/-- A look at the state, but not at its input. -/
theorem steady_get {f : State → ExecM β} (hf : ∀ s, Steady (f s)) (hfeed : ∀ t s, f (feed t s) = f s) :
    Steady (get >>= f) where
  grows s := (hf s).grows s
  same t s := by
    rw [get_bind, get_bind, hfeed]
    exact (hf s).same t s

/-- A change of the state that does not go by the input and leaves it as it is. -/
theorem steady_modify (f : State → State) (hgrows : ∀ s, Begins s.output (f s).output)
    (hfeed : ∀ t s, f (feed t s) = feed t (f s)) : Steady (modify f : ExecM PUnit) where
  grows := hgrows
  same t s := .inl (congrArg (EStateM.Result.ok _) (hfeed t s))

theorem steady_ofExcept (r : Except Error α) : Steady (Machine.ofExcept r) := by
  cases r with
  | ok a => exact steady_pure a
  | error e => exact steady_throw e

theorem steady_operand (args : List String) (n : Nat) : Steady (operand args n) := by
  unfold operand
  split
  · exact steady_pure _
  · exact steady_throw _

theorem steady_reg (name : String) : Steady (reg name) := steady_get (fun _ => steady_pure _) fun _ _ => rfl

theorem steady_setReg (name : String) (value : Int) : Steady (setReg name value) := by
  refine steady_modify _ (fun s => ?_) fun t s => ?_
  · unfold State.setReg
    split <;> exact .refl _
  · unfold State.setReg
    split <;> rfl

theorem steady_goto (pc : Int) : Steady (modify fun s => { s with pc } : ExecM PUnit) :=
  steady_modify _ (fun _ => .refl _) fun _ _ => rfl

theorem steady_write (text : String) : Steady (modify fun s => { s with output := s.output ++ text } : ExecM PUnit) :=
  steady_modify _ (fun _ => ⟨text, rfl⟩) fun _ _ => rfl

theorem steady_store (address value : Int) :
    Steady (modify fun s => { s with memory := s.memory.insert address value } : ExecM PUnit) :=
  steady_modify _ (fun _ => .refl _) fun _ _ => rfl

theorem steady_valueOf (text : String) : Steady (valueOf text) := by
  unfold valueOf
  split
  · exact steady_reg _
  · exact steady_ofExcept _

theorem steady_addressOf (image : Image) (text : String) : Steady (addressOf image text) := by
  unfold addressOf
  split
  · exact (steady_reg _).seq fun _ => (steady_ofExcept _).seq fun _ => steady_pure _
  · split
    · exact steady_pure _
    · exact steady_throw _

theorem steady_jump (image : Image) (label : String) : Steady (jump image label) := by
  refine Steady.seq ?_ steady_goto
  unfold targetOf
  split
  · exact steady_pure _
  · exact steady_throw _

theorem steady_service (image : Image) : Steady (service image) := by
  refine (steady_reg _).seq fun number => ?_
  split
  · exact (steady_reg _).seq fun _ => (steady_write _).seq fun _ => steady_pure _
  split
  · refine (steady_reg _).seq fun address => ?_
    split
    · exact steady_throw _
    · exact (steady_write _).seq fun _ => steady_pure _
  split
  · -- the one service that takes input: it stops where there is none, and goes on if there is more
    have hset : ∀ value, Steady (do setReg "$v0" value; return false : ExecM Bool) := fun value =>
      (steady_setReg _ _).seq fun _ => steady_pure _
    refine ⟨fun s => ?_, fun t s => ?_⟩
    · rw [get_bind]
      cases s.inputs with
      | nil => exact .refl _
      | cons value inputs => exact (hset value).grows { s with inputs }
    · rw [get_bind, get_bind, feed]
      cases s.inputs with
      | nil =>
        refine .inr ⟨⟨s, rfl⟩, ?_⟩
        cases t with
        | nil => exact .refl _
        | cons value inputs => exact (hset value).grows { s with inputs }
      | cons value inputs => exact (hset value).same t { s with inputs }
  split
  · exact steady_pure _
  · exact steady_throw _

theorem steady_exec (image : Image) (i : Instruction) : Steady (exec image i) := by
  have hbranch : ∀ {p : Prop} [Decidable p], Steady (do
      if p then jump image (← operand i.operands 2)
      return false : ExecM Bool) := by
    intro p _
    split
    · exact (steady_operand _ _).seq fun _ => (steady_jump _ _).seq fun _ => steady_pure _
    · exact steady_pure _
  unfold exec
  split
  · exact steady_throw _
  · exact (steady_operand _ _).seq fun _ => (steady_operand _ _).seq fun _ => (steady_ofExcept _).seq fun _ =>
      (steady_setReg _ _).seq fun _ => steady_pure _
  · exact (steady_operand _ _).seq fun _ => (steady_operand _ _).seq fun _ => (steady_addressOf _ _).seq fun _ =>
      (steady_setReg _ _).seq fun _ => steady_pure _
  · exact (steady_operand _ _).seq fun _ => (steady_operand _ _).seq fun _ => (steady_addressOf _ _).seq fun _ =>
      steady_get (fun _ => (steady_setReg _ _).seq fun _ => steady_pure _) fun _ _ => rfl
  · exact (steady_operand _ _).seq fun _ => (steady_reg _).seq fun _ => (steady_operand _ _).seq fun _ =>
      (steady_addressOf _ _).seq fun _ => (steady_store _ _).seq fun _ => steady_pure _
  · exact (steady_operand _ _).seq fun _ => (steady_operand _ _).seq fun _ => (steady_reg _).seq fun _ =>
      (steady_setReg _ _).seq fun _ => steady_pure _
  · exact (steady_operand _ _).seq fun _ => (steady_operand _ _).seq fun _ => (steady_reg _).seq fun _ =>
      (steady_operand _ _).seq fun _ => (steady_valueOf _).seq fun _ => (steady_ofExcept _).seq fun _ =>
      (steady_setReg _ _).seq fun _ => steady_pure _
  · exact (steady_operand _ _).seq fun _ => (steady_reg _).seq fun _ => (steady_operand _ _).seq fun _ =>
      (steady_valueOf _).seq fun _ => hbranch
  · exact (steady_operand _ _).seq fun _ => (steady_reg _).seq fun _ => (steady_operand _ _).seq fun _ =>
      (steady_valueOf _).seq fun _ => hbranch
  · exact (steady_operand _ _).seq fun _ => (steady_jump _ _).seq fun _ => steady_pure _
  · exact steady_get (fun _ => (steady_setReg _ _).seq fun _ => (steady_operand _ _).seq fun _ =>
      (steady_jump _ _).seq fun _ => steady_pure _) fun _ _ => rfl
  · exact (steady_operand _ _).seq fun _ => (steady_reg _).seq fun _ => (steady_goto _).seq fun _ => steady_pure _
  · exact steady_service image

theorem steady_step (image : Image) : Steady (step image) := by
  refine steady_get (fun s => ?_) fun _ _ => rfl
  dsimp only
  split
  · exact steady_throw _
  · exact (steady_goto _).seq fun _ => steady_exec image _

end Steps

section Runs

variable {image : Image}

theorem runFrom_grows (image : Image) (n : Nat) (s : State) : Begins s.output (runFrom image n s).state.output := by
  induction n generalizing s with
  | zero => exact .refl _
  | succ n ih =>
    have hstep := (steady_step image).grows s
    rw [runFrom]
    cases hs : step image s with
    | error e s' => rw [hs] at hstep; exact hstep
    | ok ends s' =>
      rw [hs] at hstep
      cases ends with
      | false => exact hstep.trans (ih s')
      | true => exact hstep

/-- A run that ends by itself ends in the same way with more steps and more input. -/
theorem runFrom_stable {m n : Nat} (hle : m ≤ n) (t : List Int) {s : State}
    (hsteps : (runFrom image m s).error ≠ some .stepLimit)
    (hinput : (runFrom image m s).error ≠ some .inputExhausted) :
    runFrom image n (feed t s) = ⟨feed t (runFrom image m s).state, (runFrom image m s).error⟩ := by
  induction m generalizing n s with
  | zero => exact absurd rfl hsteps
  | succ m ih =>
    obtain ⟨n, rfl⟩ : ∃ k, n = k + 1 := ⟨n - 1, by omega⟩
    rw [runFrom] at hsteps hinput ⊢
    rcases (steady_step image).same t s with hsame | ⟨⟨s', hs'⟩, -⟩
    · rw [hsame, runFrom]
      cases hs : step image s with
      | error e s' => rfl
      | ok ends s' =>
        cases ends with
        | false =>
          rw [hs] at hsteps hinput
          exact ih (by omega) hsteps hinput
        | true => rfl
    · rw [hs'] at hinput
      exact absurd rfl hinput

/-- What a run has written is the beginning of what it writes with more steps and more input. -/
theorem runFrom_begins {m n : Nat} (hle : m ≤ n) (t : List Int) (s : State) :
    Begins (runFrom image m s).state.output (runFrom image n (feed t s)).state.output := by
  induction m generalizing n s with
  | zero => exact runFrom_grows image n (feed t s)
  | succ m ih =>
    obtain ⟨n, rfl⟩ : ∃ k, n = k + 1 := ⟨n - 1, by omega⟩
    rcases (steady_step image).same t s with hsame | ⟨⟨s', hs'⟩, hbegins⟩
    · rw [runFrom, runFrom, hsame]
      cases hs : step image s with
      | error e s' => exact .refl _
      | ok ends s' =>
        cases ends with
        | false => exact ih (by omega) s'
        | true => exact .refl _
    · rw [hs'] at hbegins
      rw [runFrom, runFrom, hs']
      cases hs : step image (feed t s) with
      | error e s'' => rw [hs] at hbegins; exact hbegins
      | ok ends s'' =>
        rw [hs] at hbegins
        cases ends with
        | false => exact hbegins.trans (runFrom_grows image n s'')
        | true => exact hbegins

theorem initial_append (image : Image) (s t : List Int) : initial image (s ++ t) = feed t (initial image s) := rfl

end Runs

/-- Runs are stable under more steps and more input. A run that is ended neither by the limit of steps nor by the end
of the input ends in the same way with more of both, in a state that differs in nothing but the input that is left;
and whatever ends a run, what it has written is the beginning of what is written with more of both. -/
theorem runs_are_stable (image : Image) (s t : List Int) {m n : Nat} (hle : m ≤ n) :
    ((run image s m).error ≠ some .stepLimit → (run image s m).error ≠ some .inputExhausted →
      (run image (s ++ t) n).error = (run image s m).error ∧
      (run image (s ++ t) n).state.output = (run image s m).state.output ∧
      (run image (s ++ t) n).state.regs = (run image s m).state.regs ∧
      (run image (s ++ t) n).state.memory = (run image s m).state.memory) ∧
    ∃ more, (run image (s ++ t) n).state.output = (run image s m).state.output ++ more := by
  unfold run
  rw [initial_append]
  cases image.textLabels["main"]? with
  | none => exact ⟨fun _ _ => ⟨rfl, rfl, rfl, rfl⟩, Begins.refl _⟩
  | some pc =>
    refine ⟨fun hsteps hinput => ?_, runFrom_begins hle t { initial image s with pc }⟩
    have hstable := runFrom_stable hle t (s := { initial image s with pc }) hsteps hinput
    exact ⟨congrArg (·.error) hstable, congrArg (·.state.output) hstable, congrArg (·.state.regs) hstable,
      congrArg (·.state.memory) hstable⟩

/-- The machine reads a number, writes it and stops at a division by zero. -/
def echo : Image where
  text := #[⟨"li", ["$v0", "5"], 2⟩, ⟨"syscall", [], 3⟩, ⟨"move", ["$a0", "$v0"], 4⟩, ⟨"li", ["$v0", "1"], 5⟩,
    ⟨"syscall", [], 6⟩, ⟨"div", ["$v0", "$v0", "$zero"], 7⟩]
  textLabels := {("main", 0)}

theorem echo_is_stable : 6 ≤ 9 ∧ (run echo [7] 6).error = some .divisionByZero ∧
    (run echo ([7] ++ [8]) 9).error = some .divisionByZero ∧ (run echo ([7] ++ [8]) 9).state.output = "7" := by
  have hend : (run echo [7] 6).error = some .divisionByZero ∧ (run echo [7] 6).state.output = "7" := by
    decide +kernel
  have hstable := (runs_are_stable echo [7] [8] (m := 6) (n := 9) (by decide)).1
  rw [hend.1, hend.2] at hstable
  obtain ⟨herror, houtput, -, -⟩ := hstable (by decide) (by decide)
  exact ⟨by decide, hend.1, herror, houtput⟩

end CMinusMinus.Proofs.Prolonging
