import CMinusMinus.Compilation
import CMinusMinus.Machine.Run
import CMinusMinus.Proofs.Assembled

/-!
The compiler as a whole. A text that is accepted has code, and the machine that has loaded this code
runs as the program means, as long as its stack stays above the data. Whatever the program does, also
if it uses what the language leaves open, the machine stops for the reasons that the language knows
and no others.
-/
namespace CMinusMinus.Proofs

open Assembly Machine WellFormed
open Code (linesOf)
open Reference (Halt Store Word)

/-- A text is accepted: its analysis ends without a fault and without errors. -/
structure Accepts (text file : String) (a : Analysis) : Prop where
  returns : (Analysis.ofSource text file).fault = none
  result : (Analysis.ofSource text file).result = a
  quiet : a.hasErrors = false

/-- No literal of a text goes over a line break. -/
def PlainLiterals (text : String) : Prop :=
  match Token.lex text with
  | .ok tokens => ∀ t ∈ tokens, t.kind = .string → Rendering.Unbroken t.text
  | .error _ => True

instance {text : String} : Decidable (PlainLiterals text) := by
  unfold PlainLiterals
  cases Token.lex text with
  | error e => exact instDecidableTrue
  | ok tokens =>
    have hunbroken (t : Token) : Decidable (Rendering.Unbroken t.text) := List.decidableBAll _ _
    exact List.decidableBAll _ tokens

def OneLine (text : String) : Prop := Literal text.toList ∧ Rendering.Unbroken text

section Reading

variable {text file : String} {a : Analysis} {lit : String → Prop}

/-- Where the analysis of a program that was read from a file starts. -/
def readFrom (file : String) (p : Program) : Analysis where
  file := some file
  program := some { p with file := some (Analysis.sourceName { file := some file }) }

/-- The analysis of a text that is read as a program consists of the passes over the program. -/
theorem ofSource_program (file : String) {tokens : List Token} {p : Program} (hlex : Token.lex text = .ok tokens)
    (hp : Program.ofTokens tokens = .ok p) :
    (Analysis.ofSource text file).result = (readFrom file p).complete.result ∧
    (Analysis.ofSource text file).fault = (readFrom file p).complete.fault := by
  simp only [Analysis.ofSource, Analysis.ofText, hlex, hp]
  exact ⟨rfl, rfl⟩

/-- The analysis of a text that is not read as a program finds an error, or a number that is too
long. -/
theorem ofSource_unreadable (file : String)
    (h : ∀ tokens, Token.lex text = .ok tokens → ∀ p, Program.ofTokens tokens ≠ .ok p) :
    (Analysis.ofSource text file).result.program = none ∧
    (Analysis.ofSource text file).result.file = some file ∧
    ((Analysis.ofSource text file).fault = some .numeralTooLong ∧
        Token.lex text = .error .numeralTooLong ∨
      (Analysis.ofSource text file).fault = none ∧
        (Analysis.ofSource text file).result.hasErrors = true) := by
  have herror : ∀ finding place, (Analysis.unreadable { file := some file } finding
      (Analysis.sourceName { file := some file }) place).hasErrors = true := by
    simp [Analysis.hasErrors, Analysis.unreadable, Diagnostic.atPlace, Diagnostic.isError]
  unfold Analysis.ofSource Analysis.ofText
  cases hlex : Token.lex text with
  | error e =>
    cases e with
    | numeralTooLong => exact ⟨rfl, rfl, .inl ⟨rfl, rfl⟩⟩
    | _ => exact ⟨rfl, rfl, .inr ⟨rfl, herror _ _⟩⟩
  | ok tokens =>
    cases hp : Program.ofTokens tokens with
    | error e =>
      dsimp only
      rw [hp]
      exact ⟨rfl, rfl, .inr ⟨rfl, herror _ _⟩⟩
    | ok p => exact absurd hp (h tokens hlex p)

/-- A text that is accepted has been read as a program. -/
theorem Accepts.read (h : Accepts text file a) : ∃ tokens p, Token.lex text = .ok tokens ∧
    Program.ofTokens tokens = .ok p ∧ a = (readFrom file p).complete.result := by
  by_contra hnone
  have hunread : ∀ tokens, Token.lex text = .ok tokens → ∀ p, Program.ofTokens tokens ≠ .ok p := by
    intro tokens hlex p hp
    exact hnone ⟨tokens, p, hlex, hp, h.result ▸ (ofSource_program file hlex hp).1⟩
  rcases (ofSource_unreadable file hunread).2.2 with ⟨hfault, -⟩ | ⟨-, herrors⟩
  · simp [h.returns] at hfault
  · simp [h.result, h.quiet] at herrors

theorem Accepts.analysed (h : Accepts text file a)
    (hlit : ∀ tokens, Token.lex text = .ok tokens → Grammar.TokensOk lit tokens) :
    ∃ p globals, Analysed lit a p globals := by
  obtain ⟨tokens, p, hlex, hp, ha⟩ := h.read
  have hraw := Grammar.raw_of_tokens (hlit tokens hlex) hp
  have hquiet := (quiet_iff a).mpr h.quiet
  have hread : (readFrom file p).program = some _ := rfl
  rw [ha] at hquiet ⊢
  exact (completes hread hraw rfl).analysed hquiet

/-- The tokens of a text without line breaks in its literals fit their kinds. -/
theorem tokenOk_of_plain (hplain : PlainLiterals text) :
    ∀ tokens, Token.lex text = .ok tokens → Grammar.TokensOk OneLine tokens := by
  intro tokens hlex
  refine ⟨fun t ht => ?_, (Grammar.tokens_ok hlex).marked⟩
  have hok := (Grammar.tokens_ok hlex).each t ht
  simp only [PlainLiterals, hlex] at hplain
  have hunbroken := hplain t ht
  unfold Grammar.TokenOk at hok ⊢
  split <;> simp_all [OneLine]

/-- An accepted text whose literals are plain has code that the machine loads. -/
theorem Accepts.loadable (h : Accepts text file a) (hplain : PlainLiterals text) {comments : Bool}
    {asm : String} (hasm : (a.assembly comments).result = some asm) : ∃ p globals,
    Loadable OneLine a p globals ∧ asm = render comments (linesOf (codeOf a p)) := by
  obtain ⟨p, globals, hanalysed⟩ := h.analysed (tokenOk_of_plain hplain)
  cases hlower : a.lower with
  | error fault => simp [Analysis.assembly, hlower] at hasm
  | ok lines =>
    obtain ⟨hwritable, rfl⟩ := writable_of_lower hanalysed h.quiet hlower
    refine ⟨p, globals, ⟨hanalysed, fun hlit => hlit, hwritable⟩, ?_⟩
    simpa [Analysis.assembly, hlower] using hasm.symm

end Reading

section Running

variable {image : Image} {s t : State} {steps n : Nat} {P : Moment → Prop} {m m' : Moment}

/-- The stack is above the data, also if the next instruction makes it grow. -/
def Above (image : Image) (s : State) : Prop := image.dataNext ≤ lowest image s + 4

instance : Decidable (Above image s) := inferInstanceAs (Decidable (_ ≤ _))

def StaysAbove (image : Image) : Nat → State → Prop
  | 0, _ => True
  | steps + 1, s => Above image s ∧ ∀ t, step image s = .ok false t → StaysAbove image steps t

instance decidableStaysAbove (image : Image) :
    (steps : Nat) → (s : State) → Decidable (StaysAbove image steps s)
  | 0, _ => isTrue trivial
  | steps + 1, s =>
    match h : step image s with
    | .ok false t =>
      have := decidableStaysAbove image steps t
      decidable_of_iff (Above image s ∧ StaysAbove image steps t) (by simp [StaysAbove, h])
    | .ok true _ | .error _ _ => decidable_of_iff (Above image s) (by simp [StaysAbove, h])

def startAt (image : Image) (inputs : List Int) (pc : Nat) : State :=
  { initial image inputs with pc := pc }

/-- The stack of a program that is loaded and run stays above its data for some steps. -/
def StackClear (asm : String) (inputs : List Int) (steps : Nat) : Prop :=
  ∀ pc ∈ (load asm).1.textLabels["main"]?,
    StaysAbove (load asm).1 steps (startAt (load asm).1 inputs pc)

theorem StaysAbove.above (h : StaysAbove image steps m.state) (hpath : Path image P m n m')
    (hn : n < steps) : Above image m'.state := by
  induction hpath generalizing steps with
  | refl m =>
    cases steps with
    | zero => omega
    | succ steps => exact h.1
  | step here next rest ih =>
    cases steps with
    | zero => omega
    | succ steps => exact ih (h.2 _ next.1) (by omega)

/-- If the stack stays above the data until the machine stops, it always does. -/
theorem StaysAbove.forever (h : StaysAbove image steps s)
    (hends : (runFrom image steps s).error ≠ some .stepLimit) : ∀ n, StaysAbove image n s := by
  induction steps generalizing s with
  | zero => exact absurd rfl hends
  | succ steps ih =>
    intro n
    cases n with
    | zero => trivial
    | succ n =>
      refine ⟨h.1, fun t ht => ih (h.2 t ht) ?_ n⟩
      rwa [runFrom, ht] at hends

/-- The instructions of a program can be numbered by the words of the machine. -/
def Numbered (image : Image) : Prop := image.text.size < 2 ^ 31

theorem clear_of_above (hnumbered : Numbered image) (h : Above image s) : Clear image s := by
  refine ⟨h, fun hopened => ?_⟩
  unfold opened at hopened
  split at hopened
  · rename_i i hi
    unfold Image.fetch? at hi
    split at hi
    · rename_i n hpc
      have hlt := (Array.getElem?_eq_some_iff.mp hi).1
      have hsize : image.text.size < 2 ^ 31 := hnumbered
      simp only [hpc]
      show ((n : Int) + 1) < 2 ^ 31
      omega
    · simp at hi
  · simp at hopened

/-- The steps of a path are steps of a run. -/
theorem runFrom_path (hpath : Path image P m n m') (k : Nat) :
    runFrom image (n + k) m.state = runFrom image k m'.state := by
  induction hpath with
  | refl m => rw [Nat.zero_add]
  | step here next rest ih => rw [Nat.add_right_comm, runFrom, next.1]; exact ih

/-- A run has not ended as long as there is a path. -/
theorem runFrom_short (hpath : Path image P m n m') (hle : steps ≤ n) :
    (runFrom image steps m.state).error = some .stepLimit := by
  induction hpath generalizing steps with
  | refl m =>
    obtain rfl : steps = 0 := by omega
    rfl
  | step here next rest ih =>
    cases steps with
    | zero => rfl
    | succ steps => rw [runFrom, next.1]; exact ih (by omega)

/-- A run with enough steps ends where the machine stops. -/
theorem runFrom_stops {error : Option Error} {output : String} (hpath : Path image P m n m')
    (hstops : StopsAt image m' error output) (hn : n < steps) :
    (runFrom image steps m.state).error = error ∧
      (runFrom image steps m.state).state.output = output := by
  obtain ⟨k, rfl⟩ := Nat.exists_eq_add_of_lt hn
  rw [Nat.add_assoc, runFrom_path hpath]
  obtain ⟨t, houtput, hstep⟩ := hstops
  cases error with
  | none => simp [runFrom, hstep, houtput]
  | some e => simp [runFrom, hstep, houtput]

end Running

/-- The end of the machine that goes with the end of a program. A program that has not ended makes
the machine use up its steps. -/
def errorOf : Halt → Option Error
  | .finished => none
  | .divisionByZero => some .divisionByZero
  | .inputExhausted => some .inputExhausted
  | .undefined | .outOfFuel => some .stepLimit

/-- The first function does not return. -/
theorem call_main_ne_ok (p : Program) (fuel : Nat) (args : List Word) (w w' : Store)
    (v : Option Word) : Reference.call p fuel "main" args w ≠ .ok v w' := by
  intro h
  cases fuel with
  | zero => cases h
  | succ fuel =>
    rw [Reference.call] at h
    cases hmain : Reference.function? p "main" with
    | none => rw [hmain] at h; cases h
    | some d =>
      simp only [hmain] at h
      rw [evalM_bind_eq] at h
      change (do
        modify fun world => { world with locals := Reference.parameters (Reference.names d.formals) args }
        let _ ← Reference.stmts fuel (Reference.call p fuel)
          [Reference.names (d.formals ++ d.body.decls)] d.body.stmts
        throw .finished : Reference.EvalM (Option Word)) w = _ at h
      rw [evalM_bind_eq] at h
      change (do
        let _ ← Reference.stmts fuel (Reference.call p fuel)
          [Reference.names (d.formals ++ d.body.decls)] d.body.stmts
        throw .finished : Reference.EvalM (Option Word)) _ = _ at h
      rw [evalM_bind_eq] at h
      split at h <;> cases h

namespace Loadable

variable {a : Analysis} {p : Program} {globals : Scope} {lit : String → Prop} {comments : Bool}

/-- All that is known of the machine when it starts. -/
theorem starts (image : Image) (inputs : List Int) (pc : Nat) :
    (startAt image inputs pc).reg "$sp" = stackTop ∧ (startAt image inputs pc).reg "$fp" = stackTop ∧
    (startAt image inputs pc).reg "$ra" = 0 ∧ (startAt image inputs pc).inputs = inputs ∧
    (startAt image inputs pc).output = "" ∧
    ∀ b, (startAt image inputs pc).load b = image.memory.getD b 0 := by
  have hmoved : startAt image inputs pc = (initial image inputs).moveTo pc := rfl
  have htop : wrap stackTop = stackTop := by decide
  refine ⟨?_, ?_, ?_, ?_, ?_, fun b => ?_⟩
  · simp [hmoved, initial, htop]
  · simp [hmoved, initial, htop]
  · simp [hmoved, initial]
    simp [State.reg]
  · simp [hmoved, initial]
  · simp [hmoved, initial]
  · simp [hmoved, initial]
    simp [State.load]

/-- The machine enters the first function when it starts. -/
theorem entered {pre : List Decl} {pc : Nat} (inputs : List Int)
    (hpc : (pc : Int) = (loadedOf comments lit a p globals).start pre)
    (habove : Above (imageOf comments a p) (startAt (imageOf comments a p) inputs pc)) :
    (loadedOf comments lit a p globals).Entered pre [] { inputs }
      (startAt (imageOf comments a p) inputs pc) := by
  obtain ⟨hsp, hfp, hra, hinputs, houtput, hload⟩ := starts (imageOf comments a p) inputs pc
  refine ⟨hpc, ?_, ?_, ?_, ?_, fun k hk => absurd hk (Nat.not_lt_zero k), ?_⟩
  · have hlowest := lowest_le (imageOf comments a p) (startAt (imageOf comments a p) inputs pc)
    have hdata : (imageOf comments a p).dataNext ≤ _ := habove
    show (imageOf comments a p).dataNext ≤ _
    omega
  · exact Int.le_of_eq hsp
  · rw [hra]
    decide
  · rw [hfp]
    decide
  · refine ⟨fun {x path b} hx => ?_, fun _ hnone => ?_, hinputs, houtput⟩
    · rw [hload, Loadable.blank comments a p]
      rfl
    · simp at hnone

/-- The machine that has loaded the code of a program follows the program from its start on, along
moments at which something holds that holds in all code of functions. -/
theorem follows (h : Loadable lit a p globals) (comments : Bool) (inputs : List Int) : ∃ pc,
    (imageOf comments a p).textLabels["main"]? = some pc ∧
    (Above (imageOf comments a p) (startAt (imageOf comments a p) inputs pc) →
      ∀ {P}, (loadedOf comments lit a p globals).Covers 0 P → ∀ fuel,
        Meets (imageOf comments a p) fuel P ⟨0, startAt (imageOf comments a p) inputs pc⟩
          { inputs } (Reference.call p fuel "main" []) fun _ _ _ => True) := by
  obtain ⟨pre, d, f, visible, frame, hstands, hname, hparams, hmain⟩ := h.main comments
  obtain ⟨pc, hlabel, hpc⟩ := hstands.parts.1
  rw [hname] at hlabel
  refine ⟨pc, hlabel, fun habove P hcovers fuel => ?_⟩
  have hcalls := Loaded.calls (h.sound comments) fuel hcovers hstands (by rw [hname]; exact hmain)
    (by rw [hparams]; rfl) (entered inputs hpc habove)
  rw [hname] at hcalls
  exact hcalls.mono fun _ _ _ _ => trivial

end Loadable

section Programs

variable {text file : String} {a : Analysis} {p : Program} {asm : String} {comments : Bool}
  {inputs : List Int} {steps : Nat}

/-- A machine that has loaded the code of an accepted text: the image, where it starts, and that it
follows the program. -/
structure Started (asm : String) (p : Program) (inputs : List Int) (pc : Nat) : Prop where
  loads : (load asm).2 = none
  label : (load asm).1.textLabels["main"]? = some pc
  follows : Above (load asm).1 (startAt (load asm).1 inputs pc) → ∀ fuel,
    Meets (load asm).1 fuel (fun _ => True) ⟨0, startAt (load asm).1 inputs pc⟩ { inputs }
      (Reference.call p fuel "main" []) fun _ _ _ => True

/-- The code of an accepted text is loaded as it was made. -/
theorem Accepts.load_eq (h : Accepts text file a) (hplain : PlainLiterals text)
    (hp : a.program = some p) (hasm : (a.assembly comments).result = some asm) :
    load asm = (imageOf comments a p, none) := by
  obtain ⟨q, globals, hloadable, rfl⟩ := h.loadable hplain hasm
  obtain rfl : p = q := by simpa [hp] using hloadable.analysed.program
  exact hloadable.load_eq comments

theorem Accepts.started (h : Accepts text file a) (hplain : PlainLiterals text)
    (hp : a.program = some p) (hasm : (a.assembly comments).result = some asm) (inputs : List Int) :
    ∃ pc, Started asm p inputs pc := by
  obtain ⟨q, globals, hloadable, rfl⟩ := h.loadable hplain hasm
  obtain rfl : p = q := by simpa [hp] using hloadable.analysed.program
  have hload := hloadable.load_eq comments
  obtain ⟨pc, hlabel, hfollows⟩ := hloadable.follows comments inputs
  refine ⟨pc, by rw [hload], by rw [hload]; exact hlabel, ?_⟩
  rw [hload]
  exact fun habove => hfollows habove fun _ _ _ _ => trivial

theorem Started.simulate_eq {pc : Nat} (h : Started asm p inputs pc) (steps : Nat) :
    (simulate asm inputs steps).2 = runFrom (load asm).1 steps (startAt (load asm).1 inputs pc) := by
  obtain ⟨hloads, hlabel, -⟩ := h
  simp only [simulate]
  split
  · rename_i image e hload
    rw [hload] at hloads
    simp at hloads
  · rename_i image hload
    rw [hload] at hlabel ⊢
    simp only [run, hlabel]
    rfl

/-- A machine that follows a program comes to the end of the program, or its stack reaches the
data. -/
theorem Started.ends {pc : Nat} (h : Started asm p inputs pc)
    (habove : Above (load asm).1 (startAt (load asm).1 inputs pc)) (fuel : Nat) :
    ∃ n m', Path (load asm).1 (fun _ => True) ⟨0, startAt (load asm).1 inputs pc⟩ n m' ∧
      (¬ Clear (load asm).1 m'.state ∨ ∃ drawn halt world,
        Settles (Reference.call p fuel "main" []) { inputs } drawn (.error halt world) ∧
        (halt = .outOfFuel ∧ fuel ≤ n ∨ halt ≠ .outOfFuel ∧ halt ≠ .undefined ∧
          StopsAt (load asm).1 m' (errorOf halt) world.output)) := by
  rcases h.follows habove fuel with
    ⟨n, m', hpath, -, hoverflow⟩ | ⟨drawn, r, hsettles, hfollows⟩
  · exact ⟨n, m', hpath, .inl hoverflow⟩
  cases r with
  | ok v world => exact absurd (hsettles.draws []) (call_main_ne_ok _ _ _ _ _ _)
  | error halt world =>
    cases halt with
    | undefined => exact hfollows.elim
    | outOfFuel =>
      obtain ⟨n, m', hn, hpath⟩ := hfollows
      exact ⟨n, m', hpath, .inr ⟨drawn, _, world, hsettles, .inl ⟨rfl, hn⟩⟩⟩
    | finished | divisionByZero | inputExhausted =>
      obtain ⟨n, m', hpath, -, hstops⟩ := hfollows
      exact ⟨n, m', hpath, .inr ⟨drawn, _, world, hsettles, .inr ⟨by decide, by decide, hstops⟩⟩⟩

/-- The meaning of a program that comes to a defined end is the one that the machine follows. -/
theorem run_of_settles {fuel : Nat} {drawn : List Word} {halt : Halt} {world : Store}
    (h : Settles (Reference.call p fuel "main" []) { inputs } drawn (.error halt world))
    (hdefined : (Reference.run p inputs fuel).1 ≠ .undefined) :
    Reference.run p inputs fuel = (halt, world.output) := by
  obtain rfl : drawn = [] := by
    refine h.strict fun world' hundefined => hdefined ?_
    simp only [Reference.run]
    rw [show Reference.call p fuel "main" [] { inputs } = _ from hundefined]
  have hcall : Reference.call p fuel "main" [] { inputs } = _ := h.draws []
  simp [Reference.run, hcall, leaving]

/-- An accepted program that comes to a defined end makes the machine write the same text and stop in
the same way, with any number of steps from some number on. If the program has no end, the machine
uses up its steps. -/
theorem compiled_program_runs_as_meant (haccepts : Accepts text file a) (hplain : PlainLiterals text)
    (hp : a.program = some p) (hasm : (a.assembly comments).result = some asm)
    (hnumbered : Numbered (load asm).1) (hclear : ∀ steps, StackClear asm inputs steps) :
    (∀ fuel halt output, Reference.run p inputs fuel = (halt, output) → halt ≠ .undefined →
      halt ≠ .outOfFuel → ∃ n, ∀ steps, n ≤ steps →
        (simulate asm inputs steps).2.error = errorOf halt ∧
        (simulate asm inputs steps).2.state.output = output) ∧
    ((∀ fuel, (Reference.run p inputs fuel).1 = .outOfFuel) → ∀ steps,
      (simulate asm inputs steps).2.error = some .stepLimit) := by
  obtain ⟨pc, hstarted⟩ := haccepts.started hplain hp hasm inputs
  have hstays : ∀ steps, StaysAbove (load asm).1 steps (startAt (load asm).1 inputs pc) :=
    fun steps => hclear steps pc hstarted.label
  have hpaths : ∀ {n m'}, Path (load asm).1 (fun _ => True) ⟨0, startAt (load asm).1 inputs pc⟩ n m' →
      Clear (load asm).1 m'.state :=
    fun {n _} hpath => clear_of_above hnumbered ((hstays (n + 1)).above hpath (Nat.lt_succ_self n))
  simp only [hstarted.simulate_eq]
  refine ⟨fun fuel halt output hrun hdefined hends => ?_, fun hruns steps => ?_⟩
  · obtain ⟨n, m', hpath, hoverflow | ⟨drawn, halt', world, hsettles, hend⟩⟩ :=
      hstarted.ends (hstays 1).1 fuel
    · exact absurd (hpaths hpath) hoverflow
    have hsame := run_of_settles hsettles (by rw [hrun]; exact hdefined)
    obtain ⟨rfl, rfl⟩ : halt = halt' ∧ output = world.output := by simpa [hrun] using hsame
    rcases hend with ⟨hfuel, -⟩ | ⟨-, -, hstops⟩
    · exact absurd hfuel hends
    · exact ⟨n + 1, fun steps hsteps => runFrom_stops hpath hstops hsteps⟩
  · obtain ⟨n, m', hpath, hoverflow | ⟨drawn, halt, world, hsettles, hend⟩⟩ :=
      hstarted.ends (hstays 1).1 steps
    · exact absurd (hpaths hpath) hoverflow
    have hsame := run_of_settles hsettles (by simp [hruns])
    obtain rfl : halt = .outOfFuel := by simpa [hsame] using hruns steps
    rcases hend with ⟨-, hn⟩ | ⟨hfuel, -⟩
    · exact runFrom_short hpath hn
    · exact absurd rfl hfuel

/-- The machine that runs an accepted program stops at its end, for a division by zero, for lack of
input or of steps, and for no other reason. -/
theorem compiled_program_never_goes_wrong (haccepts : Accepts text file a)
    (hplain : PlainLiterals text) (hasm : (a.assembly comments).result = some asm)
    (hnumbered : Numbered (load asm).1) (hclear : StackClear asm inputs steps) :
    (load asm).2 = none ∧ (simulate asm inputs steps).2.error ∈
      [none, some .divisionByZero, some .inputExhausted, some .stepLimit] := by
  obtain ⟨q, globals, hanalysed⟩ := haccepts.analysed (tokenOk_of_plain hplain)
  obtain ⟨pc, hstarted⟩ := haccepts.started hplain hanalysed.program hasm inputs
  refine ⟨hstarted.loads, ?_⟩
  rw [hstarted.simulate_eq]
  have hstays := hclear pc hstarted.label
  cases steps with
  | zero => simp [runFrom]
  | succ steps =>
    obtain ⟨n, m', hpath, hend⟩ := hstarted.ends hstays.1 (steps + 1)
    -- a path that is too short for the steps ends where the program does
    by_cases hn : steps + 1 ≤ n
    · simp [runFrom_short hpath hn]
    have hclear := clear_of_above hnumbered (hstays.above hpath (by omega))
    rcases hend with hoverflow | ⟨drawn, halt, world, -, ⟨-, hfuel⟩ | ⟨hends, hdefined, hstops⟩⟩
    · exact absurd hclear hoverflow
    · omega
    · rw [(runFrom_stops hpath hstops (by omega)).1]
      cases halt <;> simp_all [errorOf]

end Programs

section Sample

def sample : String :=
  "int f(int n){return n+n;} void main(){int x; cin>>x; cout<<f(x);}"

def sampleAnalysis : Analysis := (Analysis.ofSource sample "main.cmm").result

def sampleProgram : Program := sampleAnalysis.program.get (by decide +kernel)

def sampleCode : String := (sampleAnalysis.assembly false).result.get (by decide +kernel)

theorem sample_program : sampleAnalysis.program = some sampleProgram := (Option.some_get _).symm

/-- The analysis of the sample, its literals, and its meaning where the input is 21. -/
theorem sample_evaluated : (Analysis.ofSource sample "main.cmm").fault = none ∧ sampleAnalysis.hasErrors = false ∧
    PlainLiterals sample ∧ sampleProgram.decls.any Typing.isMain ∧
    Reference.run sampleProgram [21] 3 = (.finished, "42") := by
  decide +kernel

theorem sample_main : ∃ d, .fn d ∈ sampleProgram.decls ∧ d.name.name = "main" := by
  obtain ⟨-, -, -, hstarts, -⟩ := sample_evaluated
  obtain ⟨e, he, hmain⟩ := List.any_eq_true.mp hstarts
  cases e with
  | fn d =>
    simp only [Typing.isMain, Bool.and_eq_true, beq_iff_eq] at hmain
    exact ⟨d, he, hmain.1.1⟩
  | _ => simp [Typing.isMain] at hmain

theorem sample_code : (sampleAnalysis.assembly false).result = some sampleCode :=
  (Option.some_get _).symm

theorem sample_accepts : Accepts sample "main.cmm" sampleAnalysis where
  returns := sample_evaluated.1
  result := rfl
  quiet := sample_evaluated.2.1

theorem sample_plain : PlainLiterals sample := sample_evaluated.2.2.1

theorem sample_loads : load sampleCode = (imageOf false sampleAnalysis sampleProgram, none) :=
  sample_accepts.load_eq sample_plain sample_program sample_code

/-- The code of the sample is short, and stays off its own data where it runs on 21. -/
theorem sample_executed : (imageOf false sampleAnalysis sampleProgram).text.size < 2 ^ 31 ∧
    ∀ pc ∈ (imageOf false sampleAnalysis sampleProgram).textLabels["main"]?,
      StaysAbove (imageOf false sampleAnalysis sampleProgram) 80
        (startAt (imageOf false sampleAnalysis sampleProgram) [21] pc) ∧
      (runFrom (imageOf false sampleAnalysis sampleProgram) 80
        (startAt (imageOf false sampleAnalysis sampleProgram) [21] pc)).error ≠ some .stepLimit := by
  decide +kernel

theorem sample_numbered : Numbered (load sampleCode).1 := by
  rw [sample_loads]
  exact sample_executed.1

theorem sample_clear : ∀ steps, StackClear sampleCode [21] steps := by
  unfold StackClear
  rw [sample_loads]
  intro steps pc hpc
  obtain ⟨habove, hstops⟩ := sample_executed.2 pc hpc
  exact habove.forever hstops steps

theorem sample_runs_as_meant : ∃ n, ∀ steps, n ≤ steps →
    (simulate sampleCode [21] steps).2.error = none ∧
    (simulate sampleCode [21] steps).2.state.output = "42" :=
  (compiled_program_runs_as_meant sample_accepts sample_plain sample_program sample_code
    sample_numbered sample_clear).1 3 .finished "42" sample_evaluated.2.2.2.2 (by decide) (by decide)

theorem sample_never_goes_wrong : (load sampleCode).2 = none ∧
    (simulate sampleCode [21] 50).2.error ∈
      [none, some .divisionByZero, some .inputExhausted, some .stepLimit] :=
  compiled_program_never_goes_wrong sample_accepts sample_plain sample_code
    sample_numbered (sample_clear 50)

end Sample

end CMinusMinus.Proofs
