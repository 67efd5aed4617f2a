import CMinusMinus.Proofs.Blocks

/-!
Calls. A function saves the return address and the frame pointer of its caller, makes room for its
variables and copies its arguments; at its end it goes back to the caller with the stack as it was.
So a call does what it means, by induction on the fuel, and changes no word of the stack above its
arguments.
-/
namespace CMinusMinus.Proofs

open Assembly Machine WellFormed
open Reference (EvalM Store Word Value Scopes Flow)

def Stored (arena : Arena) (fp : Int) (s : State) : Scope → List Word → Prop
  | [], [] => True
  | (_, i) :: scope, arg :: args =>
    (∃ n, wordAt? arena i [] = some n ∧ Int32.ofInt (s.load (fp - n)) = arg) ∧
      Stored arena fp s scope args
  | _, _ => False

/-- A state after arguments have been copied into the slots of parameters. -/
structure Copied (arena : Arena) (fp : Int) (scope : Scope) (args : List Word) (s t : State) :
    Prop where
  stored : Stored arena fp t scope args
  sp : t.reg "$sp" = s.reg "$sp"
  load : ∀ a, (∀ i ∈ scope.map Prod.snd, wordAt? arena i [] ≠ some (fp - a)) → t.load a = s.load a
  inputs : t.inputs = s.inputs
  output : t.output = s.output

section Arguments

variable {A : Activation} {image : Image} {env : Lowering.Env} {fuel : Nat} {α : Type} {x : EvalM α}
  {Q : α → Store → Moment → Prop}

/-- The code that copies arguments into the slots of parameters. -/
theorem copyArguments (hA : A.Sound image) (harena : ArenaOk env.arena) : (formals : List VarDecl) →
    ∀ {scope : Scope} {args : List Word} {s : State} {w : Store},
      Declares (shape env.arena) formals scope → args.length = formals.length →
      Separate env.arena A.frame (scope.map Prod.snd) →
      (∀ i ∈ scope.map Prod.snd, ∀ v, env.arena.get? i = some (.var v) → v.structDef = none) →
      A.In image s → CodeAt image s.pc (Code.copyArguments env formals) → A.lo ≤ s.pc →
      s.pc + Code.width (Code.copyArguments env formals) ≤ A.hi →
      (∀ k (h : k < args.length),
        Int32.ofInt (s.load (A.fp + 4 * (args.length - k))) = args[k]) →
      (∀ t, t.pc = s.pc + Code.width (Code.copyArguments env formals) → A.In image t →
        Copied env.arena A.fp scope args s t → Meets image fuel A.P ⟨A.depth, t⟩ w x Q) →
      Meets image fuel A.P ⟨A.depth, s⟩ w x Q
  | [], scope, args, s, w, hdeclares, hlength, _, _, hs, _, _, _, _, hrest => by
    obtain rfl : scope = [] := hdeclares
    obtain rfl : args = [] := by simpa using hlength
    exact hrest s (by simp [Code.copyArguments]) hs ⟨trivial, rfl, fun _ _ => rfl, rfl, rfl⟩
  | d :: ds, scope, args, s, w, hdeclares, hlength, hseparate, hscalar, hs, hcode, hlo, hhi, hargs,
      hrest => by
    obtain ⟨i, rest, rfl, hbinding, ⟨v', hv', -⟩, hdeclares⟩ := hdeclares
    obtain ⟨v, hv, -⟩ := shape_var hv'
    obtain ⟨arg, args, rfl⟩ : ∃ arg args', args = arg :: args' := by
      cases args with
      | nil => simp at hlength
      | cons arg args => exact ⟨arg, args, rfl⟩
    have hlength' : args.length = ds.length := by simpa using hlength
    rw [List.map_cons] at hseparate hscalar
    have hword : wordAt? env.arena i [] = some v.offset := by
      simp [wordAt?, hv, fieldAt?, hscalar i (by simp) v hv]
    have hslot := hseparate.inFrame i (by simp)
    rw [hv] at hslot
    obtain ⟨_, hslot, -, hlow, hhigh⟩ := hslot
    obtain rfl := Symbol.var.inj (Option.some.inj hslot)
    have hcodes : Code.copyArguments env (d :: ds) =
        .op (.lw .t0 (.indexed (wordSize * (ds.length + 1)) .fp)) ("ARG " ++ v.name) ::
          .op (.sw .t0 (.indexed (-v.offset) .fp)) :: Code.copyArguments env ds := by
      rw [Code.copyArguments, variableOf_eq hbinding hv]
    have hwidth := Code.width_nonneg (Code.copyArguments env ds)
    rw [hcodes] at hcode hhi hrest
    simp only [codeAt_cons, Code.width_cons, Code.width_op] at hcode hhi hrest
    obtain ⟨hload, hstore, hcode⟩ := hcode
    refine Activation.set hA hs hload hlo (by omega) (r := "$t0")
      (v := s.load (A.fp + 4 * (ds.length + 1))) ?_ rfl (by decide) fun t hpc hset => ?_
    · simp [effect, withPlace, locate?, Reg.t0, Reg.fp, hs.fp, wordSize]
    have ht := hs.sets hset (by decide) (by decide)
    have hvalue : Int32.ofInt (t.reg "$t0") = arg := by
      have hfirst := hargs 0 (by simp)
      simp only [List.length_cons, hlength', List.getElem_cons_zero] at hfirst
      rw [hset.reg, wrap_eq, Int32.ofInt_toInt, ← hfirst]
      simp
    refine Meets.exec_plain (t := t.next.store (A.fp - v.offset) (t.reg "$t0")) (hpc ▸ hstore) rfl
      (hA.holds t (by omega) (by omega) ht.fp ht.sp) ?_ ?_
    · simp [effect, withPlace, locate?, Reg.t0, Reg.fp, ht.fp, Int.sub_eq_add_neg]
    have hpairs := hseparate.apart
    rw [List.pairwise_cons] at hpairs
    refine copyArguments hA harena ds hdeclares hlength'
      (hseparate.sublist (List.sublist_cons_self _ _))
      (fun j hj => hscalar j (List.mem_cons_of_mem _ hj)) ⟨ht.fp, ht.sp, ht.low⟩
      (by rw [State.pc_store, State.pc_next, hpc]; exact hcode) (by simp; omega) (by simp; omega)
      ?_ fun u hpcu hu hcopied => ?_
    · intro k hk
      have hnext := hargs (k + 1) (by simpa using hk)
      simp only [List.length_cons, List.getElem_cons_succ] at hnext
      rw [State.load_store, if_neg (by omega), State.load_next, hset.load, ← hnext]
      congr 3
      omega
    · refine hrest u (by simp at hpcu; omega) hu ⟨⟨⟨v.offset, hword, ?_⟩, hcopied.stored⟩, ?_, ?_, ?_, ?_⟩
      · rw [hcopied.load _ fun j hj => ?_, State.load_store, if_pos rfl, hvalue]
        rw [show A.fp - (A.fp - v.offset) = v.offset by omega]
        exact (hpairs.1 j hj).wordAt?_ne harena hword
      · rw [hcopied.sp, State.reg_store, State.reg_next, hset.other _ (by decide)]
      · intro a ha
        have hne : A.fp - v.offset ≠ a := by
          rintro rfl
          exact ha i (by simp) (by rw [hword]; congr 1; omega)
        rw [hcopied.load a fun j hj => ha j (List.mem_cons_of_mem _ hj), State.load_store,
          if_neg hne, State.load_next, hset.load]
      · rw [hcopied.inputs, State.inputs_store, State.inputs_next, hset.inputs]
      · rw [hcopied.output, State.output_store, State.output_next, hset.output]

end Arguments

theorem Stored.lookup {arena : Arena} {fp : Int} {s : State} {x : String} {word : Word} {i : Int}
    {rest : Scope} : ∀ {scope : Scope} {args : List Word}, Stored arena fp s scope args →
      ((scope.map Prod.fst).zip args).lookup x = some word → (scope ++ rest).lookup x = some i →
      ∃ n, wordAt? arena i [] = some n ∧ Int32.ofInt (s.load (fp - n)) = word
  | [], _, _, hword, _ => by simp at hword
  | (y, j) :: scope, [], h, _, _ => h.elim
  | (y, j) :: scope, arg :: args, h, hword, hi => by
    simp only [List.map_cons, List.zip_cons_cons, List.cons_append, List.lookup_cons] at hword hi
    by_cases hxy : x = y
    · simp only [hxy, beq_self_eq_true, Option.some.injEq] at hword hi
      obtain ⟨n, hn, harg⟩ := h.1
      exact ⟨n, hi ▸ hn, harg.trans hword⟩
    · have hne : (x == y) = false := by simpa using hxy
      rw [hne] at hword hi
      exact h.2.lookup hword hi

/-- Parameters are no structs. -/
theorem scalar_of_formals {arena : Arena} (hσ : SymbolsOk (shape arena)) :
    ∀ {ds : List VarDecl} {ts : List Ty} {scope : Scope}, Formals (shape arena) ds ts →
      Declares (shape arena) ds scope → (∀ t ∈ ts, IsScalar t) →
      ∀ i ∈ scope.map Prod.snd, ∀ v, arena.get? i = some (.var v) → v.structDef = none
  | [], _, _, _, rfl, _, i, hi => by simp at hi
  | d :: ds, _, _, ⟨t, ts, i, v, rfl, hbinding, hv, hty, _, hformals⟩,
      ⟨j, rest, rfl, hbinding', _, hdeclares⟩, hscalar, k, hk => by
    rw [List.map_cons, List.mem_cons] at hk
    rcases hk with hk | hk
    · obtain rfl : i = j := by simpa [hbinding] using hbinding'
      obtain rfl : k = i := hk
      intro u hu
      have hok : SymbolOk (shape arena) (.var v) := hσ k _ hv
      obtain ⟨u', hu', rfl⟩ := shape_var hv
      obtain rfl : u' = u := by simpa [hu'] using hu
      have ht : IsScalar u'.ty := hty ▸ hscalar t (by simp)
      rcases hok.2 with ⟨-, hnone⟩ | ⟨name, j, s, hstruct, -⟩
      · exact hnone
      · have hstruct : u'.ty = .struct name := hstruct
        simp [IsScalar, hstruct] at ht
    · exact scalar_of_formals hσ hformals hdeclares (fun t' ht' => hscalar t' (by simp [ht'])) k hk

theorem formals_length {σ : Symbols} : ∀ {ds : List VarDecl} {ts : List Ty}, Formals σ ds ts →
    ts.length = ds.length
  | [], _, rfl => rfl
  | d :: ds, _, ⟨t, ts, i, v, rfl, _, _, _, _, h⟩ => by simp [formals_length h]

theorem block_eq_stmts (env : Lowering.Env) (function : String) (b : Block) (c : Code.Counters) :
    Code.block env function b c = Code.stmts env function b.stmts c := by
  cases b
  rfl

/-- A program in the machine: what is loaded, what it was made from, and the names at its top. -/
structure Loaded where
  image : Image
  env : Lowering.Env
  lit : String → Prop
  program : Program
  globals : Scope

namespace Loaded

/-- The numbers of labels after some declarations at the start of a program. -/
def counters (before : List Decl) : Code.Counters := Code.declsAfter before fun _ => 0

/-- Where the code starts that comes after some declarations at the start of the program. -/
def start (X : Loaded) (before : List Decl) : Int :=
  Code.width (Code.decls X.env before fun _ => 0)

/-- Where the code of a function has made room for its variables. -/
def framed (X : Loaded) (before : List Decl) (frame : Int) : Int :=
  X.start before + Code.width (Code.prologue frame)

/-- Where the code of a function's body starts. -/
def body (X : Loaded) (before : List Decl) (d : FnDecl) (frame : Int) : Int :=
  X.framed before frame + Code.width (Code.copyArguments X.env d.formals)

def finish (X : Loaded) (before : List Decl) (d : FnDecl) (frame : Int) : Int :=
  X.body before d frame +
    Code.width (Code.block X.env d.name.name d.body (counters before))

/-- A function of the program stands in its place, after some other declarations. -/
structure Stands (X : Loaded) (before : List Decl) (d : FnDecl) (f : Function) (visible : Scope)
    (frame : Int) : Prop where
  position : ∃ after, X.program.decls = before ++ .fn d :: after
  seen : ∀ {x i}, visible.lookup x = some i → X.globals.lookup x = some i
  ok : FnOk X.lit (shape X.env.arena) visible d f
  params : ∀ t ∈ f.params, IsScalar t
  placed : CodeAt X.image (X.start before) (Code.function X.env d (counters before))
  recorded : X.env.frames.lookup d.name.name = some frame
  nonneg : 0 ≤ frame
  separate : Separate X.env.arena frame
    (declSlots (d.formals ++ d.body.decls) ++ stmtsSlots d.body.stmts)

/-- The machine is in the code of a function, and, from where it has made room for its variables to
the end of its body, below its frame. -/
def Within (X : Loaded) (s : State) : Prop :=
  ∃ before d f visible frame, X.Stands before d f visible frame ∧ X.start before ≤ s.pc ∧
    s.pc < X.finish before d frame + Code.width (Code.epilogue d.name.name) ∧
    (X.framed before frame ≤ s.pc → s.pc < X.finish before d frame →
      s.reg "$fp" ≤ stackTop ∧ s.reg "$sp" ≤ s.reg "$fp" - 8 - frame)

/-- What holds of a program in the machine, so that its calls can be followed. -/
structure Sound (X : Loaded) : Prop where
  arena : ArenaOk X.env.arena
  symbols : SymbolsOk (shape X.env.arena)
  data : dataBase ≤ X.image.dataNext
  labels : ∀ {name name' : String} {a : Int}, X.image.dataLabels[name]? = some a →
    X.image.dataLabels[name']? = some a → name = name'
  globals : GlobalsOk X.env.arena X.image X.globals
  functions : ∀ {name i f}, X.globals.lookup name = some i → X.env.arena.get? i = some (.func f) →
    ∃ before d visible frame, X.Stands before d f visible frame ∧ d.name.name = name ∧
      Reference.function? X.program name = some d

def layout (X : Loaded) : Layout := layoutOf X.env.arena X.image X.globals []

/-- A function is entered with arguments on the stack. -/
structure Entered (X : Loaded) (before : List Decl) (args : List Word) (w : Store) (s : State) :
    Prop where
  pc : s.pc = X.start before
  low : X.image.dataNext ≤ s.reg "$sp" + 4
  top : s.reg "$sp" ≤ stackTop
  ra : wrap (s.reg "$ra") = s.reg "$ra"
  fp : wrap (s.reg "$fp") = s.reg "$fp"
  args : ∀ k (h : k < args.length),
    Int32.ofInt (s.load (s.reg "$sp" + 4 * (args.length - k))) = args[k]
  agrees : Agrees X.layout 0 w s

/-- A function that was entered in a state has gone back to its caller. -/
structure Left (X : Loaded) (s : State) (w : Store) (v : Option Word) (w' : Store) (u : State) :
    Prop where
  pc : u.pc = s.reg "$ra"
  sp : u.reg "$sp" = s.reg "$sp"
  fp : u.reg "$fp" = s.reg "$fp"
  result : ∀ word, v = some word → u.reg "$v0" = word.toInt
  agrees : Agrees X.layout 0 w' u
  locals : w'.locals = w.locals
  same : ∀ a, s.reg "$sp" < a → X.image.dataNext ≤ a → u.load a = s.load a

/-- A state after the start of a function that was entered in another one: its variables have room
between the stack pointer and the words it has saved. -/
structure Prepared (X : Loaded) (frame : Int) (s t : State) : Prop where
  pc : t.pc = s.pc + Code.width (Code.prologue frame)
  fp : t.reg "$fp" = s.reg "$sp"
  sp : t.reg "$sp" = s.reg "$sp" - 8 - frame
  low : X.image.dataNext ≤ t.reg "$sp" + 4
  ra : t.load (s.reg "$sp") = s.reg "$ra"
  saved : t.load (s.reg "$sp" - 4) = s.reg "$fp"
  load : ∀ a, a ≠ s.reg "$sp" → a ≠ s.reg "$sp" - 4 → t.load a = s.load a
  inputs : t.inputs = s.inputs
  output : t.output = s.output

variable {X : Loaded} {before : List Decl} {d : FnDecl} {f : Function} {visible : Scope} {frame : Int}
  {s t u : State} {w : Store} {args : List Word} {fuel : Nat} {P : Moment → Prop} {depth : Int}
  {α : Type} {x : EvalM α} {Q : α → Store → Moment → Prop}

theorem width_entry (d : FnDecl) (frame : Int) : Code.width (Code.entry X.env d frame) =
    Code.width (Code.prologue frame) + Code.width (Code.copyArguments X.env d.formals) := by
  simp only [Code.entry, Code.width_cons, Code.width_append, Code.width_start, Code.width_label]
  omega

/-- The parts of a function's code, in their places. -/
theorem Stands.parts (h : X.Stands before d f visible frame) :
    ItemAt X.image (X.start before) (.label (functionLabel d.name.name)) ∧
    CodeAt X.image (X.start before) (Code.prologue frame) ∧
    CodeAt X.image (X.framed before frame) (Code.copyArguments X.env d.formals) ∧
    CodeAt X.image (X.body before d frame)
      (Code.block X.env d.name.name d.body (counters before)) ∧
    ItemAt X.image (X.finish before d frame) (.label (exitLabel d.name.name)) ∧
    CodeAt X.image (X.finish before d frame) (Code.epilogue d.name.name) := by
  have hplaced := h.placed
  rw [Code.function, h.recorded] at hplaced
  simp only [Option.getD_some, codeAt_append, codeAt_cons, width_entry, Code.width_label,
    Int.add_zero] at hplaced
  obtain ⟨hentry, hblock, hexit, hepilogue⟩ := hplaced
  simp only [Code.entry, codeAt_append, codeAt_cons, Code.width_start, Code.width_label,
    Int.add_zero] at hentry
  obtain ⟨-, hlabel, hprologue, hcopy⟩ := hentry
  simp only [finish, body, framed, Int.add_assoc] at *
  exact ⟨hlabel, hprologue, hcopy, hblock, hexit, hepilogue⟩

theorem Stands.body_placed (h : X.Stands before d f visible frame) :
    CodeAt X.image (X.body before d frame)
      (Code.stmts X.env d.name.name d.body.stmts (counters before)) := by
  rw [← block_eq_stmts]
  exact h.parts.2.2.2.1

theorem finish_eq (X : Loaded) (before : List Decl) (d : FnDecl) (frame : Int) :
    X.finish before d frame = X.body before d frame +
      Code.width (Code.stmts X.env d.name.name d.body.stmts (counters before)) := by
  rw [← block_eq_stmts]
  rfl

/-- The variables of a function, beside those of the blocks in it. -/
theorem Stands.body_slots (h : X.Stands before d f visible frame) {scope : Scope}
    (hscope : Declares (shape X.env.arena) (d.formals ++ d.body.decls) scope) :
    Separate X.env.arena frame (indicesOf [scope] ++ stmtsSlots d.body.stmts) := by
  have hslots := h.separate
  rw [declSlots_eq hscope] at hslots
  simpa [indicesOf] using hslots

/-- What holds wherever the machine is in the code of a function, in calls that are as deep or
deeper. -/
def Covers (X : Loaded) (depth : Int) (P : Moment → Prop) : Prop :=
  ∀ depth' s, depth ≤ depth' → X.Within s → P ⟨depth', s⟩

/-- Something holds in the code that a function starts with; from where there is room for its variables
on, below its frame. -/
def Starts (X : Loaded) (before : List Decl) (d : FnDecl) (frame depth : Int) (P : Moment → Prop) :
    Prop :=
  ∀ s : State, X.start before ≤ s.pc → s.pc < X.body before d frame →
    (X.framed before frame ≤ s.pc → s.reg "$fp" ≤ stackTop ∧
      s.reg "$sp" ≤ s.reg "$fp" - 8 - frame) → P ⟨depth, s⟩

theorem Covers.starts (hP : X.Covers depth P) (h : X.Stands before d f visible frame) :
    X.Starts before d frame depth P := by
  intro s hlo hhi hbelow
  have hbody := Code.width_nonneg (Code.block X.env d.name.name d.body (counters before))
  have hend := Code.width_nonneg (Code.epilogue d.name.name)
  refine hP depth s (Int.le_refl _) ⟨before, d, f, visible, frame, h, hlo, ?_, fun hframed _ =>
    hbelow hframed⟩
  simp only [finish]
  omega

theorem width_prologue (frame : Int) :
    Code.width (Code.prologue frame) = 5 + (if frame ≠ 0 then 1 else 0) := by
  rw [Code.prologue]
  split <;> simp

/-- The code that a function starts with, which takes a step at least. -/
theorem prologue (hX : X.Sound) (hP : X.Starts before d frame depth P)
    (h : X.Stands before d f visible frame)
    (hs : X.Entered before args w s)
    (hrest : ∀ t, X.Prepared frame s t → Meets X.image fuel P ⟨depth, t⟩ w x Q) :
    Meets X.image (fuel + 1) P ⟨depth, s⟩ w x Q := by
  have hcode := h.parts.2.1
  rw [← hs.pc, Code.prologue, codeAt_append, codeAt_append, codeAt_cons] at hcode
  obtain ⟨hra, hfp, hlink, hroom⟩ := hcode
  simp only [Code.width_push, Code.width_op] at hfp hlink hroom
  have hwidth := width_prologue frame
  -- before there is room for the variables, it is enough to be in the code of the function
  have hin : ∀ t : State, s.pc ≤ t.pc → t.pc < s.pc + Code.width (Code.prologue frame) →
      P ⟨depth, t⟩ := by
    intro t hlo hhi
    have hcopy := Code.width_nonneg (Code.copyArguments X.env d.formals)
    have hpc := hs.pc
    refine hP t (by omega) ?_ ?_
    · simp only [body, framed]; omega
    · simp only [framed]; omega
  have hlow := hs.low
  have htop := hs.top
  have hdata := hX.data
  refine Activation.meets_push (fun t hlo hhi _ _ => hin t hlo (by split at hwidth <;> omega)) hra
    hX.data htop fun t₁ hpc₁ hlow₁ hpush₁ => ?_
  have hsp₁ := hpush₁.sp
  refine Meets.less_fuel (Activation.meets_push (fun t hlo hhi _ _ => hin t (by omega) (by
    split at hwidth <;> omega)) (hpc₁ ▸ hfp) hX.data (by omega) fun t₂ hpc₂ hlow₂ hpush₂ => ?_)
    (Nat.le_succ _)
  have hsp₂ := hpush₂.sp
  have hfits : wrap (t₂.reg "$sp" + 8) = s.reg "$sp" := by
    rw [hsp₂, hsp₁]
    simp only [dataBase, stackTop] at *
    rw [wrap_of_fits (by omega) (by omega)]
    omega
  refine Activation.meets_set (r := "$fp") (v := t₂.reg "$sp" + 8) (hin t₂ (by omega) (by
    split at hwidth <;> omega)) (by rw [hpc₂, hpc₁]; exact hlink) ?_ rfl (by decide)
    fun t₃ hpc₃ hset₃ => ?_
  · simp [effect, calculate, operandOf, Reg.sp, Reg.fp, wordSize]
  have hsp₃ : t₃.reg "$sp" = s.reg "$sp" - 8 := by
    rw [hset₃.other _ (by decide), hsp₂, hsp₁]
    omega
  have hra₃ : t₃.load (s.reg "$sp") = s.reg "$ra" := by
    rw [hset₃.load, hpush₂.load _ (by omega), hpush₁.value]
    rfl
  have hsaved₃ : t₃.load (s.reg "$sp" - 4) = s.reg "$fp" := by
    rw [hset₃.load, ← hsp₁, hpush₂.value, hpush₁.other _ (by decide)]
    rfl
  have hload₃ : ∀ a, a ≠ s.reg "$sp" → a ≠ s.reg "$sp" - 4 → t₃.load a = s.load a := by
    intro a ha ha'
    rw [hset₃.load, hpush₂.load _ (by omega), hpush₁.load _ ha]
  have hinputs₃ : t₃.inputs = s.inputs := by rw [hset₃.inputs, hpush₂.inputs, hpush₁.inputs]
  have houtput₃ : t₃.output = s.output := by rw [hset₃.output, hpush₂.output, hpush₁.output]
  by_cases hframe : frame = 0
  · rw [if_neg (by simpa using hframe)] at hwidth
    refine hrest t₃ ⟨by omega, hset₃.reg.trans hfits, by omega, ?_, hra₃, hsaved₃, hload₃, hinputs₃,
      houtput₃⟩
    rw [hsp₃]
    omega
  · rw [if_pos hframe] at hwidth hroom
    have hroom := hroom.1
    refine Activation.meets_room (hin t₃ (by omega) (by omega)) (by rw [hpc₃, hpc₂, hpc₁]; exact hroom)
      hX.data (by omega) h.nonneg fun t₄ hpc₄ hlow₄ hset₄ => ?_
    refine hrest t₄ ⟨by omega, ?_, ?_, ?_, ?_, ?_, ?_, ?_, ?_⟩
    · rw [hset₄.other _ (by decide), hset₃.reg, hfits]
    · rw [hset₄.reg, hsp₃]
    · rw [hset₄.reg]
      exact hlow₄
    · rw [hset₄.load, hra₃]
    · rw [hset₄.load, hsaved₃]
    · intro a ha ha'
      rw [hset₄.load, hload₃ a ha ha']
    · rw [hset₄.inputs, hinputs₃]
    · rw [hset₄.output, houtput₃]

/-- The words of arguments are the values of the parameters when the body starts. -/
theorem agrees_copied (hX : X.Sound) (hs : X.Entered before args w s) (ht : X.Prepared frame s t)
    (hframe : 0 ≤ frame)
    {first : Scope} (rest : Scope) (hslots : Separate X.env.arena frame (first.map Prod.snd))
    (hu : Copied X.env.arena (s.reg "$sp") first args t u) :
    Agrees (layoutOf X.env.arena X.image X.globals [first ++ rest]) (s.reg "$sp")
      { w with locals := Reference.parameters (first.map Prod.fst) args } u where
  globals {x path a} hx := by
    have hempty : Separate X.env.arena frame (indicesOf []) :=
      ⟨by simp [indicesOf], by simp [indicesOf]⟩
    have hlayout := layoutOf_sound hX.arena hX.globals hempty
    have hrange := (hlayout.global_range hx).2
    have hlow := ht.low
    have hsp := ht.sp
    rw [hu.load a fun i hi hword => ?_, ht.load a (by omega) (by omega)]
    · exact hs.agrees.globals hx
    · obtain ⟨v, b, hv, hb, heq⟩ := wordAt?_eq_some hword
      obtain ⟨v', hv', -, hlow', hhigh'⟩ := hslots.inFrame i hi
      obtain rfl : v = v' := by simpa [hv] using hv'
      have := fieldAt?_range hX.arena hv hb
      omega
  locals {l x path n v} hx hv := by
    have hx : slotAt? X.env.arena [first ++ rest] l x path = some n := hx
    have hv : (if l = 0 ∧ path = [] then ((first.map Prod.fst).zip args).lookup x else none) =
        some v := hv
    split at hv
    · rename_i hl
      obtain ⟨rfl, rfl⟩ := hl
      rcases slotAt?_cons hx with ⟨-, i, hi, hn⟩ | ⟨hne, -⟩
      · obtain ⟨n', hn', hload⟩ := hu.stored.lookup hv hi
        obtain rfl : n = n' := by simpa [hn] using hn'
        exact hload
      · simp at hne
    · simp at hv
  inputs := by rw [hu.inputs, ht.inputs]; exact hs.agrees.inputs
  output := by rw [hu.output, ht.output]; exact hs.agrees.output

def Calls (X : Loaded) (fuel : Nat) : Prop :=
  ∀ {P depth before d f visible frame args s w}, X.Covers depth P →
    X.Stands before d f visible frame → Reference.function? X.program d.name.name = some d →
    args.length = f.params.length → X.Entered before args w s →
    Meets X.image fuel P ⟨depth, s⟩ w (Reference.call X.program fuel d.name.name args)
      fun v w' m => ∃ u, m = ⟨depth - 1, u⟩ ∧ X.Left s w v w' u

def routine (X : Loaded) (P : Moment → Prop) (depth : Int) (fuel : Nat) (lo hi : Int)
    (before : List Decl) (d : FnDecl) (visible : Scope) (frame fp : Int) : Routine where
  image := X.image
  env := X.env
  fuel := fuel
  call := Reference.call X.program fuel
  A := { P, depth, lo, hi, fp, frame }
  lit := X.lit
  visible := visible
  globals := X.globals
  function := d.name.name
  exit := X.finish before d frame

theorem Covers.deeper (hP : X.Covers depth P) : X.Covers (depth + 1) P :=
  fun depth' s hle hs => hP depth' s (by omega) hs

/-- What holds in the code of a function holds in the activation that its call starts, from where
there is room for its variables to the end of its body. -/
theorem activation_sound (hX : X.Sound) (hP : X.Covers depth P)
    (h : X.Stands before d f visible frame) {fp : Int} (hfp : fp ≤ stackTop) (fuel : Nat) :
    (X.routine P depth fuel (X.framed before frame) (X.finish before d frame) before d visible frame
      fp).A.Sound X.image where
  frame_nonneg := h.nonneg
  fp_le := hfp
  data := hX.data
  holds s hlo hhi hs hsp := by
    have hlo : X.framed before frame ≤ s.pc := hlo
    have hhi : s.pc < X.finish before d frame := hhi
    have hs : s.reg "$fp" = fp := hs
    have hsp : s.reg "$sp" ≤ fp - 8 - frame := hsp
    have hprologue := Code.width_nonneg (Code.prologue frame)
    have hepilogue := Code.width_nonneg (Code.epilogue d.name.name)
    refine hP depth s (Int.le_refl _) ⟨before, d, f, visible, frame, h, ?_, by omega, ?_⟩
    · simp only [framed] at hlo
      omega
    · omega

theorem has_nonneg {image : Image} {pc : Int} {i : Instr} (h : image.Has pc i) : 0 ≤ pc := by
  obtain ⟨-, -, line, hfetch⟩ := h
  cases pc with
  | ofNat n => exact Int.natCast_nonneg n
  | negSucc n => simp [Image.fetch?] at hfetch

def linked (X : Loaded) (before : List Decl) (s : State) : State :=
  (s.next.setReg "$ra" (s.pc + 1)).moveTo (X.start before)

/-- A call instruction in the body of a function enters the function that it names, with the place
after it as the return address. -/
theorem links (hX : X.Sound) {lo hi fp : Int}
    (hA : (X.routine P depth fuel lo hi before d visible frame fp).A.Sound X.image)
    (h : X.Stands before d f visible frame) {locals : List Scope} {before' : List Decl} {d' : FnDecl}
    {f' : Function} {visible' : Scope} {frame' : Int} (h' : X.Stands before' d' f' visible' frame')
    (hready : ((X.routine P depth fuel lo hi before d visible frame fp).scene locals).Ready
      [.op (.jal (functionLabel d'.name.name))] w s) (hclear : Clear X.image s)
    (hargs : ∀ k (h : k < args.length),
      Int32.ofInt (s.load (s.reg "$sp" + 4 * (args.length - k))) = args[k]) :
    wrap (s.pc + 1) = s.pc + 1 ∧
      effect X.image s.next (.jal (functionLabel d'.name.name)) = .ok false (X.linked before' s) ∧
      X.Entered before' args w (X.linked before' s) := by
  obtain ⟨hjal, -, -⟩ := hready.op
  have hin := hready.inside
  have hfp : fp ≤ stackTop := hA.fp_le
  have hfp' : s.reg "$fp" = fp := hin.fp
  have hsp : s.reg "$sp" ≤ fp - 8 - frame := hin.sp
  have hlow : X.image.dataNext ≤ s.reg "$sp" + 4 := hin.low
  have hdata := hX.data
  have hnonneg := h.nonneg
  have hlink : wrap (s.pc + 1) = s.pc + 1 := by
    have := link_of_clear hjal hclear
    have := has_nonneg hjal
    exact wrap_of_fits (by omega) (by omega)
  have hfits : wrap (s.reg "$fp") = s.reg "$fp" := hin.wrap_fp hA
  refine ⟨hlink, Scene.goto_label (S := (X.routine P depth fuel lo hi before d visible frame fp).scene
    locals) h'.parts.1, rfl, ?_, ?_, ?_, ?_, ?_, ?_⟩
  · simpa [linked] using hlow
  · simp [linked]
    omega
  · simp [linked, hlink]
  · simpa [linked] using hfits
  · intro k hk
    simpa [linked] using hargs k hk
  · refine ⟨fun hx => ?_, fun hx _ => ?_, ?_, ?_⟩
    · simpa [linked] using hready.agrees.globals hx
    · simp [layout, layoutOf, slotAt?] at hx
    · simpa [linked] using hready.agrees.inputs
    · simpa [linked] using hready.agrees.output

/-- A call instruction in the body of a function does what the call means. -/
theorem invokes (hX : X.Sound) {lo hi fp : Int}
    (hA : (X.routine P depth fuel lo hi before d visible frame fp).A.Sound X.image)
    (hP : X.Covers (depth + 1) P) (hcalls : X.Calls fuel)
    (h : X.Stands before d f visible frame) {locals : List Scope}
    (hslots : Separate X.env.arena frame (indicesOf locals)) {before' : List Decl} {d' : FnDecl}
    {f' : Function} {visible' : Scope} {frame' : Int}
    (h' : X.Stands before' d' f' visible' frame')
    (hfunction : Reference.function? X.program d'.name.name = some d') :
    ((X.routine P depth fuel lo hi before d visible frame fp).scene locals).Invokes
      (functionLabel d'.name.name) d'.name.name f'.params.length := by
  intro s w args hready hlength hargs
  obtain ⟨hjal, hlo, hhi⟩ := hready.op
  have hin := hready.inside
  have hPs : P ⟨depth, s⟩ := hA.holds s hlo hhi hin.fp hin.sp
  have hsp : s.reg "$sp" ≤ fp - 8 - frame := hin.sp
  have hlow : X.image.dataNext ≤ s.reg "$sp" + 4 := hin.low
  refine Meets.of_clear hPs fun hclear => ?_
  obtain ⟨hlink, heffect, hentered⟩ := links hX hA h h' hready hclear fun k hk => by
    rw [hlength]
    exact hargs k hk
  refine Meets.exec hjal hPs heffect ?_
  refine Meets.mono (hcalls hP h' hfunction hlength hentered) ?_
  rintro v w' _ ⟨u, rfl, hu⟩
  have hsame : ∀ a, s.reg "$sp" < a → X.image.dataNext ≤ a → u.load a = s.load a := by
    intro a ha hdata'
    simpa [linked] using hu.same a (by simpa [linked] using ha) hdata'
  have hrsp : u.reg "$sp" = s.reg "$sp" := by simpa [linked] using hu.sp
  have hrfp : u.reg "$fp" = s.reg "$fp" := by simpa [linked] using hu.fp
  have hlayout := layoutOf_sound hX.arena hX.globals hslots
  refine ⟨u, by simp [openedBy, routine, Routine.scene], ⟨?_, ⟨?_, ?_, ?_⟩, hrsp, hu.result, ?_, hsame⟩⟩
  · rw [hu.pc]
    simp [linked, hlink]
  · rw [hrfp]
    exact hin.fp
  · rw [hrsp]
    exact hin.sp
  · rw [hrsp]
    exact hin.low
  · refine ⟨fun hx => hu.agrees.globals hx, fun {l x path n value} hx hv => ?_, hu.agrees.inputs,
      hu.agrees.output⟩
    have hrange := hlayout.slot_range hx
    rw [hu.locals] at hv
    rw [hsame _ (by show s.reg "$sp" < fp - n; omega) (by show X.image.dataNext ≤ fp - n; omega)]
    exact hready.agrees.locals hx hv

/-- A name in the body of a function that is bound to a function stands for one of the program. -/
theorem called (hX : X.Sound) (h : X.Stands before d f visible frame) {locals : List Scope}
    (hslots : Separate X.env.arena frame (indicesOf locals)) {name : String} {i : Int} {g : Function}
    (hfind : find (locals ++ [visible]) name = some i) (hg : X.env.arena.get? i = some (.func g)) :
    ∃ before' d' visible' frame', X.Stands before' d' g visible' frame' ∧ d'.name.name = name ∧
      Reference.function? X.program name = some d' := by
  rcases find_cases X.env.arena hfind with ⟨level, -, hlocal, -⟩ | ⟨-, hglobal⟩
  · obtain ⟨v, hv, -⟩ := hslots.inFrame i hlocal
    exact absurd (hg.symm.trans hv) (by simp)
  · exact hX.functions (h.seen hglobal) hg

/-- Where calls do what they mean, statements can be followed. -/
theorem routine_sound (hX : X.Sound) {lo hi fp : Int}
    (hA : (X.routine P depth fuel lo hi before d visible frame fp).A.Sound X.image)
    (hP : X.Covers (depth + 1) P) (hcalls : X.Calls fuel) (h : X.Stands before d f visible frame) :
    (X.routine P depth fuel lo hi before d visible frame fp).Sound where
  exit := h.parts.2.2.2.2.1
  scenes {locals} hslots := by
    refine ⟨hA, layoutOf_sound hX.arena hX.globals hslots, hX.symbols,
      fun hplace hscalar => resolved_of_place hX.globals h.seen hslots hplace
        (structDef_of_place hX.symbols hplace hscalar), hX.labels, ?_⟩
    intro callee i g hfind hbinding hg
    have hg : X.env.arena.get? i = some (.func g) := shape_func hg
    have hsymbol : Lowering.symbolOf X.env callee = .ok (.func g) := by
      simp [Lowering.symbolOf, hbinding, hg]
    obtain ⟨before', d', visible', frame', h', hname, hfunction⟩ := called hX h hslots hfind hg
    have hlabel : g.name = d'.name.name := h'.ok.1
    rw [← hname] at hfunction ⊢
    rw [hlabel]
    exact ⟨hsymbol, invokes hX hA hP hcalls h hslots h' hfunction⟩

def Ends (X : Loaded) (before : List Decl) (d : FnDecl) (frame depth : Int) (P : Moment → Prop) :
    Prop :=
  ∀ s : State, X.finish before d frame ≤ s.pc →
    s.pc < X.finish before d frame + Code.width (Code.epilogue d.name.name) → P ⟨depth, s⟩

theorem Covers.ends (hP : X.Covers depth P) (h : X.Stands before d f visible frame) :
    X.Ends before d frame depth P := by
  intro s hlo hhi
  have hprologue := Code.width_nonneg (Code.prologue frame)
  have hcopy := Code.width_nonneg (Code.copyArguments X.env d.formals)
  have hbody := Code.width_nonneg (Code.block X.env d.name.name d.body (counters before))
  refine hP depth s (Int.le_refl _) ⟨before, d, f, visible, frame, h, ?_, hhi, by omega⟩
  simp only [finish, body, framed] at hlo
  omega

/-- The code that a function other than the first one ends with. -/
theorem epilogue (hP : X.Ends before d frame depth P) (h : X.Stands before d f visible frame)
    (hname : d.name.name ≠ "main") (hpc : s.pc = X.finish before d frame)
    (htop : wrap (s.reg "$fp") = s.reg "$fp")
    (hrest : ∀ t, t.pc = wrap (s.load (s.reg "$fp")) → t.reg "$sp" = s.reg "$fp" →
      t.reg "$fp" = wrap (s.load (s.reg "$fp" - 4)) → t.reg "$v0" = s.reg "$v0" →
      (∀ a, t.load a = s.load a) → t.inputs = s.inputs → t.output = s.output →
      Meets X.image fuel P ⟨depth - 1, t⟩ w x Q) :
    Meets X.image fuel P ⟨depth, s⟩ w x Q := by
  have hcode := h.parts.2.2.2.2.2
  rw [← hpc, Code.epilogue, if_neg hname] at hcode
  simp only [codeAt_cons, Code.width_op] at hcode
  obtain ⟨hi₁, hi₂, hi₃, hi₄, hi₅, -⟩ := hcode
  have hwidth : Code.width (Code.epilogue d.name.name) = 5 := by
    rw [Code.epilogue, if_neg hname]
    rfl
  have hin : ∀ t : State, s.pc ≤ t.pc → t.pc < s.pc + 5 → P ⟨depth, t⟩ :=
    fun t hlo hhi => hP t (by omega) (by omega)
  refine Activation.meets_set (r := "$ra") (v := s.load (s.reg "$fp")) (hin s (by omega) (by omega))
    hi₁ ?_ rfl (by decide) fun t₁ hpc₁ hset₁ => ?_
  · simp [effect, withPlace, locate?, Reg.ra, Reg.fp]
  have hfp₁ : t₁.reg "$fp" = s.reg "$fp" := hset₁.other _ (by decide)
  refine Activation.meets_set (r := "$t0") (v := s.reg "$fp") (hin t₁ (by omega) (by omega))
    (by rw [hpc₁]; exact hi₂) ?_ rfl (by decide) fun t₂ hpc₂ hset₂ => ?_
  · simp [effect, Reg.t0, Reg.fp, hfp₁]
  have hfp₂ : t₂.reg "$fp" = s.reg "$fp" := (hset₂.other _ (by decide)).trans hfp₁
  refine Activation.meets_set (r := "$fp") (v := s.load (s.reg "$fp" - 4))
    (hin t₂ (by omega) (by omega)) (by rw [hpc₂, hpc₁]; exact hi₃) ?_ rfl (by decide)
    fun t₃ hpc₃ hset₃ => ?_
  · have hload : t₂.load (s.reg "$fp" - 4) = s.load (s.reg "$fp" - 4) := by
      rw [hset₂.load, hset₁.load]
    simp [effect, withPlace, locate?, Reg.fp, hfp₂, wordSize, ← Int.sub_eq_add_neg, hload]
  have ht0 : t₃.reg "$t0" = s.reg "$fp" := by
    rw [hset₃.other _ (by decide), hset₂.reg, htop]
  refine Activation.meets_set (r := "$sp") (v := s.reg "$fp") (hin t₃ (by omega) (by omega))
    (by rw [hpc₃, hpc₂, hpc₁]; exact hi₄) ?_ rfl (by decide) fun t₄ hpc₄ hset₄ => ?_
  · simp [effect, Reg.sp, Reg.t0, ht0]
  have hra₄ : t₄.reg "$ra" = wrap (s.load (s.reg "$fp")) := by
    rw [hset₄.other _ (by decide), hset₃.other _ (by decide), hset₂.other _ (by decide), hset₁.reg]
  have hi₅ : X.image.Has t₄.pc (.jr .ra) := by rw [hpc₄, hpc₃, hpc₂, hpc₁]; exact hi₅
  refine Meets.exec hi₅ (hin t₄ (by omega) (by omega)) (t := t₄.next.moveTo (t₄.reg "$ra")) ?_ ?_
  · simp [effect, Reg.ra]
  · refine hrest _ hra₄ ?_ ?_ ?_ ?_ ?_ ?_
    · simp [hset₄.reg, htop]
    · simp [hset₄.other, hset₃.reg]
    · simp [hset₄.other, hset₃.other, hset₂.other, hset₁.other]
    · intro a
      simp [hset₄.load, hset₃.load, hset₂.load, hset₁.load]
    · simp [hset₄.inputs, hset₃.inputs, hset₂.inputs, hset₁.inputs]
    · simp [hset₄.output, hset₃.output, hset₂.output, hset₁.output]

/-- The code that the first function ends with stops the machine. -/
theorem halts (hP : X.Ends before d frame depth P) (h : X.Stands before d f visible frame)
    (hname : d.name.name = "main") (hpc : s.pc = X.finish before d frame)
    (houtput : s.output = w.output) :
    Meets X.image fuel P ⟨depth, s⟩ w (throw .finished) Q := by
  have hcode := h.parts.2.2.2.2.2
  rw [← hpc, Code.epilogue, if_pos hname] at hcode
  simp only [Code.service, codeAt_cons, Code.width_op] at hcode
  obtain ⟨hi, hi', -⟩ := hcode
  have hwidth : Code.width (Code.epilogue d.name.name) = 2 := by
    rw [Code.epilogue, if_pos hname]
    rfl
  have hin : ∀ t : State, s.pc ≤ t.pc → t.pc < s.pc + 2 → P ⟨depth, t⟩ :=
    fun t hlo hhi => hP t (by omega) (by omega)
  refine Activation.meets_set (r := "$v0") (v := Lowering.exit) (hin s (by omega) (by omega)) hi rfl rfl
    (by decide) fun t hpct hset => ?_
  have hi' : X.image.Has t.pc .syscall := by rw [hpct]; exact hi'
  refine Meets.throw ⟨0, _, .refl _, hin t (by omega) (by omega), t.next, ?_, ?_⟩
  · rw [State.output_next, hset.output, houtput]
  · exact (step_eq hi').trans (service_exit X.image hset.reg)

/-- What a call means, with the variables of the caller seen from the world at hand. -/
theorem call_eq (hfunction : Reference.function? X.program d.name.name = some d)
    (unknowns : List Word) :
    Reference.call X.program (fuel + 1) d.name.name args { w with unknowns } = (do
      modify fun world => { world with locals := Reference.parameters (Reference.names d.formals) args }
      let flow ← Reference.stmts fuel (Reference.call X.program fuel)
        [Reference.names (d.formals ++ d.body.decls)] d.body.stmts
      if d.name.name = "main" then throw .finished
      modify fun world => { world with locals := w.locals }
      return flow.value : EvalM (Option Word)) { w with unknowns } := by
  rw [Reference.call, hfunction]
  rfl

/-- A state at the start of the body of a function that was entered in another one. -/
structure Begun (X : Loaded) (before : List Decl) (d : FnDecl) (scope : Scope) (frame : Int)
    (args : List Word) (w : Store) (s u : State) : Prop where
  pc : u.pc = X.body before d frame
  fp : u.reg "$fp" = s.reg "$sp"
  sp : u.reg "$sp" = s.reg "$sp" - 8 - frame
  low : X.image.dataNext ≤ u.reg "$sp" + 4
  ra : u.load (s.reg "$sp") = s.reg "$ra"
  saved : u.load (s.reg "$sp" - 4) = s.reg "$fp"
  load : ∀ a, s.reg "$sp" < a → u.load a = s.load a
  agrees : Agrees (layoutOf X.env.arena X.image X.globals [scope]) (s.reg "$sp")
    { w with locals := Reference.parameters (Reference.names d.formals) args } u

/-- The code of a function before its body, which takes a step at least. -/
theorem begins (hX : X.Sound) (hP : X.Starts before d frame depth P)
    (h : X.Stands before d f visible frame)
    (hlength : args.length = f.params.length) (hs : X.Entered before args w s) {scope : Scope}
    (hscope : Declares (shape X.env.arena) (d.formals ++ d.body.decls) scope)
    (hrest : ∀ u, X.Begun before d scope frame args w s u → Meets X.image fuel P ⟨depth, u⟩ w x Q) :
    Meets X.image (fuel + 1) P ⟨depth, s⟩ w x Q := by
  have hformals := h.ok.2.2.1
  have hseparate := h.separate
  rw [declSlots_eq hscope] at hseparate
  obtain ⟨first, rest, rfl, hfirst, -⟩ := declares_append hscope
  rw [List.map_append, List.append_assoc] at hseparate
  have hslots := hseparate.sublist (List.sublist_append_left _ _)
  let A : Activation :=
    { P, depth, lo := X.framed before frame, hi := X.body before d frame, fp := s.reg "$sp", frame }
  have hA : A.Sound X.image := by
    refine ⟨h.nonneg, hs.top, hX.data, fun t hlo hhi hfp hsp => ?_⟩
    have hlo : X.framed before frame ≤ t.pc := hlo
    have hfp : t.reg "$fp" = s.reg "$sp" := hfp
    have hsp : t.reg "$sp" ≤ s.reg "$sp" - 8 - frame := hsp
    have hprologue := Code.width_nonneg (Code.prologue frame)
    have htop := hs.top
    refine hP t ?_ hhi fun _ => by omega
    simp only [framed] at hlo
    omega
  refine prologue hX hP h hs fun t ht => ?_
  have hpc : t.pc = X.framed before frame := by rw [ht.pc, hs.pc]; rfl
  refine copyArguments hA hX.arena d.formals hfirst (hlength.trans (formals_length hformals)) hslots
    (scalar_of_formals hX.symbols hformals hfirst h.params) ⟨ht.fp, Int.le_of_eq ht.sp, ht.low⟩ ?_
    (Int.le_of_eq hpc.symm) ?_ (fun k hk => ?_) fun u hpcu hu hcopied => ?_
  · rw [hpc]
    exact h.parts.2.2.1
  · rw [hpc]
    exact Int.le_refl _
  · show Int32.ofInt (t.load (s.reg "$sp" + 4 * (args.length - k))) = _
    rw [ht.load _ (by omega) (by omega), hs.args k hk]
  · have hcopied : Copied X.env.arena (s.reg "$sp") first args t u := hcopied
    have hsp := ht.sp
    -- the words that are not in the frame stay
    have hload : ∀ a, s.reg "$sp" - 8 < a → u.load a = t.load a := fun a ha =>
      hcopied.load a fun i hi hword => by
        obtain ⟨v, b, hv, hb, heq⟩ := wordAt?_eq_some hword
        obtain ⟨v', hv', -, hlow, -⟩ := hslots.inFrame i hi
        obtain rfl : v = v' := by simpa [hv] using hv'
        have := fieldAt?_range hX.arena hv hb
        omega
    have hagrees := agrees_copied hX hs ht h.nonneg rest hslots hcopied
    rw [← names_eq hfirst] at hagrees
    refine hrest u ⟨by rw [hpcu, hpc]; rfl, hu.fp, by rw [hcopied.sp, hsp], hu.low, ?_, ?_, ?_, hagrees⟩
    · rw [hload _ (by omega), ht.ra]
    · rw [hload _ (by omega), ht.saved]
    · intro a ha
      rw [hload a (by omega), ht.load a (by omega) (by omega)]

/-- The body of a function does what it means, and comes to the end of the function. -/
theorem runsBody (hX : X.Sound) (hP : X.Covers depth P) (hcalls : X.Calls fuel)
    (h : X.Stands before d f visible frame) (htop : s.reg "$sp" ≤ stackTop) {scope : Scope}
    (hscope : Declares (shape X.env.arena) (d.formals ++ d.body.decls) scope)
    (hbody : StmtsOk X.lit (shape X.env.arena) [scope, visible] f.result d.body.stmts)
    (hu : X.Begun before d scope frame args w s u) :
    Meets X.image fuel P ⟨depth, u⟩
      { w with locals := Reference.parameters (Reference.names d.formals) args }
      (Reference.stmts fuel (Reference.call X.program fuel)
        [Reference.names (d.formals ++ d.body.decls)] d.body.stmts)
      fun flow w' m => ∃ t, m = ⟨depth, t⟩ ∧ t.pc = X.finish before d frame ∧
        ((X.routine P depth fuel (X.framed before frame) (X.finish before d frame) before d visible
          frame (s.reg "$sp")).scene [scope]).Done u (X.finish before d frame)
          (X.finish before d frame) flow w' t := by
  have hR := routine_sound hX (activation_sound hX hP h htop fuel) hP.deeper hcalls h
  have hcopy := Code.width_nonneg (Code.copyArguments X.env d.formals)
  have hpc := hu.pc
  have hend : X.finish before d frame = u.pc +
      Code.width (Code.stmts X.env d.name.name d.body.stmts (counters before)) := by
    rw [hpc, finish_eq]
  have hready : ((X.routine P depth fuel (X.framed before frame) (X.finish before d frame) before d
      visible frame (s.reg "$sp")).scene [scope]).Ready (Code.stmts X.env d.name.name d.body.stmts (counters before))
        { w with locals := Reference.parameters (Reference.names d.formals) args } u := by
    refine ⟨?_, ?_, Int.le_of_eq hend.symm, ⟨hu.fp, Int.le_of_eq hu.sp, hu.low⟩, hu.agrees⟩
    · rw [hpc]
      exact h.body_placed
    · show X.framed before frame ≤ u.pc
      simp only [body] at hpc
      omega
  rw [names_eq hscope]
  have hbody : StmtsOk X.lit (shape X.env.arena) ([scope] ++ [visible]) f.result d.body.stmts := hbody
  refine Meets.mono (Routine.runsStmts hR d.body.stmts hbody (h.body_slots hscope) hready) ?_
  rintro flow w' _ ⟨t, rfl, ht⟩
  have ht := ht.at_pc hend
  refine ⟨t, rfl, ?_, ht⟩
  have hpct := ht.pc
  cases flow <;> exact hpct

/-- Every call does what it means. -/
theorem calls (hX : X.Sound) (fuel : Nat) : X.Calls fuel := by
  induction fuel with
  | zero =>
    intro P depth before d f visible frame args s w _ _ _ _ _
    rw [Reference.call]
    exact Meets.throw ⟨0, _, Nat.le_refl _, .refl _⟩
  | succ fuel ih =>
    intro P depth before d f visible frame args s w hP h hfunction hlength hs
    obtain ⟨-, -, -, scope, hscope, -, hbody⟩ := h.ok
    refine Meets.congr (call_eq hfunction) ?_
    refine begins hX (hP.starts h) h hlength hs hscope fun u hu => ?_
    refine Meets.bind (Q := fun _ w' m => w' = { w with
      locals := Reference.parameters (Reference.names d.formals) args } ∧ m = ⟨depth, u⟩)
      (Meets.of_eq (a := ()) _ (fun _ => rfl) ⟨rfl, rfl⟩) ?_
    rintro _ _ _ ⟨rfl, rfl⟩
    refine Meets.bind (runsBody hX hP ih h hs.top hscope hbody hu) ?_
    rintro flow w' _ ⟨t, rfl, hpc, ht⟩
    by_cases hmain : d.name.name = "main"
    · simp only [if_pos hmain]
      exact Meets.bind (Q := fun _ _ _ => False) (halts (hP.ends h) h hmain hpc ht.agrees.output)
        fun _ _ _ hfalse => hfalse.elim
    · simp only [if_neg hmain]
      have hfp : t.reg "$fp" = s.reg "$sp" := ht.inside.fp
      have hsp := hu.sp
      have hlow := hu.low
      have hnonneg := h.nonneg
      have hdata := hX.data
      have htop := hs.top
      have hsame : ∀ a, s.reg "$sp" - 4 ≤ a → t.load a = u.load a := fun a ha =>
        ht.same a (by omega) (by show X.image.dataNext ≤ a; omega)
          (.inr (by show s.reg "$sp" - 8 < a; omega))
      have hwrap := ht.inside.wrap_fp (activation_sound hX hP h hs.top fuel)
      refine epilogue (hP.ends h) h hmain hpc hwrap fun t' hpc' hsp' hfp' hv0 hload hinputs houtput => ?_
      rw [hfp, hsame _ (by omega), hu.ra, hs.ra] at hpc'
      rw [hfp, hsame _ (by omega), hu.saved, hs.fp] at hfp'
      refine Meets.of_eq { w' with locals := w.locals } (fun unknowns => rfl)
        ⟨t', rfl, hpc', hsp'.trans hfp, hfp', fun word hword => ?_, ?_, rfl, fun a ha hdata' => ?_⟩
      · rw [hv0]
        refine ht.result word ?_
        cases flow with
        | next => simp [Flow.value] at hword
        | returned value => exact congrArg _ hword
      · refine ⟨fun hx => ?_, fun hx _ => ?_, ?_, ?_⟩
        · rw [hload]
          exact ht.agrees.globals hx
        · simp [layout, layoutOf, slotAt?] at hx
        · rw [hinputs]
          exact ht.agrees.inputs
        · rw [houtput]
          exact ht.agrees.output
      · rw [hload, hsame a (by omega), hu.load a ha]

end Loaded

end CMinusMinus.Proofs
