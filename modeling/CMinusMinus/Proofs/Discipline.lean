import CMinusMinus.Proofs.Correctness
import CMinusMinus.Proofs.Sites

/-!
The discipline of the stack. Wherever a run of the machine comes to the code of an expression or of a
statement, and however it came there, the code that is run to its end leaves the stack as it should:
with the value of the expression in one more word, or as it was. A call that returns leaves all words
above the stack pointer as they were.

The machine is deterministic. So what the code does is found by following it from a store that is read
off the memory of the machine, and the end that is reached is the one that the run comes to.
-/
namespace CMinusMinus.Proofs

open Assembly Machine WellFormed
open Reference (EvalM Store Word Value Flow)

section Paths

variable {image : Image} {P R : Moment → Prop} {m m' a b : Moment} {n k : Nat}

theorem Next.unique (h : Next image m a) (h' : Next image m b) : a = b := by
  obtain ⟨hstep, hdepth⟩ := h
  obtain ⟨hstep', hdepth'⟩ := h'
  obtain ⟨depth, state⟩ := a
  obtain ⟨depth', state'⟩ := b
  rw [hstep] at hstep'
  simp_all

/-- Of two paths from one moment, one is the start of the other. -/
theorem Path.compare (h : Path image P m n a) (h' : Path image R m k b) :
    (n < k ∧ R a ∧ Path image R a (k - n) b) ∨ (n = k ∧ a = b) ∨ (k < n ∧ P b) := by
  induction h generalizing k with
  | refl m =>
    cases h' with
    | refl => exact .inr (.inl ⟨rfl, rfl⟩)
    | step here next rest => exact .inl ⟨Nat.succ_pos _, here, .step here next rest⟩
  | step here next rest ih =>
    cases h' with
    | refl => exact .inr (.inr ⟨Nat.succ_pos _, here⟩)
    | step here' next' rest' =>
      obtain rfl := next.unique next'
      rcases ih rest' with ⟨hlt, hR, hpath⟩ | ⟨rfl, rfl⟩ | ⟨hlt, hP⟩
      · rw [Nat.add_sub_add_right]
        exact .inl ⟨by omega, hR, hpath⟩
      · exact .inr (.inl ⟨rfl, rfl⟩)
      · exact .inr (.inr ⟨by omega, hP⟩)

/-- Steps that a longer path starts with are along the moments of that path. -/
theorem Path.upto (h : Path image P m n a) (h' : Path image R m k b) (hle : k ≤ n) :
    Path image P m k b := by
  induction h generalizing k with
  | refl m =>
    obtain rfl : k = 0 := by omega
    cases h'
    exact .refl _
  | step here next rest ih =>
    cases h' with
    | refl => exact .refl _
    | step here' next' rest' =>
      obtain rfl := next.unique next'
      exact .step here next (ih rest' (by omega))

/-- No path leads on from where the machine stops. -/
theorem StopsAt.no_path {error : Option Error} {output : String} (h : StopsAt image m error output)
    (hpath : Path image R m k m') : k = 0 := by
  obtain ⟨t, -, hstep⟩ := h
  cases hpath with
  | refl => rfl
  | step here next rest =>
    have hnext := next.1
    cases error <;> simp [hstep] at hnext

variable {α : Type} {fuel : Nat} {w : Store} {x : EvalM α} {Q : α → Store → Moment → Prop}

def ClearFor (image : Image) (steps : Nat) (m : Moment) : Prop :=
  ∀ {P : Moment → Prop} {j t}, j < steps → Path image P m j t → Clear image t.state

theorem ClearFor.after {steps : Nat} (h : ClearFor image (n + steps) m) (hpath : Path image P m n m') :
    ClearFor image steps m' := fun hj hrest =>
  h (Nat.add_lt_add_left hj n)
    ((hpath.mono fun _ _ => trivial).trans (hrest.mono (R := fun _ => True) fun _ _ => trivial))

/-- If the machine meets a computation along moments with some property, then a path is along such
moments, unless it leads past the end of the computation. -/
theorem Meets.divides (h : Meets image fuel P m w x Q) (hpath : Path image R m k m')
    (hfuel : k < fuel) (hclear : ClearFor image k m) :
    (Path image P m k m' ∧ P m') ∨ ∃ drawn r w' t i j, k = i + j ∧ Settles x w drawn (.ok r w') ∧
      Q r w' t ∧ Path image P m i t ∧ Path image R t j m' := by
  rcases h with ⟨j, t, hfirst, hPt, hover⟩ | ⟨drawn, r, hsettles, hfollows⟩
  · rcases hfirst.compare hpath with ⟨hlt, -, -⟩ | ⟨rfl, rfl⟩ | ⟨hlt, hPm⟩
    · exact absurd (hclear hlt hfirst) hover
    · exact .inl ⟨hfirst, hPt⟩
    · exact .inl ⟨hfirst.upto hpath (Nat.le_of_lt hlt), hPm⟩
  cases r with
  | ok r w' =>
    obtain ⟨j, t, hfirst, hq⟩ := hfollows
    rcases hfirst.compare hpath with ⟨hlt, hR, hrest⟩ | ⟨rfl, rfl⟩ | ⟨hlt, hPm⟩
    · exact .inr ⟨drawn, r, w', t, j, k - j, by omega, hsettles, hq, hfirst, hrest⟩
    · exact .inr ⟨drawn, r, w', t, j, 0, rfl, hsettles, hq, hfirst, .refl t⟩
    · exact .inl ⟨hfirst.upto hpath (Nat.le_of_lt hlt), hPm⟩
  | error halt w' =>
    cases halt with
    | undefined => exact hfollows.elim
    | outOfFuel =>
      obtain ⟨j, t, hj, hfirst⟩ := hfollows
      rcases hfirst.compare hpath with ⟨hlt, -, -⟩ | ⟨rfl, -⟩ | ⟨hlt, hPm⟩
      · omega
      · omega
      · exact .inl ⟨hfirst.upto hpath (Nat.le_of_lt hlt), hPm⟩
    | finished | divisionByZero | inputExhausted =>
      obtain ⟨j, t, hfirst, hPt, hstops⟩ := hfollows
      rcases hfirst.compare hpath with ⟨hlt, -, hrest⟩ | ⟨rfl, rfl⟩ | ⟨hlt, hPm⟩
      · have := hstops.no_path hrest
        omega
      · exact .inl ⟨hfirst, hPt⟩
      · exact .inl ⟨hfirst.upto hpath (Nat.le_of_lt hlt), hPm⟩

/-- If the machine meets a computation along moments with some property, then a moment that it comes
to has the property, unless it has come to the end of the computation, there or before. -/
theorem Meets.reaches (h : Meets image fuel P m w x Q) (hpath : Path image R m k m')
    (hfuel : k < fuel) (hclear : ClearFor image k m) :
    P m' ∨ ∃ drawn r w' t, Settles x w drawn (.ok r w') ∧ Q r w' t ∧
      (t = m' ∨ R t ∧ ∃ i j, k = i + j ∧ Path image P m i t ∧ Path image R t j m') := by
  rcases h.divides hpath hfuel hclear with
    ⟨-, hPm⟩ | ⟨drawn, r, w', t, i, j, hk, hsettles, hq, hfirst, hrest⟩
  · exact .inl hPm
  · refine .inr ⟨drawn, r, w', t, hsettles, hq, ?_⟩
    cases hrest with
    | refl => exact .inl rfl
    | step here next rest => exact .inr ⟨here, i, _, hk, hfirst, .step here next rest⟩

end Paths

section Words

/-- The store that the memory of the machine holds, with the variables in their places. -/
def storeOf (L : Layout) (fp : Int) (s : State) : Store where
  globals x path := match L.globals x path with
    | some a => Int32.ofInt (s.load a)
    | none => 0
  locals l x path := (L.slots l x path).map fun n => Int32.ofInt (s.load (fp - n))
  inputs := s.inputs
  output := s.output

theorem agrees_storeOf (L : Layout) (fp : Int) (s : State) : Agrees L fp (storeOf L fp s) s where
  globals hx := by simp [storeOf, hx]
  locals hx hv := by simpa [storeOf, hx] using hv
  inputs := rfl
  output := rfl

end Words

/-- The machine comes to a place, for the first time in the activation that it is in. -/
def Arrives (image : Image) (m : Moment) (k : Nat) (m' : Moment) (pc : Int) : Prop :=
  Path image (fun t => m.depth ≤ t.depth ∧ (t.depth = m.depth → t.state.pc ≠ pc)) m k m' ∧
    m'.depth = m.depth ∧ m'.state.pc = pc

/-- The machine makes a call, which returns. -/
def Returns (image : Image) (m : Moment) (k : Nat) (m' : Moment) : Prop :=
  ∃ t, Next image m t ∧ Path image (fun t => m.depth < t.depth) t k m' ∧ m'.depth = m.depth

/-- The moments of a piece of code, with those of the calls in it. -/
def During (m : Moment) (lo hi : Int) (t : Moment) : Prop :=
  m.depth < t.depth ∨ t.depth = m.depth ∧ lo ≤ t.state.pc ∧ t.state.pc < hi

namespace Scene

variable {S : Scene} {e : Expr} {t : Ty} {c : Code.Counters}

theorem width_onPlace_pos (hS : S.Sound) (hlocation : e.isLocation)
    (htyped : Typed S.lit S.σ S.Γ e t) (hoperand : IsOperand t)
    {items : Variable → Int → List Code.Item} (hitems : ∀ v offset, 0 < Code.width (items v offset)) :
    0 < Code.width (Code.onPlace S.env e items) := by
  obtain ⟨v, hplace, rfl, hscalar⟩ := place_of_typed hS.symbols hlocation htyped hoperand
  obtain ⟨x, path, u, offset, hresolved⟩ := hS.places hplace hscalar
  rw [onPlace_eq hresolved]
  exact hitems u offset

theorem width_pos_left {is : List Code.Item} (h : 0 < Code.width is) (js : List Code.Item) :
    0 < Code.width (is ++ js) := by
  have := Code.width_nonneg js
  rw [Code.width_append]
  omega

theorem width_pos_right (is : List Code.Item) {js : List Code.Item} (h : 0 < Code.width js) :
    0 < Code.width (is ++ js) := by
  have := Code.width_nonneg is
  rw [Code.width_append]
  omega

theorem width_pop_pos (r : Reg) : 0 < Code.width (Code.pop r) := by simp

theorem width_push_pos (r : Reg) : 0 < Code.width (Code.push r) := by simp

/-- Every expression has code. -/
theorem width_expr_pos (hS : S.Sound) (htyped : Typed S.lit S.σ S.Γ e t) (hoperand : IsOperand t) :
    0 < Code.width (Code.expr S.env e c) := by
  cases e with
  | int note value => simp [Code.expr]
  | bool note value => simp [Code.expr]
  | string note text => simp [Code.expr]
  | ident x | dot note obj field reached bad =>
    exact width_onPlace_pos hS rfl htyped hoperand fun v offset =>
      width_pos_right _ (width_push_pos _)
  | assign note target value =>
    rw [Code.expr]
    exact width_pos_right _ (width_onPlace_pos hS htyped.1 htyped.2.2.1 hoperand fun v offset =>
      width_pos_right _ (width_pos_left (width_pop_pos _) _))
  | call note callee args =>
    obtain ⟨i, f, hfind, hbinding, hf, -, -⟩ := htyped
    have hinvoke := Code.width_nonneg (Code.drop args.length ++ Code.push .v0)
    rw [Code.expr, Code.invoke, (hS.calls hfind hbinding hf).1]
    refine width_pos_right _ ?_
    rw [Code.width_cons, Code.width_op]
    omega
  | unary note op operand =>
    rw [Code.expr]
    exact width_pos_right _ (width_pos_left (width_pop_pos _) _)
  | binary note op left right =>
    rw [Code.expr]
    split
    · exact width_pos_right _ (width_pos_left (width_pos_left (width_pop_pos _) _) _)
    · exact width_pos_right _ (width_pos_right _ (width_pos_left (width_pop_pos _) _))
  | misfit note kind =>
    exact htyped.elim

/-- Every statement has code. -/
theorem width_stmt_pos (hS : S.Sound) {result : Ty} {st : Stmt}
    (hok : StmtOk S.lit S.σ S.Γ result st) (function : String) :
    0 < Code.width (Code.stmt S.env function st c) := by
  cases st with
  | increment span target | decrement span target =>
    exact width_onPlace_pos hS hok.1 hok.2 (.inl (.inl rfl)) fun v offset =>
      width_pos_right _ (by simp)
  | read span target =>
    rw [Code.stmt]
    exact width_pos_left (by simp) _
  | loop span cond body =>
    rw [Code.stmt, Code.width_cons, Code.width_label, Int.zero_add]
    exact width_pos_right _ (width_pos_left (width_pop_pos _) _)
  | ret span value =>
    cases value with
    | none => simp [Code.stmt]
    | some e =>
      rw [Code.stmt]
      exact width_pos_right _ (width_pos_left (width_pop_pos _) _)
  | misfit span kind =>
    exact hok.elim
  | assign span e | call span e =>
    rw [Code.stmt]
    exact width_pos_right _ (width_pop_pos _)
  | write span e =>
    rw [Code.stmt]
    exact width_pos_right _ (width_pos_left (width_pop_pos _) _)
  | ifThen span cond body =>
    rw [Code.stmt]
    exact width_pos_right _ (width_pos_left (width_pop_pos _) _)
  | ifElse span cond body other =>
    rw [Code.stmt]
    exact width_pos_right _ (width_pos_left (width_pop_pos _) _)

end Scene

namespace Loaded

variable {X : Loaded} {before before' : List Decl} {d d' : FnDecl} {f f' : Function}
  {visible visible' : Scope} {frame frame' pc : Int} {s : State} {m m' : Moment} {k : Nat}

/-- Where the code of a function ends. -/
theorem Stands.width_function (h : X.Stands before d f visible frame) :
    X.start before + Code.width (Code.function X.env d (counters before)) =
      X.finish before d frame + Code.width (Code.epilogue d.name.name) := by
  simp only [Code.function, h.recorded, Option.getD_some, Code.width_append, Code.width_cons,
    Code.width_label, width_entry, finish, body, framed]
  omega

/-- The code of a function ends before that of a later one starts. -/
theorem Stands.finish_le (h : X.Stands before d f visible frame) (mid : List Decl) :
    X.finish before d frame + Code.width (Code.epilogue d.name.name) ≤
      X.start (before ++ .fn d :: mid) := by
  have hmid := Code.width_nonneg (Code.decls X.env mid (Code.declAfter (.fn d) (counters before)))
  have hlater : X.start (before ++ .fn d :: mid) = X.start before +
      (Code.width (Code.function X.env d (counters before)) +
        Code.width (Code.decls X.env mid (Code.declAfter (.fn d) (counters before)))) := by
    rw [start, start, decls_append, Code.width_append, Code.decls, Code.width_append]
    rfl
  have := h.width_function
  omega

/-- A place in the code belongs to one function only. -/
theorem Stands.unique (h : X.Stands before d f visible frame)
    (h' : X.Stands before' d' f' visible' frame') (hlo : X.start before ≤ pc)
    (hhi : pc < X.finish before d frame + Code.width (Code.epilogue d.name.name))
    (hlo' : X.start before' ≤ pc)
    (hhi' : pc < X.finish before' d' frame' + Code.width (Code.epilogue d'.name.name)) :
    before = before' ∧ d = d' ∧ frame = frame' := by
  obtain ⟨after, hdecls⟩ := h.position
  obtain ⟨after', hdecls'⟩ := h'.position
  have hframes : d = d' → frame = frame' := by
    rintro rfl
    simpa [h.recorded] using h'.recorded
  rcases List.append_eq_append_iff.mp (hdecls.symm.trans hdecls') with
    ⟨mid, rfl, hmid⟩ | ⟨mid, rfl, hmid⟩
  · cases mid with
    | nil =>
      obtain ⟨rfl, -⟩ : d = d' ∧ after = after' := by simpa using hmid
      exact ⟨by simp, rfl, hframes rfl⟩
    | cons e mid =>
      obtain ⟨rfl, -⟩ := List.cons.inj hmid
      have := h.finish_le mid
      omega
  · cases mid with
    | nil =>
      obtain ⟨rfl, -⟩ : d' = d ∧ after' = after := by simpa using hmid
      exact ⟨by simp, rfl, hframes rfl⟩
    | cons e mid =>
      obtain ⟨rfl, -⟩ := List.cons.inj hmid
      have := h'.finish_le mid
      omega

/-- Wherever the machine is in the body of a function, it is below the frame of the function. -/
theorem Within.below (hw : X.Within s) (h : X.Stands before d f visible frame)
    (hlo : X.framed before frame ≤ s.pc) (hhi : s.pc < X.finish before d frame) :
    s.reg "$fp" ≤ stackTop ∧ s.reg "$sp" ≤ s.reg "$fp" - 8 - frame := by
  obtain ⟨before', d', f', visible', frame', h', hlo', hhi', hbelow⟩ := hw
  have hprologue := Code.width_nonneg (Code.prologue frame)
  have hepilogue := Code.width_nonneg (Code.epilogue d.name.name)
  have hstart : X.start before ≤ s.pc := by
    simp only [framed] at hlo
    omega
  obtain ⟨rfl, rfl, rfl⟩ := h.unique h' hstart (by omega) hlo' hhi'
  exact hbelow hlo hhi

/-- The machine that is at the end of a function does not come back to the body in the same
activation. -/
theorem departs (h : X.Stands before d f visible frame) (hpc : m.state.pc = X.finish before d frame)
    (htop : wrap (m.state.reg "$fp") = m.state.reg "$fp") (hclear : ClearFor X.image k m)
    {R : Moment → Prop} (hR : ∀ t, R t → m.depth ≤ t.depth) (hpath : Path X.image R m k m')
    (hdepth : m.depth ≤ m'.depth) : m'.depth = m.depth ∧ X.finish before d frame ≤ m'.state.pc ∧
      m'.state.pc < X.finish before d frame + Code.width (Code.epilogue d.name.name) := by
  let P : Moment → Prop := fun t => t.depth = m.depth ∧ X.finish before d frame ≤ t.state.pc ∧
    t.state.pc < X.finish before d frame + Code.width (Code.epilogue d.name.name)
  have hP : X.Ends before d frame m.depth P := fun s hlo hhi => ⟨rfl, hlo, hhi⟩
  by_cases hmain : d.name.name = "main"
  · have hmeets : Meets X.image (k + 1) P m (storeOf X.layout 0 m.state) (throw .finished)
        fun (_ : Unit) _ _ => False := halts hP h hmain hpc rfl
    rcases hmeets.reaches hpath (Nat.lt_succ_self k) hclear with hPm | ⟨_, _, _, _, -, hfalse, -⟩
    · exact hPm
    · exact hfalse.elim
  · have hmeets : Meets X.image (k + 1) P m (storeOf X.layout 0 m.state) (pure ())
        fun _ _ t => t.depth = m.depth - 1 :=
      epilogue hP h hmain hpc htop fun t _ _ _ _ _ _ _ => Meets.pure rfl
    rcases hmeets.reaches hpath (Nat.lt_succ_self k) hclear with
      hPm | ⟨_, _, _, t, -, hleft, rfl | ⟨hRt, -⟩⟩
    · exact hPm
    · omega
    · have := hR t hRt
      omega

def piece (X : Loaded) (before : List Decl) (d : FnDecl) (visible : Scope) (frame : Int) (fuel : Nat)
    (m : Moment) (lo hi : Int) : Routine :=
  X.routine (During m lo hi) m.depth fuel lo hi before d visible frame (m.state.reg "$fp")

theorem piece_activation (hX : X.Sound) (h : X.Stands before d f visible frame) (fuel : Nat)
    (lo hi : Int) (htop : m.state.reg "$fp" ≤ stackTop) :
    (X.piece before d visible frame fuel m lo hi).A.Sound X.image where
  frame_nonneg := h.nonneg
  fp_le := htop
  data := hX.data
  holds _ hlo hhi _ _ := .inr ⟨rfl, hlo, hhi⟩

theorem piece_sound (hX : X.Sound) (h : X.Stands before d f visible frame) (fuel : Nat) (lo hi : Int)
    (htop : m.state.reg "$fp" ≤ stackTop) : (X.piece before d visible frame fuel m lo hi).Sound :=
  routine_sound hX (piece_activation hX h fuel lo hi htop)
    (fun _ _ hle _ => .inl (Int.lt_of_add_one_le hle)) (calls hX fuel) h

/-- The store that a function finds in memory where some scopes are open. -/
def found (X : Loaded) (locals : List Scope) (s : State) : Store :=
  storeOf (layoutOf X.env.arena X.image X.globals locals) (s.reg "$fp") s

/-- The machine at a place in the body of a function is ready for the code there. -/
theorem Within.ready (hw : X.Within m.state) (hclear : Clear X.image m.state)
    (h : X.Stands before d f visible frame) (fuel : Nat) {lo hi : Int} (locals : List Scope) {items : List Code.Item}
    (hlo : X.framed before frame ≤ m.state.pc) (hhi : m.state.pc < X.finish before d frame)
    (hplaced : CodeAt X.image m.state.pc items) (hlo' : lo ≤ m.state.pc)
    (hhi' : m.state.pc + Code.width items ≤ hi) :
    ((X.piece before d visible frame fuel m lo hi).scene locals).Ready items
      (X.found locals m.state) m.state where
  placed := hplaced
  lo := hlo'
  hi := hhi'
  inside := by
    refine ⟨rfl, (hw.below h hlo hhi).2, ?_⟩
    have hdata := hclear.1
    have hlowest := lowest_le X.image m.state
    show X.image.dataNext ≤ _
    omega
  agrees := agrees_storeOf _ _ _

def partOf (X : Loaded) (d : FnDecl) (visible : Scope) (frame lo hi : Int) : Frame where
  image := X.image
  env := X.env
  lit := X.lit
  visible := visible
  function := d.name.name
  frame := frame
  lo := lo
  hi := hi

def bodyOf (X : Loaded) (before : List Decl) (d : FnDecl) (visible : Scope) (frame : Int) : Frame :=
  X.partOf d visible frame (X.framed before frame) (X.finish before d frame)

/-- The sites of a function are those of the statements of its body. -/
theorem Stands.sites_eq (h : X.Stands before d f visible frame) {scope : Scope}
    (hscope : Declares (shape X.env.arena) (d.formals ++ d.body.decls) scope) :
    Site.ofFunction X.env before d = Site.ofStmts X.env d.name.name [scope] d.body.stmts
      (counters before) (X.body before d frame) := by
  have hstart : Code.width (Code.decls X.env before fun _ => 0) +
      Code.width (Code.entry X.env d ((X.env.frames.lookup d.name.name).getD 0)) =
      X.body before d frame := by
    rw [h.recorded, Option.getD_some, width_entry, body, framed, start]
    omega
  rw [Site.ofFunction, hstart, scopeOf_eq hscope]
  rfl

/-- All sites of a function are found in its code. -/
theorem found_function (hX : X.Sound) (h : X.Stands before d f visible frame) :
    ∀ site ∈ Site.ofFunction X.env before d, (X.bodyOf before d visible frame).Found site := by
  obtain ⟨-, -, -, scope, hscope, -, hbody⟩ := h.ok
  have hcopy := Code.width_nonneg (Code.copyArguments X.env d.formals)
  have hholds : (X.bodyOf before d visible frame).Holds
      (Code.stmts X.env d.name.name d.body.stmts (counters before)) (X.body before d frame) := by
    refine ⟨h.body_placed, ?_, Int.le_of_eq (finish_eq X before d frame).symm⟩
    show X.framed before frame ≤ _
    rw [body]
    omega
  rw [h.sites_eq hscope]
  exact Frame.found_stmts hX.symbols d.body.stmts hbody (h.body_slots hscope) hholds

variable {site : Site}

/-- The code of a piece of a function takes a place at least. -/
theorem width_code_pos (hX : X.Sound) (h : X.Stands before d f visible frame) {lo hi : Int}
    (hsite : (X.partOf d visible frame lo hi).Found site) :
    0 < Code.width (site.code X.env d.name.name) := by
  have hR : (X.routine (fun _ => True) 0 0 0 0 before d visible frame stackTop).Sound :=
    routine_sound hX ⟨h.nonneg, Int.le_refl _, hX.data, fun _ _ _ _ _ => trivial⟩
      (fun _ _ _ _ => trivial) (calls hX 0) h
  obtain ⟨part, c, start, locals⟩ := site
  cases part with
  | expr e =>
    obtain ⟨-, hslots, t, htyped, hoperand⟩ := hsite
    exact Scene.width_expr_pos (hR.scenes hslots) htyped hoperand
  | stmt st =>
    obtain ⟨-, hslots, result, hok⟩ := hsite
    exact Scene.width_stmt_pos (hR.scenes (hslots.sublist (List.sublist_append_left _ _))) hok _

/-- The machine that has come to the end of a piece of code is no longer in it. -/
theorem not_during {lo hi : Int} (hdepth : m'.depth = m.depth) (hpc : m'.state.pc = hi) :
    ¬ During m lo hi m' := by
  rintro (hdeep | ⟨-, -, hlt⟩) <;> omega

/-- The machine that comes to a site is in the body of the function. -/
theorem at_site (hX : X.Sound) (h : X.Stands before d f visible frame)
    (hsite : (X.bodyOf before d visible frame).Found site) (hpc : m.state.pc = site.start) :
    X.framed before frame ≤ m.state.pc ∧ m.state.pc < X.finish before d frame := by
  have hpos := width_code_pos hX h hsite
  have hlo : X.framed before frame ≤ site.start := hsite.holds.lo
  have hhi : site.start + Code.width (site.code X.env d.name.name) ≤ X.finish before d frame :=
    hsite.holds.hi
  omega

/-- The code of an expression that is run to its end pushes the value of the expression. -/
theorem expr_pushes (hX : X.Sound) (h : X.Stands before d f visible frame)
    (hsite : site ∈ Site.ofFunction X.env before d) {e : Expr} (he : site.part = .expr e)
    (hpc : m.state.pc = site.start) (hw : X.Within m.state) (hclear : ClearFor X.image (k + 1) m)
    (harrives : Arrives X.image m k m' (site.stop X.env d.name.name)) :
    m'.state.reg "$fp" = m.state.reg "$fp" ∧ m'.state.reg "$sp" = m.state.reg "$sp" - 4 ∧
      ∃ drawn v w', Settles (Reference.expr (Reference.call X.program (k + 1)) (namesOf site.locals) e)
        (X.found site.locals m.state) drawn (.ok v w') ∧
        Denotes X.image v (m'.state.load (m.state.reg "$sp")) := by
  have hfound := found_function hX h _ hsite
  obtain ⟨hlo, hhi⟩ := at_site hX h hfound hpc
  obtain ⟨part, c, start, locals⟩ := site
  obtain rfl : part = .expr e := he
  obtain rfl : m.state.pc = start := hpc
  obtain ⟨hholds, hslots, t, htyped, hoperand⟩ := hfound
  obtain ⟨hpath, hdepth, hstop⟩ := harrives
  have hready := hw.ready (hclear (Nat.succ_pos k) (.refl (P := fun _ => True) m)) h (k + 1) locals
    hlo hhi hholds.placed (Int.le_refl _) (Int.le_refl _)
  have hR := piece_sound hX h (k + 1) m.state.pc
    (m.state.pc + Code.width (Code.expr X.env e c)) (hw.below h hlo hhi).1
  have hmeets := Scene.simulates (hR.scenes hslots) e c t _ _ htyped hoperand hready
  rcases hmeets.reaches hpath (Nat.lt_succ_self k) (fun hj => hclear (by omega)) with
    hduring | ⟨drawn, v, w', _, hsettles, ⟨u, rfl, hu⟩, hm' | ⟨hbefore, -⟩⟩
  · exact absurd hduring (not_during hdepth hstop)
  · subst hm'
    exact ⟨hu.inside.fp, hu.sp, drawn, v, w', hsettles, hu.value⟩
  · exact absurd hu.pc (hbefore.2 rfl)

/-- The code of a statement that is run to its end leaves the pointers as they were. -/
theorem stmt_keeps (hX : X.Sound) (h : X.Stands before d f visible frame)
    (hsite : site ∈ Site.ofFunction X.env before d) {st : Stmt} (hst : site.part = .stmt st)
    (hpc : m.state.pc = site.start) (hw : X.Within m.state) (hclear : ClearFor X.image (k + 1) m)
    (harrives : Arrives X.image m k m' (site.stop X.env d.name.name)) :
    m'.state.reg "$fp" = m.state.reg "$fp" ∧ m'.state.reg "$sp" = m.state.reg "$sp" := by
  have hfound := found_function hX h _ hsite
  obtain ⟨hlo, hhi⟩ := at_site hX h hfound hpc
  obtain ⟨part, c, start, locals⟩ := site
  obtain rfl : part = .stmt st := hst
  obtain rfl : m.state.pc = start := hpc
  obtain ⟨hholds, hslots, result, hok⟩ := hfound
  obtain ⟨hpath, hdepth, hstop⟩ := harrives
  have hready := hw.ready (hclear (Nat.succ_pos k) (.refl (P := fun _ => True) m)) h (k + 1) locals
    hlo hhi hholds.placed (Int.le_refl _) (Int.le_refl _)
  have hR := piece_sound hX h (k + 1) m.state.pc
    (m.state.pc + Code.width (Code.stmt X.env d.name.name st c)) (hw.below h hlo hhi).1
  have hmeets := Routine.runsStmt hR st hok hslots hready
  rcases hmeets.reaches hpath (Nat.lt_succ_self k) (fun hj => hclear (by omega)) with
    hduring | ⟨drawn, flow, w', _, -, ⟨u, rfl, hu⟩, hm' | ⟨hbefore, i, j, hk, hfirst, hrest⟩⟩
  · exact absurd hduring (not_during hdepth hstop)
  · subst hm'
    exact ⟨hu.inside.fp, hu.sp⟩
  · have hne := hbefore.2 rfl
    cases flow with
    | next => exact absurd hu.pc hne
    | returned value =>
      -- a return has gone to the end of the function, from where no path leads back
      have hexit : u.pc = X.finish before d frame := hu.pc
      have hwrap := hu.inside.wrap_fp (piece_activation hX h (k + 1) m.state.pc
        (m.state.pc + Code.width (Code.stmt X.env d.name.name st c)) (hw.below h hlo hhi).1)
      have hafter : ClearFor X.image j ⟨m.depth, u⟩ := by
        refine ClearFor.after (n := i) (fun hlt => hclear ?_) hfirst
        omega
      have hback := (departs (m := ⟨m.depth, u⟩) h hexit hwrap hafter (fun t ht => ht.1) hrest
        (Int.le_of_eq hdepth.symm)).2.1
      have hstop' : m'.state.pc ≤ X.finish before d frame := hstop ▸ hholds.hi
      exact absurd (hexit.trans ((Int.le_antisymm hback hstop').trans hstop)) hne

/-- The call instruction of a call stands after the code of the arguments. -/
theorem jal_at_site (hX : X.Sound) (h : X.Stands before d f visible frame)
    (hsite : (X.bodyOf before d visible frame).Found site) {note : Note} {callee : Ident}
    {args : List Expr} (hcall : site.part = .expr (.call note callee args)) :
    ∃ before' d' g visible' frame', X.Stands before' d' g visible' frame' ∧
      d'.name.name = callee.name ∧ Reference.function? X.program d'.name.name = some d' ∧
      (X.bodyOf before d visible frame).Holds [.op (.jal (functionLabel d'.name.name))]
        (site.start + Code.width (Code.exprs X.env args site.counters)) := by
  obtain ⟨part, c, start, locals⟩ := site
  obtain rfl : part = .expr (.call note callee args) := hcall
  obtain ⟨hholds, hslots, t, htyped, -⟩ := hsite
  obtain ⟨i, g, hfind, hbinding, hg, -, -⟩ := htyped
  have hg : X.env.arena.get? i = some (.func g) := shape_func hg
  obtain ⟨before', d', visible', frame', h', hname, hfunction⟩ := called hX h hslots hfind hg
  rw [← hname] at hfunction
  refine ⟨before', d', g, visible', frame', h', hname, hfunction, ?_⟩
  have hcode : Code.expr X.env (.call note callee args) c = Code.exprs X.env args c ++
      ([.op (.jal (functionLabel d'.name.name))] ++ (Code.drop args.length ++ Code.push .v0)) := by
    have hlabel : g.name = d'.name.name := h'.ok.1
    simp [Code.expr, Code.invoke, Lowering.symbolOf, hbinding, hg, hlabel]
  have hholds : (X.bodyOf before d visible frame).Holds (Code.expr X.env (.call note callee args) c)
    start := hholds
  rw [hcode] at hholds
  exact (hholds.right rfl).left

/-- The words above the stack pointer that are the arguments of a call. -/
def stacked (s : State) (count : Nat) : List Word :=
  (List.range count).map fun (j : Nat) => Int32.ofInt (s.load (s.reg "$sp" + 4 * (count - j)))

/-- A call in the body of a function that returns goes on after the call instruction, with the
pointers as they were and all words above the stack pointer. -/
theorem call_keeps (hX : X.Sound) (h : X.Stands before d f visible frame)
    (hsite : site ∈ Site.ofFunction X.env before d) {note : Note} {callee : Ident} {args : List Expr}
    (hcall : site.part = .expr (.call note callee args))
    (hpc : m.state.pc = site.start + Code.width (Code.exprs X.env args site.counters))
    (hw : X.Within m.state) (hclear : ClearFor X.image (k + 1) m) (hreturns : Returns X.image m k m') :
    m'.state.pc = m.state.pc + 1 ∧ m'.state.reg "$fp" = m.state.reg "$fp" ∧
      m'.state.reg "$sp" = m.state.reg "$sp" ∧
      ∀ a, m.state.reg "$sp" < a → X.image.dataNext ≤ a → m'.state.load a = m.state.load a := by
  obtain ⟨before', d', g, visible', frame', h', -, hfunction, hjal⟩ :=
    jal_at_site hX h (found_function hX h _ hsite) hcall
  rw [← hpc] at hjal
  have hlo : X.framed before frame ≤ m.state.pc := hjal.lo
  have hhi : m.state.pc < X.finish before d frame := by
    have hhi : m.state.pc + 1 ≤ X.finish before d frame := hjal.hi
    omega
  have hclear₀ := hclear (Nat.succ_pos _) (.refl (P := fun _ => True) m)
  have hready := hw.ready hclear₀ h 0 site.locals hlo hhi hjal.placed (Int.le_refl _) (Int.le_refl _)
  have hlength : (stacked m.state g.params.length).length = g.params.length := by simp [stacked]
  have hwords : ∀ j (hj : j < (stacked m.state g.params.length).length),
      Int32.ofInt (m.state.load (m.state.reg "$sp" +
        4 * ((stacked m.state g.params.length).length - j))) =
        (stacked m.state g.params.length)[j] := by
    intro j hj
    simp [stacked]
  obtain ⟨hlink, heffect, hentered⟩ := links hX (piece_activation hX h 0 m.state.pc (m.state.pc + 1)
    (hw.below h hlo hhi).1) h h' hready hclear₀ hwords
  obtain ⟨t, hnext, hpath, hdepth⟩ := hreturns
  have hhas : X.image.Has m.state.pc (.jal (functionLabel d'.name.name)) := hjal.placed.1
  obtain rfl : t = ⟨m.depth + 1, X.linked before' m.state⟩ :=
    hnext.unique ⟨(step_eq hhas).trans heffect, by rw [opened_eq hhas]; rfl⟩
  have hcovers : X.Covers (m.depth + 1) fun t => m.depth < t.depth := fun _ _ hle _ =>
    Int.lt_of_add_one_le hle
  have hmeets := calls hX (k + 1) hcovers h' hfunction hlength hentered
  have hafter : ClearFor X.image k ⟨m.depth + 1, X.linked before' m.state⟩ :=
    ClearFor.after (n := 1) (fun hlt => hclear (by omega))
      (.step (P := fun _ => True) trivial hnext (.refl _))
  rcases hmeets.reaches hpath (Nat.lt_succ_self k) hafter with
    hdeep | ⟨drawn, v, w', _, -, ⟨u, rfl, hu⟩, hm' | ⟨hdeep, -⟩⟩
  · omega
  · subst hm'
    refine ⟨?_, ?_, ?_, fun a ha hdata => ?_⟩
    · simpa [linked, hlink] using hu.pc
    · simpa [linked] using hu.fp
    · simpa [linked] using hu.sp
    · simpa [linked] using hu.same a (by simpa [linked] using ha) hdata
  · have hdeep : m.depth < m.depth + 1 - 1 := hdeep
    omega

end Loaded

section Programs

variable {text file asm : String} {a : Analysis} {p : Program} {comments : Bool} {inputs : List Int}
  {steps n : Nat} {m : Moment}

/-- The machine that has loaded a program comes to a moment after some steps. -/
def Visits (asm : String) (inputs : List Int) (n : Nat) (m : Moment) : Prop :=
  ∃ pc ∈ (load asm).1.textLabels["main"]?,
    Path (load asm).1 (fun _ => True) ⟨0, startAt (load asm).1 inputs pc⟩ n m

/-- The store that a machine at work on a program has in its memory, where some scopes are open. -/
def storeAt (a : Analysis) (p : Program) (image : Image) (locals : List Scope) (s : State) : Store :=
  storeOf (layoutOf a.arena image (globalsOf p) locals) (s.reg "$fp") s

/-- From wherever a run comes to, the stack is clear for as many steps as are left. -/
theorem Visits.clear (h : Visits asm inputs n m) (hnumbered : Numbered (load asm).1)
    (hclear : StackClear asm inputs steps) {k : Nat} (hk : n + k ≤ steps) :
    ClearFor (load asm).1 k m := by
  obtain ⟨pc, hpc, hpath⟩ := h
  refine ClearFor.after (n := n) (fun hj hrest => clear_of_above hnumbered ?_) hpath
  exact (hclear pc hpc).above hrest (by omega)

/-- Wherever a run comes to, it is in the code of a function. -/
theorem Loadable.within {lit : String → Prop} {globals : Scope} (h : Loadable lit a p globals)
    (hvisits : Visits (render comments (Code.linesOf (codeOf a p))) inputs n m)
    (hnumbered : Numbered (load (render comments (Code.linesOf (codeOf a p)))).1)
    (hclear : StackClear (render comments (Code.linesOf (codeOf a p))) inputs steps) (hn : n < steps) :
    (loadedOf comments lit a p globals).Within m.state := by
  obtain ⟨pc, hpc, hpath⟩ := hvisits
  have hstays := hclear pc hpc
  rw [h.load_eq comments] at hpc hpath hstays hnumbered
  obtain ⟨pc', hpc', hfollows⟩ := h.follows comments inputs
  obtain rfl : pc = pc' := by simpa [Option.mem_def.mp hpc] using hpc'
  have hcovers : (loadedOf comments lit a p globals).Covers 0
      fun t => (loadedOf comments lit a p globals).Within t.state := fun _ _ _ hw => hw
  have habove : Above (imageOf comments a p) (startAt (imageOf comments a p) inputs pc) :=
    hstays.above (m := ⟨0, _⟩) (.refl (P := fun _ => True) _) (by omega)
  have hclear : ClearFor (imageOf comments a p) n ⟨0, startAt (imageOf comments a p) inputs pc⟩ :=
    fun hj hrest => clear_of_above hnumbered (hstays.above hrest (by omega))
  rcases (hfollows habove hcovers (n + 1)).reaches hpath (Nat.lt_succ_self n) hclear with
    hw | ⟨drawn, v, w', t, hsettles, -⟩
  · exact hw
  · exact absurd (hsettles.draws []) (call_main_ne_ok _ _ _ _ _ _)

/-- Wherever a run of an accepted program comes to the code of an expression, the code that is run to
its end in the same activation leaves the frame pointer as it was and the value of the expression in one
more word on the stack. The code of a statement that is run to its end leaves both pointers as they
were. A call that returns goes on after the call instruction with both pointers as they were, and no word
of the stack above the stack pointer has changed. -/
theorem stack_is_kept (haccepts : Accepts text file a) (hplain : PlainLiterals text)
    (hp : a.program = some p) (hasm : (a.assembly comments).result = some asm)
    (hnumbered : Numbered (load asm).1) (hclear : StackClear asm inputs steps)
    {before after : List Decl} {d : FnDecl} (hdecls : p.decls = before ++ .fn d :: after)
    {site : Site} (hsite : site ∈ Site.ofFunction (envOf a) before d) (hvisits : Visits asm inputs n m) :
    CodeAt (load asm).1 site.start (site.code (envOf a) d.name.name) ∧
    (∀ e, site.part = .expr e → m.state.pc = site.start → ∀ k m', n + k < steps →
      Arrives (load asm).1 m k m' (site.stop (envOf a) d.name.name) →
      m'.state.reg "$fp" = m.state.reg "$fp" ∧ m'.state.reg "$sp" = m.state.reg "$sp" - 4 ∧
      ∃ fuel drawn v w', Settles (Reference.expr (Reference.call p fuel) (namesOf site.locals) e)
        (storeAt a p (load asm).1 site.locals m.state) drawn (.ok v w') ∧
        Denotes (load asm).1 v (m'.state.load (m.state.reg "$sp"))) ∧
    (∀ st, site.part = .stmt st → m.state.pc = site.start → ∀ k m', n + k < steps →
      Arrives (load asm).1 m k m' (site.stop (envOf a) d.name.name) →
      m'.state.reg "$fp" = m.state.reg "$fp" ∧ m'.state.reg "$sp" = m.state.reg "$sp") ∧
    ∀ note callee args, site.part = .expr (.call note callee args) →
      m.state.pc = site.start + Code.width (Code.exprs (envOf a) args site.counters) →
      (load asm).1.Has m.state.pc (.jal (functionLabel callee.name)) ∧
      ∀ k m', n + k < steps → Returns (load asm).1 m k m' →
        m'.state.pc = m.state.pc + 1 ∧ m'.state.reg "$fp" = m.state.reg "$fp" ∧
        m'.state.reg "$sp" = m.state.reg "$sp" ∧
        ∀ address, m.state.reg "$sp" < address → (load asm).1.dataNext ≤ address →
          m'.state.load address = m.state.load address := by
  obtain ⟨q, globals, hloadable, rfl⟩ := haccepts.loadable hplain hasm
  obtain rfl : p = q := by simpa [hp] using hloadable.analysed.program
  obtain rfl : globals = globalsOf p := by
    simpa [globalsOf] using scopeOf_decls hloadable.analysed.decls
  have hX := hloadable.sound comments
  obtain ⟨f, visible, frame, hstands⟩ := hloadable.standing comments hdecls
  have hwithin : ∀ {k}, n + k < steps →
      (loadedOf comments OneLine a p (globalsOf p)).Within m.state :=
    fun hk => hloadable.within hvisits hnumbered hclear (by omega)
  have hclear' : ∀ {k}, n + k < steps → ClearFor (load _).1 (k + 1) m :=
    fun hk => hvisits.clear hnumbered hclear hk
  rw [hloadable.load_eq comments] at hclear' ⊢
  have hfound := Loaded.found_function hX hstands _ hsite
  refine ⟨hfound.holds.placed, fun e he hpc k m' hk harrives => ?_, fun st hst hpc k m' hk harrives => ?_,
    fun note callee args hcall hpc => ⟨?_, fun k m' hk hreturns => ?_⟩⟩
  · obtain ⟨hfp, hsp, hvalue⟩ :=
      Loaded.expr_pushes hX hstands hsite he hpc (hwithin hk) (hclear' hk) harrives
    exact ⟨hfp, hsp, k + 1, hvalue⟩
  · exact Loaded.stmt_keeps hX hstands hsite hst hpc (hwithin hk) (hclear' hk) harrives
  · obtain ⟨before', d', g, visible', frame', -, hname, -, hjal⟩ :=
      Loaded.jal_at_site hX hstands hfound hcall
    rw [hpc, ← hname]
    exact hjal.placed.1
  · exact Loaded.call_keeps hX hstands hsite hcall hpc (hwithin hk) (hclear' hk) hreturns

end Programs

section Sample

/-- The moment after some steps, before each of which something holds. -/
def follow (image : Image) (P : Moment → Prop) [DecidablePred P] : Nat → Moment → Option Moment
  | 0, m => some m
  | n + 1, m =>
    if P m then
      match step image m.state with
      | .ok false s => follow image P n ⟨m.depth + opened image m.state, s⟩
      | _ => none
    else none

theorem path_of_follow {image : Image} {P : Moment → Prop} [DecidablePred P] {n : Nat}
    {m m' : Moment} (h : follow image P n m = some m') : Path image P m n m' := by
  induction n generalizing m with
  | zero =>
    obtain rfl : m = m' := by simpa [follow] using h
    exact .refl m
  | succ n ih =>
    rw [follow] at h
    split at h
    · rename_i hP
      split at h
      · rename_i s hstep
        exact .step hP ⟨hstep, rfl⟩ (ih h)
      · simp at h
    · simp at h

def sampleImage : Image := imageOf false sampleAnalysis sampleProgram

def sampleStart : Moment := ⟨0, startAt sampleImage [21] (sampleImage.textLabels["main"]?.getD 0)⟩

/-- A moment of the run of the sample. -/
def sampleMoment (n : Nat) : Moment := (follow sampleImage (fun _ => True) n sampleStart).getD sampleStart

theorem sample_visits {n : Nat} (h : (follow sampleImage (fun _ => True) n sampleStart).isSome) :
    Visits sampleCode [21] n (sampleMoment n) := by
  obtain ⟨m, hm⟩ := Option.isSome_iff_exists.mp h
  obtain ⟨pc, hstarted⟩ :=
    sample_accepts.started sample_plain sample_program sample_code [21]
  have hpc := hstarted.label
  refine ⟨pc, hpc, ?_⟩
  rw [sample_loads] at hpc ⊢
  have hpc : sampleImage.textLabels["main"]? = some pc := hpc
  have hpath := path_of_follow hm
  rw [sampleStart, hpc, Option.getD_some] at hpath
  rw [sampleMoment, hm]
  exact hpath

/-- The function of the sample that is called first. -/
def sampleMain : FnDecl :=
  match sampleProgram.decls with
  | [_, .fn d] => d
  | _ => { result := { name := "" }, name := { name := "" }, formals := [], body := .mk none [] [] }

theorem sample_decls : sampleProgram.decls = sampleProgram.decls.take 1 ++ .fn sampleMain :: [] := by
  have hshape : (match sampleProgram.decls with | [_, .fn _] => true | _ => false) = true := by
    decide +kernel
  unfold sampleMain
  split at hshape
  · rename_i first d heq
    simp [heq]
  · simp at hshape

def sampleSites : List Site :=
  Site.ofFunction (envOf sampleAnalysis) (sampleProgram.decls.take 1) sampleMain

def sampleSite (k : Nat) : Site := sampleSites.getD k ⟨.stmt (.misfit none ""), fun _ => 0, 0, []⟩

theorem sample_site_mem {k : Nat} (hk : k < sampleSites.length) : sampleSite k ∈ sampleSites := by
  simp [sampleSite, List.getElem?_eq_getElem hk]

/-- The machine comes to a place, as can be seen by following it. -/
def arrives? (m : Moment) (k : Nat) (pc : Int) : Bool :=
  (follow sampleImage (fun t => m.depth ≤ t.depth ∧ (t.depth = m.depth → t.state.pc ≠ pc)) k m).any
    fun m' => m'.depth = m.depth ∧ m'.state.pc = pc

/-- The machine makes a call that returns, as can be seen by following it. -/
def returns? (m : Moment) (k : Nat) : Bool :=
  ((follow sampleImage (fun _ => True) 1 m).bind
    (follow sampleImage (fun t => m.depth < t.depth) k)).any fun m' => m'.depth = m.depth

theorem sample_arrives {m : Moment} {k : Nat} {pc : Int} (h : arrives? m k pc = true) :
    ∃ m', Arrives (load sampleCode).1 m k m' pc := by
  rw [sample_loads]
  rw [arrives?, Option.any_eq_true] at h
  obtain ⟨m', hm', hends⟩ := h
  exact ⟨m', path_of_follow hm', of_decide_eq_true hends⟩

theorem sample_returns {m : Moment} {k : Nat} (h : returns? m k = true) :
    ∃ m', Returns (load sampleCode).1 m k m' := by
  rw [sample_loads]
  rw [returns?, Option.any_eq_true] at h
  obtain ⟨m', hm', hends⟩ := h
  obtain ⟨t, ht, hm'⟩ := Option.bind_eq_some_iff.mp hm'
  cases path_of_follow ht with
  | step here next rest =>
    cases rest
    exact ⟨m', t, next, path_of_follow hm', of_decide_eq_true hends⟩

/-- What can be seen of the sample by following it: a statement and a call at one place, both run to
their ends, and a call instruction that returns. -/
def sampleSeen : Bool :=
  decide (2 < sampleSites.length) &&
  (match (sampleSite 1).part with | .stmt _ => true | _ => false) &&
  (match (sampleSite 2).part with
    | .expr (.call _ _ args) => decide ((sampleMoment 13).state.pc = (sampleSite 2).start +
        Code.width (Code.exprs (envOf sampleAnalysis) args (sampleSite 2).counters))
    | _ => false) &&
  (follow sampleImage (fun _ => True) 10 sampleStart).isSome &&
  (follow sampleImage (fun _ => True) 13 sampleStart).isSome &&
  decide ((sampleMoment 10).state.pc = (sampleSite 1).start) &&
  decide ((sampleMoment 10).state.pc = (sampleSite 2).start) &&
  arrives? (sampleMoment 10) 40 ((sampleSite 1).stop (envOf sampleAnalysis) sampleMain.name.name) &&
  arrives? (sampleMoment 10) 36 ((sampleSite 2).stop (envOf sampleAnalysis) sampleMain.name.name) &&
  returns? (sampleMoment 13) 29

theorem sample_seen : sampleSeen = true := by decide +kernel

/-- The three statements hold of the statement that writes the result of a call, of the call and of its
call instruction. -/
theorem sample_stack_is_kept :
    (∃ e m', (sampleSite 2).part = .expr e ∧ Arrives (load sampleCode).1 (sampleMoment 10) 36 m'
        ((sampleSite 2).stop (envOf sampleAnalysis) sampleMain.name.name) ∧
      m'.state.reg "$fp" = (sampleMoment 10).state.reg "$fp" ∧
      m'.state.reg "$sp" = (sampleMoment 10).state.reg "$sp" - 4 ∧
      ∃ fuel drawn v w', Settles (Reference.expr (Reference.call sampleProgram fuel)
        (namesOf (sampleSite 2).locals) e)
        (storeAt sampleAnalysis sampleProgram (load sampleCode).1 (sampleSite 2).locals
          (sampleMoment 10).state) drawn (.ok v w') ∧
        Denotes (load sampleCode).1 v (m'.state.load ((sampleMoment 10).state.reg "$sp"))) ∧
    (∃ st m', (sampleSite 1).part = .stmt st ∧ Arrives (load sampleCode).1 (sampleMoment 10) 40 m'
        ((sampleSite 1).stop (envOf sampleAnalysis) sampleMain.name.name) ∧
      m'.state.reg "$fp" = (sampleMoment 10).state.reg "$fp" ∧
      m'.state.reg "$sp" = (sampleMoment 10).state.reg "$sp") ∧
    ∃ m', Returns (load sampleCode).1 (sampleMoment 13) 29 m' ∧
      m'.state.pc = (sampleMoment 13).state.pc + 1 ∧
      m'.state.reg "$fp" = (sampleMoment 13).state.reg "$fp" ∧
      m'.state.reg "$sp" = (sampleMoment 13).state.reg "$sp" ∧
      ∀ a, (sampleMoment 13).state.reg "$sp" < a → (load sampleCode).1.dataNext ≤ a →
        m'.state.load a = (sampleMoment 13).state.load a := by
  have hseen := sample_seen
  simp only [sampleSeen, Bool.and_eq_true, decide_eq_true_eq] at hseen
  obtain ⟨⟨⟨⟨⟨⟨⟨⟨⟨hlength, hwrite⟩, hcall⟩, hvisits⟩, hvisits'⟩, hpc₁⟩, hpc₂⟩, harrives₁⟩, harrives₂⟩,
    hreturns⟩ := hseen
  split at hwrite
  · rename_i st hst
    split at hcall
    · rename_i note callee args hexpr
      obtain ⟨m₁, h₁⟩ := sample_arrives harrives₁
      obtain ⟨m₂, h₂⟩ := sample_arrives harrives₂
      obtain ⟨m₃, h₃⟩ := sample_returns hreturns
      have hsite₁ := sample_site_mem (k := 1) (by omega)
      have hsite₂ := sample_site_mem (k := 2) (by omega)
      obtain ⟨-, -, hstmt, -⟩ := stack_is_kept sample_accepts sample_plain sample_program sample_code
        sample_numbered (sample_clear 60) sample_decls hsite₁ (sample_visits hvisits)
      obtain ⟨-, hvalue, -, -⟩ := stack_is_kept sample_accepts sample_plain sample_program sample_code
        sample_numbered (sample_clear 60) sample_decls hsite₂ (sample_visits hvisits)
      obtain ⟨-, -, -, hjal⟩ := stack_is_kept sample_accepts sample_plain sample_program sample_code
        sample_numbered (sample_clear 60) sample_decls hsite₂ (sample_visits hvisits')
      exact ⟨⟨_, m₂, hexpr, h₂, hvalue _ hexpr hpc₂ 36 m₂ (by decide) h₂⟩,
        ⟨st, m₁, hst, h₁, hstmt st hst hpc₁ 40 m₁ (by decide) h₁⟩,
        m₃, h₃, (hjal note callee args hexpr (of_decide_eq_true hcall)).2 29 m₃ (by decide) h₃⟩
    · simp at hcall
  · simp at hwrite

end Sample

end CMinusMinus.Proofs
