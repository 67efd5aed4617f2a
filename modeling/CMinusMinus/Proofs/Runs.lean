import Mathlib.Algebra.Group.Int.Defs
import CMinusMinus.Proofs.Execution
import CMinusMinus.Proofs.Reference

/-!
Runs of the machine beside runs of the language. The machine meets a computation of the language from
some moment on if it comes to the same end: it goes on to a moment that is related to the result, or
stops as the computation does, or, if the computation runs out of fuel, takes at least as many
steps. The words that the computation draws because nothing determines them are those that the
machine has in their places. That the stack grows into the data is a case of its own, so that no
lemma about a piece of code has to rule it out.
-/
namespace CMinusMinus.Proofs

open Machine Reference

/-- The stack pointer, or what the next instruction lowers it to, if that one makes room on the
stack; the number is not wrapped around. -/
def lowest (image : Image) (s : State) : Int :=
  match image.fetch? s.pc with
  | some ⟨"subu", ["$sp", "$sp", amount], _⟩ =>
    match number amount.toList with
    | .ok n => min (s.reg "$sp") (s.reg "$sp" - n)
    | .error _ => s.reg "$sp"
  | _ => s.reg "$sp"

theorem lowest_eq {image : Image} {s : State} {amount : String} {line : Nat} {n : Int}
    (hfetch : image.fetch? s.pc = some ⟨"subu", ["$sp", "$sp", amount], line⟩) (hn : number amount.toList = .ok n) :
    lowest image s = min (s.reg "$sp") (s.reg "$sp" - n) := by
  simp only [lowest, hfetch, hn]

def opened (image : Image) (s : State) : Int :=
  match image.fetch? s.pc with
  | some i => if i.opcode = "jal" then 1 else if i.opcode = "jr" then -1 else 0
  | none => 0

/-- The stack is clear of the data, and a return address that is about to be taken down fits into a
register. -/
def Clear (image : Image) (s : State) : Prop :=
  image.dataNext ≤ lowest image s + 4 ∧ (opened image s = 1 → s.pc + 1 < 2 ^ 31)

theorem lowest_le (image : Image) (s : State) : lowest image s ≤ s.reg "$sp" := by
  unfold lowest
  split
  · split <;> omega
  · exact Int.le_refl _

/-- A moment of a run: the state of the machine, and how many calls are open. -/
structure Moment where
  depth : Int
  state : State

def Next (image : Image) (m m' : Moment) : Prop :=
  step image m.state = .ok false m'.state ∧ m'.depth = m.depth + opened image m.state

/-- Steps from one moment to another; at each moment before the last one a property holds. -/
inductive Path (image : Image) (P : Moment → Prop) : Moment → Nat → Moment → Prop
  | refl (m : Moment) : Path image P m 0 m
  | step {m m' m'' : Moment} {n : Nat} (here : P m) (next : Next image m m')
      (rest : Path image P m' n m'') : Path image P m (n + 1) m''

namespace Path

variable {image : Image} {P R : Moment → Prop} {m m' m'' : Moment} {n k : Nat}

theorem trans (h : Path image P m n m') (h' : Path image P m' k m'') :
    Path image P m (n + k) m'' := by
  induction h with
  | refl m => simpa using h'
  | step here next _ ih => rw [Nat.add_right_comm]; exact .step here next (ih h')

theorem mono (h : Path image P m n m') (hPR : ∀ t, P t → R t) : Path image R m n m' := by
  induction h with
  | refl m => exact .refl m
  | step here next _ ih => exact .step (hPR _ here) next ih

end Path

def leaving {α : Type} (unknowns : List Word) :
    EStateM.Result Halt Store α → EStateM.Result Halt Store α
  | .ok a w => .ok a { w with unknowns }
  | .error h w => .error h { w with unknowns }

/-- A computation comes to a result if it draws certain unknowns. If it can do without any, it draws
none. -/
structure Settles {α : Type} (x : EvalM α) (w : Store) (drawn : List Word)
    (r : EStateM.Result Halt Store α) : Prop where
  draws : ∀ rest, x { w with unknowns := drawn ++ rest } = leaving rest r
  strict : (∀ w', x { w with unknowns := [] } ≠ .error .undefined w') → drawn = []

/-- The machine stops at a moment with an outcome, after it has written a text. -/
def StopsAt (image : Image) (m : Moment) (error : Option Error) (output : String) : Prop :=
  ∃ t : State, t.output = output ∧ match error with
    | none => step image m.state = .ok true t
    | some e => step image m.state = .error e t

def Follows {α : Type} (image : Image) (fuel : Nat) (P : Moment → Prop) (m : Moment)
    (Q : α → Store → Moment → Prop) : EStateM.Result Halt Store α → Prop
  | .ok a w => ∃ n m', Path image P m n m' ∧ Q a w m'
  | .error .finished w => ∃ n m', Path image P m n m' ∧ P m' ∧ StopsAt image m' none w.output
  | .error .divisionByZero w =>
    ∃ n m', Path image P m n m' ∧ P m' ∧ StopsAt image m' (some .divisionByZero) w.output
  | .error .inputExhausted w =>
    ∃ n m', Path image P m n m' ∧ P m' ∧ StopsAt image m' (some .inputExhausted) w.output
  | .error .outOfFuel _ => ∃ n m', fuel ≤ n ∧ Path image P m n m'
  | .error .undefined _ => False

/-- The machine comes to a moment at which the stack is not clear. -/
def Overflows (image : Image) (P : Moment → Prop) (m : Moment) : Prop :=
  ∃ n m', Path image P m n m' ∧ P m' ∧ ¬ Clear image m'.state

def Meets {α : Type} (image : Image) (fuel : Nat) (P : Moment → Prop) (m : Moment) (w : Store)
    (x : EvalM α) (Q : α → Store → Moment → Prop) : Prop :=
  Overflows image P m ∨ ∃ drawn r, Settles x w drawn r ∧ Follows image fuel P m Q r

theorem evalM_bind_eq {α β : Type} (x : EvalM α) (f : α → EvalM β) (w : Store) :
    (x >>= f) w = match x w with
      | .ok a w => f a w
      | .error h w => .error h w := by
  show EStateM.bind x f w = _
  rw [EStateM.bind]
  cases x w <;> rfl

theorem evalM_get_bind {α : Type} (f : Store → EvalM α) (w : Store) :
    ((get : EvalM Store) >>= f) w = f w w := rfl

namespace Settles

variable {α β : Type} {x : EvalM α} {f : α → EvalM β} {w w' : Store} {drawn drawn' : List Word}

theorem bind_ok {a : α} {r : EStateM.Result Halt Store β} (hx : Settles x w drawn (.ok a w'))
    (hf : Settles (f a) w' drawn' r) : Settles (x >>= f) w (drawn ++ drawn') r where
  draws rest := by
    rw [evalM_bind_eq, List.append_assoc, hx.draws]
    exact hf.draws rest
  strict hdefined := by
    have hx' : drawn = [] := hx.strict fun w'' hw => hdefined w'' (by rw [evalM_bind_eq, hw])
    subst hx'
    refine hf.strict fun w'' hw => hdefined w'' ?_
    have hfirst : x { w with unknowns := [] } = _ := hx.draws []
    rw [evalM_bind_eq, hfirst]
    exact hw

theorem bind_error {h : Halt} (hx : Settles x w drawn (.error h w')) :
    Settles (x >>= f) w drawn (.error h w' : EStateM.Result Halt Store β) where
  draws rest := by
    rw [evalM_bind_eq, hx.draws]
    rfl
  strict hdefined := hx.strict fun w'' hw => hdefined w'' (by rw [evalM_bind_eq, hw])

end Settles

namespace Meets

variable {α β : Type} {image : Image} {fuel : Nat} {P R : Moment → Prop} {m m' : Moment}
  {w : Store} {x : EvalM α} {Q Q' : α → Store → Moment → Prop}

theorem mono (h : Meets image fuel P m w x Q) (hQ : ∀ a w' m', Q a w' m' → Q' a w' m') :
    Meets image fuel P m w x Q' := by
  refine h.imp id ?_
  rintro ⟨drawn, r, hsettles, hfollows⟩
  refine ⟨drawn, r, hsettles, ?_⟩
  cases r with
  | ok a w' =>
    obtain ⟨n, m', hpath, hq⟩ := hfollows
    exact ⟨n, m', hpath, hQ _ _ _ hq⟩
  | error halt w' => cases halt <;> exact hfollows

theorem overflow (hP : P m) (h : ¬ Clear image m.state) : Meets image fuel P m w x Q :=
  .inl ⟨0, m, .refl m, hP, h⟩

/-- It is enough to look at a moment at which the stack is clear. -/
theorem of_clear (hP : P m) (h : Clear image m.state → Meets image fuel P m w x Q) :
    Meets image fuel P m w x Q := by
  by_cases hclear : Clear image m.state
  · exact h hclear
  · exact overflow hP hclear

/-- What holds after some steps holds before them, with as much more fuel. -/
theorem of_path {n : Nat} (hpath : Path image P m n m') (h : Meets image fuel P m' w x Q) :
    Meets image (fuel + n) P m w x Q := by
  rcases h with ⟨k, t, hrest, hP, hclear⟩ | ⟨drawn, r, hsettles, hfollows⟩
  · exact .inl ⟨n + k, t, hpath.trans hrest, hP, hclear⟩
  · refine .inr ⟨drawn, r, hsettles, ?_⟩
    cases r with
    | ok a w' =>
      obtain ⟨k, t, hrest, hq⟩ := hfollows
      exact ⟨n + k, t, hpath.trans hrest, hq⟩
    | error halt w' =>
      cases halt with
      | outOfFuel =>
        obtain ⟨k, t, hk, hrest⟩ := hfollows
        exact ⟨n + k, t, by omega, hpath.trans hrest⟩
      | undefined => exact hfollows
      | finished | divisionByZero | inputExhausted =>
        obtain ⟨k, t, hrest, hstop⟩ := hfollows
        exact ⟨n + k, t, hpath.trans hrest, hstop⟩

theorem less_fuel {fuel' : Nat} (h : Meets image fuel P m w x Q) (hle : fuel' ≤ fuel) :
    Meets image fuel' P m w x Q := by
  refine h.imp id ?_
  rintro ⟨drawn, r, hsettles, hfollows⟩
  refine ⟨drawn, r, hsettles, ?_⟩
  cases r with
  | ok a w' => exact hfollows
  | error halt w' =>
    cases halt with
    | outOfFuel =>
      obtain ⟨k, t, hk, hrest⟩ := hfollows
      exact ⟨k, t, by omega, hrest⟩
    | _ => exact hfollows

/-- One step of the machine that nothing in the computation stands for. -/
theorem step (hP : P m) (hnext : Next image m m') (h : Meets image fuel P m' w x Q) :
    Meets image fuel P m w x Q :=
  (of_path (.step hP hnext (.refl m')) h).less_fuel (by omega)

/-- A computation counts only from the world at hand. -/
theorem congr {y : EvalM α} (hxy : ∀ unknowns, x { w with unknowns } = y { w with unknowns })
    (h : Meets image fuel P m w y Q) : Meets image fuel P m w x Q := by
  refine h.imp id ?_
  rintro ⟨drawn, r, hsettles, hfollows⟩
  refine ⟨drawn, r, ⟨fun rest => ?_, fun hdefined => hsettles.strict ?_⟩, hfollows⟩
  · rw [hxy, hsettles.draws]
  · intro w' hw
    exact hdefined w' ((hxy []).trans hw)

/-- A computation that draws no unknowns, while the machine does nothing. -/
theorem of_eq {a : α} (w' : Store)
    (hx : ∀ unknowns, x { w with unknowns } = .ok a { w' with unknowns }) (h : Q a w' m) :
    Meets image fuel P m w x Q :=
  .inr ⟨[], .ok a w', ⟨hx, fun _ => rfl⟩, 0, m, .refl m, h⟩

theorem pure {a : α} (h : Q a w m) : Meets image fuel P m w (Pure.pure a) Q :=
  of_eq w (fun _ => rfl) h

theorem throw {halt : Halt} (h : Follows image fuel P m Q (.error halt w)) :
    Meets image fuel P m w (MonadExcept.throw halt) Q :=
  .inr ⟨[], .error halt w, ⟨fun _ => rfl, fun _ => rfl⟩, h⟩

/-- One computation after the other. -/
theorem bind {f : α → EvalM β} {Q' : β → Store → Moment → Prop}
    (hx : Meets image fuel P m w x Q)
    (hf : ∀ a w' m', Q a w' m' → Meets image fuel P m' w' (f a) Q') :
    Meets image fuel P m w (x >>= f) Q' := by
  rcases hx with hover | ⟨drawn, r, hsettles, hfollows⟩
  · exact .inl hover
  · cases r with
    | ok a w' =>
      obtain ⟨n, m', hpath, hq⟩ := hfollows
      have hrest := (of_path hpath (hf a w' m' hq)).less_fuel (Nat.le_add_right fuel n)
      refine hrest.imp id ?_
      rintro ⟨drawn', r', hsettles', hfollows'⟩
      exact ⟨drawn ++ drawn', r', hsettles.bind_ok hsettles', hfollows'⟩
    | error halt w' =>
      refine .inr ⟨drawn, .error halt w', hsettles.bind_error, ?_⟩
      cases halt <;> exact hfollows

/-- A word that nothing determines can be any one. -/
theorem unknown {Q : Word → Store → Moment → Prop} (v : Word) (h : Q v w m) :
    Meets image fuel P m w Reference.unknown Q := by
  refine .inr ⟨[v], .ok v w, ⟨fun rest => rfl, fun hdefined => ?_⟩, 0, m, .refl m, h⟩
  exact absurd rfl (hdefined _)

end Meets

end CMinusMinus.Proofs
