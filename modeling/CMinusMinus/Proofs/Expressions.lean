import CMinusMinus.Proofs.Variables
import CMinusMinus.Proofs.WellFormed

/-!
The code of an expression evaluates it. It leaves the value in a new word on the stack, the frame
pointer as it was, and all words above the stack pointer except for variables. The proof is one lemma
for each kind of expression and an induction that puts them together. What a call does is assumed
here, and shown for functions.
-/
namespace CMinusMinus.Proofs

open Assembly Machine WellFormed
open Reference (EvalM Store Word Value Scopes)

/-- The number that stands for a value on the stack, once it is in a register: a word itself, or the
address of a text. -/
def Denotes (image : Image) : Value → Int → Prop
  | .word w, n => Int32.ofInt n = w
  | .text literal, n => image.texts[wrap n]? = some (String.ofList (Reference.shown literal.toList))
  | .nothing, _ => True

/-- The machine loads a literal as the text that it stands for. -/
theorem shown_eq_unescape (cs : List Char) : Reference.shown cs = unescape cs := by
  fun_induction Reference.shown cs with
  | case1 rest ih => simp [unescape, escaped, ih]
  | case2 rest ih => simp [unescape, escaped, ih]
  | case3 c rest hn ht ih =>
    have hc : escaped c = c := by
      unfold escaped
      split
      · exact absurd rfl hn
      · exact absurd rfl ht
      · rfl
    simp [unescape, hc, ih]
  | case4 c rest _ _ hplain ih => rw [unescape, ih]; exact hplain
  | case5 => rfl

/-- A value is one of a type: only literals have the type of texts. -/
def Fits (t : Ty) : Value → Prop
  | .text _ => t = .string
  | _ => t ≠ .string

theorem text_of_fits {v : Value} (h : Fits .string v) : ∃ literal, v = .text literal := by
  cases v with
  | text literal => exact ⟨literal, rfl⟩
  | word w => exact absurd rfl h
  | nothing => exact absurd rfl h

/-- Where code is at work: the loaded program, what calls mean and how much fuel they have, the
activation, the names in sight, and the places of variables. -/
structure Scene where
  image : Image
  env : Lowering.Env
  fuel : Nat
  call : String → List Word → EvalM (Option Word)
  A : Activation
  lit : String → Prop
  σ : Symbols
  Γ : List Scope
  scopes : Scopes
  L : Layout

namespace Scene

/-- The words above an address are as they were, variables apart. -/
def Same (S : Scene) (top : Int) (s u : State) : Prop :=
  ∀ a, top < a → S.image.dataNext ≤ a → a ≤ S.A.bottom ∨ S.A.fp - 8 < a → u.load a = s.load a

/-- A state after the code of an expression that was started in another one. -/
structure Evaluated (S : Scene) (t : Ty) (s : State) (pc : Int) (v : Value) (w : Store)
    (u : State) : Prop where
  pc : u.pc = pc
  inside : S.A.In S.image u
  sp : u.reg "$sp" = s.reg "$sp" - 4
  value : Denotes S.image v (u.load (s.reg "$sp"))
  fits : Fits t v
  agrees : Agrees S.L S.A.fp w u
  same : S.Same (s.reg "$sp") s u

/-- A state after a call that was made in another one. -/
structure Returned (S : Scene) (s : State) (v : Option Word) (w : Store) (u : State) : Prop where
  pc : u.pc = s.pc + 1
  inside : S.A.In S.image u
  sp : u.reg "$sp" = s.reg "$sp"
  result : ∀ word, v = some word → u.reg "$v0" = word.toInt
  agrees : Agrees S.L S.A.fp w u
  same : ∀ a, s.reg "$sp" < a → S.image.dataNext ≤ a → u.load a = s.load a

/-- The machine is about to run code in its place, with the variables in agreement. -/
structure Ready (S : Scene) (items : List Code.Item) (w : Store) (s : State) : Prop where
  placed : CodeAt S.image s.pc items
  lo : S.A.lo ≤ s.pc
  hi : s.pc + Code.width items ≤ S.A.hi
  inside : S.A.In S.image s
  agrees : Agrees S.L S.A.fp w s

/-- The machine meets a computation from a state of the activation. -/
abbrev Meets (S : Scene) {α : Type} (s : State) (w : Store) (x : EvalM α)
    (Q : α → Store → State → Prop) : Prop :=
  Proofs.Meets S.image S.fuel S.A.P ⟨S.A.depth, s⟩ w x
    fun a w' m => ∃ u, m = ⟨S.A.depth, u⟩ ∧ Q a w' u

/-- A call instruction with the arguments on the stack does what the call means. -/
def Invokes (S : Scene) (label name : String) (count : Nat) : Prop :=
  ∀ (s : State) (w : Store) (args : List Word), S.Ready [.op (.jal label)] w s →
    args.length = count →
    (∀ k (h : k < args.length),
      Int32.ofInt (s.load (s.reg "$sp" + 4 * (count - k))) = args[k]) →
    S.Meets s w (S.call name args) (S.Returned s)

/-- What holds of a scene, so that code can be followed in it. -/
structure Sound (S : Scene) : Prop where
  activation : S.A.Sound S.image
  layout : S.L.Sound S.image S.A.frame
  symbols : SymbolsOk S.σ
  /-- All locations are found by the compiler where the variables lie. -/
  places : ∀ {e v}, Place S.σ S.Γ e v → IsScalar v.ty →
    ∃ x path u offset, Resolved S.image S.env S.L S.scopes e x path u offset
  /-- Different labels of data have different addresses. -/
  labels : ∀ {name name' : String} {a : Int}, S.image.dataLabels[name]? = some a →
    S.image.dataLabels[name']? = some a → name = name'
  calls : ∀ {callee : Ident} {i f}, find S.Γ callee.name = some i → callee.binding = .symbol i →
    S.σ i = some (.func f) → Lowering.symbolOf S.env callee = .ok (.func f) ∧
      S.Invokes (functionLabel f.name) callee.name f.params.length

def Simulates (S : Scene) (e : Expr) : Prop :=
  ∀ c t s w, Typed S.lit S.σ S.Γ e t → IsOperand t → S.Ready (Code.expr S.env e c) w s →
    S.Meets s w (Reference.expr S.call S.scopes e)
      (S.Evaluated t s (s.pc + Code.width (Code.expr S.env e c)))

/-- A state in which a register holds the value of an expression, and the stack is as it was. -/
structure Held (S : Scene) (r : String) (s : State) (pc n : Int) (w : Store) (u : State) : Prop where
  pc : u.pc = pc
  inside : S.A.In S.image u
  sp : u.reg "$sp" = s.reg "$sp"
  reg : u.reg r = n
  agrees : Agrees S.L S.A.fp w u
  same : S.Same (s.reg "$sp") s u

variable {S : Scene} {s u : State} {w w' : Store} {is js : List Code.Item} {t : Ty} {e : Expr}

namespace Meets

variable {α β : Type} {x : EvalM α} {Q : α → Store → State → Prop}

theorem bind {f : α → EvalM β} {Q' : β → Store → State → Prop} (hx : S.Meets s w x Q)
    (hf : ∀ a w' u, Q a w' u → S.Meets u w' (f a) Q') : S.Meets s w (x >>= f) Q' := by
  refine Proofs.Meets.bind hx ?_
  rintro a w' _ ⟨u, rfl, hq⟩
  exact hf a w' u hq

theorem mono {Q' : α → Store → State → Prop} (hx : S.Meets s w x Q)
    (hq : ∀ a w' u, Q a w' u → Q' a w' u) : S.Meets s w x Q' := by
  refine Proofs.Meets.mono hx ?_
  rintro a w' _ ⟨u, rfl, h⟩
  exact ⟨u, rfl, hq a w' u h⟩

theorem pure {a : α} (h : Q a w s) : S.Meets s w (Pure.pure a) Q := Proofs.Meets.pure ⟨s, rfl, h⟩

/-- The machine goes on after a computation is done. -/
theorem andThen {Q' : α → Store → State → Prop} (hx : S.Meets s w x Q)
    (hrest : ∀ a w' u, Q a w' u → S.Meets u w' (Pure.pure a) Q') : S.Meets s w x Q' := by
  rw [← bind_pure x]
  exact hx.bind hrest

end Meets

namespace Ready

theorem left (h : S.Ready (is ++ js) w s) : S.Ready is w s := by
  have hw := Code.width_nonneg js
  have hhi := h.hi
  rw [Code.width_append] at hhi
  exact ⟨(codeAt_append.mp h.placed).1, h.lo, by omega, h.inside, h.agrees⟩

theorem right (h : S.Ready (is ++ js) w s) (hpc : u.pc = s.pc + Code.width is)
    (hu : S.A.In S.image u) (hw' : Agrees S.L S.A.fp w' u) : S.Ready js w' u := by
  have hw := Code.width_nonneg is
  have hhi := h.hi
  have hlo := h.lo
  rw [Code.width_append] at hhi
  exact ⟨hpc ▸ (codeAt_append.mp h.placed).2, by omega, by omega, hu, hw'⟩

theorem op {i : Instr} {comment : String} (h : S.Ready (.op i comment :: is) w s) :
    S.image.Has s.pc i ∧ S.A.lo ≤ s.pc ∧ s.pc < S.A.hi := by
  have hw := Code.width_nonneg is
  have hhi := h.hi
  rw [Code.width_cons, Code.width_op] at hhi
  exact ⟨h.placed.1, h.lo, by omega⟩

theorem tail {i : Code.Item} (h : S.Ready (i :: is) w s) (hpc : u.pc = s.pc + i.width)
    (hu : S.A.In S.image u) (hw' : Agrees S.L S.A.fp w' u) : S.Ready is w' u := by
  have hsplit : S.Ready ([i] ++ is) w s := h
  exact hsplit.right (by simpa using hpc) hu hw'

end Ready

theorem Same.refl (S : Scene) (top : Int) (s : State) : S.Same top s s := fun _ _ _ _ => rfl

theorem Same.trans {top top' : Int} {s₁ s₂ s₃ : State} (h : S.Same top s₁ s₂)
    (h' : S.Same top' s₂ s₃) (hle : top' ≤ top) : S.Same top s₁ s₃ := fun a ha hdata harea => by
  rw [h' a (by omega) hdata harea, h a ha hdata harea]

/-- A register with the value of an expression is pushed. -/
theorem pushed (hS : S.Sound) {α : Type} {x : EvalM α} {Q : α → Store → State → Prop} {r : String}
    {v : Value} {pc : Int} (hu : S.Ready (Code.push r) w u) (hsp : u.reg "$sp" = s.reg "$sp")
    (hv : Denotes S.image v (u.reg r)) (hfits : Fits t v) (hsame : S.Same (s.reg "$sp") s u)
    (hpc : pc = u.pc + 2) (hrest : ∀ u', S.Evaluated t s pc v w u' → S.Meets u' w x Q) :
    S.Meets u w x Q := by
  refine Activation.push hS.activation hu.inside hu.placed hu.lo hu.hi fun u' hpc' hu' hpush => ?_
  refine hrest u' ⟨by omega, hu', ?_, ?_, hfits, ?_, ?_⟩
  · rw [hpush.sp, hsp]
  · rw [← hsp, hpush.value]; exact hv
  · exact hu.agrees.pushed hS.layout hu.inside hu' hpush
  · intro a ha hdata harea
    rw [hpush.load a (by omega), hsame a ha hdata harea]

/-- The last step of every expression: the register with the value is pushed. -/
theorem finish (hS : S.Sound) {r : String} {v : Value} {pc : Int} (hu : S.Ready (Code.push r) w u)
    (hsp : u.reg "$sp" = s.reg "$sp") (hv : Denotes S.image v (u.reg r)) (hfits : Fits t v)
    (hsame : S.Same (s.reg "$sp") s u) (hpc : pc = u.pc + 2) :
    S.Meets u w (pure v) (S.Evaluated t s pc) :=
  pushed hS hu hsp hv hfits hsame hpc fun _ hu' => Meets.pure hu'

/-- A value that is no text has a word, which is the one on the stack. -/
theorem toWord {v : Value} {n : Int} (hv : Denotes S.image v n) (hfits : Fits t v)
    (ht : t ≠ .string) : S.Meets s w v.toWord fun word w' u =>
      w' = w ∧ u = s ∧ Int32.ofInt n = word := by
  cases v with
  | word word => exact Meets.pure ⟨rfl, rfl, hv⟩
  | text literal => exact absurd hfits ht
  | nothing => exact Proofs.Meets.unknown (Int32.ofInt n) ⟨s, rfl, rfl, rfl, rfl⟩

/-- The word of an expression that is no text. -/
theorem Simulates.word (he : S.Simulates e) {c : Code.Counters} (htyped : Typed S.lit S.σ S.Γ e t)
    (hoperand : IsOperand t) (ht : t ≠ .string) (hready : S.Ready (Code.expr S.env e c) w s) :
    S.Meets s w (Reference.word S.call S.scopes e) fun word w' u =>
      S.Evaluated t s (s.pc + Code.width (Code.expr S.env e c)) (.word word) w' u := by
  refine (he c t s w htyped hoperand hready).bind fun v w' u hu => ?_
  refine (toWord hu.value hu.fits ht).mono ?_
  rintro word _ _ ⟨rfl, rfl, hword⟩
  exact { hu with value := hword, fits := ht }

/-- The value of an expression is popped into a register. -/
theorem Evaluated.pop (hS : S.Sound) {α : Type} {x : EvalM α} {Q : α → Store → State → Prop}
    {v : Value} {pc : Int} {r : String} (hu : S.Evaluated t s pc v w u)
    (hready : S.Ready (Code.pop r) w u) (hsp : s.reg "$sp" ≤ S.A.bottom)
    (hr : r ≠ "$zero") (hrsp : r ≠ "$sp") (hrfp : r ≠ "$fp")
    (hrest : ∀ u', S.Held r s (pc + 2) (wrap (u.load (s.reg "$sp"))) w u' →
      (∀ q, q ≠ "$sp" → q ≠ r → u'.reg q = u.reg q) → S.Meets u' w x Q) : S.Meets u w x Q := by
  have husp := hu.sp
  refine Activation.pop hS.activation hu.inside hready.placed hready.lo hready.hi (by omega) hr hrsp
    hrfp fun u' hpc hu' hpop => hrest u' ⟨?_, hu', ?_, ?_, ?_, ?_⟩ hpop.other
  · rw [hpc, hu.pc]
  · rw [hpop.sp]; omega
  · have haddr : u.reg "$sp" + 4 = s.reg "$sp" := by omega
    rw [hpop.reg, haddr]
  · exact hu.agrees.popped hpop
  · intro a ha hdata harea
    rw [hpop.load, hu.same a ha hdata harea]

theorem Evaluated.wrap_load {word : Word} {pc : Int} (hu : S.Evaluated t s pc (.word word) w u) :
    wrap (u.load (s.reg "$sp")) = word.toInt := by
  rw [wrap_eq, show Int32.ofInt _ = word from hu.value]

/-- A register is set, and the rest of the code goes on from there. -/
theorem Ready.set (hS : S.Sound) {α : Type} {x : EvalM α} {Q : α → Store → State → Prop} {i : Instr}
    {comment r : String} {v : Int} (hs : S.Ready (.op i comment :: is) w s)
    (heffect : effect S.image s.next i = .ok false (s.next.setReg r v)) (hplain : openedBy i = 0)
    (hr : r ≠ "$zero") (hrsp : r ≠ "$sp") (hrfp : r ≠ "$fp")
    (hrest : ∀ u, u.pc = s.pc + 1 → Activation.Sets r (wrap v) s u → S.Ready is w u →
      S.Meets u w x Q) : S.Meets s w x Q := by
  obtain ⟨hi, hlo, hhi⟩ := hs.op
  refine Activation.set hS.activation hs.inside hi hlo hhi heffect hplain hr fun u hpc hset => ?_
  exact hrest u hpc hset (hs.tail hpc (hs.inside.sets hset hrsp hrfp) (hs.agrees.sets hset))

theorem Same.sets {top : Int} {r : String} {v : Int} (hset : Activation.Sets r v s u) :
    S.Same top s u := fun a _ _ _ => hset.load a

/-- The code of a number. -/
theorem constant (hS : S.Sound) {n : Int} (ht : t ≠ .string)
    (hs : S.Ready (.op (.li .t0 n) :: Code.push .t0) w s) :
    S.Meets s w (pure (.word (Int32.ofInt n))) (S.Evaluated t s (s.pc + 3)) := by
  refine hs.set hS (r := "$t0") (v := n) rfl rfl (by decide) (by decide) (by decide)
    fun u hpc hset hu => ?_
  refine finish hS hu (hset.other _ (by decide)) ?_ ht (.sets hset) (by omega)
  have hreg : u.reg Reg.t0 = wrap n := hset.reg
  rw [hreg, wrap_eq]
  exact Int32.ofInt_toInt _

theorem simulates_int (hS : S.Sound) (note : Note) (value : Int) : S.Simulates (.int note value) := by
  rintro c t s w htyped - hready
  have ht : t ≠ .string := by rw [Typed] at htyped; simp [htyped.1]
  rw [Reference.expr]
  rw [Code.expr] at hready ⊢
  exact constant hS ht hready

theorem simulates_bool (hS : S.Sound) (note : Note) (value : Bool) :
    S.Simulates (.bool note value) := by
  rintro c t s w htyped - hready
  have ht : t ≠ .string := by rw [Typed] at htyped; simp [htyped]
  have hflag : Int32.ofInt (if value then 1 else 0) = Reference.flag value := by cases value <;> rfl
  rw [Reference.expr, ← hflag]
  rw [Code.expr] at hready ⊢
  exact constant hS ht hready

/-- The code of a literal leaves the address that its label has. -/
theorem literal (hS : S.Sound) {name text : String}
    (hs : S.Ready (.literal name text :: .op (.la .t0 (.label name)) :: Code.push .t0) w s) :
    S.Meets s w (pure (.text text)) fun v w' u => S.Evaluated .string s (s.pc + 3) v w' u ∧
      S.image.dataLabels[name]? = some (wrap (u.load (s.reg "$sp"))) := by
  obtain ⟨a, hlabel, hlow, hhigh, htext⟩ := hs.placed.1
  have hs' := hs.tail (u := s) (by simp) hs.inside hs.agrees
  refine hs'.set hS (r := "$t0") (v := a) ?_ rfl (by decide) (by decide) (by decide)
    fun u hpc hset hu => ?_
  · simp [effect, withPlace, locate?, hlabel, Reg.t0]
  · have hfits : wrap a = a := by
      have := hS.activation.fp_le
      have := hS.activation.frame_nonneg
      have := hs.inside.low
      have := hs.inside.sp
      simp only [Activation.bottom, dataBase, stackTop] at *
      exact wrap_of_fits (by omega) (by omega)
    have hreg : u.reg Reg.t0 = a := by rw [← hfits]; exact hset.reg
    refine Activation.push hS.activation hu.inside hu.placed hu.lo hu.hi fun u' hpc' hu' hpush => ?_
    have hsp : u.reg "$sp" = s.reg "$sp" := hset.other _ (by decide)
    have hvalue : u'.load (s.reg "$sp") = a := by rw [← hsp, hpush.value, hreg]
    refine Proofs.Meets.pure ⟨u', rfl, ⟨by omega, hu', ?_, ?_, rfl, ?_, ?_⟩, ?_⟩
    · rw [hpush.sp, hsp]
    · show S.image.texts[wrap (u'.load (s.reg "$sp"))]? = _
      rw [hvalue, hfits, htext, shown_eq_unescape]
    · exact hu.agrees.pushed hS.layout hu.inside hu' hpush
    · intro b hb _ _
      rw [hpush.load b (by omega), hset.load]
    · rw [hvalue, hfits, hlabel]

theorem simulates_string (hS : S.Sound) (note : Note) (text : String) :
    S.Simulates (.string note text) := by
  rintro c t s w htyped - hready
  obtain ⟨rfl, -⟩ := htyped
  rw [Reference.expr]
  rw [Code.expr] at hready ⊢
  exact (literal hS hready).mono fun v w' u hu => hu.1

/-- The code of a location whose word is wanted. -/
theorem location (hS : S.Sound) {x : String} {path : List String} {v : Variable} {offset : Int}
    (h : Resolved S.image S.env S.L S.scopes e x path v offset) (ht : t ≠ .string)
    (hs : S.Ready (Code.fetch v offset ++ Code.push .t0) w s) :
    S.Meets s w (do return .word (← Reference.readWord S.scopes x path))
      (S.Evaluated t s (s.pc + (Code.width (Code.fetch v offset) + 2))) := by
  refine Meets.bind (Q := fun word w' u => word = Int32.ofInt
    (s.load (addressOf S.image S.A.fp v offset)) ∧ w' = w ∧ u = s)
    (h.read hs.agrees ⟨s, rfl, rfl, rfl, rfl⟩) ?_
  rintro _ _ _ ⟨rfl, rfl, rfl⟩
  refine h.fetch hS.layout hS.activation hs.left.inside hs.left.placed hs.left.lo hs.left.hi
    fun u hpc hu hset => ?_
  refine finish hS (hs.right hpc hu (hs.agrees.sets hset)) (hset.other _ (by decide)) ?_ ht
    (.sets hset) (by omega)
  have hreg : u.reg Reg.t0 = _ := hset.reg
  rw [hreg, wrap_eq]
  exact Int32.ofInt_toInt _

/-- The code that works on a location is the one for its variable. -/
theorem onPlace_eq {x : String} {path : List String} {v : Variable} {offset : Int}
    (h : Resolved S.image S.env S.L S.scopes e x path v offset)
    (items : Variable → Int → List Code.Item) : Code.onPlace S.env e items = items v offset := by
  rw [Code.onPlace, h.location]

theorem place_eq {x : String} {path : List String} {v : Variable} {offset : Int}
    (h : Resolved S.image S.env S.L S.scopes e x path v offset) :
    Reference.place e = pure (x, path) := by
  rw [Reference.place, h.place]

theorem simulates_ident (hS : S.Sound) (x : Ident) : S.Simulates (.ident x) := by
  intro c t s w htyped hoperand hready
  obtain ⟨v, hplace, rfl, hscalar⟩ := place_of_typed hS.symbols rfl htyped hoperand
  obtain ⟨y, path, v', offset, hresolved⟩ := hS.places hplace hscalar
  have hname : x.name = y ∧ ([] : List String) = path := by
    simpa [Reference.placeOf?] using hresolved.place
  rw [Reference.expr, hname.1, hname.2]
  rw [Code.expr, onPlace_eq hresolved] at hready ⊢
  rw [Code.width_append]
  exact location hS hresolved (not_string_of_scalar hscalar) hready

theorem simulates_dot (hS : S.Sound) (note : Note) (obj : Expr) (field : Ident)
    (reached : Option Int) (bad : Bool) : S.Simulates (.dot note obj field reached bad) := by
  intro c t s w htyped hoperand hready
  obtain ⟨v, hplace, rfl, hscalar⟩ := place_of_typed hS.symbols rfl htyped hoperand
  obtain ⟨y, path, v', offset, hresolved⟩ := hS.places hplace hscalar
  rw [Reference.expr, place_eq hresolved, pure_bind]
  rw [Code.expr, onPlace_eq hresolved] at hready ⊢
  rw [Code.width_append]
  exact location hS hresolved (not_string_of_scalar hscalar) hready

theorem Evaluated.at_pc {v : Value} {pc pc' : Int} (hu : S.Evaluated t s pc v w u)
    (hpc : pc' = pc) : S.Evaluated t s pc' v w u := hpc ▸ hu

theorem Evaluated.sets {v : Value} {pc n : Int} {r : String} {u' : State}
    (hu : S.Evaluated t s pc v w u) (hset : Activation.Sets r n u u') (hrsp : r ≠ "$sp")
    (hrfp : r ≠ "$fp") : S.Evaluated t s u'.pc v w u' where
  pc := rfl
  inside := hu.inside.sets hset hrsp hrfp
  sp := by rw [hset.other _ hrsp.symm, hu.sp]
  value := by rw [hset.load]; exact hu.value
  fits := hu.fits
  agrees := hu.agrees.sets hset
  same a ha hdata harea := by rw [hset.load, hu.same a ha hdata harea]

/-- A word is stored at the address of a variable, which writes the variable. -/
theorem Ready.store (hS : S.Sound) {α : Type} {y : EvalM α} {Q : α → Store → State → Prop}
    {rs rb comment x : String} {path : List String} {v : Variable} {offset : Int} {word : Word}
    (h : Resolved S.image S.env S.L S.scopes e x path v offset)
    (hs : S.Ready (.op (.sw rs (.indexed 0 rb)) comment :: is) w s)
    (hbase : s.reg rb = addressOf S.image S.A.fp v offset) (hvalue : s.reg rs = word.toInt)
    (hrest : ∀ u w', u.pc = s.pc + 1 → (∀ q, u.reg q = s.reg q) → (∀ top, S.Same top s u) →
      S.Ready is w' u → S.Meets u w' y Q) :
    S.Meets s w (do Reference.writeWord S.scopes x path word; y) Q := by
  obtain ⟨hi, hlo, hhi⟩ := hs.op
  have hP := hS.activation.holds s hlo hhi hs.inside.fp hs.inside.sp
  have hrange := h.address_range (A := S.A) hS.layout
  have hlow := hs.inside.low
  have hsp := hs.inside.sp
  refine Proofs.Meets.exec_plain (t := s.next.store (addressOf S.image S.A.fp v offset) word.toInt)
    hi rfl hP ?_ ?_
  · simp [effect, withPlace, locate?, hbase, hvalue]
  · refine Proofs.Meets.bind (Proofs.Meets.of_eq (a := ()) (w.write S.scopes x path word)
      (Q := fun _ w' m => w' = w.write S.scopes x path word ∧ m = ⟨S.A.depth,
        s.next.store (addressOf S.image S.A.fp v offset) word.toInt⟩) ?_ ⟨rfl, rfl⟩) ?_
    · intro unknowns
      simp only [Reference.writeWord, Store.write]
      split <;> rfl
    · rintro _ _ _ ⟨rfl, rfl⟩
      refine hrest _ _ (by simp) (fun q => by simp) (fun top a _ hdata harea => ?_) ?_
      · have hne : addressOf S.image S.A.fp v offset ≠ a := by omega
        simp [hne]
      · refine hs.tail (by simp) ⟨hs.inside.fp, hs.inside.sp, hs.inside.low⟩ ?_
        exact h.agrees_write hS.layout (by omega) hs.agrees (fun a => by simp) rfl rfl

theorem simulates_assign (hS : S.Sound) (note : Note) {target value : Expr}
    (hvalue : S.Simulates value) : S.Simulates (.assign note target value) := by
  intro c t s w htyped hoperand hready
  obtain ⟨hlocation, hscalar, htarget, htyped⟩ := htyped
  have ht := not_string_of_scalar hscalar
  obtain ⟨v, hplace, rfl, -⟩ := place_of_typed hS.symbols hlocation htarget (.inl hscalar)
  obtain ⟨x, path, v', offset, hresolved⟩ := hS.places hplace hscalar
  have hmeaning : Reference.expr S.call S.scopes (.assign note target value) = (do
      let word ← Reference.word S.call S.scopes value
      Reference.writeWord S.scopes x path word
      return .word word) := by
    rw [Reference.expr, place_eq hresolved]
    simp [Reference.word]
  rw [hmeaning]
  rw [Code.expr, onPlace_eq hresolved] at hready ⊢
  refine (hvalue.word htyped (.inl hscalar) ht hready.left).bind fun word w' u hu => ?_
  have hready' := hready.right hu.pc hu.inside hu.agrees
  have haddress := hready'.left
  refine hresolved.address hS.layout hS.activation haddress.inside haddress.placed haddress.lo
    haddress.hi (by decide) (by decide) (by decide) fun u₁ hpc₁ hu₁ hset => ?_
  have hu₁ := hu.sets hset (by decide) (by decide)
  have hready₁ := hready'.right hpc₁ hu₁.inside hu₁.agrees
  refine hu₁.pop hS hready₁.left hready.inside.sp (by decide) (by decide) (by decide)
    fun u₂ hu₂ hother => ?_
  have hbase : u₂.reg Reg.t1 = addressOf S.image S.A.fp v' offset := by
    rw [hother _ (by decide) (by decide)]
    exact hset.reg
  have hreg₂ : u₂.reg Reg.t0 = word.toInt := hu₂.reg.trans hu₁.wrap_load
  refine (hready₁.right hu₂.pc hu₂.inside hu₂.agrees).store hS hresolved hbase hreg₂
    fun u₃ w₃ hpc₃ hreg₃ hsame₃ hready₃ => ?_
  refine finish hS hready₃ ?_ ?_ ht (hu₂.same.trans (hsame₃ _) (Int.le_refl _)) ?_
  · rw [hreg₃, hu₂.sp]
  · have hreg : u₃.reg Reg.t0 = word.toInt := (hreg₃ _).trans hreg₂
    rw [hreg]
    exact Int32.ofInt_toInt _
  · have hpc₂ := hu₂.pc
    have hpc := hu.pc
    simp only [Code.width_append, Code.width_cons, Code.width_op, Code.width_push, Code.width_pop]
    omega

theorem simulates_unary (hS : S.Sound) (note : Note) (op : UnaryOp) {operand : Expr}
    (hoperand : S.Simulates operand) : S.Simulates (.unary note op operand) := by
  intro c t s w htyped ht' hready
  obtain ⟨hop, htyped⟩ := htyped
  have hscalar : IsScalar t := hop.imp And.right And.right
  have ht := not_string_of_scalar hscalar
  have hmeaning : Reference.expr S.call S.scopes (.unary note op operand) = (do
      let word ← Reference.word S.call S.scopes operand
      return .word (← Reference.UnaryOp.apply op word)) := by
    rw [Reference.expr]
    simp [Reference.word]
  rw [hmeaning]
  rw [Code.expr] at hready ⊢
  refine (hoperand.word htyped ht' ht hready.left).bind fun word w' u hu => ?_
  have hready' := hready.right hu.pc hu.inside hu.agrees
  refine hu.pop hS hready'.left hready.inside.sp (by decide) (by decide) (by decide)
    fun u₁ hu₁ _ => ?_
  have hready₁ := hready'.right (hu₁.pc.trans (by rw [hu.pc]; rfl)) hu₁.inside hu₁.agrees
  have hreg₁ : u₁.reg "$t0" = word.toInt := hu₁.reg.trans hu.wrap_load
  -- both operators put one result into the register
  obtain ⟨i, n, result, hcode, heffect, hplain, hresult, happly⟩ : ∃ i n result,
      Code.unary op = [.op i] ∧ effect S.image u₁.next i = .ok false (u₁.next.setReg "$t0" n) ∧
      openedBy i = 0 ∧ wrap n = Int32.toInt result ∧
      Reference.UnaryOp.apply op word = pure result := by
    rcases hop with ⟨rfl, -⟩ | ⟨rfl, -⟩
    · refine ⟨_, 0 - word.toInt, -word, rfl, ?_, rfl, ?_, rfl⟩
      · simp [effect, Machine.calculate, operandOf, Reg.t0, Reg.zero, hreg₁]
      · rw [Int.zero_sub, Int32.toInt_neg]
        rfl
    · refine ⟨_, xor32 word.toInt 1, word ^^^ 1, rfl, ?_, rfl, ?_, rfl⟩
      · simp [effect, Machine.calculate, operandOf, Reg.t0, hreg₁]
      · exact wrap_xor32 word 1
  rw [happly, pure_bind]
  rw [hcode] at hready₁ ⊢
  refine hready₁.set hS heffect hplain (by decide) (by decide) (by decide) fun u₂ hpc₂ hset hready₂ => ?_
  refine finish hS hready₂ ?_ ?_ ht (hu₁.same.trans (.sets hset) (Int.le_refl _)) ?_
  · rw [hset.other _ (by decide), hu₁.sp]
  · have hreg : u₂.reg Reg.t0 = Int32.toInt result := hset.reg.trans hresult
    rw [hreg]
    exact Int32.ofInt_toInt _
  · have hpc₁ := hu₁.pc
    have hpc := hu.pc
    simp only [Code.width_append, Code.width_cons, Code.width_op, Code.width_push, Code.width_pop,
      Code.width_nil]
    omega

/-- A value on the stack outlasts what is evaluated above it. -/
theorem Evaluated.after {r : String} {pc pc' n : Int} {v : Value} {u' : State}
    (hu : S.Evaluated t s pc v w u) (hsp : s.reg "$sp" ≤ S.A.bottom)
    (hu' : S.Held r u pc' n w' u') : S.Evaluated t s pc' v w' u' := by
  have husp := hu.sp
  have hlow := hu.inside.low
  refine ⟨hu'.pc, hu'.inside, hu'.sp.trans husp, ?_, hu.fits, hu'.agrees, ?_⟩
  · rw [hu'.same _ (by omega) (by omega) (.inl hsp)]
    exact hu.value
  · exact hu.same.trans hu'.same (by omega)

/-- Two values are popped into the two registers. -/
theorem popBoth (hS : S.Sound) {α : Type} {x : EvalM α} {Q : α → Store → State → Prop}
    {a b : Value} {pc pc' : Int} {t' : Ty} {u' : State} (hu : S.Evaluated t s pc a w u)
    (hu' : S.Evaluated t' u pc' b w' u') (hsp : s.reg "$sp" ≤ S.A.bottom)
    (hready : S.Ready (Code.pop .t1 ++ (Code.pop .t0 ++ is)) w' u')
    (hrest : ∀ u'', S.Held "$t0" s (pc' + 4) (wrap (u.load (s.reg "$sp"))) w' u'' →
      u''.reg "$t1" = wrap (u'.load (u.reg "$sp")) → S.Ready is w' u'' → S.Meets u'' w' x Q) :
    S.Meets u' w' x Q := by
  have hpc' := hu'.pc
  refine hu'.pop hS hready.left hu.inside.sp (by decide) (by decide) (by decide) fun u₁ hu₁ _ => ?_
  have hready₁ := hready.right (hu₁.pc.trans (by rw [hpc']; rfl)) hu₁.inside hu₁.agrees
  have hleft := hu.after hsp hu₁
  have hload : u₁.load (s.reg "$sp") = u.load (s.reg "$sp") := by
    have := hu.sp
    have := hu.inside.low
    exact hu₁.same _ (by omega) (by omega) (.inl hsp)
  refine hleft.pop hS hready₁.left hsp (by decide) (by decide) (by decide) fun u₂ hu₂ hother => ?_
  refine hrest u₂ ?_ ?_ (hready₁.right (hu₂.pc.trans (by rw [hu₁.pc]; rfl)) hu₂.inside hu₂.agrees)
  · rw [← hload, show pc' + 4 = pc' + 2 + 2 by omega]
    exact hu₂
  · rw [hother _ (by decide) (by decide)]
    exact hu₁.reg

/-- The code of an operator on two registers, after which its result is pushed. -/
theorem calculation (hS : S.Sound) {op : BinaryOp} {what : Calc}
    (hop : Lowering.calcOf? op = some what) {a b : Word} {pc n : Int} (ht : t ≠ .string)
    (hu : S.Held "$t0" s pc n w u) (ha : u.reg "$t0" = a.toInt) (hb : u.reg "$t1" = b.toInt)
    (hready : S.Ready (Code.binary op ++ Code.push .t0) w u) :
    S.Meets u w (do return .word (← Reference.calculate op a b)) (S.Evaluated t s (pc + 3)) := by
  have hcode : Code.binary op = [.op (.compute what .t0 .t0 (.reg .t1))] := by
    rw [Code.binary, hop]
  rw [hcode] at hready
  have hready : S.Ready (.op (.compute what .t0 .t0 (.reg .t1)) :: Code.push .t0) w u := hready
  rcases calculate_spec hop a b with ⟨n, result, hmachine, hresult, hwrap⟩ | ⟨hmachine, hresult⟩
  · rw [hresult, pure_bind]
    refine hready.set hS (r := "$t0") (v := n) ?_ rfl (by decide) (by decide) (by decide)
      fun u₁ hpc₁ hset hready₁ => ?_
    · simp [effect, operandOf, Reg.t0, Reg.t1, ha, hb, hmachine]
    · refine finish hS hready₁ ?_ ?_ ht (hu.same.trans (.sets hset) (Int.le_refl _)) ?_
      · rw [hset.other _ (by decide), hu.sp]
      · have hreg : u₁.reg Reg.t0 = result.toInt := hset.reg.trans hwrap
        rw [hreg]
        exact Int32.ofInt_toInt _
      · have := hu.pc
        omega
  · obtain ⟨hi, hlo, hhi⟩ := hready.op
    rw [hresult]
    refine Proofs.Meets.bind (Q := fun _ _ _ => False) (Proofs.Meets.throw ?_) fun _ _ _ h => h.elim
    refine ⟨0, _, .refl _, hS.activation.holds u hlo hhi hready.inside.fp hready.inside.sp,
      u.next, hready.agrees.output, ?_⟩
    refine (step_eq hi).trans ?_
    simp [effect, operandOf, Reg.t0, Reg.t1, ha, hb, hmachine]

theorem combine_eq {op : BinaryOp} {a b : Value} (ha : Fits t a) (ht : t ≠ .string) :
    Reference.combine op a b = (do
      let a ← a.toWord
      let b ← b.toWord
      Reference.calculate op a b) := by
  cases a with
  | text literal => exact absurd ha ht
  | word w => rfl
  | nothing => rfl

/-- Only literals have the type of texts. -/
theorem literal_of_typed (hσ : SymbolsOk S.σ) (h : Typed S.lit S.σ S.Γ e .string) :
    ∃ note text, e = .string note text := by
  have hplace : ∀ {e'}, e'.isLocation → ¬ Typed S.lit S.σ S.Γ e' .string := fun hl he => by
    obtain ⟨v, -, -, hscalar⟩ := place_of_typed hσ hl he (.inr (.inl rfl))
    exact not_string_of_scalar hscalar rfl
  cases e with
  | string note text => exact ⟨note, text, rfl⟩
  | ident x => exact absurd h (hplace rfl)
  | dot note obj field reached bad => exact absurd h (hplace rfl)
  | assign note target value =>
    exact absurd rfl (not_string_of_scalar h.2.1)
  | call note callee args =>
    obtain ⟨i, f, -, -, hf, hresult, -⟩ := h
    have hok : SymbolOk S.σ (.func f) := hσ i _ hf
    rcases hok.2.2 with hscalar | hvoid
    · exact absurd hresult.symm (not_string_of_scalar hscalar)
    · simp [hvoid] at hresult
  | binary note op left right =>
    obtain ⟨u, hop, -, -⟩ := h
    cases op <;> simp [OperatorTypes] at hop
  | int | bool | unary | misfit => rw [Typed] at h; simp at h

theorem labelOf_ne (kind : LabelKind) (c : Code.Counters) :
    Code.labelOf kind c ≠ Code.labelOf kind (Code.bump kind c) := by
  intro h
  have hlist := congrArg String.toList h
  simp only [Code.labelOf, Code.bump, if_true, String.toList_append, List.append_cancel_left_eq]
    at hlist
  have hdigits : Nat.toDigits 10 (c kind) = Nat.toDigits 10 (c kind + 1) := by
    simpa using hlist
  have hnumbers := congrArg (Nat.ofDigitChars 10 · 0) hdigits
  simp at hnumbers

/-- Two literals have different addresses. -/
theorem simulates_equality (hS : S.Sound) (note : Note) {op : BinaryOp} (hop : op = .eq ∨ op = .ne)
    {left right : Expr} (hleft : Typed S.lit S.σ S.Γ left .string)
    (hright : Typed S.lit S.σ S.Γ right .string) (c : Code.Counters) (ht : t ≠ .string)
    (hready : S.Ready (Code.expr S.env (.binary note op left right) c) w s) :
    S.Meets s w (Reference.expr S.call S.scopes (.binary note op left right))
      (S.Evaluated t s (s.pc + Code.width (Code.expr S.env (.binary note op left right) c))) := by
  obtain ⟨note₁, text₁, rfl⟩ := literal_of_typed hS.symbols hleft
  obtain ⟨note₂, text₂, rfl⟩ := literal_of_typed hS.symbols hright
  have hne : op ≠ .and ∧ op ≠ .or := by rcases hop with rfl | rfl <;> simp
  have hmeaning : Reference.expr S.call S.scopes
      (.binary note op (.string note₁ text₁) (.string note₂ text₂)) = (do
        let a ← (pure (.text text₁) : EvalM Value)
        let b ← (pure (.text text₂) : EvalM Value)
        return .word (← Reference.combine op a b)) := by
    rcases hop with rfl | rfl <;> simp [Reference.expr]
  rw [hmeaning]
  rw [Code.expr, if_neg (by simp [hne])] at hready ⊢
  rw [Code.expr, Code.expr] at hready ⊢
  refine (literal hS hready.left).bind ?_
  rintro a w₁ u₁ ⟨hu₁, hlabel₁⟩
  have hready₁ := hready.right hu₁.pc hu₁.inside hu₁.agrees
  refine (literal hS hready₁.left).bind ?_
  rintro b w₂ u₂ ⟨hu₂, hlabel₂⟩
  have hready₂ := hready₁.right hu₂.pc hu₂.inside hu₂.agrees
  refine popBoth hS hu₁ hu₂ hready.inside.sp hready₂ fun u hu hreg hready' => ?_
  -- seen as words, the two addresses differ
  have hdiffer : Int32.ofInt (u₁.load (s.reg "$sp")) ≠ Int32.ofInt (u₂.load (u₁.reg "$sp")) := by
    intro heq
    rw [wrap_eq, heq, ← wrap_eq] at hlabel₁
    exact labelOf_ne .string c (hS.labels hlabel₁ hlabel₂)
  have hcombine : Reference.combine op a b = Reference.calculate op
      (Int32.ofInt (u₁.load (s.reg "$sp"))) (Int32.ofInt (u₂.load (u₁.reg "$sp"))) := by
    obtain ⟨l₁, rfl⟩ := text_of_fits hu₁.fits
    obtain ⟨l₂, rfl⟩ := text_of_fits hu₂.fits
    rcases hop with rfl | rfl <;> simp [Reference.combine, Reference.calculate, hdiffer]
  obtain ⟨what, hwhat⟩ : ∃ what, Lowering.calcOf? op = some what := by
    rcases hop with rfl | rfl <;> simp [Lowering.calcOf?]
  rw [hcombine]
  refine (calculation hS hwhat ht hu (hu.reg.trans (wrap_eq _)) (hreg.trans (wrap_eq _))
    hready').mono fun v w' u' hu' => hu'.at_pc ?_
  have hpc₁ := hu₁.pc
  rw [Code.binary, hwhat]
  simp only [Code.width_append, Code.width_cons, Code.width_literal, Code.width_op,
    Code.width_push, Code.width_pop, Code.width_nil]
  omega

theorem simulates_calc (hS : S.Sound) (note : Note) {op : BinaryOp} (hand : op ≠ .and)
    (hor : op ≠ .or) {left right : Expr} (hleft : S.Simulates left) (hright : S.Simulates right) :
    S.Simulates (.binary note op left right) := by
  intro c t s w htyped _ hready
  obtain ⟨u, hop, hl, hr⟩ := htyped
  obtain ⟨what, hwhat⟩ : ∃ what, Lowering.calcOf? op = some what := by
    cases op <;> simp_all [Lowering.calcOf?, OperatorTypes]
  have ht : t ≠ .string := by cases op <;> simp_all [OperatorTypes]
  by_cases hu : u = .string
  · subst hu
    have hequality : op = .eq ∨ op = .ne := by cases op <;> simp_all [OperatorTypes]
    exact simulates_equality hS note hequality hl hr c ht hready
  · have hoperand : IsOperand u := .inl (by
      cases op <;> simp_all [OperatorTypes, IsScalar])
    rw [Reference.expr_calc S.call S.scopes note hand hor]
    rw [Code.expr, if_neg (by simp [hand, hor])] at hready ⊢
    refine (hleft c u s w hl hoperand hready.left).bind fun a w₁ u₁ hu₁ => ?_
    have hready₁ := hready.right hu₁.pc hu₁.inside hu₁.agrees
    refine (hright _ u u₁ w₁ hr hoperand hready₁.left).bind fun b w₂ u₂ hu₂ => ?_
    have hready₂ := hready₁.right hu₂.pc hu₂.inside hu₂.agrees
    refine popBoth hS hu₁ hu₂ hready.inside.sp hready₂ fun u₃ hu₃ hreg hready₃ => ?_
    rw [combine_eq hu₁.fits hu, bind_assoc]
    refine (toWord hu₁.value hu₁.fits hu).bind ?_
    rintro x _ _ ⟨rfl, rfl, rfl⟩
    rw [bind_assoc]
    refine (toWord hu₂.value hu₂.fits hu).bind ?_
    rintro y _ _ ⟨rfl, rfl, rfl⟩
    refine (calculation hS hwhat ht hu₃ (hu₃.reg.trans (wrap_eq _)) (hreg.trans (wrap_eq _))
      hready₃).mono fun v w' u' hu' => hu'.at_pc ?_
    have hpc₁ := hu₁.pc
    rw [Code.binary, hwhat]
    simp only [Code.width_append, Code.width_cons, Code.width_op, Code.width_push, Code.width_pop,
      Code.width_nil]
    omega

/-- A state differs from another one in nothing but its place. -/
structure Moves (s u : State) : Prop where
  reg : ∀ q, u.reg q = s.reg q
  load : ∀ a, u.load a = s.load a
  inputs : u.inputs = s.inputs
  output : u.output = s.output

theorem Moves.inside (h : Moves s u) (hs : S.A.In S.image s) : S.A.In S.image u :=
  ⟨by rw [h.reg, hs.fp], by rw [h.reg]; exact hs.sp, by rw [h.reg]; exact hs.low⟩

theorem Moves.agrees (h : Moves s u) (hs : Agrees S.L S.A.fp w s) : Agrees S.L S.A.fp w u :=
  ⟨fun hx => by rw [h.load, hs.globals hx], fun hx hv => by rw [h.load, hs.locals hx hv],
    by rw [h.inputs, hs.inputs], by rw [h.output, hs.output]⟩

theorem Moves.same {top : Int} (h : Moves s u) : S.Same top s u := fun a _ _ _ => h.load a

/-- A jump or a branch, taken or not. -/
theorem Ready.goto (hS : S.Sound) {α : Type} {x : EvalM α} {Q : α → Store → State → Prop}
    {i : Instr} {comment : String} (pc : Int) (hs : S.Ready (.op i comment :: is) w s)
    (heffect : effect S.image s.next i = .ok false (s.next.moveTo pc)) (hplain : openedBy i = 0)
    (hrest : ∀ u, u.pc = pc → Moves s u → S.Meets u w x Q) : S.Meets s w x Q := by
  obtain ⟨hi, hlo, hhi⟩ := hs.op
  refine Proofs.Meets.exec_plain hi hplain (hS.activation.holds s hlo hhi hs.inside.fp hs.inside.sp)
    heffect (hrest _ rfl ⟨fun q => rfl, fun a => rfl, rfl, rfl⟩)

theorem Held.moves {r : String} {pc n : Int} {u' : State} (hu : S.Held r s pc n w u)
    (h : Moves u u') : S.Held r s u'.pc n w u' where
  pc := rfl
  inside := h.inside hu.inside
  sp := by rw [h.reg, hu.sp]
  reg := by rw [h.reg, hu.reg]
  agrees := h.agrees hu.agrees
  same := hu.same.trans h.same (Int.le_refl _)

theorem Evaluated.moves {v : Value} {pc : Int} {u' : State} (hu : S.Evaluated t s pc v w u)
    (h : Moves u u') : S.Evaluated t s u'.pc v w u' where
  pc := rfl
  inside := h.inside hu.inside
  sp := by rw [h.reg, hu.sp]
  value := by rw [h.load]; exact hu.value
  fits := hu.fits
  agrees := h.agrees hu.agrees
  same := hu.same.trans h.same (Int.le_refl _)

/-- What is evaluated with the stack as it was before is evaluated from there. -/
theorem Held.evaluated {r : String} {pc pc' n : Int} {v : Value} {u' : State}
    (hu : S.Held r s pc n w u) (hu' : S.Evaluated t u pc' v w' u') :
    S.Evaluated t s pc' v w' u' where
  pc := hu'.pc
  inside := hu'.inside
  sp := by rw [hu'.sp, hu.sp]
  value := by rw [← hu.sp]; exact hu'.value
  fits := hu'.fits
  agrees := hu'.agrees
  same := hu.same.trans hu'.same (Int.le_of_eq hu.sp)

theorem goto_label {name comment : String} {pc : Int}
    (h : ItemAt S.image pc (.label name comment)) : Machine.goto S.image s name = .ok false (s.moveTo pc) := by
  obtain ⟨n, hn, rfl⟩ := h
  simp [Machine.goto, hn]

/-- What `a && b` and `a || b` mean: the right operand counts if the left one does not decide. -/
theorem logic_eq (call : String → List Word → EvalM (Option Word)) (scopes : Scopes) (note : Note)
    {op : BinaryOp} (hop : op = .and ∨ op = .or) (left right : Expr) :
    Reference.expr call scopes (.binary note op left right) = (do
      let word ← Reference.word call scopes left
      if (word ≠ 0 : Bool) = (op = .and : Bool) then
        return .word (← Reference.word call scopes right)
      else return .word word) := by
  rcases hop with rfl | rfl <;> rw [Reference.expr] <;> simp [Reference.word]

/-- The code of the left operand of `a && b` or `a || b` goes on with the right operand, or leaves the
left word as the result and goes past it. -/
theorem chosen (hS : S.Sound) {op : BinaryOp} (hop : op = .and ∨ op = .or) {left : Expr}
    (hleft : S.Simulates left) (hl : Typed S.lit S.σ S.Γ left .bool) {α : Type} {x : EvalM α}
    {y : Word → EvalM α} {Q : α → Store → State → Prop} {c : Code.Counters} {past done : String}
    {there : Int}
    (hready : S.Ready (Code.expr S.env left c ++ (Code.shortCut (op = .and) past done ++ is)) w s)
    (hdone : ItemAt S.image there (.label done))
    (hright : ∀ (word : Word) w' u,
      S.Held "$t0" s (s.pc + (Code.width (Code.expr S.env left c) + 6)) word.toInt w' u →
      S.Ready is w' u → S.Meets u w' x Q)
    (hskip : ∀ word w' u, S.Evaluated .bool s there (.word word) w' u → S.Meets u w' (y word) Q) :
    S.Meets s w (do
      let word ← Reference.word S.call S.scopes left
      if (word ≠ 0 : Bool) = (op = .and : Bool) then x else y word) Q := by
  refine (hleft.word hl (.inl (.inr rfl)) (by simp) hready.left).bind fun word w₁ u₁ hu₁ => ?_
  have hpc₁ := hu₁.pc
  have hready₁ := hready.right hpc₁ hu₁.inside hu₁.agrees
  simp only [Code.shortCut, List.append_assoc, List.cons_append, List.nil_append] at hready₁
  refine hu₁.pop hS hready₁.left hready.inside.sp (by decide) (by decide) (by decide)
    fun u₂ hu₂ _ => ?_
  have hpc₂ := hu₂.pc
  rw [hu₁.wrap_load] at hu₂
  have hready₂ := hready₁.right (hpc₂.trans (by rw [hpc₁]; rfl)) hu₂.inside hu₂.agrees
  have hplaced := hready₂.placed
  simp only [codeAt_cons, codeAt_append, Code.width_op, Code.width_push] at hplaced
  obtain ⟨-, -, -, hover, -⟩ := hplaced
  have hreg : u₂.reg "$t0" = word.toInt := hu₂.reg
  by_cases hcond : (word ≠ 0 : Bool) = (op = .and : Bool)
  · -- the branch is taken, and the right operand decides
    rw [if_pos hcond]
    refine hready₂.goto hS (u₂.pc + 1 + 2 + 1) ?_ ?_ fun u₃ hpc₃ hmoves => ?_
    · have hjump := goto_label (s := u₂.next) hover
      rcases hop with rfl | rfl
      · have hne : word ≠ 0 := by simpa using hcond
        simpa [effect, Reg.t0, Reg.zero, hreg, toInt_eq_zero, hne] using hjump
      · have heq : word = 0 := by simpa using hcond
        simpa [effect, Reg.t0, Reg.zero, hreg, toInt_eq_zero, heq] using hjump
    · split <;> rfl
    · have hu₃ := hu₂.moves hmoves
      have hpc : u₃.pc = s.pc + (Code.width (Code.expr S.env left c) + 6) := by omega
      rw [hpc] at hu₃
      refine hright word w₁ u₃ hu₃ ?_
      have hsplit : S.Ready ((.op (if (op = .and : Bool) then .bne .t0 .zero past
          else .beq .t0 .zero past) :: (Code.push .t0 ++ [.op (.b done), .label past])) ++ is) w₁ u₂ := by
        simpa using hready₂
      refine hsplit.right ?_ hu₃.inside hu₃.agrees
      simp only [Code.width_cons, Code.width_append, Code.width_op, Code.width_push,
        Code.width_label, Code.width_nil]
      omega
  · -- the left word is pushed again, and the code of the right operand passed over
    rw [if_neg hcond]
    refine hready₂.goto hS (u₂.pc + 1) ?_ ?_ fun u₃ hpc₃ hmoves => ?_
    · rcases hop with rfl | rfl
      · have heq : word = 0 := by simpa using hcond
        simp [effect, Reg.t0, Reg.zero, hreg, heq, State.next]
      · have hne : word ≠ 0 := by simpa using hcond
        simp [effect, Reg.t0, Reg.zero, hreg, toInt_eq_zero, hne, State.next]
    · split <;> rfl
    · have hu₃ := hu₂.moves hmoves
      have hready₃ := hready₂.tail (hpc₃.trans rfl) hu₃.inside hu₃.agrees
      have hreg₃ : u₃.reg Reg.t0 = word.toInt := hu₃.reg
      have hvalue : Denotes S.image (.word word) (u₃.reg Reg.t0) := by
        rw [hreg₃]
        exact Int32.ofInt_toInt _
      have hbool : Ty.bool ≠ .string := by simp
      refine pushed hS (v := .word word) hready₃.left hu₃.sp hvalue hbool hu₃.same rfl fun u₄ hu₄ => ?_
      have hready₄ := hready₃.right hu₄.pc hu₄.inside hu₄.agrees
      refine hready₄.goto hS there (goto_label hdone) rfl fun u₅ hpc₅ hmoves' => ?_
      exact hskip word w₁ u₅ ((hu₄.moves hmoves').at_pc hpc₅.symm)

theorem simulates_logic (hS : S.Sound) (note : Note) {op : BinaryOp} (hop : op = .and ∨ op = .or)
    {left right : Expr} (hleft : S.Simulates left) (hright : S.Simulates right) :
    S.Simulates (.binary note op left right) := by
  intro c t s w htyped _ hready
  obtain ⟨u, htypes, hl, hr⟩ := htyped
  obtain ⟨rfl, rfl⟩ : u = .bool ∧ t = .bool := by rcases hop with rfl | rfl <;> exact htypes
  rw [logic_eq S.call S.scopes note hop]
  rw [Code.expr, if_pos hop] at hready ⊢
  simp only [] at hready ⊢
  generalize Code.bump .shortCircuit (Code.bump .shortCircuit c) = c' at hready ⊢
  generalize Code.labelOf .shortCircuit (Code.bump .shortCircuit c) = done at hready ⊢
  generalize Code.labelOf .shortCircuit c = past at hready ⊢
  have hplaced := hready.placed
  simp only [codeAt_cons, codeAt_append] at hplaced
  obtain ⟨-, -, -, hdone, -⟩ := hplaced
  refine chosen hS hop hleft hl hready hdone (fun word w₁ u₁ hu₁ hready₁ => ?_) fun word w₁ u₁ hu₁ => ?_
  · refine (hright.word hr (.inl (.inr rfl)) (by simp) hready₁.left).bind fun word' w₂ u₂ hu₂ => ?_
    refine Meets.pure ((hu₁.evaluated hu₂).at_pc ?_)
    have hpc₁ := hu₁.pc
    simp only [Code.shortCut, Code.width_append, Code.width_cons, Code.width_op, Code.width_push,
      Code.width_pop, Code.width_label, Code.width_nil]
    omega
  · refine Meets.pure (hu₁.at_pc ?_)
    simp only [Code.width_append, Code.width_cons, Code.width_label, Code.width_nil]
    omega

/-- A state after the code of arguments: they lie on the stack in order, the first one on top of what
was there before. -/
structure Arguments (S : Scene) (s : State) (pc : Int) (count : Nat) (args : List Word) (w : Store)
    (u : State) : Prop where
  pc : u.pc = pc
  inside : S.A.In S.image u
  length : args.length = count
  sp : u.reg "$sp" = s.reg "$sp" - 4 * count
  values : ∀ k (h : k < args.length), Int32.ofInt (u.load (s.reg "$sp" - 4 * k)) = args[k]
  agrees : Agrees S.L S.A.fp w u
  same : S.Same (s.reg "$sp") s u

theorem words_cons_eq (call : String → List Word → EvalM (Option Word)) (scopes : Scopes) (e : Expr)
    (es : List Expr) : Reference.words call scopes (e :: es) = (do
      let word ← Reference.word call scopes e
      return word :: (← Reference.words call scopes es)) := by
  rw [Reference.words]
  simp [Reference.word]

theorem arguments {es : List Expr} (hes : ∀ e ∈ es, S.Simulates e) :
    ∀ {ts : List Ty} {c : Code.Counters} {s : State} {w : Store},
      TypedAll S.lit S.σ S.Γ es ts → (∀ t ∈ ts, IsScalar t) → S.Ready (Code.exprs S.env es c) w s →
      S.Meets s w (Reference.words S.call S.scopes es)
        (S.Arguments s (s.pc + Code.width (Code.exprs S.env es c)) es.length) := by
  induction es with
  | nil =>
    intro ts c s w _ _ hready
    rw [Reference.words, Code.exprs]
    refine Meets.pure ⟨by simp, hready.inside, rfl, by simp, ?_, hready.agrees, .refl S _ s⟩
    intro k hk
    simp at hk
  | cons e es ih =>
    intro ts c s w htyped hscalar hready
    obtain ⟨t, ts', rfl, he, hes'⟩ := htyped
    rw [words_cons_eq]
    rw [Code.exprs] at hready ⊢
    have ht : IsScalar t := hscalar t (by simp)
    refine ((hes e (by simp)).word he (.inl ht) (not_string_of_scalar ht) hready.left).bind
      fun word w₁ u₁ hu₁ => ?_
    refine (ih (fun e' he' => hes e' (by simp [he'])) hes' (fun t' ht' => hscalar t' (by simp [ht']))
      (hready.right hu₁.pc hu₁.inside hu₁.agrees)).bind fun args w₂ u₂ hu₂ => ?_
    have hsp₁ := hu₁.sp
    have hsp₂ := hu₂.sp
    have hlow := hu₁.inside.low
    refine Meets.pure ⟨?_, hu₂.inside, by simp [hu₂.length], ?_, ?_, hu₂.agrees,
      hu₁.same.trans hu₂.same (by omega)⟩
    · have := hu₂.pc
      have := hu₁.pc
      rw [Code.width_append]
      omega
    · simp only [List.length_cons]
      omega
    · intro k hk
      cases k with
      | zero =>
        have hkept := hu₂.same (s.reg "$sp") (by omega) (by omega) (.inl hready.inside.sp)
        simp only [Int.natCast_zero, Int.mul_zero, Int.sub_zero, List.getElem_cons_zero, hkept]
        exact hu₁.value
      | succ k =>
        have hvalue := hu₂.values k (by simpa using hk)
        rw [show s.reg "$sp" - 4 * ((k + 1 : Nat) : Int) = u₁.reg "$sp" - 4 * (k : Int) by omega]
        simpa using hvalue

/-- Words are discarded, if there are any. -/
theorem Ready.drop (hS : S.Sound) {α : Type} {x : EvalM α} {Q : α → Store → State → Prop} {n : Nat}
    (hs : S.Ready (Code.drop n ++ is) w s) (hsp : s.reg "$sp" + 4 * n ≤ S.A.bottom)
    (hrest : ∀ u, u.pc = s.pc + Code.width (Code.drop n) → Activation.Sets "$sp"
      (s.reg "$sp" + 4 * n) s u → S.Ready is w u → S.Meets u w x Q) : S.Meets s w x Q := by
  by_cases hn : n = 0
  · have hcode : Code.drop n = [] := by simp [Code.drop, hn]
    rw [hcode] at hs hrest
    refine hrest s (by simp) ⟨by omega, fun _ _ => rfl, fun _ => rfl, rfl, rfl⟩ hs
  · have hcode : Code.drop n = [.op (.compute .addu .sp .sp (.imm (4 * n)))] := by
      simp [Code.drop, hn]
    rw [hcode] at hs hrest
    obtain ⟨hi, hlo, hhi⟩ := hs.op
    refine Activation.raise hS.activation hs.inside hi hlo hhi (by omega) hsp
      fun u hpc hu hset => hrest u (by simpa using hpc) hset (hs.right (by simpa using hpc) hu ?_)
    exact hs.agrees.sets hset

theorem simulates_call (hS : S.Sound) (note : Note) (callee : Ident) {args : List Expr}
    (hargs : ∀ e ∈ args, S.Simulates e) : S.Simulates (.call note callee args) := by
  intro c t s w htyped _ hready
  obtain ⟨i, f, hfind, hbinding, hf, rfl, hall⟩ := htyped
  obtain ⟨hsymbol, hinvokes⟩ := hS.calls hfind hbinding hf
  have hok : SymbolOk S.σ (.func f) := hS.symbols i _ hf
  have ht : f.result ≠ .string := by
    rcases hok.2.2 with hscalar | hvoid
    · exact not_string_of_scalar hscalar
    · simp [hvoid]
  have hcode : Code.invoke S.env callee args.length = .op (.jal (functionLabel f.name)) ::
      (Code.drop args.length ++ Code.push .v0) := by
    rw [Code.invoke, hsymbol]
  rw [Reference.expr]
  rw [Code.expr, hcode] at hready ⊢
  refine (arguments hargs hall hok.2.1 hready.left).bind fun words w₁ u₁ hu₁ => ?_
  have hready₁ := hready.right hu₁.pc hu₁.inside hu₁.agrees
  have hlength := typedAll_length hall
  have hsp₁ := hu₁.sp
  have hsp := hready.inside.sp
  have hlow₁ := hu₁.inside.low
  have hcall : S.Meets u₁ w₁ (S.call callee.name words) (S.Returned u₁) := by
    refine hinvokes u₁ w₁ words hready₁.left (hu₁.length.trans hlength) fun k hk => ?_
    rw [show u₁.reg "$sp" + 4 * ((f.params.length : Int) - k) = s.reg "$sp" - 4 * k by omega]
    exact hu₁.values k hk
  refine hcall.bind fun v w₂ u₂ hu₂ => ?_
  have hsp₂ := hu₂.sp
  refine (hready₁.tail hu₂.pc hu₂.inside hu₂.agrees).drop hS (by omega) fun u₃ hpc₃ hset hready₃ => ?_
  have hsp₃ : u₃.reg "$sp" = s.reg "$sp" := by rw [hset.reg]; omega
  have hv0 : u₃.reg "$v0" = u₂.reg "$v0" := hset.other _ (by decide)
  have hsame : S.Same (s.reg "$sp") s u₃ := fun a ha hdata harea => by
    rw [hset.load, hu₂.same a (by omega) hdata, hu₁.same a ha hdata harea]
  have hpc : s.pc + Code.width (Code.exprs S.env args c ++ .op (.jal (functionLabel f.name)) ::
      (Code.drop args.length ++ Code.push .v0)) = u₃.pc + 2 := by
    have := hu₁.pc
    have := hu₂.pc
    simp only [Code.width_append, Code.width_cons, Code.width_op, Code.width_push]
    omega
  cases v with
  | none => exact finish hS (v := .nothing) hready₃ hsp₃ trivial ht hsame hpc
  | some word =>
    refine finish hS (v := .word word) hready₃ hsp₃ ?_ ht hsame hpc
    show Int32.ofInt (u₃.reg "$v0") = word
    rw [hv0, hu₂.result word rfl, Int32.ofInt_toInt]

mutual

/-- The code of every expression does what the expression means. -/
theorem simulates (hS : S.Sound) : (e : Expr) → S.Simulates e
  | .int note value => simulates_int hS note value
  | .string note text => simulates_string hS note text
  | .bool note value => simulates_bool hS note value
  | .ident x => simulates_ident hS x
  | .dot note obj field reached bad => simulates_dot hS note obj field reached bad
  | .assign note _ value => simulates_assign hS note (simulates hS value)
  | .call note callee args => simulates_call hS note callee (simulates_all hS args)
  | .unary note op operand => simulates_unary hS note op (simulates hS operand)
  | .binary note op left right => by
    by_cases hop : op = .and ∨ op = .or
    · exact simulates_logic hS note hop (simulates hS left) (simulates hS right)
    · exact simulates_calc hS note (hop ∘ .inl) (hop ∘ .inr) (simulates hS left)
        (simulates hS right)
  | .misfit _ _ => fun _ _ _ _ htyped => htyped.elim

/-- The code of each of some expressions does what the expression means. -/
theorem simulates_all (hS : S.Sound) : (es : List Expr) → ∀ e ∈ es, S.Simulates e
  | [], _, h => (by cases h)
  | e :: es, e', h => by
    rcases List.mem_cons.mp h with heq | h
    · exact heq ▸ simulates hS e
    · exact simulates_all hS es e' h

end

end Scene

end CMinusMinus.Proofs
