import CMinusMinus.Proofs.Activation

/-!
The variables of the language in the memory of the machine. Globals lie in the data, the local
variables of an activation in its frame, and no two words in one place. Reading and writing a
location keep the two sides in agreement.
-/
namespace CMinusMinus.Proofs

open Assembly Machine
open Reference (EvalM Store Word Value Scopes levelOf? readWord writeWord)

/-- Where the words of variables lie: globals at an address, locals so many bytes below the frame
pointer. -/
structure Layout where
  globals : String → List String → Option Int
  slots : Nat → String → List String → Option Int

/-- Words of variables lie in the data and in the frame, and no two in one place. -/
structure Layout.Sound (L : Layout) (image : Image) (frame : Int) : Prop where
  global_range : ∀ {x path a}, L.globals x path = some a → dataBase ≤ a ∧ a < image.dataNext
  global_inj : ∀ {x y path path' a}, L.globals x path = some a → L.globals y path' = some a →
    y = x ∧ path' = path
  slot_range : ∀ {l x path n}, L.slots l x path = some n → 8 ≤ n ∧ n + 4 ≤ 8 + frame
  slot_inj : ∀ {l l' x y path path' n}, L.slots l x path = some n → L.slots l' y path' = some n →
    l' = l ∧ y = x ∧ path' = path

/-- The memory of the machine holds the variables, and both sides have read and written the same. -/
structure Agrees (L : Layout) (fp : Int) (w : Store) (s : State) : Prop where
  globals : ∀ {x path a}, L.globals x path = some a → Int32.ofInt (s.load a) = w.globals x path
  locals : ∀ {l x path n v}, L.slots l x path = some n → w.locals l x path = some v →
    Int32.ofInt (s.load (fp - n)) = v
  inputs : s.inputs = w.inputs
  output : s.output = w.output

/-- A location names a word of a variable, and the compiler finds that word's variable and offset. -/
structure Resolved (image : Image) (env : Lowering.Env) (L : Layout) (scopes : Scopes) (e : Expr)
    (x : String) (path : List String) (v : Variable) (offset : Int) : Prop where
  place : Reference.placeOf? e = some (x, path)
  location : Lowering.location env e = .ok (v, offset)
  lies : (v.isGlobal = true ∧ levelOf? scopes x = none ∧ ∃ base,
      image.dataLabels[globalLabel v.name]? = some base ∧
      L.globals x path = some (base + offset)) ∨
    (v.isGlobal = false ∧ ∃ level, levelOf? scopes x = some level ∧
      L.slots level x path = some (v.offset + offset))

def addressOf (image : Image) (fp : Int) (v : Variable) (offset : Int) : Int :=
  if v.isGlobal then (image.dataLabels[globalLabel v.name]?).getD 0 + offset
  else fp - (v.offset + offset)

variable {A : Activation} {image : Image} {env : Lowering.Env} {L : Layout} {scopes : Scopes}
  {e : Expr} {x : String} {path : List String} {v : Variable} {offset : Int} {s t : State}
  {w : Store} {α : Type} {fuel : Nat} {y : EvalM α} {Q : α → Store → Moment → Prop}

/-- Memory outside of the data and the frame does not matter. -/
theorem Agrees.of_load (h : Agrees L A.fp w s) (hL : L.Sound image A.frame)
    (hload : ∀ a, a < image.dataNext ∨ A.bottom < a ∧ a ≤ A.fp - 8 → t.load a = s.load a)
    (hinputs : t.inputs = s.inputs) (houtput : t.output = s.output) : Agrees L A.fp w t where
  globals hx := by rw [hload _ (.inl (hL.global_range hx).2), h.globals hx]
  locals hx hv := by
    have hrange := hL.slot_range hx
    rw [hload _ (.inr ⟨by simp only [Activation.bottom]; omega, by omega⟩), h.locals hx hv]
  inputs := by rw [hinputs, h.inputs]
  output := by rw [houtput, h.output]

namespace Agrees

theorem sets {r : String} {n : Int} (h : Agrees L A.fp w s) (hset : Activation.Sets r n s t) :
    Agrees L A.fp w t where
  globals hx := by rw [hset.load, h.globals hx]
  locals hx hv := by rw [hset.load, h.locals hx hv]
  inputs := by rw [hset.inputs, h.inputs]
  output := by rw [hset.output, h.output]

theorem popped {r : String} (h : Agrees L A.fp w s) (hpop : Activation.Popped r s t) :
    Agrees L A.fp w t where
  globals hx := by rw [hpop.load, h.globals hx]
  locals hx hv := by rw [hpop.load, h.locals hx hv]
  inputs := by rw [hpop.inputs, h.inputs]
  output := by rw [hpop.output, h.output]

theorem pushed {n : Int} (h : Agrees L A.fp w s) (hL : L.Sound image A.frame)
    (hs : A.In image s) (ht : A.In image t) (hpush : Activation.Pushed n s t) :
    Agrees L A.fp w t := by
  have hlow := ht.low
  have hsp := hs.sp
  rw [hpush.sp] at hlow
  exact h.of_load hL (fun a ha => hpush.load a (by omega)) hpush.inputs hpush.output

end Agrees

namespace Resolved

/-- The address of a word of a variable lies in the data or in the frame. -/
theorem address_range (h : Resolved image env L scopes e x path v offset)
    (hL : L.Sound image A.frame) :
    dataBase ≤ addressOf image A.fp v offset ∧ addressOf image A.fp v offset < image.dataNext ∨
      A.bottom < addressOf image A.fp v offset ∧ addressOf image A.fp v offset ≤ A.fp - 8 := by
  rcases h.lies with ⟨hglobal, -, base, hbase, hx⟩ | ⟨hlocal, level, -, hx⟩
  · left
    simpa [addressOf, hglobal, hbase] using hL.global_range hx
  · right
    have := hL.slot_range hx
    simp only [addressOf, hlocal, Activation.bottom]
    simp
    omega

/-- Addresses of variables fit into a register. -/
theorem wrap_address (h : Resolved image env L scopes e x path v offset)
    (hL : L.Sound image A.frame) (hA : A.Sound image) (hs : A.In image s) :
    wrap (addressOf image A.fp v offset) = addressOf image A.fp v offset := by
  have hrange := h.address_range (A := A) hL
  have := hA.fp_le
  have := hA.frame_nonneg
  have := hA.data
  have := hs.low
  have := hs.sp
  simp only [Activation.bottom, dataBase, stackTop] at *
  exact wrap_of_fits (by omega) (by omega)

/-- The word of a variable is the one in memory. A local variable without a value has the word that
happens to be there. -/
theorem read (h : Resolved image env L scopes e x path v offset) (hw : Agrees L A.fp w s)
    {P : Moment → Prop} {d : Int} {Q : Word → Store → Moment → Prop}
    (hq : Q (Int32.ofInt (s.load (addressOf image A.fp v offset))) w ⟨d, s⟩) :
    Meets image fuel P ⟨d, s⟩ w (readWord scopes x path) Q := by
  rcases h.lies with ⟨hglobal, hlevel, base, hbase, hx⟩ | ⟨hlocal, level, hlevel, hx⟩
  · have hload := hw.globals hx
    have haddress : addressOf image A.fp v offset = base + offset := by
      simp [addressOf, hglobal, hbase]
    rw [haddress, hload] at hq
    refine Meets.of_eq w (fun unknowns => ?_) hq
    simp only [readWord, hlevel]
    rfl
  · have haddress : addressOf image A.fp v offset = A.fp - (v.offset + offset) := by
      simp [addressOf, hlocal]
    rw [haddress] at hq
    cases hv : w.locals level x path with
    | some word =>
      rw [hw.locals hx hv] at hq
      refine Meets.of_eq w (fun unknowns => ?_) hq
      simp only [readWord, hlevel, evalM_get_bind, hv]
      rfl
    | none =>
      have hread : ∀ unknowns, readWord scopes x path { w with unknowns } =
          Reference.unknown { w with unknowns } := by
        intro unknowns
        simp only [readWord, hlevel, evalM_get_bind, hv]
      exact Meets.congr hread (Meets.unknown _ hq)

/-- Storing a word at the address of a variable is writing the variable. -/
theorem agrees_write (h : Resolved image env L scopes e x path v offset)
    (hL : L.Sound image A.frame) (hlow : image.dataNext ≤ A.bottom + 4) (hw : Agrees L A.fp w s)
    {word : Word} (hload : ∀ a, t.load a = if addressOf image A.fp v offset = a then word.toInt
      else s.load a)
    (hinputs : t.inputs = s.inputs) (houtput : t.output = s.output) :
    Agrees L A.fp (w.write scopes x path word) t := by
  have hframe : ∀ {l y q n}, L.slots l y q = some n →
      A.bottom + 4 ≤ A.fp - n ∧ A.fp - n ≤ A.fp - 8 := by
    intro l y q n hy
    have := hL.slot_range hy
    simp only [Activation.bottom]
    omega
  rcases h.lies with ⟨hglobal, hlevel, base, hbase, hx⟩ | ⟨hlocal, level, hlevel, hx⟩
  · have haddress : addressOf image A.fp v offset = base + offset := by
      simp [addressOf, hglobal, hbase]
    rw [haddress] at hload
    refine ⟨fun {y q a} hy => ?_, fun {l y q n u} hy hu => ?_, ?_, ?_⟩
    · simp only [Store.write, hlevel, hload]
      by_cases ha : base + offset = a
      · subst ha
        obtain ⟨rfl, rfl⟩ := hL.global_inj hx hy
        simp
      · have hne : ¬ (y = x ∧ q = path) := by
          rintro ⟨rfl, rfl⟩
          exact ha (Option.some.inj (hx.symm.trans hy))
        simpa [ha, hne] using hw.globals hy
    · have hu' : w.locals l y q = some u := by simpa only [Store.write, hlevel] using hu
      have := hframe hy
      have := (hL.global_range hx).2
      rw [hload, if_neg (by omega), hw.locals hy hu']
    · rw [hinputs, hw.inputs]; simp only [Store.write, hlevel]
    · rw [houtput, hw.output]; simp only [Store.write, hlevel]
  · have haddress : addressOf image A.fp v offset = A.fp - (v.offset + offset) := by
      simp [addressOf, hlocal]
    rw [haddress] at hload
    refine ⟨fun {y q a} hy => ?_, fun {l y q n u} hy hu => ?_, ?_, ?_⟩
    · have := hframe hx
      have := (hL.global_range hy).2
      rw [hload, if_neg (by omega), hw.globals hy]
      simp only [Store.write, hlevel]
    · simp only [Store.write, hlevel] at hu
      by_cases hn : v.offset + offset = n
      · subst hn
        obtain ⟨rfl, rfl, rfl⟩ := hL.slot_inj hx hy
        rw [if_pos ⟨rfl, rfl, rfl⟩] at hu
        rw [hload, if_pos rfl, Int32.ofInt_toInt]
        exact Option.some.inj hu
      · have hne : ¬ (l = level ∧ y = x ∧ q = path) := by
          rintro ⟨rfl, rfl, rfl⟩
          exact hn (Option.some.inj (hx.symm.trans hy))
        rw [if_neg hne] at hu
        rw [hload, if_neg (by omega), hw.locals hy hu]
    · rw [hinputs, hw.inputs]; simp only [Store.write, hlevel]
    · rw [houtput, hw.output]; simp only [Store.write, hlevel]

/-- The code for an address puts it into a register. -/
theorem address (h : Resolved image env L scopes e x path v offset) (hL : L.Sound image A.frame)
    (hA : A.Sound image) (hs : A.In image s) {r : String}
    (hcode : CodeAt image s.pc (Code.address v offset r)) (hlo : A.lo ≤ s.pc)
    (hhi : s.pc + Code.width (Code.address v offset r) ≤ A.hi)
    (hr : r ≠ "$zero") (hrsp : r ≠ "$sp") (hrfp : r ≠ "$fp")
    (hrest : ∀ t, t.pc = s.pc + Code.width (Code.address v offset r) → A.In image t →
      Activation.Sets r (addressOf image A.fp v offset) s t →
      Meets image fuel A.P ⟨A.depth, t⟩ w y Q) :
    Meets image fuel A.P ⟨A.depth, s⟩ w y Q := by
  have hwrap := h.wrap_address hL hA hs
  rcases h.lies with ⟨hglobal, -, base, hbase, hx⟩ | ⟨hlocal, level, -, hx⟩
  · have haddress : addressOf image A.fp v offset = base + offset := by
      simp [addressOf, hglobal, hbase]
    rw [haddress] at hrest hwrap
    simp only [Code.address, hglobal, if_true] at hcode hhi hrest
    by_cases hoffset : offset = 0
    · subst hoffset
      rw [Int.add_zero] at hwrap hrest
      simp only [ne_eq, not_true, if_false, codeAt_cons, ItemAt, Code.width_cons, Code.width_op,
        Code.width_nil] at hcode hhi hrest
      refine Activation.set hA hs hcode.1 hlo (by omega) (r := r) (v := base) ?_ rfl hr
        fun t hpc hset => hrest t (by omega) (hs.sets hset hrsp hrfp) (hwrap ▸ hset)
      simp [effect, withPlace, locate?, hbase]
    · simp only [ne_eq, hoffset, not_false_eq_true, if_true, codeAt_cons, ItemAt, Code.width_cons,
        Code.width_op, Code.width_nil] at hcode hhi hrest
      refine Activation.set hA hs hcode.1 hlo (by omega) (r := r) (v := base) ?_ rfl hr
        fun t hpc hset => ?_
      · simp [effect, withPlace, locate?, hbase]
      · have ht := hs.sets hset hrsp hrfp
        refine Activation.set hA ht (hpc ▸ hcode.2.1) (by omega) (by omega) (r := r)
          (v := t.reg r + offset) ?_ rfl hr fun u hpc' hset' => ?_
        · simp [effect, Machine.calculate, operandOf]
        · have hsum : wrap (t.reg r + offset) = base + offset := by
            rw [hset.reg, ← hwrap]
            simp [wrap, Int.add_bmod]
          refine hrest u (by omega) (ht.sets hset' hrsp hrfp) ⟨?_, ?_, ?_, ?_, ?_⟩
          · rw [hset'.reg, hsum]
          · intro q hq; rw [hset'.other q hq, hset.other q hq]
          · intro a; rw [hset'.load, hset.load]
          · rw [hset'.inputs, hset.inputs]
          · rw [hset'.output, hset.output]
  · have haddress : addressOf image A.fp v offset = A.fp - (v.offset + offset) := by
      simp [addressOf, hlocal]
    rw [haddress] at hrest hwrap
    simp only [Code.address, hlocal, Bool.false_eq_true, if_false, codeAt_cons, ItemAt,
      Code.width_cons, Code.width_op, Code.width_nil] at hcode hhi hrest
    refine Activation.set hA hs hcode.1 hlo (by omega) (r := r) (v := A.fp - (v.offset + offset))
      ?_ rfl hr fun t hpc hset => hrest t (by omega) (hs.sets hset hrsp hrfp) (hwrap ▸ hset)
    simp [effect, withPlace, locate?, Reg.fp, hs.fp, Int.sub_eq_add_neg]

/-- The code for the word of a variable puts it into the first register. -/
theorem fetch (h : Resolved image env L scopes e x path v offset) (hL : L.Sound image A.frame)
    (hA : A.Sound image) (hs : A.In image s)
    (hcode : CodeAt image s.pc (Code.fetch v offset)) (hlo : A.lo ≤ s.pc)
    (hhi : s.pc + Code.width (Code.fetch v offset) ≤ A.hi)
    (hrest : ∀ t, t.pc = s.pc + Code.width (Code.fetch v offset) → A.In image t →
      Activation.Sets "$t0" (wrap (s.load (addressOf image A.fp v offset))) s t →
      Meets image fuel A.P ⟨A.depth, t⟩ w y Q) :
    Meets image fuel A.P ⟨A.depth, s⟩ w y Q := by
  have hlies := h.lies
  by_cases hglobal : v.isGlobal = true
  · simp only [hglobal, Bool.true_eq_false, false_and, or_false, true_and] at hlies
    obtain ⟨-, base, hbase, hx⟩ := hlies
    by_cases hoffset : offset = 0
    · subst hoffset
      have haddress : addressOf image A.fp v 0 = base := by simp [addressOf, hglobal, hbase]
      simp only [Code.fetch, hglobal, if_true, codeAt_cons, ItemAt, Code.width_cons, Code.width_op,
        Code.width_nil, haddress] at hcode hhi hrest
      refine Activation.set hA hs hcode.1 hlo (by omega) (r := "$t0") (v := s.load base) ?_ rfl
        (by decide) fun t hpc hset => hrest t (by omega) (hs.sets hset (by decide) (by decide)) hset
      simp [effect, withPlace, locate?, hbase, Reg.t0]
    · simp only [Code.fetch, hglobal, hoffset, if_true, if_false, codeAt_append, codeAt_cons,
        ItemAt, Code.width_append, Code.width_cons, Code.width_op, Code.width_nil]
        at hcode hhi hrest
      refine h.address hL hA hs hcode.1 hlo (by simp only [Reg.t0] at hhi ⊢; omega) (by decide)
        (by decide) (by decide) fun t hpc ht hset => ?_
      have hwidth := Code.width_nonneg (Code.address v offset Reg.t0)
      refine Activation.set hA ht (hpc ▸ hcode.2.1) (by omega) (by omega) (r := "$t0")
        (v := s.load (addressOf image A.fp v offset)) ?_ rfl (by decide) fun u hpc' hset' => ?_
      · have hreg : t.reg "$t0" = addressOf image A.fp v offset := hset.reg
        simp [effect, withPlace, locate?, Reg.t0, hreg, hset.load]
      · refine hrest u (by omega) (ht.sets hset' (by decide) (by decide)) ⟨?_, ?_, ?_, ?_, ?_⟩
        · rw [hset'.reg]
        · intro q hq; rw [hset'.other q hq, hset.other q hq]
        · intro a; rw [hset'.load, hset.load]
        · rw [hset'.inputs, hset.inputs]
        · rw [hset'.output, hset.output]
  · have haddress : addressOf image A.fp v offset = A.fp - (v.offset + offset) := by
      simp [addressOf, hglobal]
    simp only [Code.fetch, hglobal, Bool.false_eq_true, if_false, codeAt_cons, ItemAt,
      Code.width_cons, Code.width_op, Code.width_nil, haddress] at hcode hhi hrest
    refine Activation.set hA hs hcode.1 hlo (by omega) (r := "$t0")
      (v := s.load (A.fp - (v.offset + offset))) ?_ rfl (by decide)
      fun t hpc hset => hrest t (by omega) (hs.sets hset (by decide) (by decide)) hset
    simp [effect, withPlace, locate?, Reg.fp, Reg.t0, hs.fp, Int.sub_eq_add_neg]

end Resolved

end CMinusMinus.Proofs
