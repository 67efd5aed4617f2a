import CMinusMinus.Proofs.Placement
import CMinusMinus.Proofs.Words

/-!
The machine at work in the body of a function. The frame pointer stays, the stack pointer stays below
the frame, and the stack is clear of the data. In between, values are pushed and popped.
-/
namespace CMinusMinus.Proofs

open Assembly Machine
open Reference (EvalM Store Word Value)

/-- An activation of a function: what is to hold at each of its moments, how many calls are open, the
part of the code that is looked at, the frame pointer, and the bytes of the frame. -/
structure Activation where
  P : Moment → Prop
  depth : Int
  lo : Int
  hi : Int
  fp : Int
  frame : Int

namespace Activation

/-- The stack pointer when no operands are on the stack: below the return address, the caller's
frame pointer and the variables. -/
def bottom (A : Activation) : Int := A.fp - 8 - A.frame

/-- The machine is in an activation. -/
structure In (A : Activation) (image : Image) (s : State) : Prop where
  fp : s.reg "$fp" = A.fp
  sp : s.reg "$sp" ≤ A.bottom
  low : image.dataNext ≤ s.reg "$sp" + 4

/-- What is to hold in an activation does hold, as long as the machine is in its code, with its frame
pointer and below its frame. -/
structure Sound (A : Activation) (image : Image) : Prop where
  frame_nonneg : 0 ≤ A.frame
  fp_le : A.fp ≤ stackTop
  data : dataBase ≤ image.dataNext
  holds : ∀ s : State, A.lo ≤ s.pc → s.pc < A.hi → s.reg "$fp" = A.fp → s.reg "$sp" ≤ A.bottom →
    A.P ⟨A.depth, s⟩

/-- The next state differs from a state in its place, in one register and in nothing else. -/
structure Sets (r : String) (v : Int) (s t : State) : Prop where
  reg : t.reg r = v
  other : ∀ q, q ≠ r → t.reg q = s.reg q
  load : ∀ a, t.load a = s.load a
  inputs : t.inputs = s.inputs
  output : t.output = s.output

/-- A state after a value has been pushed. -/
structure Pushed (v : Int) (s t : State) : Prop where
  sp : t.reg "$sp" = s.reg "$sp" - 4
  other : ∀ q, q ≠ "$sp" → t.reg q = s.reg q
  value : t.load (s.reg "$sp") = v
  load : ∀ a, a ≠ s.reg "$sp" → t.load a = s.load a
  inputs : t.inputs = s.inputs
  output : t.output = s.output

/-- A state after a value has been popped into a register. -/
structure Popped (r : String) (s t : State) : Prop where
  sp : t.reg "$sp" = s.reg "$sp" + 4
  reg : t.reg r = wrap (s.load (s.reg "$sp" + 4))
  other : ∀ q, q ≠ "$sp" → q ≠ r → t.reg q = s.reg q
  load : ∀ a, t.load a = s.load a
  inputs : t.inputs = s.inputs
  output : t.output = s.output

theorem setReg_sets {r : String} {s : State} (v : Int) (hr : r ≠ "$zero") :
    Sets r (wrap v) s (s.next.setReg r v) where
  reg := by simp [hr]
  other q hq := by
    by_cases hz : q = "$zero"
    · simp [hz]
    · simp [hq, hz]
  load a := by simp
  inputs := by simp
  output := by simp

variable {A : Activation} {image : Image} {s t : State} {α : Type} {fuel : Nat} {w : Store}
  {x : EvalM α} {Q : α → Store → Moment → Prop}

theorem In.sets {r : String} {v : Int} (h : A.In image s) (hset : Sets r v s t) (hsp : r ≠ "$sp")
    (hfp : r ≠ "$fp") : A.In image t where
  fp := by rw [hset.other _ hfp.symm, h.fp]
  sp := by rw [hset.other _ hsp.symm]; exact h.sp
  low := by rw [hset.other _ hsp.symm]; exact h.low

/-- The frame pointer of an activation is a word. -/
theorem In.wrap_fp (hs : A.In image s) (hA : A.Sound image) :
    wrap (s.reg "$fp") = s.reg "$fp" := by
  have hfp := hs.fp
  have hsp := hs.sp
  have hlow := hs.low
  have hnonneg := hA.frame_nonneg
  have htop := hA.fp_le
  have hdata := hA.data
  simp only [bottom, dataBase, stackTop] at *
  exact wrap_of_fits (by omega) (by omega)

/-- Carries out an instruction that sets a register. -/
theorem meets_set {P : Moment → Prop} {d : Int} {i : Instr} {r : String} {v : Int} (hP : P ⟨d, s⟩)
    (hi : image.Has s.pc i) (heffect : effect image s.next i = .ok false (s.next.setReg r v))
    (hplain : openedBy i = 0) (hr : r ≠ "$zero")
    (hrest : ∀ t, t.pc = s.pc + 1 → Sets r (wrap v) s t → Meets image fuel P ⟨d, t⟩ w x Q) :
    Meets image fuel P ⟨d, s⟩ w x Q :=
  Meets.exec_plain hi hplain hP heffect (hrest _ (by simp) (setReg_sets v hr))

/-- Makes room on the stack, which is clear of the data afterwards. -/
theorem meets_room {P : Moment → Prop} {d n : Int} {comment : String} (hP : P ⟨d, s⟩)
    (hi : ItemAt image s.pc (.op (.compute .subu .sp .sp (.imm n)) comment))
    (hdata : dataBase ≤ image.dataNext) (htop : s.reg "$sp" ≤ stackTop) (hn : 0 ≤ n)
    (hrest : ∀ t, t.pc = s.pc + 1 → image.dataNext ≤ s.reg "$sp" - n + 4 →
      Sets "$sp" (s.reg "$sp" - n) s t → Meets image fuel P ⟨d, t⟩ w x Q) :
    Meets image fuel P ⟨d, s⟩ w x Q := by
  refine Meets.of_clear hP fun hclear => ?_
  have hroom := room_of_clear hi hclear
  have hfits : wrap (s.reg "$sp" - n) = s.reg "$sp" - n := by
    simp only [dataBase, stackTop] at *
    exact wrap_of_fits (by omega) (by omega)
  refine meets_set (r := "$sp") (v := s.reg "$sp" - n) hP hi ?_ rfl (by decide)
    fun t hpc hset => hrest t hpc hroom (hfits ▸ hset)
  simp [effect, calculate, operandOf, Reg.sp]

/-- Pushes a register, which takes a step at least. -/
theorem meets_push {P : Moment → Prop} {d : Int} {r : String}
    (hP : ∀ t : State, s.pc ≤ t.pc → t.pc < s.pc + 2 → t.reg "$fp" = s.reg "$fp" →
      t.reg "$sp" = s.reg "$sp" → P ⟨d, t⟩)
    (hcode : CodeAt image s.pc (Code.push r)) (hdata : dataBase ≤ image.dataNext)
    (htop : s.reg "$sp" ≤ stackTop)
    (hrest : ∀ t, t.pc = s.pc + 2 → image.dataNext ≤ t.reg "$sp" + 4 → Pushed (s.reg r) s t →
      Meets image fuel P ⟨d, t⟩ w x Q) :
    Meets image (fuel + 1) P ⟨d, s⟩ w x Q := by
  simp only [Code.push, codeAt_cons, Code.width_op] at hcode
  obtain ⟨hstore, hsub, -⟩ := hcode
  refine Meets.exec_counted (t := s.next.store (s.reg "$sp") (s.reg r)) hstore rfl
    (hP s (by omega) (by omega) rfl rfl) ?_ ?_
  · simp [effect, withPlace, locate?, Reg.sp]
  · refine meets_room (hP _ (show s.pc ≤ s.pc + 1 by omega) (by simp) rfl rfl) hsub hdata htop (by decide)
      fun t hpc hroom hset => hrest t ?_ ?_ ⟨hset.reg, ?_, ?_, ?_, hset.inputs, hset.output⟩
    · simpa [Int.add_assoc] using hpc
    · rw [hset.reg]
      exact hroom
    · intro q hq
      exact hset.other q hq
    · rw [hset.load]
      simp
    · intro a ha
      rw [hset.load]
      simp [ha.symm]

/-- Carries out an instruction that sets a register other than the pointers. -/
theorem set {i : Instr} {r : String} {v : Int} (hA : A.Sound image) (hs : A.In image s)
    (hi : image.Has s.pc i) (hlo : A.lo ≤ s.pc) (hhi : s.pc < A.hi)
    (heffect : effect image s.next i = .ok false (s.next.setReg r v)) (hplain : openedBy i = 0)
    (hr : r ≠ "$zero")
    (hrest : ∀ t, t.pc = s.pc + 1 → Sets r (wrap v) s t → Meets image fuel A.P ⟨A.depth, t⟩ w x Q) :
    Meets image fuel A.P ⟨A.depth, s⟩ w x Q :=
  meets_set (hA.holds s hlo hhi hs.fp hs.sp) hi heffect hplain hr hrest

/-- Pushes a register. -/
theorem push {r : String} (hA : A.Sound image) (hs : A.In image s)
    (hcode : CodeAt image s.pc (Code.push r)) (hlo : A.lo ≤ s.pc) (hhi : s.pc + 2 ≤ A.hi)
    (hrest : ∀ t, t.pc = s.pc + 2 → A.In image t → Pushed (s.reg r) s t →
      Meets image fuel A.P ⟨A.depth, t⟩ w x Q) :
    Meets image fuel A.P ⟨A.depth, s⟩ w x Q := by
  have hsp := hs.sp
  have htop : s.reg "$sp" ≤ stackTop := by
    have := hA.fp_le
    have := hA.frame_nonneg
    simp only [bottom] at hsp
    omega
  refine Meets.less_fuel (meets_push (fun t hlow hhigh hfp hsp' => hA.holds t (by omega) (by omega)
    (hfp.trans hs.fp) (by omega)) hcode hA.data htop fun t hpc hlow hpush => ?_) (Nat.le_succ _)
  refine hrest t hpc ⟨(hpush.other _ (by decide)).trans hs.fp, ?_, hlow⟩ hpush
  have := hpush.sp
  omega

/-- The stack pointer goes up over operands. -/
theorem raise {n : Int} (hA : A.Sound image) (hs : A.In image s)
    (hi : image.Has s.pc (.compute .addu .sp .sp (.imm n))) (hlo : A.lo ≤ s.pc) (hhi : s.pc < A.hi)
    (hn : 0 ≤ n) (hsp : s.reg "$sp" + n ≤ A.bottom)
    (hrest : ∀ t, t.pc = s.pc + 1 → A.In image t → Sets "$sp" (s.reg "$sp" + n) s t →
      Meets image fuel A.P ⟨A.depth, t⟩ w x Q) :
    Meets image fuel A.P ⟨A.depth, s⟩ w x Q := by
  have hfits : wrap (s.reg "$sp" + n) = s.reg "$sp" + n := by
    have := hA.fp_le
    have := hA.frame_nonneg
    have := hA.data
    have := hs.low
    simp only [bottom, dataBase, stackTop] at *
    exact wrap_of_fits (by omega) (by omega)
  refine Meets.exec_plain hi rfl (hA.holds s hlo hhi hs.fp hs.sp)
    (t := s.next.setReg "$sp" (s.reg "$sp" + n)) ?_ ?_
  · simp [effect, Machine.calculate, operandOf, Reg.sp]
  · have hset : Sets "$sp" (s.reg "$sp" + n) s _ := hfits ▸ setReg_sets (s.reg "$sp" + n) (by decide)
    refine hrest _ (by simp) ⟨?_, ?_, ?_⟩ hset
    · rw [hset.other _ (by decide), hs.fp]
    · rw [hset.reg]; exact hsp
    · rw [hset.reg]; have := hs.low; omega

/-- Pops a register. -/
theorem pop {r : String} (hA : A.Sound image) (hs : A.In image s)
    (hcode : CodeAt image s.pc (Code.pop r)) (hlo : A.lo ≤ s.pc) (hhi : s.pc + 2 ≤ A.hi)
    (hsp : s.reg "$sp" + 4 ≤ A.bottom) (hr : r ≠ "$zero") (hrsp : r ≠ "$sp") (hrfp : r ≠ "$fp")
    (hrest : ∀ t, t.pc = s.pc + 2 → A.In image t → Popped r s t →
      Meets image fuel A.P ⟨A.depth, t⟩ w x Q) :
    Meets image fuel A.P ⟨A.depth, s⟩ w x Q := by
  simp only [Code.pop, codeAt_cons, ItemAt, Code.width_op] at hcode
  obtain ⟨hload, hadd, -⟩ := hcode
  refine set hA hs hload hlo (by omega) (r := r) (v := s.load (s.reg "$sp" + 4)) ?_ rfl hr
    fun t hpc hset => ?_
  · simp [effect, withPlace, locate?, Reg.sp]
  · have ht := hs.sets hset hrsp hrfp
    have hsp' : t.reg "$sp" = s.reg "$sp" := hset.other _ hrsp.symm
    refine raise hA ht (hpc ▸ hadd) (by omega) (by omega) (by omega) (by omega)
      fun u hpc' hu hraise => hrest u (by omega) hu ⟨?_, ?_, ?_, ?_, ?_, ?_⟩
    · rw [hraise.reg, hsp']
    · rw [hraise.other _ hrsp, hset.reg]
    · intro q hq hqr
      rw [hraise.other _ hq, hset.other _ hqr]
    · intro a
      rw [hraise.load, hset.load]
    · rw [hraise.inputs, hset.inputs]
    · rw [hraise.output, hset.output]

end Activation

end CMinusMinus.Proofs
