import CMinusMinus.Proofs.Code
import CMinusMinus.Proofs.Runs

/-!
Code in its place in a loaded program, and what the machine does when it comes to an instruction.
-/
namespace CMinusMinus.Proofs

open Assembly Machine Reference

namespace Code

/-- The number of instructions that a part of the code makes. -/
def Item.width : Item → Int
  | op .. => 1
  | _ => 0

/-- The number of instructions in some code. -/
def width : List Item → Int
  | [] => 0
  | i :: is => i.width + width is

@[simp] theorem width_nil : width [] = 0 := rfl

@[simp] theorem width_cons (i : Item) (is : List Item) : width (i :: is) = i.width + width is := rfl

@[simp] theorem width_append (is js : List Item) : width (is ++ js) = width is + width js := by
  induction is with
  | nil => simp
  | cons i is ih => simp only [List.cons_append, width_cons, ih]; omega

theorem Item.width_nonneg (i : Item) : 0 ≤ i.width := by cases i <;> simp [Item.width]

theorem width_nonneg (is : List Item) : 0 ≤ width is := by
  induction is with
  | nil => simp
  | cons i is ih => have := i.width_nonneg; simp only [width_cons]; omega

@[simp] theorem width_op (i : Instr) (comment : String) : (Item.op i comment).width = 1 := rfl
@[simp] theorem width_label (name comment : String) : (Item.label name comment).width = 0 := rfl
@[simp] theorem width_literal (name text : String) : (Item.literal name text).width = 0 := rfl
@[simp] theorem width_start (isMain : Bool) : (Item.start isMain).width = 0 := rfl
@[simp] theorem width_push (r : Reg) : width (push r) = 2 := rfl
@[simp] theorem width_pop (r : Reg) : width (pop r) = 2 := rfl
@[simp] theorem width_service (number : Int) : width (service number) = 2 := rfl

end Code

open Code (Item)

def bytesOf (words : Option Int) : Int := 4 * words.getD 1

/-- A part of the code stands at a place: an instruction is there, a label names the place, and data
lie at the address of their label. -/
def ItemAt (image : Image) (pc : Int) : Item → Prop
  | .op i _ => image.Has pc i
  | .label name _ => ∃ n : Nat, image.textLabels[name]? = some n ∧ n = pc
  | .literal name text => ∃ a, image.dataLabels[name]? = some a ∧ dataBase ≤ a ∧
      a < image.dataNext ∧ image.texts[a]? = some (String.ofList (unescape text.toList))
  | .global name words => ∃ a, image.dataLabels[name]? = some a ∧ dataBase ≤ a ∧
      a + bytesOf words ≤ image.dataNext
  | _ => True

/-- Code stands at a place, part after part. -/
def CodeAt (image : Image) (pc : Int) : List Item → Prop
  | [] => True
  | i :: is => ItemAt image pc i ∧ CodeAt image (pc + i.width) is

@[simp] theorem codeAt_nil (image : Image) (pc : Int) : CodeAt image pc [] := trivial

@[simp] theorem codeAt_cons {image : Image} {pc : Int} {i : Item} {is : List Item} :
    CodeAt image pc (i :: is) ↔ ItemAt image pc i ∧ CodeAt image (pc + i.width) is := Iff.rfl

theorem codeAt_append {image : Image} {pc : Int} {is js : List Item} :
    CodeAt image pc (is ++ js) ↔ CodeAt image pc is ∧ CodeAt image (pc + Code.width is) js := by
  induction is generalizing pc with
  | nil => simp
  | cons i is ih => simp [ih, and_assoc, Int.add_assoc]

def openedBy : Instr → Int
  | .jal _ => 1
  | .jr _ => -1
  | _ => 0

section Steps

variable {image : Image} {s : State} {i : Instr}

theorem opened_eq (h : image.Has s.pc i) : opened image s = openedBy i := by
  obtain ⟨-, -, line, hfetch⟩ := h
  rw [opened, hfetch]
  cases i with
  | compute op => cases op <;> rfl
  | _ => rfl

/-- There is room for what an instruction takes from a clear stack. -/
theorem room_of_clear {n : Int} (h : image.Has s.pc (.compute .subu .sp .sp (.imm n)))
    (hclear : Clear image s) : image.dataNext ≤ s.reg "$sp" - n + 4 := by
  obtain ⟨-, hnumbers, line, hfetch⟩ := h
  have hn := Numerals.number_toString (hnumbers n (by simp [Instr.numbers, Operand.numbers]))
  have hlowest : lowest image s = min (s.reg "$sp") (s.reg "$sp" - n) := lowest_eq hfetch hn
  have := hclear.1
  omega

/-- A call from a clear stack leaves a return address that is the place after it. -/
theorem link_of_clear {target : String} (h : image.Has s.pc (.jal target))
    (hclear : Clear image s) : s.pc + 1 < 2 ^ 31 :=
  hclear.2 (opened_eq h)

variable {α : Type} {fuel : Nat} {P : Moment → Prop} {d : Int} {t : State} {w : Store} {x : EvalM α}
  {Q : α → Store → Moment → Prop}

/-- The machine carries out an instruction and goes on. -/
theorem Meets.exec (h : image.Has s.pc i) (hP : P ⟨d, s⟩)
    (heffect : effect image s.next i = .ok false t)
    (hrest : Meets image fuel P ⟨d + openedBy i, t⟩ w x Q) : Meets image fuel P ⟨d, s⟩ w x Q := by
  refine Meets.step hP ⟨?_, ?_⟩ hrest
  · exact (step_eq h).trans heffect
  · rw [opened_eq h]

/-- The machine carries out an instruction that is neither a call nor a return, and has taken a step
more. -/
theorem Meets.exec_counted (h : image.Has s.pc i) (hplain : openedBy i = 0) (hP : P ⟨d, s⟩)
    (heffect : effect image s.next i = .ok false t)
    (hrest : Meets image fuel P ⟨d, t⟩ w x Q) : Meets image (fuel + 1) P ⟨d, s⟩ w x Q := by
  refine Meets.of_path (.step hP ⟨(step_eq h).trans heffect, ?_⟩ (.refl _)) hrest
  rw [opened_eq h, hplain, Int.add_zero]

/-- The machine carries out an instruction that is neither a call nor a return, and goes on. -/
theorem Meets.exec_plain (h : image.Has s.pc i) (hplain : openedBy i = 0) (hP : P ⟨d, s⟩)
    (heffect : effect image s.next i = .ok false t)
    (hrest : Meets image fuel P ⟨d, t⟩ w x Q) : Meets image fuel P ⟨d, s⟩ w x Q :=
  (Meets.exec_counted h hplain hP heffect hrest).less_fuel (Nat.le_succ _)

end Steps

end CMinusMinus.Proofs
