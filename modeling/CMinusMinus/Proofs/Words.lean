import Mathlib.Algebra.Group.Int.Defs
import CMinusMinus.Assembly.Lowering
import CMinusMinus.Machine.Run
import CMinusMinus.Proofs.Reference

/-!
The calculations of the machine on registers are those of the language on words of 32 bits.
-/
namespace CMinusMinus.Proofs

open Reference (Word)

/-- A register holds the word that its value was wrapped to. -/
theorem wrap_eq (n : Int) : Machine.wrap n = (Int32.ofInt n).toInt := by
  rw [Int32.toInt_ofInt]
  rfl

/-- Numbers that fit into a word stay as they are. -/
theorem wrap_of_fits {n : Int} (hlow : -2 ^ 31 ≤ n) (hhigh : n < 2 ^ 31) : Machine.wrap n = n := by
  rw [wrap_eq, Int32.toInt_ofInt_of_le hlow hhigh]

theorem toInt_eq_zero {w : Word} : w.toInt = 0 ↔ w = 0 := by
  rw [← Int32.toInt_inj, Int32.toInt_zero]

@[simp] theorem toInt_flag (b : Bool) : (Reference.flag b).toInt = Machine.flag b := by
  cases b <;> rfl

@[simp] theorem wrap_flag (b : Bool) : Machine.wrap (Machine.flag b) = Machine.flag b := by
  cases b <;> rfl

/-- Exclusive or on words. -/
theorem wrap_xor32 (a b : Word) : Machine.wrap (Machine.xor32 a.toInt b.toInt) = (a ^^^ b).toInt := by
  have hbits : ∀ w : Word, (w.toInt % Machine.wordRange).toNat = w.toBitVec.toNat := by
    intro w
    have hlt := w.toBitVec.isLt
    have hmod : w.toInt % (2 ^ 32 : Nat) = w.toBitVec.toNat := by
      rw [← Int32.toInt_toBitVec, BitVec.toInt_eq_toNat_bmod, Int.bmod_emod]
      exact Int.emod_eq_of_lt (by omega) (by omega)
    exact (congrArg Int.toNat hmod).trans (Int.toNat_natCast _)
  rw [wrap_eq, Machine.xor32, hbits, hbits, ← BitVec.toNat_xor]
  congr 1
  apply Int32.toBitVec.inj
  simp

/-- The machine calculates what the language says, or both refuse to divide by zero. -/
theorem calculate_spec {op : BinaryOp} {c : Assembly.Calc} (h : Lowering.calcOf? op = some c)
    (a b : Word) :
    (∃ n w, Machine.calculate c a.toInt b.toInt = .ok n ∧ Reference.calculate op a b = pure w ∧
      Machine.wrap n = w.toInt) ∨
    (Machine.calculate c a.toInt b.toInt = .error .divisionByZero ∧
      Reference.calculate op a b = throw .divisionByZero) := by
  cases op <;> simp only [Lowering.calcOf?, Option.some.injEq, reduceCtorEq] at h <;> subst h
  case div =>
    by_cases hb : b = 0
    · exact .inr ⟨by simp [Machine.calculate, hb], by simp [Reference.calculate, hb]⟩
    · refine .inl ⟨_, a / b, ?_, ?_, (Int32.toInt_div a b).symm⟩
      · simp [Machine.calculate, toInt_eq_zero, hb]
      · simp [Reference.calculate, hb]
  case add => exact .inl ⟨_, a + b, rfl, rfl, (Int32.toInt_add a b).symm⟩
  case sub => exact .inl ⟨_, a - b, rfl, rfl, (Int32.toInt_sub a b).symm⟩
  case mul => exact .inl ⟨_, a * b, rfl, rfl, (Int32.toInt_mul a b).symm⟩
  all_goals
    refine .inl ⟨_, _, rfl, rfl, ?_⟩
    simp [Int32.toInt_inj, Int32.lt_iff_toInt_lt, Int32.le_iff_toInt_le]

end CMinusMinus.Proofs
