import Mathlib.Algebra.Group.Nat.Defs
import CMinusMinus.Machine

/-!
Numbers that are written are read back: a decimal numeral within the limit of digits stands for the
number that it was written from.
-/
namespace CMinusMinus.Proofs.Numerals

open Text

theorem decimalValue?_of_isDigit {c : Char} (h : c.isDigit) :
    decimalValue? c = some (c.toNat - '0'.toNat) := by
  have hrange : 48 ≤ c.toNat ∧ c.toNat ≤ 57 := by
    simpa [Char.isDigit, UInt32.le_iff_toNat_le] using h
  simp [decimalValue?, decimalZeros, hrange]

theorem isDecimal_of_isDigit {c : Char} (h : c.isDigit) : isDecimal c := by
  simp [isDecimal, decimalValue?_of_isDigit h]

/-- Plain digits are read one by one. -/
theorem digitsOf?_of_isDigit {cs : List Char} (hne : cs ≠ []) (h : ∀ c ∈ cs, c.isDigit) :
    digitsOf? cs = some (cs.map fun c => c.toNat - '0'.toNat) := by
  induction cs with
  | nil => exact absurd rfl hne
  | cons c rest ih =>
    have hc := decimalValue?_of_isDigit (h c (by simp))
    cases rest with
    | nil => simp [digitsOf?, hc]
    | cons d more =>
      have hd : d ≠ '_' := by
        rintro rfl
        exact absurd (h '_' (by simp)) (by decide)
      have hrest := ih (by simp) fun x hx => h x (List.mem_cons_of_mem _ hx)
      rw [digitsOf?.eq_4 _ _ (by simp) (by simpa using hd), hc, hrest]
      rfl

theorem ofDigits_map (cs : List Char) :
    ofDigits (cs.map fun c => c.toNat - '0'.toNat) = Nat.ofDigitChars 10 cs 0 := by
  simp [ofDigits, Nat.ofDigitChars, List.foldl_map]

theorem readNat?_toDigits {n : Nat} (h : n < unwritable) :
    readNat? (Nat.toDigits 10 n) = some n := by
  have hdigit : ∀ c ∈ Nat.toDigits 10 n, c.isDigit := fun c hc =>
    Nat.isDigit_of_mem_toDigits (by decide) (by decide) hc
  have hlength : (Nat.toDigits 10 n).length ≤ digitLimit :=
    (Nat.length_toDigits_le_iff (by decide) (by decide)).mpr h
  have hvalue := ofDigits_map (Nat.toDigits 10 n)
  rw [Nat.ofDigitChars_ten_toDigits] at hvalue
  rw [readNat?, digitsOf?_of_isDigit Nat.toDigits_ne_nil hdigit]
  simp only [List.length_map, hlength, if_true, hvalue]

/-- The characters of a written number: a sign, if the number is negative, and digits. -/
theorem toList_toString (n : Int) :
    (toString n).toList =
      if n < 0 then '-' :: Nat.toDigits 10 n.natAbs else Nat.toDigits 10 n.natAbs := by
  cases n with
  | ofNat m =>
    show (toString m).toList = _
    simp
  | negSucc m =>
    show ("-" ++ toString (m + 1)).toList = _
    simp [Int.negSucc_lt_zero]

theorem toString_ne_nil (n : Int) : (toString n).toList ≠ [] := by
  rw [toList_toString]
  split
  · simp
  · exact Nat.toDigits_ne_nil

theorem isDigit_of_mem_toString {n : Int} {c : Char} (h : c ∈ (toString n).toList) :
    c = '-' ∨ c.isDigit := by
  have hdigit : c ∈ Nat.toDigits 10 n.natAbs → c.isDigit :=
    Nat.isDigit_of_mem_toDigits (by decide) (by decide)
  rw [toList_toString] at h
  split at h
  · exact (List.mem_cons.mp h).imp id hdigit
  · exact .inr (hdigit h)

/-- No part of a written number has to do with a test that all digits and the sign fail. -/
theorem forall_mem_toString {p : Char → Bool} (hminus : p '-' = false)
    (hdigit : ∀ c : Char, c.isDigit → p c = false) (n : Int) :
    ∀ c ∈ (toString n).toList, p c = false := by
  intro c hc
  rcases isDigit_of_mem_toString hc with rfl | h
  · exact hminus
  · exact hdigit c h

theorem isBlank_of_isDigit {c : Char} (h : c.isDigit) : isBlank c = false := by
  have hrange : 48 ≤ c.toNat ∧ c.toNat ≤ 57 := by
    simpa [Char.isDigit, UInt32.le_iff_toNat_le] using h
  simp only [isBlank, Bool.or_eq_false_iff, Bool.and_eq_false_iff, decide_eq_false_iff_not,
    beq_eq_false_iff_ne]
  omega

/-- A text without blanks is not trimmed. -/
theorem dropWhile_eq_self {p : Char → Bool} {cs : List Char} (h : ∀ c ∈ cs, p c = false) :
    cs.dropWhile p = cs := by
  cases cs with
  | nil => rfl
  | cons c rest => simp [h c (by simp)]

theorem readInt?_toString {n : Int} (h : isWritable n) : readInt? (toString n).toList = some n := by
  have hblank : ∀ c ∈ (toString n).toList, isNumberBlank c = false :=
    forall_mem_toString (by decide) (fun c hc => by simp [isNumberBlank, isBlank_of_isDigit hc]) n
  have hread : readNat? (Nat.toDigits 10 n.natAbs) = some n.natAbs :=
    readNat?_toDigits (by simpa [isWritable] using h)
  rw [readInt?, dropWhile_eq_self hblank, dropWhile_eq_self (by simpa using hblank),
    List.reverse_reverse, toList_toString]
  by_cases hn : n < 0
  · have hneg : -(n.natAbs : Int) = n := by omega
    simp only [hn, if_true, hread]
    exact congrArg some hneg
  · -- the first digit is no sign
    obtain ⟨c, rest, hcons⟩ : ∃ c rest, Nat.toDigits 10 n.natAbs = c :: rest :=
      List.exists_cons_of_ne_nil Nat.toDigits_ne_nil
    have hmem : c ∈ Nat.toDigits 10 n.natAbs := by simp [hcons]
    have hc : c.isDigit := Nat.isDigit_of_mem_toDigits (by decide) (by decide) hmem
    have hsign : c ≠ '-' ∧ c ≠ '+' := by
      constructor <;> rintro rfl <;> exact absurd hc (by decide)
    simp only [hn, if_false, hcons] at hread ⊢
    have hpos : (n.natAbs : Int) = n := by omega
    split
    · rename_i heq
      exact absurd (List.cons.inj heq).1 hsign.1
    · rename_i heq
      exact absurd (List.cons.inj heq).1 hsign.2
    · simp [hread, hpos]

/-- The numbers of the letters. -/
theorem range_of_isAlpha {c : Char} (h : c.isAlpha) :
    65 ≤ c.toNat ∧ c.toNat ≤ 90 ∨ 97 ≤ c.toNat ∧ c.toNat ≤ 122 := by
  rcases Bool.or_eq_true_iff.mp h with h | h
  · exact .inl (of_decide_eq_true h)
  · obtain ⟨hlow, hhigh⟩ := Bool.and_eq_true_iff.mp h
    exact .inr ⟨of_decide_eq_true hlow, of_decide_eq_true hhigh⟩

/-- Small numbers can be written. -/
theorem isWritable_of_lt {n : Int} (h : n.natAbs < 10 ^ 10) : isWritable n := by
  have hten : 10 ^ 10 ≤ unwritable := Nat.pow_le_pow_right (by decide) (by decide)
  rw [isWritable, decide_eq_true_eq]
  exact Nat.lt_of_lt_of_le h hten

/-- A number that the limit of digits allows is read back as it was written. -/
theorem number_toString {n : Int} (h : isWritable n) :
    Machine.number (toString n).toList = .ok n := by
  rw [Machine.number, readInt?_toString h]

end CMinusMinus.Proofs.Numerals
