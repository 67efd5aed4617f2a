import CMinusMinus.Proofs.Correctness

/-!
What stops the compiler. Every text is analysed to the end, and code is made for a program exactly if
the program was read and has no errors: no guard inside the passes is ever met. There is one
exception. A number that takes more digits than can be written or read stops the compiler, be it a
literal of the text, the size of a frame or a number in the code.
-/
namespace CMinusMinus.Proofs

open WellFormed
open Code (Writable)

/-- The analysis of a text keeps its name, and ends without a fault or at a number that is too
long. -/
theorem fault_of_source (text file : String) :
    (Analysis.ofSource text file).result.file = some file ∧
    ((Analysis.ofSource text file).fault = none ∨
      (Analysis.ofSource text file).fault = some .numeralTooLong ∧
        (Token.lex text = .error .numeralTooLong ∨
          ∃ q ∈ (Analysis.ofSource text file).result.frames, Text.isWritable q.2 = false)) := by
  by_cases hread : ∃ tokens p, Token.lex text = .ok tokens ∧ Program.ofTokens tokens = .ok p
  · obtain ⟨tokens, p, hlex, hp⟩ := hread
    obtain ⟨hresult, hfault⟩ := ofSource_program file hlex hp
    have hraw := Grammar.raw_of_tokens (Grammar.tokens_ok hlex) hp
    have hprogram : (readFrom file p).program = some _ := rfl
    have hcompleted := completes hprogram hraw rfl
    rw [hresult, hfault]
    refine ⟨hcompleted.file, hcompleted.fault.imp id ?_⟩
    rintro ⟨hlong, hframe⟩
    exact ⟨hlong, .inr hframe⟩
  · have hunread : ∀ tokens, Token.lex text = .ok tokens → ∀ p, Program.ofTokens tokens ≠ .ok p :=
      fun tokens hlex p hp => hread ⟨tokens, p, hlex, hp⟩
    obtain ⟨-, hfile, ⟨hlong, hlex⟩ | ⟨hnone, -⟩⟩ := ofSource_unreadable file hunread
    · exact ⟨hfile, .inr ⟨hlong, .inl hlex⟩⟩
    · exact ⟨hfile, .inl hnone⟩

/-- An accepted text has a program, and its code is made unless it holds a number that is too
long. -/
theorem Accepts.assembles {text file : String} {a : Analysis} (h : Accepts text file a)
    (comments : Bool) : ∃ p, a.program = some p ∧
    (Writable (codeOf a p) → (∃ asm, (a.assembly comments).result = some asm) ∧
      (a.assembly comments).fault = none) ∧
    (¬ Writable (codeOf a p) → (a.assembly comments).result = none ∧
      (a.assembly comments).fault = some .numeralTooLong) := by
  obtain ⟨p, globals, hanalysed⟩ := h.analysed fun tokens hlex => Grammar.tokens_ok hlex
  obtain ⟨hdone, hstopped⟩ := lower_of_analysed hanalysed h.quiet
  refine ⟨p, hanalysed.program, fun hwritable => ?_, fun hwritable => ?_⟩
  · simp [Analysis.assembly, hdone hwritable]
  · simp [Analysis.assembly, hstopped hwritable]

/-- Whatever the text is, its analysis ends without a fault unless a literal or the size of a frame
is too long a number. The analysis gives code if there is a program without errors, unless a number
in the code is too long; else it is refused because there is no program, or because of its errors. -/
theorem only_long_numbers_stop_the_compiler (text file : String) (comments : Bool) :
    ((Analysis.ofSource text file).fault = none ∨
      (Analysis.ofSource text file).fault = some .numeralTooLong ∧
        (Token.lex text = .error .numeralTooLong ∨
          ∃ q ∈ (Analysis.ofSource text file).result.frames, Text.isWritable q.2 = false)) ∧
    ∀ a, (Analysis.ofSource text file).result = a → (Analysis.ofSource text file).fault = none →
      (a.program = none → (a.assembly comments).fault =
        some (.internal .codeWithoutProgram (some ⟨some file, none⟩))) ∧
      ∀ p, a.program = some p →
        (a.hasErrors = true → (a.assembly comments).fault =
          some (.internal .codeDespiteErrors (some ⟨some file, none⟩))) ∧
        (a.hasErrors = false → Writable (codeOf a p) →
          (∃ asm, (a.assembly comments).result = some asm) ∧ (a.assembly comments).fault = none) ∧
        (a.hasErrors = false → ¬ Writable (codeOf a p) →
          (a.assembly comments).fault = some .numeralTooLong) := by
  refine ⟨(fault_of_source text file).2, fun a hresult hfault => ?_⟩
  have hfile : a.file = some file := hresult ▸ (fault_of_source text file).1
  refine ⟨fun hnone => ?_, fun p hp => ⟨fun herrors => ?_, fun hquiet => ?_, fun hquiet => ?_⟩⟩
  · simp [Analysis.assembly, Analysis.lower, hnone, hfile]
  · simp [Analysis.assembly, Analysis.lower, hp, herrors, hfile]
  all_goals
    obtain ⟨q, hq, hwrites, hstops⟩ := Accepts.assembles ⟨hfault, hresult, hquiet⟩ comments
    obtain rfl : p = q := by simpa [hp] using hq
  · exact hwrites
  · exact fun hwritable => (hstops hwritable).2

/-- A text of nines is refused as a number if there are too many of them. -/
theorem lexFrom_nines {n : Nat} (hn : Text.digitLimit < n) (p : Position) :
    Token.lexFrom (List.replicate n '9') p = .error .numeralTooLong := by
  obtain ⟨k, rfl⟩ := Nat.exists_eq_add_of_lt hn
  rw [List.replicate_succ, Token.lexFrom]
  have hskip : Token.skipSeparators false ('9' :: List.replicate (Text.digitLimit + k) '9') p =
      ('9' :: List.replicate (Text.digitLimit + k) '9', p) := rfl
  have htake : (List.replicate (Text.digitLimit + k + 1) '9').takeWhile Char.isDigit =
      List.replicate (Text.digitLimit + k + 1) '9' := by
    rw [List.takeWhile_replicate]
    rfl
  have hdrop : (List.replicate (Text.digitLimit + k + 1) '9').dropWhile Char.isDigit = [] := by
    rw [List.dropWhile_replicate]
    rfl
  have hnumber : Token.lexemeAt p '9' (List.replicate (Text.digitLimit + k) '9') =
      .error .numeralTooLong := by
    show Token.numberAt p _ = _
    rw [← List.replicate_succ]
    simp only [Token.numberAt, htake, hdrop, List.length_replicate, hn, if_true]
    rfl
  split
  · rename_i q hs
    simp [hskip] at hs
  · rename_i c rest q hs
    obtain ⟨⟨rfl, rfl⟩, rfl⟩ : ('9' = c ∧ List.replicate (Text.digitLimit + k) '9' = rest) ∧ p = q := by
      simpa [hskip] using hs
    split
    · rename_i e he
      obtain rfl : LexError.numeralTooLong = e := by simpa [hnumber] using he
      rfl
    · rename_i l hl
      simp [hnumber] at hl

/-- A literal with too many digits stops the analysis. -/
theorem fault_of_nines {n : Nat} (hn : Text.digitLimit < n) (file : String) :
    (Analysis.ofSource (String.ofList (List.replicate n '9')) file).fault = some .numeralTooLong := by
  have hlex : Token.lex (String.ofList (List.replicate n '9')) = .error .numeralTooLong := by
    rw [Token.lex, String.toList_ofList]
    exact lexFrom_nines hn .start
  simp only [Analysis.ofSource, Analysis.ofText, hlex]

theorem long_literal_stops_the_analysis :
    (Analysis.ofSource (String.ofList (List.replicate 4301 '9')) "main.cmm").fault =
      some .numeralTooLong :=
  fault_of_nines (by decide) "main.cmm"

end CMinusMinus.Proofs
