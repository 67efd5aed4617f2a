import CMinusMinus.Proofs.Faults
import CMinusMinus.Proofs.Resolution

/-!
Where findings are said to be. Every diagnostic of an analysis names the file that was analysed, whatever
it is about and whichever pass has found it.
-/
namespace CMinusMinus.Proofs.Attribution

open Resolution

section Analyses

variable {file : String}

/-- All that is found in a text is about the file that it goes by. -/
theorem diagnostics_name_file (text : String) (hfile : file ≠ "") :
    ∀ d ∈ (Analysis.ofSource text file).result.diagnostics, d.file = some file := by
  have hname : Analysis.sourceName { file := some file } = file := by
    unfold Analysis.sourceName
    split <;> simp_all
  have hunreadable : ∀ finding place, ∀ d ∈ (Analysis.unreadable { file := some file } finding file place).diagnostics,
      d.file = some file := by
    simp [Analysis.unreadable, Diagnostic.atPlace]
  cases hlex : Token.lex text with
  | error e =>
    simp only [Analysis.ofSource, Analysis.ofText, hlex, hname]
    cases e with
    | numeralTooLong => simp
    | _ => exact hunreadable _ _
  | ok tokens =>
    cases hparse : Program.ofTokens tokens with
    | error e =>
      simp only [Analysis.ofSource, Analysis.ofText, hlex, hparse, hname]
      exact hunreadable _ _
    | ok p =>
      have hraw := Grammar.raw_of_tokens (Grammar.tokens_ok hlex) hparse
      have hpassed := passes (a := readFrom file p) rfl hraw rfl
      rw [(ofSource_program file hlex hparse).1, hpassed.result]
      exact List.forall_mem_append.mpr ⟨by simp [moved, namesStart, about, readFrom], by simp [about, readFrom]⟩

end Analyses

end CMinusMinus.Proofs.Attribution
