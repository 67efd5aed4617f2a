import CMinusMinus.Proofs.Discipline

/-!
Texts that are given letter by letter. Whether such a text is accepted, and what the machine does with its
code, is found by computing. The lemmas turn what is found into the facts that the statements about
accepted texts and about the runs of their code start from.
-/
namespace CMinusMinus.Proofs

open Assembly Machine

/-- An accepted text without line breaks in its literals, with its analysis, its program and its code. -/
structure Specimen where
  text : String
  analysis : Analysis
  program : Program
  code : String
  accepts : Accepts text "main.cmm" analysis
  plain : PlainLiterals text
  program_eq : analysis.program = some program
  code_eq : (analysis.assembly false).result = some code

section Reading

/-- The tokens and the analysis of a text that is given by its letters, if it is accepted. -/
def accepted? (letters : List Char) : Option (List Token × Analysis) :=
  match Token.lexFrom letters .start with
  | .error _ => none
  | .ok tokens =>
    match Program.ofTokens tokens with
    | .error _ => none
    | .ok p =>
      let done := (readFrom "main.cmm" p).complete
      if done.fault = none ∧ done.result.hasErrors = false then some (tokens, done.result) else none

theorem accepts_of_accepted {letters : List Char} {tokens : List Token} {a : Analysis}
    (h : accepted? letters = some (tokens, a)) :
    Token.lex (String.ofList letters) = .ok tokens ∧ Accepts (String.ofList letters) "main.cmm" a := by
  unfold accepted? at h
  split at h
  · simp at h
  · rename_i found hfound
    split at h
    · simp at h
    · rename_i p hparse
      dsimp only at h
      split at h
      · rename_i hgood
        obtain ⟨rfl, rfl⟩ : found = tokens ∧ _ = a := by simpa using h
        have hlex : Token.lex (String.ofList letters) = .ok found := by
          rw [Token.lex, String.toList_ofList, hfound]
        obtain ⟨hresult, hsame⟩ := ofSource_program "main.cmm" hlex hparse
        exact ⟨hlex, hsame.trans hgood.1, hresult, hgood.2⟩
      · simp at h

/-- What becomes of a text that is given by its letters, if it is accepted and its literals have no line
breaks. -/
def compiled? (letters : List Char) : Option (Analysis × Program × String) := do
  let (tokens, a) ← accepted? letters
  if ∀ t ∈ tokens, t.kind = .string → t.text.toList.any Text.isLineBreak = false then
    return (a, ← a.program, ← (a.assembly false).result)
  else none

theorem accepts_of_compiled {letters : List Char} {a : Analysis} {p : Program} {asm : String}
    (h : compiled? letters = some (a, p, asm)) :
    Accepts (String.ofList letters) "main.cmm" a ∧ PlainLiterals (String.ofList letters) ∧
      a.program = some p ∧ (a.assembly false).result = some asm := by
  obtain ⟨⟨tokens, b⟩, hfound, h⟩ := Option.bind_eq_some_iff.mp h
  obtain ⟨hlex, haccepts⟩ := accepts_of_accepted hfound
  dsimp only at h
  split at h
  · rename_i hplain
    obtain ⟨q, hq, h⟩ := Option.bind_eq_some_iff.mp h
    obtain ⟨asm', hasm', h⟩ := Option.bind_eq_some_iff.mp h
    obtain ⟨rfl, rfl, rfl⟩ : b = a ∧ q = p ∧ asm' = asm := by simpa using h
    refine ⟨haccepts, ?_, hq, hasm'⟩
    rw [PlainLiterals, hlex]
    exact fun t ht hkind => by simpa [Rendering.Unbroken] using hplain t ht hkind
  · simp at h

def Specimen.ofLetters (letters : List Char) (h : (compiled? letters).isSome = true) : Specimen :=
  have hfound := accepts_of_compiled (Option.some_get h).symm
  { text := String.ofList letters
    analysis := ((compiled? letters).get h).1
    program := ((compiled? letters).get h).2.1
    code := ((compiled? letters).get h).2.2
    accepts := hfound.1
    plain := hfound.2.1
    program_eq := hfound.2.2.1
    code_eq := hfound.2.2.2 }

def fieldLetters (struct field : Char) : List Char :=
  ['s', 't', 'r', 'u', 'c', 't', ' ', struct, ' ', field, ';']

def structLetters (name : Char) (fields : List Char) : List Char :=
  ['s', 't', 'r', 'u', 'c', 't', ' ', name, '\x7b'] ++ fields ++ ['\x7d', ';']

/-- Structures one upon the other, each with four of those before it in it. They are named by the letters
from `A` on. -/
def tower : Nat → List Char
  | 0 => structLetters 'A' ['i', 'n', 't', ' ', 'a', ';']
  | n + 1 => tower n ++ structLetters (Char.ofNat (66 + n))
      (['a', 'b', 'c', 'd'].flatMap (fieldLetters (Char.ofNat (65 + n))))

end Reading

namespace Specimen

variable (s : Specimen)

/-- What the machine has loaded of the code. -/
def image : Image := imageOf false s.analysis s.program

theorem loads : load s.code = (s.image, none) := s.accepts.load_eq s.plain s.program_eq s.code_eq

/-- Where a run starts. -/
def start (inputs : List Int) : Moment :=
  ⟨0, startAt s.image inputs (s.image.textLabels["main"]?.getD 0)⟩

variable {s}

theorem simulate_eq (inputs : List Int) (steps : Nat) :
    (simulate s.code inputs steps).2 = runFrom s.image steps (s.start inputs).state := by
  obtain ⟨pc, hstarted⟩ := s.accepts.started s.plain s.program_eq s.code_eq inputs
  have hpc : s.image.textLabels["main"]? = some pc := by
    have := hstarted.label
    rwa [s.loads] at this
  rw [hstarted.simulate_eq, s.loads, start, hpc]
  rfl

end Specimen

end CMinusMinus.Proofs
