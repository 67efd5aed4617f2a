import CMinusMinus.Text.Integer
import CMinusMinus.Token

/-!
From text to tokens. Blanks and line comments separate tokens; each token is the longest that
starts where the separators end. The character with code zero acts as the end of the text inside
comments and string literals.
-/
namespace CMinusMinus

/-- Why a text has no tokens, with the place that is to blame. A literal beyond the digit limit
has no place: its value is never formed. -/
inductive LexError where
  | unterminatedString (start : Position)
  | unexpectedCharacter (c : Char) (place : Position)
  | unknownEscape (c : Char) (place : Position)
  | literalTooLarge (value : Nat) (start : Position)
  | lettersAfterNumber (c : Char) (place : Position)
  | numeralTooLong
deriving DecidableEq, Repr

namespace LexError

/-- The place to blame. -/
def place : LexError → Position
  | unterminatedString p | unexpectedCharacter _ p | unknownEscape _ p | literalTooLarge _ p
  | lettersAfterNumber _ p => p
  | numeralTooLong => .start

def message : LexError → String
  | unterminatedString _ => "[LEX-0010] unterminated string literal"
  | unexpectedCharacter c p =>
    s!"[LEX-0040] unexpected character {Text.quoted c.toString} at {p.line}:{p.column}"
  | unknownEscape c _ => "[LEX-0059] unknown escape sequence \\" ++ c.toString
  | literalTooLarge value _ => s!"[LEX-0060] integer literal '{value}' exceeds 32-bit signed range"
  | lettersAfterNumber c _ => s!"[LEX-0061] invalid character '{c}' after integer literal"
  | numeralTooLong => "numeral with too many digits"

end LexError

namespace Token

def nul : Char := Char.ofNat 0

def isSpace (c : Char) : Bool := c == ' ' || c == '\t' || c == '\r' || c == '\n'

def isWordStart (c : Char) : Bool := c.isAlpha || c == '_'

def isWordPart (c : Char) : Bool := c.isAlphanum || c == '_'

/-- The characters that may follow a backslash in a string literal. -/
def isEscape (c : Char) : Bool := c == 'n' || c == 't' || c == '\'' || c == '"' || c == '\\'

def maxLiteral : Nat := 2147483647

def inComment (c : Char) : Bool := c != '\n' && c != nul

/-- The text and the place after the blanks and comments at the front; `comment` tells that the
front is inside a comment. -/
def skipSeparators : Bool → List Char → Position → List Char × Position
  | true, c :: rest, p =>
    if inComment c then skipSeparators true rest (p.next c)
    else if isSpace c then skipSeparators false rest (p.next c)
    else (c :: rest, p)
  | false, '/' :: '/' :: rest, p => skipSeparators true rest (p.right 2)
  | false, c :: rest, p =>
    if c = '#' then skipSeparators true rest (p.next c)
    else if isSpace c then skipSeparators false rest (p.next c)
    else (c :: rest, p)
  | _, [], p => ([], p)

/-- The text of a string literal up to its closing quote, and what follows the quote. -/
def stringBody (start : Position) : List Char → Position → Except LexError (List Char × List Char)
  | [], _ => .error (.unterminatedString start)
  | '"' :: rest, _ => .ok ([], rest)
  | '\\' :: [], p => .error (.unknownEscape nul (p.right 1))
  | '\\' :: c :: rest, p =>
    if isEscape c then do
      let (body, rest) ← stringBody start rest (p.right 2)
      return ('\\' :: c :: body, rest)
    else .error (.unknownEscape c (p.right 1))
  | c :: rest, p =>
    if c = nul || c = '\n' then .error (.unterminatedString start)
    else do
      let (body, rest) ← stringBody start rest (p.right 1)
      return (c :: body, rest)

def oneCharSign? : Char → Option Kind
  | '(' => some .lparen | ')' => some .rparen | '\x7b' => some .lbrace | '\x7d' => some .rbrace
  | ',' => some .comma | ';' => some .semi | '.' => some .dot | '*' => some .star
  | '/' => some .slash | '+' => some .plus | '-' => some .minus | '=' => some .eq
  | '!' => some .bang | '<' => some .lt | '>' => some .gt
  | _ => none

def twoCharSign? : Char → Char → Option Kind
  | '+', '+' => some .plusPlus | '-', '-' => some .minusMinus | '=', '=' => some .eqEq
  | '!', '=' => some .ne | '<', '=' => some .le | '<', '<' => some .write
  | '>', '=' => some .ge | '>', '>' => some .read | '&', '&' => some .andAnd
  | '|', '|' => some .orOr
  | _, _ => none

/-- A token's kind and text, the number of characters it takes up, and the text after it. -/
structure Lexeme where
  kind : Kind
  text : List Char
  width : Nat
  rest : List Char

def numberAt (p : Position) (cs : List Char) : Except LexError Lexeme :=
  let digits := cs.takeWhile Char.isDigit
  let rest := cs.dropWhile Char.isDigit
  let value := Text.ofDigits (digits.map fun c => c.toNat - '0'.toNat)
  match rest.head?.filter isWordStart with
  | some c => .error (.lettersAfterNumber c (p.right digits.length))
  | none =>
    if Text.digitLimit < digits.length then .error .numeralTooLong
    else if maxLiteral < value then .error (.literalTooLarge value p)
    else .ok ⟨.int, digits, digits.length, rest⟩

/-- The sign that starts with a character, two characters long if it can be. -/
def signAt (p : Position) (c : Char) (rest : List Char) : Except LexError Lexeme :=
  match rest with
  | d :: more =>
    match twoCharSign? c d with
    | some kind => .ok ⟨kind, [c, d], 2, more⟩
    | none => oneChar
  | [] => oneChar
where
  oneChar : Except LexError Lexeme :=
    match oneCharSign? c with
    | some kind => .ok ⟨kind, [c], 1, rest⟩
    | none => .error (.unexpectedCharacter c p)

def lexemeAt (p : Position) (c : Char) (rest : List Char) : Except LexError Lexeme :=
  if isWordStart c then
    let word := c :: rest.takeWhile isWordPart
    .ok ⟨.ofWord (String.ofList word), word, word.length, rest.dropWhile isWordPart⟩
  else if c.isDigit then numberAt p (c :: rest)
  else if c = '"' then do
    let (body, rest) ← stringBody p rest (p.right 1)
    return ⟨.string, body, body.length + 2, rest⟩
  else signAt p c rest

/-- What follows a string literal is not longer than the text it stands in. -/
theorem length_rest_stringBody (start : Position) (cs : List Char) (p : Position)
    {body rest : List Char} (h : stringBody start cs p = .ok (body, rest)) :
    rest.length < cs.length := by
  fun_induction stringBody start cs p generalizing body rest with
  | case1 => simp at h
  | case2 => simp at h; simp [← h.2]
  | case3 => simp at h
  | case4 p c tail hc ih =>
    simp only [bind, Except.bind] at h
    split at h
    · simp at h
    · rename_i pair hpair
      obtain ⟨b, r⟩ := pair
      simp only [pure, Except.pure, Except.ok.injEq, Prod.mk.injEq] at h
      have := ih hpair
      simp only [List.length_cons, ← h.2]
      omega
  | case5 => simp at h
  | case6 => simp at h
  | case7 p c tail _ _ _ hc ih =>
    simp only [bind, Except.bind] at h
    split at h
    · simp at h
    · rename_i pair hpair
      obtain ⟨b, r⟩ := pair
      simp only [pure, Except.pure, Except.ok.injEq, Prod.mk.injEq] at h
      have := ih hpair
      simp only [List.length_cons, ← h.2]
      omega

/-- What follows a token is shorter than the text the token starts. -/
theorem length_rest_lexemeAt (p : Position) (c : Char) (rest : List Char) {l : Lexeme}
    (h : lexemeAt p c rest = .ok l) : l.rest.length < rest.length + 1 := by
  unfold lexemeAt at h
  split at h
  · simp only [Except.ok.injEq] at h
    have := (List.dropWhile_sublist (p := isWordPart) (l := rest)).length_le
    simp only [← h]
    omega
  · split at h
    · rename_i hd
      simp only [numberAt] at h
      split at h
      · simp at h
      · split at h
        · simp at h
        · split at h
          · simp at h
          · simp only [Except.ok.injEq] at h
            have := (List.dropWhile_sublist (p := Char.isDigit) (l := rest)).length_le
            simp only [← h, List.dropWhile_cons, hd, if_true]
            omega
    · split at h
      · simp only [bind, Except.bind] at h
        split at h
        · simp at h
        · rename_i pair hpair
          have := length_rest_stringBody _ _ _ hpair
          simp only [pure, Except.pure, Except.ok.injEq] at h
          simp only [← h]
          omega
      · unfold signAt at h
        split at h
        · split at h
          · simp only [Except.ok.injEq] at h
            simp only [← h, List.length_cons]
            omega
          · simp only [signAt.oneChar] at h
            split at h
            · simp only [Except.ok.injEq] at h
              simp [← h]
            · simp at h
        · simp only [signAt.oneChar] at h
          split at h
          · simp only [Except.ok.injEq] at h
            simp [← h]
          · simp at h

/-- Separators only shorten a text. -/
theorem length_skipSeparators (comment : Bool) (cs : List Char) (p : Position) :
    (skipSeparators comment cs p).1.length ≤ cs.length := by
  fun_induction skipSeparators comment cs p <;> simp_all <;> omega

set_option linter.unusedVariables false in
/-- The tokens of the text from a place on, with the token that marks the end last. -/
def lexFrom (cs : List Char) (p : Position) : Except LexError (List Token) :=
  match hs : skipSeparators false cs p with
  | ([], q) => .ok [⟨.eof, "", q⟩]
  | (c :: rest, q) =>
    match hl : lexemeAt q c rest with
    | .error e => .error e
    | .ok l => do
      let more ← lexFrom l.rest (q.right l.width)
      return ⟨l.kind, String.ofList l.text, q⟩ :: more
termination_by cs.length
decreasing_by
  have h := length_skipSeparators false cs p
  have := length_rest_lexemeAt q c rest hl
  simp only [hs, List.length_cons] at h
  omega

/-- The tokens of a source text. -/
def lex (source : String) : Except LexError (List Token) := lexFrom source.toList .start

end Token

end CMinusMinus
