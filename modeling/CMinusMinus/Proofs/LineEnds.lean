import CMinusMinus.Proofs.Fidelity
import CMinusMinus.Proofs.Lexing
import Mathlib.Data.List.Basic

/-!
Lexing is done line by line. No token and no comment goes on past a line feed, so the tokens of a text
with a line feed in it are those of the two parts, and the second part is only further down. What
starts a token before the line feed ends there as it ends at the end of the text.
-/
namespace CMinusMinus.Proofs.LineEnds

open Token

/-- A place some lines further down. -/
def lower (k : Nat) (p : Position) : Position := ⟨p.line + k, p.column⟩

def lowerToken (k : Nat) (t : Token) : Token := { t with start := lower k t.start }

def lowerError (k : Nat) : LexError → LexError
  | .unterminatedString p => .unterminatedString (lower k p)
  | .unexpectedCharacter c p => .unexpectedCharacter c (lower k p)
  | .unknownEscape c p => .unknownEscape c (lower k p)
  | .literalTooLarge value p => .literalTooLarge value (lower k p)
  | .lettersAfterNumber c p => .lettersAfterNumber c (lower k p)
  | .numeralTooLong => .numeralTooLong

/-- The code that an error's message starts with. -/
def codeOf (e : LexError) : List Char := e.message.toList.take 10

theorem codeOf_lowerError (k : Nat) (e : LexError) : codeOf (lowerError k e) = codeOf e := by
  cases e with
  | unexpectedCharacter c p =>
    -- the place is shown behind the code
    have hcode : ∀ q, codeOf (.unexpectedCharacter c q) = "[LEX-0040]".toList := by
      intro q
      have hmessage : ∃ tail, (LexError.unexpectedCharacter c q).message = "[LEX-0040]" ++ tail :=
        ⟨s!" unexpected character {Text.quoted c.toString} at {q.line}:{q.column}", rfl⟩
      obtain ⟨tail, htail⟩ := hmessage
      rw [codeOf, htail, String.toList_append, List.take_left']
      rfl
    rw [lowerError, hcode, hcode]
  | _ => rfl

theorem place_lowerError (k : Nat) (e : LexError) :
    e = .numeralTooLong ∨ (lowerError k e).place = lower k e.place := by
  cases e with
  | numeralTooLong => exact .inl rfl
  | _ => exact .inr rfl

section Lowered

variable (k : Nat)

theorem right_lower (p : Position) (n : Nat) : (lower k p).right n = lower k (p.right n) := rfl

theorem next_lower (p : Position) (c : Char) : (lower k p).next c = lower k (p.next c) := by
  by_cases hfeed : c = '\n'
  · simp only [Position.next, lower, if_pos hfeed]
    congr 1
    omega
  · simp only [Position.next, lower, if_neg hfeed]

theorem skipSeparators_lower (comment : Bool) (cs : List Char) (p : Position) :
    skipSeparators comment cs (lower k p) =
      ((skipSeparators comment cs p).1, lower k (skipSeparators comment cs p).2) := by
  fun_induction skipSeparators comment cs p with
  | case1 c rest p hin ih => rw [skipSeparators, if_pos hin, next_lower, ih]
  | case2 c rest p hin hspace ih => rw [skipSeparators, if_neg hin, if_pos hspace, next_lower, ih]
  | case3 c rest p hin hspace => rw [skipSeparators, if_neg hin, if_neg hspace]
  | case4 rest p ih => rw [skipSeparators, right_lower, ih]
  | case5 rest p hslashes ih => rw [skipSeparators, if_pos rfl, next_lower, ih] <;> exact hslashes
  | case6 c rest p hslashes hhash hspace ih =>
    rw [skipSeparators, if_neg hhash, if_pos hspace, next_lower, ih]
    exact hslashes
  | case7 c rest p hslashes hhash hspace =>
    rw [skipSeparators, if_neg hhash, if_neg hspace]
    exact hslashes
  | case8 comment p => rw [skipSeparators]

theorem stringBody_lower (start : Position) (cs : List Char) (p : Position) :
    stringBody (lower k start) cs (lower k p) = (stringBody start cs p).mapError (lowerError k) := by
  fun_induction stringBody start cs p with
  | case1 p => rfl
  | case2 rest p => rfl
  | case3 p => rfl
  | case4 c rest p hescape ih =>
    rw [stringBody, if_pos hescape, right_lower, ih]
    cases stringBody start rest (p.right 2) <;> rfl
  | case5 c rest p hescape =>
    rw [stringBody, if_neg hescape]
    rfl
  | case6 c rest p hquote hlone hescape hend =>
    rw [stringBody.eq_5 _ _ _ _ hquote hlone hescape, if_pos hend]
    rfl
  | case7 c rest p hquote hlone hescape hend ih =>
    rw [stringBody.eq_5 _ _ _ _ hquote hlone hescape, if_neg hend, right_lower, ih]
    cases stringBody start rest (p.right 1) <;> rfl

theorem numberAt_lower (p : Position) (cs : List Char) :
    numberAt (lower k p) cs = (numberAt p cs).mapError (lowerError k) := by
  unfold numberAt
  dsimp only
  split
  · rfl
  · split
    · rfl
    · split <;> rfl

theorem signAt_lower (p : Position) (c : Char) (rest : List Char) :
    signAt (lower k p) c rest = (signAt p c rest).mapError (lowerError k) := by
  have hone : signAt.oneChar (lower k p) c rest = (signAt.oneChar p c rest).mapError (lowerError k) := by
    unfold signAt.oneChar
    split <;> rfl
  unfold signAt
  split
  · split
    · rfl
    · exact hone
  · exact hone

theorem lexemeAt_lower (p : Position) (c : Char) (rest : List Char) :
    lexemeAt (lower k p) c rest = (lexemeAt p c rest).mapError (lowerError k) := by
  unfold lexemeAt
  split
  · rfl
  · split
    · exact numberAt_lower k p (c :: rest)
    · split
      · rw [right_lower, stringBody_lower]
        cases stringBody p rest (p.right 1) <;> rfl
      · exact signAt_lower k p c rest

/-- A text further down has the same tokens and the same error, further down. -/
theorem lexFrom_lower (cs : List Char) (p : Position) : lexFrom cs (lower k p) =
    ((lexFrom cs p).map (List.map (lowerToken k))).mapError (lowerError k) := by
  fun_induction lexFrom cs p with
  | case1 cs p q hskip =>
    rw [Printing.lexFrom_eq, skipSeparators_lower, hskip]
    rfl
  | case2 cs p c rest q hskip e hlexeme =>
    rw [Printing.lexFrom_eq, skipSeparators_lower, hskip]
    dsimp only
    rw [lexemeAt_lower, hlexeme]
    rfl
  | case3 cs p c rest q hskip l hlexeme ih =>
    rw [Printing.lexFrom_eq, skipSeparators_lower, hskip]
    dsimp only
    rw [lexemeAt_lower, hlexeme]
    dsimp only [Except.mapError]
    rw [right_lower, ih]
    cases lexFrom l.rest (q.right l.width) <;> rfl

end Lowered

section Joined

variable (more : List Char)

/-- Separators end at a line feed as at the end of the text. -/
theorem skipSeparators_append (comment : Bool) (cs : List Char) (p : Position) :
    skipSeparators comment (cs ++ '\n' :: more) p =
      match skipSeparators comment cs p with
      | ([], q) => skipSeparators false more (q.next '\n')
      | (c :: rest, q) => (c :: rest ++ '\n' :: more, q) := by
  fun_induction skipSeparators comment cs p with
  | case1 c rest p hin ih => rw [List.cons_append, skipSeparators, if_pos hin, ih]
  | case2 c rest p hin hspace ih => rw [List.cons_append, skipSeparators, if_neg hin, if_pos hspace, ih]
  | case3 c rest p hin hspace =>
    rw [List.cons_append, skipSeparators, if_neg hin, if_neg hspace]
    rfl
  | case4 rest p ih => rw [List.cons_append, List.cons_append, skipSeparators, ih]
  | case5 rest p hslashes ih =>
    rw [List.cons_append, skipSeparators, if_pos rfl, ih]
    simp
  | case6 c rest p hslashes hhash hspace ih =>
    rw [List.cons_append, skipSeparators, if_neg hhash, if_pos hspace, ih]
    rintro tail rfl
    simp [isSpace] at hspace
  | case7 c rest p hslashes hhash hspace =>
    have hopen : ∀ tail, c = '/' → rest ++ '\n' :: more = '/' :: tail → False := by
      intro tail hc hrest
      cases rest with
      | nil => simp at hrest
      | cons d rest =>
        obtain ⟨rfl, -⟩ := List.cons.inj hrest
        exact hslashes rest hc rfl
    rw [List.cons_append, skipSeparators.eq_3 _ _ _ hopen, if_neg hhash, if_neg hspace]
    rfl
  | case8 comment p => cases comment <;> rfl

theorem takeWhile_append {p : Char → Bool} (hfeed : p '\n' = false) (cs : List Char) :
    (cs ++ '\n' :: more).takeWhile p = cs.takeWhile p ∧
      (cs ++ '\n' :: more).dropWhile p = cs.dropWhile p ++ '\n' :: more := by
  induction cs with
  | nil => simp [hfeed]
  | cons c cs ih => by_cases hc : p c <;> simp [hc, ih]

theorem stringBody_append {start : Position} {cs : List Char} {p : Position} {body rest : List Char}
    (h : stringBody start cs p = .ok (body, rest)) :
    stringBody start (cs ++ '\n' :: more) p = .ok (body, rest ++ '\n' :: more) := by
  fun_induction stringBody start cs p generalizing body rest with
  | case1 p => cases h
  | case2 rest p =>
    cases h
    rfl
  | case3 p => cases h
  | case4 c tail p hescape ih =>
    cases hinner : stringBody start tail (p.right 2) with
    | error e =>
      rw [hinner] at h
      cases h
    | ok pair =>
      rw [hinner] at h
      cases h
      rw [List.cons_append, List.cons_append, stringBody, if_pos hescape, ih hinner]
      rfl
  | case5 c tail p hescape => cases h
  | case6 c tail p hquote hlone hescape hend => cases h
  | case7 c tail p hquote hlone hescape hend ih =>
    cases hinner : stringBody start tail (p.right 1) with
    | error e =>
      rw [hinner] at h
      cases h
    | ok pair =>
      rw [hinner] at h
      cases h
      have hbackslash : c ≠ '\\' := by
        intro hc
        cases tail with
        | nil => exact hlone hc rfl
        | cons d tail => exact hescape d tail hc rfl
      rw [List.cons_append, stringBody.eq_5 _ _ _ _ hquote (fun hc => absurd hc hbackslash)
        (fun _ _ hc => absurd hc hbackslash), if_neg hend, ih hinner]
      rfl

theorem numberAt_append {p : Position} {cs : List Char} {l : Lexeme} (h : numberAt p cs = .ok l) :
    numberAt p (cs ++ '\n' :: more) = .ok { l with rest := l.rest ++ '\n' :: more } := by
  obtain ⟨htake, hdrop⟩ := takeWhile_append more (p := Char.isDigit) (by decide) cs
  have hnext : (cs.dropWhile Char.isDigit ++ '\n' :: more).head?.filter isWordStart =
      (cs.dropWhile Char.isDigit).head?.filter isWordStart := by
    cases cs.dropWhile Char.isDigit <;> rfl
  unfold numberAt at h ⊢
  rw [htake, hdrop]
  dsimp only at h ⊢
  rw [hnext]
  split at h
  · cases h
  · split at h
    · cases h
    · split at h
      · cases h
      · cases h
        rename_i hlong hlarge
        rw [if_neg hlong, if_neg hlarge]

/-- No sign of two characters ends with a line feed. -/
theorem twoCharSign?_feed (c : Char) : twoCharSign? c '\n' = none := by
  unfold twoCharSign?
  split <;> first | rfl | (rename_i hd; exact absurd hd (by decide))

theorem signAt_append {p : Position} {c : Char} {rest : List Char} {l : Lexeme}
    (h : signAt p c rest = .ok l) :
    signAt p c (rest ++ '\n' :: more) = .ok { l with rest := l.rest ++ '\n' :: more } := by
  have hone : signAt.oneChar p c rest = .ok l → signAt.oneChar p c (rest ++ '\n' :: more) =
      .ok { l with rest := l.rest ++ '\n' :: more } := by
    intro hrun
    unfold signAt.oneChar at hrun ⊢
    split at hrun
    · cases hrun
      rfl
    · cases hrun
  cases rest with
  | nil =>
    have hlone : signAt p c ([] ++ '\n' :: more) = signAt.oneChar p c ([] ++ '\n' :: more) := by
      rw [List.nil_append, signAt, twoCharSign?_feed]
    rw [hlone]
    exact hone h
  | cons d rest =>
    rw [signAt] at h
    rw [List.cons_append, signAt]
    cases hsign : twoCharSign? c d with
    | some kind =>
      rw [hsign] at h
      cases h
      rfl
    | none =>
      rw [hsign] at h
      exact hone h

/-- A token ends at a line feed as at the end of the text. -/
theorem lexemeAt_append {p : Position} {c : Char} {rest : List Char} {l : Lexeme}
    (h : lexemeAt p c rest = .ok l) :
    lexemeAt p c (rest ++ '\n' :: more) = .ok { l with rest := l.rest ++ '\n' :: more } := by
  unfold lexemeAt at h ⊢
  by_cases hword : isWordStart c
  · obtain ⟨htake, hdrop⟩ := takeWhile_append more (p := isWordPart) (by decide) rest
    rw [if_pos hword] at h ⊢
    cases h
    rw [htake, hdrop]
  · rw [if_neg hword] at h ⊢
    by_cases hdigit : c.isDigit
    · rw [if_pos hdigit] at h ⊢
      exact numberAt_append more h
    · rw [if_neg hdigit] at h ⊢
      by_cases hquote : c = '"'
      · rw [if_pos hquote] at h ⊢
        cases hbody : stringBody p rest (p.right 1) with
        | error e =>
          rw [hbody] at h
          cases h
        | ok pair =>
          rw [hbody] at h
          cases h
          rw [stringBody_append more hbody]
          rfl
      · rw [if_neg hquote] at h ⊢
        exact signAt_append more h

end Joined

section Counted

theorem line_next (p : Position) (c : Char) : (p.next c).line = p.line + [c].count '\n' := by
  by_cases hfeed : c = '\n'
  · simp [Position.next, hfeed]
  · simp [Position.next, hfeed]

/-- Separators move down by as many lines as they have line feeds. -/
theorem line_skipSeparators (comment : Bool) (cs : List Char) (p : Position) :
    (skipSeparators comment cs p).2.line + ((skipSeparators comment cs p).1.count '\n' : Nat) =
      p.line + (cs.count '\n' : Nat) := by
  fun_induction skipSeparators comment cs p with
  | case1 c rest p hin ih | case2 c rest p hin hspace ih | case6 c rest p hslashes hhash hspace ih =>
    rw [ih, line_next, List.count_cons (l := rest)]
    simp only [List.count_singleton]
    omega
  | case5 rest p hslashes ih =>
    rw [ih, line_next, List.count_cons (l := rest)]
    simp only [List.count_singleton]
    omega
  | case4 rest p ih =>
    rw [ih, List.count_cons, List.count_cons]
    simp [Position.right]
  | case3 c rest p hin hspace => rfl
  | case7 c rest p hslashes hhash hspace => rfl
  | case8 comment p => rfl

/-- A token has no line feed in it. -/
theorem count_lexemeAt {p : Position} {c : Char} {rest : List Char} {l : Lexeme}
    (h : lexemeAt p c rest = .ok l) : l.rest.count '\n' = (c :: rest).count '\n' := by
  obtain ⟨hsplit, -, hfeed, -⟩ := (Grammar.lexed_of_lexemeAt h).split
  rw [hsplit, List.count_append, List.count_eq_zero.mpr hfeed, Nat.zero_add]

end Counted

section Lines

/-- Behind a text with tokens, lexing starts afresh on the line after the line feed. -/
theorem lexFrom_append {cs : List Char} {p : Position} {ts : List Token} (h : lexFrom cs p = .ok ts)
    (more : List Char) : lexFrom (cs ++ '\n' :: more) p =
      (lexFrom more ⟨p.line + (cs.count '\n' + 1 : Nat), 1⟩).map (ts.dropLast ++ ·) := by
  fun_induction lexFrom cs p generalizing ts with
  | case1 cs p q hskip =>
    cases h
    have hline := line_skipSeparators false cs p
    rw [hskip] at hline
    have hnext : q.next '\n' = ⟨p.line + (cs.count '\n' + 1 : Nat), 1⟩ := by
      simp only [List.count_nil] at hline
      simp only [Position.next, if_pos]
      congr 1
      omega
    rw [Printing.lexFrom_eq, skipSeparators_append, hskip]
    dsimp only
    rw [hnext, Printing.lexFrom_eq more]
    cases skipSeparators false more _ with
    | mk left place =>
      cases left with
      | nil => rfl
      | cons c rest =>
        dsimp only
        cases lexemeAt place c rest with
        | error e => rfl
        | ok l =>
          dsimp only
          cases lexFrom l.rest (place.right l.width) <;> rfl
  | case2 cs p c rest q hskip e hlexeme => cases h
  | case3 cs p c rest q hskip l hlexeme ih =>
    cases hmore : lexFrom l.rest (q.right l.width) with
    | error e =>
      rw [hmore] at h
      cases h
    | ok us =>
      rw [hmore] at h
      cases h
      have hline := line_skipSeparators false cs p
      rw [hskip] at hline
      have hcount := count_lexemeAt hlexeme
      have hplace : (⟨(q.right l.width).line + (l.rest.count '\n' + 1 : Nat), 1⟩ : Position) =
          ⟨p.line + (cs.count '\n' + 1 : Nat), 1⟩ := by
        rw [hcount]
        simp only [Position.right]
        dsimp only at hline
        congr 1
        omega
      have hne : us ≠ [] := by
        obtain ⟨front, eof, rfl, -⟩ := (Grammar.tokens_ok hmore).marked
        simp
      rw [Printing.lexFrom_eq, skipSeparators_append, hskip]
      dsimp only [List.cons_append]
      rw [lexemeAt_append more hlexeme]
      dsimp only
      rw [ih hmore, hplace, List.dropLast_cons_of_ne_nil hne]
      cases lexFrom more _ <;> rfl

/-- Lexing goes line by line. Behind a text that has tokens, a line feed and another text are lexed as the
other text alone, further down by the lines of the first: into the same tokens, or with the same error. -/
theorem lexing_goes_line_by_line {first : String} {ts : List Token} (h : lex first = .ok ts) (second : String) :
    let k := first.toList.count '\n' + 1
    (∃ front eof, ts = front ++ [eof] ∧ eof.kind = .eof) ∧
    ((∃ us, lex (first ++ "\n" ++ second) = .ok us) ↔ ∃ us, lex second = .ok us) ∧
    (∀ us, lex second = .ok us →
      lex (first ++ "\n" ++ second) = .ok (ts.dropLast ++ us.map (lowerToken k))) ∧
    ∀ e, lex second = .error e → ∃ e', lex (first ++ "\n" ++ second) = .error e' ∧
      e' = lowerError k e ∧ codeOf e' = codeOf e ∧ (e = .numeralTooLong ∨ e'.place = lower k e.place) := by
  intro k
  have hstart : (⟨Position.start.line + (k : Nat), 1⟩ : Position) = lower k .start := rfl
  have hjoined : lex (first ++ "\n" ++ second) =
      (((lex second).map (List.map (lowerToken k))).mapError (lowerError k)).map (ts.dropLast ++ ·) := by
    have htext : (first ++ "\n" ++ second).toList = first.toList ++ '\n' :: second.toList := by simp
    rw [lex, htext, lexFrom_append h, hstart, lexFrom_lower]
    rfl
  have hok : ∀ us, lex second = .ok us →
      lex (first ++ "\n" ++ second) = .ok (ts.dropLast ++ us.map (lowerToken k)) := by
    intro us hus
    rw [hjoined, hus]
    rfl
  have herror : ∀ e, lex second = .error e → lex (first ++ "\n" ++ second) = .error (lowerError k e) := by
    intro e he
    rw [hjoined, he]
    rfl
  refine ⟨?_, ⟨?_, ?_⟩, hok, ?_⟩
  · obtain ⟨front, eof, hts, heof, -⟩ := (Grammar.tokens_ok h).marked
    exact ⟨front, eof, hts, heof⟩
  · rintro ⟨us, hus⟩
    cases hsecond : lex second with
    | ok vs => exact ⟨vs, rfl⟩
    | error e =>
      rw [herror e hsecond] at hus
      cases hus
  · rintro ⟨us, hus⟩
    exact ⟨_, hok us hus⟩
  · intro e he
    exact ⟨_, herror e he, rfl, codeOf_lowerError k e, place_lowerError k e⟩

/-- A comment that ends the first text ends with its line, and so does a sign that could go on. The
stray character behind them is blamed on the second line of its own text, two lines further down. -/
theorem comment_ends_with_line :
    lex "a\n+ // b" = .ok [⟨.ident, "a", ⟨1, 1⟩⟩, ⟨.plus, "+", ⟨2, 1⟩⟩, ⟨.eof, "", ⟨2, 7⟩⟩] ∧
    lex "\n +@" = .error (.unexpectedCharacter '@' ⟨2, 3⟩) ∧
    lex ("a\n+ // b" ++ "\n" ++ "= 1") = .ok [⟨.ident, "a", ⟨1, 1⟩⟩, ⟨.plus, "+", ⟨2, 1⟩⟩,
      ⟨.eq, "=", ⟨3, 1⟩⟩, ⟨.int, "1", ⟨3, 3⟩⟩, ⟨.eof, "", ⟨3, 4⟩⟩] ∧
    ∃ e', lex ("a\n+ // b" ++ "\n" ++ "\n +@") = .error e' ∧ e' = .unexpectedCharacter '@' ⟨4, 3⟩ := by
  have hfirst : lex "a\n+ // b" =
      .ok [⟨.ident, "a", ⟨1, 1⟩⟩, ⟨.plus, "+", ⟨2, 1⟩⟩, ⟨.eof, "", ⟨2, 7⟩⟩] := by decide +kernel
  have hgood : lex "= 1" = .ok [⟨.eq, "=", ⟨1, 1⟩⟩, ⟨.int, "1", ⟨1, 3⟩⟩, ⟨.eof, "", ⟨1, 4⟩⟩] := by
    decide +kernel
  have hstray : lex "\n +@" = .error (.unexpectedCharacter '@' ⟨2, 3⟩) := by decide +kernel
  refine ⟨hfirst, hstray, (lexing_goes_line_by_line hfirst "= 1").2.2.1 _ hgood, ?_⟩
  obtain ⟨e', hjoined, he', -⟩ := (lexing_goes_line_by_line hfirst "\n +@").2.2.2 _ hstray
  exact ⟨e', hjoined, he'⟩

end Lines

end CMinusMinus.Proofs.LineEnds
