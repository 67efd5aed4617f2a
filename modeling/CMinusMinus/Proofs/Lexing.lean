import CMinusMinus.Proofs.Numerals
import CMinusMinus.Proofs.Printing
import CMinusMinus.Proofs.WellFormed

/-!
Tokens that are written with spaces between them are told apart again. Each token that can be written
ends where a space or the end of the text follows it.
-/
namespace CMinusMinus.Proofs.Printing

open Token WellFormed

/-- How a token is written. String literals stand in quotes. -/
def Piece.shown (p : Piece) : String :=
  if p.kind = .string then "\"" ++ p.text ++ "\"" else p.text

/-- Tokens divided by single spaces. -/
def textOf (ps : List Piece) : String := " ".intercalate (ps.map Piece.shown)

/-- A token without its place, spelled as it is. -/
def exactly (t : Token) : Piece := ⟨t.kind, t.text⟩

/-- A token that can be written: a name, a number within range, the inside of a string literal, or
what is always spelled alike. -/
def Writable (p : Piece) : Prop :=
  match p.kind with
  | .ident => IsName p.text
  | .int => ∃ n : Nat, n ≤ maxLiteral ∧ p.text = toString (n : Int)
  | .string => Literal p.text.toList
  | .eof => False
  | kind => p.text = spelling kind

/-- What may follow a token: the end of the text, or a space. -/
def Apart (after : List Char) : Prop := after = [] ∨ ∃ more, after = ' ' :: more

section Lexemes

variable {after : List Char}

theorem Apart.takeWhile (h : Apart after) {p : Char → Bool} (hspace : p ' ' = false) {cs : List Char}
    (hcs : ∀ c ∈ cs, p c) : (cs ++ after).takeWhile p = cs ∧ (cs ++ after).dropWhile p = after := by
  rw [List.takeWhile_append_of_pos hcs, List.dropWhile_append_of_pos hcs]
  rcases h with rfl | ⟨more, rfl⟩
  · simp
  · simp [hspace]

/-- A word is read up to its end. -/
theorem lexeme_word (h : Apart after) {word : String} (hword : IsWord word) (q : Position) :
    ∃ c rest, word.toList = c :: rest ∧ isWordStart c ∧
      lexemeAt q c (rest ++ after) = .ok ⟨.ofWord word, c :: rest, (c :: rest).length, after⟩ := by
  obtain ⟨hne, hstart, hparts⟩ := hword
  cases hchars : word.toList with
  | nil => exact absurd (String.toList_eq_nil_iff.mp hchars) hne
  | cons c rest =>
    rw [hchars] at hstart hparts
    have hc : isWordStart c := hstart c rfl
    obtain ⟨htake, hdrop⟩ := h.takeWhile (p := isWordPart) (by decide)
      fun x hx => hparts x (List.mem_cons_of_mem c hx)
    refine ⟨c, rest, rfl, hc, ?_⟩
    have hofList : String.ofList (c :: rest) = word := by rw [← hchars, String.ofList_toList]
    rw [lexemeAt, if_pos hc, htake, hdrop]
    dsimp only
    rw [hofList]

theorem isWordStart_of_isDigit {c : Char} (h : c.isDigit) : isWordStart c = false := by
  have hrange : 48 ≤ c.toNat ∧ c.toNat ≤ 57 := by
    simpa [Char.isDigit, UInt32.le_iff_toNat_le] using h
  have hline : c ≠ '_' := by
    rintro rfl
    exact absurd h (by decide)
  have halpha : c.isAlpha = false := by
    refine (Bool.not_eq_true _).mp fun h => ?_
    have := Numerals.range_of_isAlpha h
    omega
  simp [isWordStart, halpha, hline]

theorem digits_toString (n : Nat) : (toString (n : Int)).toList = Nat.toDigits 10 n := by
  rw [Numerals.toList_toString, if_neg (by omega)]
  simp

/-- A number has the value that it was written from. -/
theorem ofDigits_toDigits (n : Nat) :
    Text.ofDigits ((Nat.toDigits 10 n).map fun c => c.toNat - '0'.toNat) = n := by
  rw [Numerals.ofDigits_map, Nat.ofDigitChars_ten_toDigits]

/-- A number is read up to its last digit. -/
theorem lexeme_number (h : Apart after) {n : Nat} (hn : n ≤ maxLiteral) (q : Position) :
    ∃ c rest, (toString (n : Int)).toList = c :: rest ∧ c.isDigit ∧
      lexemeAt q c (rest ++ after) = .ok ⟨.int, c :: rest, (c :: rest).length, after⟩ := by
  have hdigits := digits_toString n
  have hvalue := ofDigits_toDigits n
  have hall : ∀ c ∈ Nat.toDigits 10 n, c.isDigit := fun c hc =>
    Nat.isDigit_of_mem_toDigits (by decide) (by decide) hc
  have hlength : (Nat.toDigits 10 n).length ≤ 10 :=
    (Nat.length_toDigits_le_iff (by decide) (by decide)).mpr
      (Nat.lt_of_le_of_lt hn (by decide))
  obtain ⟨c, rest, hcons⟩ := List.exists_cons_of_ne_nil (Nat.toDigits_ne_nil (n := n) (b := 10))
  rw [hcons] at hdigits hall hlength hvalue
  have hc : c.isDigit := hall c List.mem_cons_self
  refine ⟨c, rest, hdigits, hc, ?_⟩
  obtain ⟨htake, hdrop⟩ := h.takeWhile (p := Char.isDigit) (by decide) hall
  have hnext : after.head?.filter isWordStart = none := by
    rcases h with rfl | ⟨more, rfl⟩ <;> rfl
  have hstart : isWordStart c = false := isWordStart_of_isDigit hc
  rw [lexemeAt, if_neg (by simp [hstart]), if_pos hc, numberAt]
  rw [← List.cons_append, htake, hdrop, hvalue, hnext]
  have hlimit : (10 : Nat) ≤ Text.digitLimit := by decide
  rw [if_neg (by omega), if_neg (by omega)]

/-- The inside of a string literal is read up to the quote. -/
theorem stringBody_literal {body : List Char} (hbody : Literal body) (after : List Char) (start : Position) :
    ∀ q : Position, stringBody start (body ++ '"' :: after) q = .ok (body, after) := by
  induction hbody with
  | nil => exact fun q => rfl
  | @plain c rest hquote hbackslash hfeed hnull _ ih =>
    intro q
    rw [List.cons_append, stringBody.eq_5 _ _ _ _ (by simpa using hquote)]
    · rw [if_neg (by simp [hfeed, hnull]), ih]
      rfl
    · exact fun h => absurd h hbackslash
    · exact fun _ _ h => absurd h hbackslash
  | @escape c rest hknown _ ih =>
    intro q
    show stringBody start ('\\' :: c :: (rest ++ '"' :: after)) q = _
    rw [stringBody, if_pos hknown, ih]
    rfl

def keywordKinds : List Kind := keywords.map Prod.snd

theorem spelling_keywordKind {kind : Kind} (h : kind ∈ keywordKinds) :
    IsWord (spelling kind) ∧ Kind.ofWord (spelling kind) = kind := by
  simp only [keywordKinds, keywords, List.map_cons, List.map_nil, List.mem_cons, List.not_mem_nil,
    or_false] at h
  rcases h with rfl | rfl | rfl | rfl | rfl | rfl | rfl | rfl | rfl | rfl | rfl | rfl <;>
    exact ⟨⟨by decide, by simp [spelling, isWordStart], by simp [spelling, isWordPart]⟩, by decide⟩

/-- Nothing is skipped before a character of a class that has no separators in it. -/
theorem skip_start {p : Char → Bool} {c : Char} (hc : p c)
    (hp : ['/', '#', ' ', '\t', '\r', '\n'].any p = false) (rest : List Char) (q : Position) :
    skipSeparators false (c :: rest) q = (c :: rest, q) := by
  have hne : ∀ x ∈ ['/', '#', ' ', '\t', '\r', '\n'], c ≠ x := by
    rintro x hx rfl
    exact List.any_eq_false.mp hp c hx hc
  have hspace : isSpace c = false := by
    simp [isSpace, hne]
  rw [skipSeparators, if_neg (hne '#' (by simp)), if_neg (by simp [hspace])]
  rintro tail rfl
  exact absurd rfl (hne '/' (by simp))

/-- A sign is not part of a longer sign or of a comment where a space follows it. -/
theorem lexeme_sign (h : Apart after) {kind : Kind} (hword : kind ∉ keywordKinds)
    (hfixed : kind ∉ [.ident, .int, .string, .eof]) (q : Position) :
    ∃ c rest, (spelling kind).toList = c :: rest ∧
      skipSeparators false (c :: (rest ++ after)) q = (c :: (rest ++ after), q) ∧
      lexemeAt q c (rest ++ after) = .ok ⟨kind, c :: rest, (c :: rest).length, after⟩ := by
  cases kind <;> simp [keywordKinds, keywords] at hword hfixed <;> rcases h with rfl | ⟨more, rfl⟩ <;>
    exact ⟨_, _, rfl, rfl, rfl⟩

/-- A token that can be written is read as it was written, where a space or the end follows it. -/
theorem lexeme_piece (h : Apart after) {p : Piece} (hp : Writable p) (q : Position) :
    ∃ c rest l, p.shown.toList ++ after = c :: rest ∧
      skipSeparators false (c :: rest) q = (c :: rest, q) ∧ lexemeAt q c rest = .ok l ∧
      l.kind = p.kind ∧ String.ofList l.text = p.text ∧ l.rest = after := by
  obtain ⟨kind, text⟩ := p
  have hword : IsWord text → Kind.ofWord text = kind → kind ≠ .string → ∃ c rest l,
      (⟨kind, text⟩ : Piece).shown.toList ++ after = c :: rest ∧
      skipSeparators false (c :: rest) q = (c :: rest, q) ∧ lexemeAt q c rest = .ok l ∧
      l.kind = kind ∧ String.ofList l.text = text ∧ l.rest = after := by
    intro hword hkind hplain
    obtain ⟨c, rest, hchars, hstart, hlex⟩ := lexeme_word h hword q
    have hshown : (⟨kind, text⟩ : Piece).shown = text := if_neg hplain
    refine ⟨c, rest ++ after, _, by rw [hshown, hchars]; rfl, ?_, hlex, hkind, ?_, rfl⟩
    · exact skip_start hstart (by decide) _ q
    · show String.ofList (c :: rest) = text
      rw [← hchars, String.ofList_toList]
  by_cases hfixed : kind ∈ [.ident, .int, .string, .eof]
  · simp only [List.mem_cons, List.not_mem_nil, or_false] at hfixed
    rcases hfixed with rfl | rfl | rfl | rfl
    · exact hword hp.1 hp.2 (by decide)
    · obtain ⟨n, hn, htext⟩ := hp
      obtain rfl : text = toString (n : Int) := htext
      obtain ⟨c, rest, hchars, hdigit, hlex⟩ := lexeme_number h hn q
      refine ⟨c, rest ++ after, _, ?_, ?_, hlex, rfl, ?_, rfl⟩
      · show (toString (n : Int)).toList ++ after = _
        rw [hchars]
        rfl
      · exact skip_start hdigit (by decide) _ q
      · show String.ofList (c :: rest) = toString (n : Int)
        rw [← hchars, String.ofList_toList]
    · have hbody := stringBody_literal hp after q (q.right 1)
      refine ⟨'"', text.toList ++ '"' :: after, ⟨.string, text.toList, text.toList.length + 2, after⟩, ?_, rfl,
        ?_, rfl, String.ofList_toList, rfl⟩
      · show ("\"" ++ text ++ "\"").toList ++ after = _
        simp
      · show (stringBody q (text.toList ++ '"' :: after) (q.right 1) >>= fun r =>
          pure (⟨.string, r.1, r.1.length + 2, r.2⟩ : Lexeme)) = _
        rw [hbody]
        rfl
    · exact hp.elim
  · have htext : text = spelling kind := by
      cases kind <;> simp at hfixed <;> exact hp
    have hplain : kind ≠ .string := by
      rintro rfl
      exact hfixed (by decide)
    subst htext
    by_cases hkeyword : kind ∈ keywordKinds
    · obtain ⟨hisWord, hkind⟩ := spelling_keywordKind hkeyword
      exact hword hisWord hkind hplain
    · obtain ⟨c, rest, hchars, hskip, hlex⟩ := lexeme_sign h hkeyword hfixed q
      have hshown : (⟨kind, spelling kind⟩ : Piece).shown = spelling kind := if_neg hplain
      refine ⟨c, rest ++ after, _, by rw [hshown, hchars]; rfl, hskip, hlex, rfl, ?_, rfl⟩
      show String.ofList (c :: rest) = spelling kind
      rw [← hchars, String.ofList_toList]

end Lexemes

section Texts

/-- Lexing goes on where the separators end. -/
theorem lexFrom_eq (cs : List Char) (p : Position) : lexFrom cs p =
    match skipSeparators false cs p with
    | ([], q) => .ok [⟨.eof, "", q⟩]
    | (c :: rest, q) =>
      match lexemeAt q c rest with
      | .error e => .error e
      | .ok l => do
        let more ← lexFrom l.rest (q.right l.width)
        return ⟨l.kind, String.ofList l.text, q⟩ :: more := by
  rw [lexFrom]
  split
  · rename_i h
    rw [h]
  · rename_i h
    rw [h]
    dsimp only
    split <;> rename_i h' <;> rw [h']

theorem lexFrom_space (cs : List Char) (p : Position) :
    lexFrom (' ' :: cs) p = lexFrom cs (p.next ' ') := by
  have hskip : skipSeparators false (' ' :: cs) p = skipSeparators false cs (p.next ' ') := rfl
  rw [lexFrom_eq, lexFrom_eq cs, hskip]

theorem textOf_cons (p q : Piece) (ps : List Piece) :
    (textOf (p :: q :: ps)).toList = p.shown.toList ++ ' ' :: (textOf (q :: ps)).toList := by
  simp [textOf, String.toList_intercalate]

/-- The tokens of a written text are those it was written from. -/
theorem lex_textOf {ps : List Piece} (h : ∀ p ∈ ps, Writable p) : ∀ q : Position, ∃ ts eof,
    lexFrom (textOf ps).toList q = .ok (ts ++ [eof]) ∧ eof.kind = .eof ∧ ts.map exactly = ps := by
  induction ps with
  | nil => exact fun q => ⟨[], ⟨.eof, "", q⟩, by rw [lexFrom_eq]; rfl, rfl, rfl⟩
  | cons p ps ih =>
    intro q
    obtain ⟨hp, hps⟩ := List.forall_mem_cons.mp h
    -- the space after the token, if there is one, and the tokens that follow it
    obtain ⟨after, hafter, htext, hrest⟩ : ∃ after, Apart after ∧
        (textOf (p :: ps)).toList = p.shown.toList ++ after ∧
        ∀ q', ∃ ts eof, lexFrom after q' = .ok (ts ++ [eof]) ∧ eof.kind = .eof ∧ ts.map exactly = ps := by
      cases ps with
      | nil =>
        refine ⟨[], .inl rfl, by simp [textOf], ih hps⟩
      | cons r rs =>
        refine ⟨' ' :: (textOf (r :: rs)).toList, .inr ⟨_, rfl⟩, textOf_cons p r rs, fun q' => ?_⟩
        rw [lexFrom_space]
        exact ih hps _
    obtain ⟨c, rest, l, hchars, hskip, hlex, hkind, hspelled, hl⟩ := lexeme_piece hafter hp q
    obtain ⟨ts, eof, hmore, heof, hts⟩ := hrest (q.right l.width)
    refine ⟨⟨l.kind, String.ofList l.text, q⟩ :: ts, eof, ?_, heof, ?_⟩
    · rw [htext, hchars, lexFrom_eq, hskip]
      dsimp only
      rw [hlex]
      dsimp only
      rw [hl, hmore]
      rfl
    · rw [List.map_cons, hts]
      simp [exactly, hkind, hspelled]

end Texts

end CMinusMinus.Proofs.Printing
