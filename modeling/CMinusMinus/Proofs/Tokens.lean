import CMinusMinus.Proofs.LineEnds

/-!
The tokens of a text account for all of it. Each token is spelled at its place, what stands between tokens
separates them, and no token could have been longer.
-/
namespace CMinusMinus.Proofs.Tokens

open Token WellFormed Grammar

/-- The place of an offset in a text. -/
def place (text : List Char) (n : Nat) : Position := Position.start.after (text.take n)

/-- What stands between tokens: blanks and comments. A comment goes on to the end of its line, so only the last
gap of a text may end in one. -/
inductive Gap (last : Bool) : Bool → List Char → Prop
  | nil : Gap last false []
  | space {c : Char} {cs : List Char} (space : c ∈ [' ', '\t', '\r', '\n']) (more : Gap last false cs) :
      Gap last false (c :: cs)
  | slashes {cs : List Char} (more : Gap last true cs) : Gap last false ('/' :: '/' :: cs)
  | hash {cs : List Char} (more : Gap last true cs) : Gap last false ('#' :: cs)
  | inside {c : Char} {cs : List Char} (feed : c ≠ '\n') (more : Gap last true cs) : Gap last true (c :: cs)
  | feed {cs : List Char} (more : Gap last false cs) : Gap last true ('\n' :: cs)
  | unended (ends : last = true) : Gap last true []

/-- Tokens account for a text from an offset on. Each is spelled at its place, by the longest spelling that
stands there, and there is a gap before it. The mark of the end comes after the last gap, and nowhere else. -/
inductive Accounts (text : List Char) : Nat → List Token → Prop
  | done {n : Nat} (gap : Gap true false (text.drop n)) :
      Accounts text n [⟨.eof, "", place text text.length⟩]
  | token {n m : Nat} {t : Token} {ts : List Token} (le : n ≤ m) (gap : Gap false false ((text.drop n).take (m - n)))
      (start : t.start = place text m) (inside : t.kind ≠ .eof)
      (spelling : IsSpelling (spelled t.kind t.text.toList)) (stands : spelled t.kind t.text.toList <+: text.drop m)
      (longest : ∀ cs, cs <+: text.drop m → IsSpelling cs → cs.length ≤ (spelled t.kind t.text.toList).length)
      (more : Accounts text (m + (spelled t.kind t.text.toList).length) ts) : Accounts text n (t :: ts)

section Places

theorem after_append (p : Position) (cs ds : List Char) : p.after (cs ++ ds) = (p.after cs).after ds :=
  List.foldl_append

/-- The places on a line are counted by its characters. -/
theorem after_of_line {cs : List Char} (h : '\n' ∉ cs) (p : Position) : p.after cs = p.right cs.length := by
  induction cs generalizing p with
  | nil => simp [Position.after, Position.right]
  | cons c cs ih =>
    obtain ⟨hc, hcs⟩ : '\n' ≠ c ∧ '\n' ∉ cs := by simpa using h
    show (p.next c).after cs = _
    rw [ih hcs, Position.next, if_neg hc.symm]
    simp only [Position.right, List.length_cons]
    congr 1
    omega

theorem line_after (p : Position) (cs : List Char) : (p.after cs).line = p.line + cs.count '\n' := by
  induction cs generalizing p with
  | nil => simp [Position.after]
  | cons c cs ih =>
    show ((p.next c).after cs).line = _
    rw [ih, LineEnds.line_next, List.count_singleton, List.count_cons (l := cs)]
    omega

/-- Different offsets have different places. -/
theorem place_inj {text : List Char} {m n : Nat} (hm : m ≤ text.length) (hn : n ≤ text.length)
    (h : place text m = place text n) : m = n := by
  have hlt : ∀ {m n}, m < n → n ≤ text.length → place text m ≠ place text n := by
    intro m n hmn hn h
    have hmid : text.take n = text.take m ++ (text.drop m).take (n - m) := by
      rw [← List.take_append_drop m (text.take n), List.take_take, List.drop_take, Nat.min_eq_left (by omega)]
    rw [place, place, hmid, after_append] at h
    by_cases hfeed : '\n' ∈ (text.drop m).take (n - m)
    · have hline := congrArg Position.line h
      rw [line_after (Position.after _ _)] at hline
      have := List.count_pos_iff.mpr hfeed
      omega
    · rw [after_of_line hfeed] at h
      have hcolumn := congrArg Position.column h
      simp only [Position.right, List.length_take, List.length_drop] at hcolumn
      omega
  rcases Nat.lt_trichotomy m n with hmn | hmn | hmn
  · exact absurd h (hlt hmn hn)
  · exact hmn
  · exact absurd h.symm (hlt hmn hm)

end Places

section Gaps

theorem end_of_comment {c : Char} (h : ¬ inComment c = true) : c = '\n' ∨ c = nul := by
  by_cases hc : c = '\n'
  · exact .inl hc
  · exact .inr (by simpa [inComment, hc] using h)

/-- What is skipped before a token is a gap. -/
theorem gap_of_skip (comment : Bool) (cs : List Char) (p : Position)
    (hnul : ∀ rest, (skipSeparators comment cs p).1 ≠ nul :: rest) :
    ∃ gap, cs = gap ++ (skipSeparators comment cs p).1 ∧ (skipSeparators comment cs p).2 = p.after gap ∧
      Gap (skipSeparators comment cs p).1.isEmpty comment gap := by
  fun_induction skipSeparators comment cs p with
  | case1 c rest p hin ih =>
    obtain ⟨gap, hrest, hplace, hgap⟩ := ih hnul
    have hc : c ≠ '\n' := by
      rintro rfl
      exact absurd hin (by decide)
    exact ⟨c :: gap, congrArg _ hrest, hplace, .inside hc hgap⟩
  | case2 c rest p hin hspace ih =>
    obtain ⟨gap, hrest, hplace, hgap⟩ := ih hnul
    rcases end_of_comment hin with rfl | rfl
    · exact ⟨'\n' :: gap, congrArg _ hrest, hplace, .feed hgap⟩
    · exact absurd hspace (by decide)
  | case3 c rest p hin hspace =>
    rcases end_of_comment hin with rfl | rfl
    · exact absurd rfl hspace
    · exact absurd rfl (hnul rest)
  | case4 rest p ih =>
    obtain ⟨gap, hrest, hplace, hgap⟩ := ih hnul
    refine ⟨'/' :: '/' :: gap, by rw [List.cons_append, List.cons_append, ← hrest], ?_, .slashes hgap⟩
    rw [hplace, show p.right 2 = p.right ['/', '/'].length from rfl, ← after_of_line (by decide), ← after_append]
    rfl
  | case5 rest p hslashes ih =>
    obtain ⟨gap, hrest, hplace, hgap⟩ := ih hnul
    exact ⟨'#' :: gap, congrArg _ hrest, hplace, .hash hgap⟩
  | case6 c rest p hslashes hhash hspace ih =>
    obtain ⟨gap, hrest, hplace, hgap⟩ := ih hnul
    exact ⟨c :: gap, congrArg _ hrest, hplace, .space (by simpa [isSpace, or_assoc] using hspace) hgap⟩
  | case7 c rest p hslashes hhash hspace => exact ⟨[], rfl, rfl, .nil⟩
  | case8 comment p =>
    cases comment with
    | false => exact ⟨[], rfl, rfl, .nil⟩
    | true => exact ⟨[], rfl, rfl, .unended rfl⟩

end Gaps

section Spellings

variable {c : Char} {rest : List Char} {l : Lexeme}

/-- A sign starts like nothing else. -/
theorem start_of_pair {d : Char} {kind : Kind} (h : twoCharSign? c d = some kind) :
    isWordStart c = false ∧ c.isDigit = false ∧ c ≠ '"' := by
  unfold twoCharSign? at h
  split at h <;> cases h <;> decide

theorem start_of_single {kind : Kind} (h : oneCharSign? c = some kind) :
    isWordStart c = false ∧ c.isDigit = false ∧ c ≠ '"' := by
  unfold oneCharSign? at h
  split at h <;> cases h <;> decide

theorem all_of_digits {cs : List Char} (h : cs.all Char.isDigit) : cs.all isWordPart := by
  simp only [List.all_eq_true] at h ⊢
  intro c hc
  simp [isWordPart, Char.isAlphanum, h c hc]

theorem length_le_takeWhile {p : Char → Bool} {cs xs : List Char} (hfront : cs <+: xs) (h : cs.all p) :
    cs.length ≤ (xs.takeWhile p).length := by
  obtain ⟨more, rfl⟩ := hfront
  rw [List.takeWhile_append_of_pos (List.all_eq_true.mp h), List.length_append]
  exact Nat.le_add_right _ _

/-- A string literal ends at its first quote that is not escaped. -/
theorem literal_unique {body other more tail : List Char} (h : Literal body) (h' : Literal other)
    (hsame : body ++ '"' :: more = other ++ '"' :: tail) : body = other := by
  induction h generalizing other with
  | nil =>
    cases h' with
    | nil => rfl
    | plain hquote => exact absurd (List.cons.inj hsame).1.symm hquote
    | escape => exact absurd (List.cons.inj hsame).1 (by decide)
  | plain hquote hback _ _ _ ih =>
    cases h' with
    | nil => exact absurd (List.cons.inj hsame).1 hquote
    | plain _ _ _ _ hother =>
      obtain ⟨rfl, htail⟩ := List.cons.inj hsame
      rw [ih hother htail]
    | escape => exact absurd (List.cons.inj hsame).1 hback
  | escape _ _ ih =>
    cases h' with
    | nil => exact absurd (List.cons.inj hsame).1 (by decide)
    | plain _ hback => exact absurd (List.cons.inj hsame).1.symm hback
    | escape _ hother =>
      obtain ⟨rfl, htail⟩ := List.cons.inj (List.cons.inj hsame).2
      rw [ih hother htail]

/-- A token is spelled by the longest spelling that stands in its place. -/
theorem length_le_of_lexed (h : Lexed c rest l) {cs : List Char} (hfront : cs <+: c :: rest) (hs : IsSpelling cs) :
    cs.length ≤ l.width := by
  obtain ⟨d, ds, rfl⟩ : ∃ d ds, cs = d :: ds := by cases hs <;> exact ⟨_, _, rfl⟩
  obtain ⟨rfl, hrest⟩ := List.cons_prefix_cons.mp hfront
  -- What starts the token tells what kind of spelling it can be.
  cases h with
  | word hstart =>
    cases hs with
    | word _ hparts => exact Nat.succ_le_succ (length_le_takeWhile hrest hparts)
    | number hdigits =>
      have hparts := all_of_digits hdigits
      rw [List.all_cons, Bool.and_eq_true] at hparts
      exact Nat.succ_le_succ (length_le_takeWhile hrest hparts.2)
    | literal => exact absurd hstart (by decide)
    | pair hsign => simp [start_of_pair hsign] at hstart
    | single hsign => simp [start_of_single hsign] at hstart
  | number hstart hdigit =>
    cases hs with
    | word hword => simp [hstart] at hword
    | number hdigits => exact length_le_takeWhile hfront hdigits
    | literal => exact absurd hdigit (by decide)
    | pair hsign => simp [start_of_pair hsign] at hdigit
    | single hsign => simp [start_of_single hsign] at hdigit
  | literal hquote hliteral =>
    subst hquote
    cases hs with
    | word hword => exact absurd hword (by decide)
    | number hdigits => simp at hdigits
    | literal hother =>
      obtain ⟨tail, hsame⟩ := hrest
      rw [literal_unique hother hliteral (by simpa using hsame)]
      simp
    | pair hsign => exact absurd rfl (start_of_pair hsign).2.2
    | single hsign => exact absurd rfl (start_of_single hsign).2.2
  | pair hsign =>
    obtain ⟨hword, hdigit, hquote⟩ := start_of_pair hsign
    cases hs with
    | word hstart => simp [hword] at hstart
    | number hdigits => simp [hdigit] at hdigits
    | literal => exact absurd rfl hquote
    | pair | single => simp
  | single hsign halone =>
    obtain ⟨hword, hdigit, hquote⟩ := start_of_single hsign
    cases hs with
    | word hstart => simp [hword] at hstart
    | number hdigits => simp [hdigit] at hdigits
    | literal => exact absurd rfl hquote
    | pair hpair =>
      obtain ⟨tail, rfl⟩ := hrest
      rw [halone _ rfl] at hpair
      cases hpair
    | single => simp

/-- No token starts with the character that stands for the end. -/
theorem ne_nul_of_lexed (h : Lexed c rest l) : c ≠ nul := by
  rintro rfl
  cases h with
  | word hstart => exact absurd hstart (by decide)
  | number _ hdigit => exact absurd hdigit (by decide)
  | literal hquote => exact absurd hquote (by decide)
  | pair hsign => simp [twoCharSign?, nul] at hsign
  | single hsign => simp [oneCharSign?, nul] at hsign

end Spellings

section Texts

/-- What is lexed of a text from a place on accounts for the rest of it. -/
theorem accounts_of_lexFrom {pre cs : List Char} {p : Position} {ts : List Token} (h : lexFrom cs p = .ok ts)
    (hp : p = Position.start.after pre) : Accounts (pre ++ cs) pre.length ts := by
  fun_induction lexFrom cs p generalizing pre ts with
  | case1 cs p q hs =>
    cases h
    obtain ⟨gap, hcs, hplace, hgap⟩ := gap_of_skip false cs p (by simp [hs])
    simp only [hs, List.append_nil] at hcs hplace hgap
    subst hcs
    have hend : q = place (pre ++ cs) (pre ++ cs).length := by
      rw [place, List.take_length, after_append, ← hp, hplace]
    rw [hend]
    exact .done (by simpa using hgap)
  | case2 => cases h
  | case3 cs p c rest q hs l hl ih =>
    obtain ⟨more, hmore, h⟩ := ok_of_bind h
    cases h
    have hlexed := lexed_of_lexemeAt hl
    obtain ⟨hsplit, hwidth, hfeed, hspelling⟩ := hlexed.split
    obtain ⟨gap, hcs, hplace, hgap⟩ := gap_of_skip false cs p (by simp [hs, ne_nul_of_lexed hlexed])
    simp only [hs] at hcs hplace hgap
    subst hcs
    have hq : q = Position.start.after (pre ++ gap) := by rw [after_append, ← hp, hplace]
    have hafter : q.right l.width = Position.start.after (pre ++ gap ++ spelled l.kind l.text) := by
      rw [after_append, ← hq, after_of_line hfeed, hwidth]
    have hnext := ih hmore hafter
    have htext : pre ++ (gap ++ c :: rest) = pre ++ gap ++ spelled l.kind l.text ++ l.rest := by simp [hsplit]
    have hdrop : (pre ++ (gap ++ c :: rest)).drop (pre ++ gap).length = c :: rest := by simp
    refine .token (m := (pre ++ gap).length) (by simp) ?_ ?_ (Grammar.lexeme_ok hl).1 ?_ ?_ ?_ ?_
    · simpa using hgap
    · rw [place, hq, ← List.append_assoc, List.take_left]
    · simpa using hspelling
    · rw [hdrop, hsplit, String.toList_ofList]
      exact List.prefix_append _ _
    · rw [hdrop, String.toList_ofList, ← hwidth]
      exact fun cs => length_le_of_lexed hlexed
    · rw [htext, String.toList_ofList, ← List.length_append]
      exact hnext

/-- The tokens of a text account for it exactly, from its start to its end. A place in the text means one
offset only. -/
theorem tokens_account_for_text {text : String} {tokens : List Token} (h : Token.lex text = .ok tokens) :
    Accounts text.toList 0 tokens ∧ ∀ m n, m ≤ text.toList.length → n ≤ text.toList.length →
      place text.toList m = place text.toList n → m = n :=
  ⟨@accounts_of_lexFrom [] _ _ _ h rfl, fun _ _ => place_inj⟩

/-- A sign that is not cut short, a literal with an escape in it, and a comment at the end. -/
theorem sample_is_accounted_for : ∃ tokens, Token.lex "\t<=\n\"\\n\"// =" = .ok tokens ∧ tokens.length = 3 ∧
    Accounts "\t<=\n\"\\n\"// =".toList 0 tokens := by
  have hlex : Token.lex "\t<=\n\"\\n\"// =" =
      .ok [⟨.le, "<=", ⟨1, 2⟩⟩, ⟨.string, "\\n", ⟨2, 1⟩⟩, ⟨.eof, "", ⟨2, 9⟩⟩] := by decide +kernel
  exact ⟨_, hlex, rfl, (tokens_account_for_text hlex).1⟩

end Texts

end CMinusMinus.Proofs.Tokens
