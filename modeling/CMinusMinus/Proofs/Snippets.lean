import CMinusMinus.Compilation
import CMinusMinus.Diagnostic.Snippet
import CMinusMinus.Proofs.Tokens

/-!
Snippets. The lexer counts lines by line feeds, and a source is cut into lines at other characters too. So the line
that is shown is the one that is reported as long as no such character stands before its end; otherwise it is a line
further up.
-/
namespace CMinusMinus.Proofs.Snippets

open Diagnostic

/-- No line of a text up to and with a number has a character in it at which sources are cut. -/
def Uncut (n : Nat) (text : List Char) : Prop :=
  ∀ line ∈ (text.splitOn '\n').take (n + 1), ∀ c ∈ line, Text.isLineBreak c = false

theorem lines_feed (cs : List Char) : Text.lines ('\n' :: cs) = [] :: Text.lines cs := by
  rw [Text.lines.eq_3 _ _ (by simp), if_pos (by decide)]

theorem lines_cons {c : Char} (h : Text.isLineBreak c = false) (cs : List Char) : Text.lines (c :: cs) =
    (c :: (Text.lines cs).headD []) :: (Text.lines cs).tail := by
  have hreturn : c ≠ '\r' := by
    rintro rfl
    exact absurd h (by decide)
  rw [Text.lines.eq_3 _ _ (by simp [hreturn]), h, if_neg (by simp)]
  cases Text.lines cs <;> rfl

/-- A line is found by its number wherever sources are cut, but for an empty line at the end. -/
theorem line_found {n : Nat} {text : List Char} (h : Uncut n text) (line : List Char) : (Text.lines text)[n]? = some line ↔
    (text.splitOn '\n')[n]? = some line ∧ (line = [] → n + 1 < (text.splitOn '\n').length) := by
  induction text generalizing n line with
  | nil => cases n <;> simp [Text.lines, List.splitOn_nil, eq_comm]
  | cons c cs ih =>
    unfold Uncut at h
    obtain ⟨first, more, hsplit⟩ := List.exists_cons_of_ne_nil (List.splitOn_ne_nil '\n' cs)
    rw [List.splitOn_cons_eq_if_modifyHead] at h ⊢
    by_cases hc : c = '\n'
    · subst hc
      rw [if_pos (by decide)] at h ⊢
      rw [lines_feed]
      cases n with
      | zero => simp [hsplit, eq_comm]
      | succ n => simpa using ih (fun line hline => h line (by simp [hline])) line
    · rw [if_neg (by simpa using hc), hsplit] at h ⊢
      simp only [List.modifyHead_cons, List.take_succ_cons, List.forall_mem_cons] at h ⊢
      obtain ⟨⟨hbreak, hfirst⟩, hmore⟩ := h
      have hrest : Uncut n cs := by
        rw [Uncut, hsplit, List.take_succ_cons, List.forall_mem_cons]
        exact ⟨hfirst, hmore⟩
      rw [lines_cons hbreak]
      cases n with
      | zero =>
        -- the first line goes on with the first line of the rest, which may be empty and not counted
        have hhead : (Text.lines cs).headD [] = first := by
          have hzero := ih hrest
          cases hlines : Text.lines cs with
          | nil =>
            have hend : first = [] ∧ more = [] := by simpa [hlines, hsplit] using hzero first
            exact hend.1.symm
          | cons l ls => simpa [hlines, hsplit] using ((hzero l).mp (by simp [hlines])).1.symm
        simp only [hhead, List.getElem?_cons_zero, Option.some.injEq, iff_self_and]
        rintro rfl
        simp
      | succ n => simpa [hsplit, List.getElem?_tail] using ih hrest line

theorem length_splitOn (cs : List Char) : (cs.splitOn '\n').length = cs.count '\n' + 1 := by
  induction cs with
  | nil => simp [List.splitOn_nil]
  | cons c cs ih =>
    rw [List.splitOn_cons_eq_if_modifyHead, List.count_cons]
    split <;> simp [ih]

/-- A place in a text is on the line with its number, and in the column after what stands before it on the line. -/
theorem line_of_place (before after : List Char) : ∃ left right,
    ((before ++ after).splitOn '\n')[before.count '\n']? = some (left ++ right) ∧ left <:+ before ∧ right <+: after ∧
      (Position.start.after before).column = left.length + 1 := by
  have hfirst : ∀ left : List Char, '\n' ∉ left → ∃ right more, (left ++ after).splitOn '\n' = (left ++ right) :: more ∧
      right <+: after := by
    intro left hleft
    by_cases hmem : '\n' ∈ after
    · obtain ⟨right, more, rfl, hright⟩ := List.eq_append_cons_of_mem hmem
      refine ⟨right, more.splitOn '\n', ?_, List.prefix_append _ _⟩
      rw [← List.append_assoc, List.splitOn_append_cons_self_of_not_mem (by simp [hleft, hright])]
    · exact ⟨after, [], List.splitOn_eq_singleton (by simp [hleft, hmem]), List.prefix_rfl⟩
  by_cases hmem : '\n' ∈ before
  · -- the line starts behind the last line feed
    obtain ⟨as, bs, hbefore, hleft⟩ := List.eq_append_cons_of_mem (List.mem_reverse.mpr hmem)
    obtain ⟨up, left, rfl, hleft⟩ : ∃ up left, before = up ++ '\n' :: left ∧ '\n' ∉ left :=
      ⟨bs.reverse, as.reverse, by simpa using congrArg List.reverse hbefore, by simpa using hleft⟩
    obtain ⟨right, more, hsplit, hright⟩ := hfirst left hleft
    refine ⟨left, right, ?_, ⟨up ++ ['\n'], by simp⟩, hright, ?_⟩
    · rw [List.append_assoc, List.cons_append, List.splitOn_append_cons_self, hsplit, List.count_append,
        List.count_cons_self, List.count_eq_zero.mpr hleft, ← length_splitOn]
      simp
    · rw [Tokens.after_append]
      show (((Position.start.after up).next '\n').after left).column = _
      rw [Tokens.after_of_line hleft, Position.next, if_pos rfl, Position.right]
      exact Int.add_comm _ _
  · obtain ⟨right, more, hsplit, hright⟩ := hfirst before hmem
    refine ⟨before, right, ?_, List.suffix_rfl, hright, ?_⟩
    · rw [List.count_eq_zero.mpr hmem, hsplit]
      rfl
    · rw [Tokens.after_of_line hmem, Position.right, Position.start]
      exact Int.add_comm _ _

/-- The line that is shown for a diagnostic is the one with its number, as the lexer numbers lines, if no line up to
and with it has a character in it at which sources are cut but not lines; and it is shown unless the text has no
such line or ends with an empty one there. All places with the number are on that line. -/
theorem snippets_show_reported_line (text : List Char) (d : Diagnostic) (n : Nat) (hline : d.line = some ((n : Int) + 1))
    (huncut : Uncut n text) :
    (∀ shown ∈ (d.snippet (Text.lines text)).head?, ∃ line, (text.splitOn '\n')[n]? = some line ∧
      shown = alignRight (gutterWidth (n + 1)) (toString ((n : Int) + 1)) ++ " | " ++ String.ofList line) ∧
    (d.snippet (Text.lines text) = [] → ∀ line, (text.splitOn '\n')[n]? = some line →
      line = [] ∧ n + 1 = (text.splitOn '\n').length) ∧
    ∀ before after, text = before ++ after → (Position.start.after before).line = n + 1 → ∃ left right,
      (text.splitOn '\n')[n]? = some (left ++ right) ∧ left <:+ before ∧ right <+: after ∧
        (Position.start.after before).column = left.length + 1 := by
  have hindex : ((n : Int) + 1 - 1).toNat = n := by omega
  have hsnippet : ∀ {line}, (Text.lines text)[n]? = some line → (d.snippet (Text.lines text)).head? =
      some (alignRight (gutterWidth (n + 1)) (toString ((n : Int) + 1)) ++ " | " ++ String.ofList line) := by
    intro line hfound
    rw [snippet, hline]
    dsimp only
    rw [if_neg (by omega), hindex, hfound]
    cases d.column <;> rfl
  refine ⟨fun shown hshown => ?_, fun hnone line hfound => ?_, ?_⟩
  · cases hfound : (Text.lines text)[n]? with
    | none =>
      rw [snippet, hline] at hshown
      dsimp only at hshown
      rw [if_neg (by omega), hindex, hfound] at hshown
      cases hshown
    | some line =>
      rw [hsnippet hfound] at hshown
      exact ⟨line, ((line_found huncut _).mp hfound).1, (Option.mem_some.mp hshown).symm⟩
  · have hmissing : (Text.lines text)[n]? ≠ some line := by
      intro hfound
      have := hsnippet hfound
      rw [hnone] at this
      cases this
    have hlast : ¬ (line = [] → n + 1 < (text.splitOn '\n').length) := fun h =>
      hmissing ((line_found huncut _).mpr ⟨hfound, h⟩)
    have hlength := (List.getElem?_eq_some_iff.mp hfound).1
    rw [Classical.not_imp] at hlast
    exact ⟨hlast.1, by omega⟩
  · rintro before after rfl hplace
    rw [Tokens.line_after, show Position.start.line = 1 from rfl] at hplace
    obtain rfl : before.count '\n' = n := by omega
    exact line_of_place before after

/-- The diagnostics of a text with some property. -/
def finds (text : String) (good : Diagnostic → Bool) : Bool := (Analysis.ofSource text "a").result.diagnostics.any good

/-- A stray name is shown on its line, the third one. -/
theorem stray_line_is_shown : ∃ d ∈ (Analysis.ofSource "//\n\nx y" "a").result.diagnostics,
    d.line = some ((2 : Nat) + 1) ∧ Uncut 2 "//\n\nx y".toList ∧
      (d.snippet (Text.lines "//\n\nx y".toList)).head? = some "    3 | x y" := by
  have hfinds : finds "//\n\nx y" fun d => d.line = some ((2 : Nat) + 1) ∧
      (d.snippet (Text.lines "//\n\nx y".toList)).head?.isSome := by decide +kernel
  obtain ⟨d, hd, hgood⟩ := List.any_eq_true.mp hfinds
  rw [decide_eq_true_iff] at hgood
  obtain ⟨shown, hshown⟩ := Option.isSome_iff_exists.mp hgood.2
  have huncut : Uncut 2 "//\n\nx y".toList := by
    have hall : (("//\n\nx y".toList.splitOn '\n').take 3).all (·.all (!Text.isLineBreak ·)) := by decide +kernel
    intro line hline c hc
    simpa using List.all_eq_true.mp (List.all_eq_true.mp hall line hline) c hc
  obtain ⟨line, hline, htext⟩ := (snippets_show_reported_line _ d 2 hgood.1 huncut).1 shown hshown
  have hthird : ("//\n\nx y".toList.splitOn '\n')[2]? = some "x y".toList := by decide +kernel
  rw [hthird] at hline
  cases hline
  exact ⟨d, hd, hgood.1, huncut, by rw [hshown, htext]; decide +kernel⟩

/-- A form feed in a comment is counted for a line where the source is cut, and not by the lexer. -/
theorem form_feed_hides_line : ∃ d ∈ (Analysis.ofSource "//\x0c\nx" "a").result.diagnostics, d.line = some 2 ∧
    ("//\x0c\nx".toList.splitOn '\n')[1]? = some ['x'] ∧
      (d.snippet (Text.lines "//\x0c\nx".toList)).head? = some "    2 | " := by
  have hfinds : finds "//\x0c\nx" fun d => d.line = some 2 ∧
      (d.snippet (Text.lines "//\x0c\nx".toList)).head? = some "    2 | " := by decide +kernel
  obtain ⟨d, hd, hgood⟩ := List.any_eq_true.mp hfinds
  rw [decide_eq_true_iff] at hgood
  exact ⟨d, hd, hgood.1, by decide +kernel, hgood.2⟩

end CMinusMinus.Proofs.Snippets
