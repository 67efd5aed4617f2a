import CMinusMinus.Machine
import CMinusMinus.Proofs.Code
import CMinusMinus.Proofs.Numerals
import CMinusMinus.Proofs.WellFormed

/-!
Assembly text is loaded as it was written. The text is cut into the lines that it was made of, each
line loses its comment and is taken apart into its label, its opcode and its operands, and the parts
of some code are loaded one after the other.
-/
namespace CMinusMinus.Proofs.Rendering

open Assembly Machine Text WellFormed

section Lines

/-- A line without line breaks, up to the line feed after it. -/
theorem lines_feed {line : List Char} (h : ∀ c ∈ line, isLineBreak c = false) (rest : List Char) :
    Text.lines (line ++ '\n' :: rest) = line :: Text.lines rest := by
  induction line with
  | nil => simp [Text.lines, isLineBreak]
  | cons c line ih =>
    have hc := h c (by simp)
    have hreturn : c ≠ '\r' := by
      rintro rfl
      exact absurd hc (by decide)
    rw [List.cons_append, Text.lines, ih fun x hx => h x (List.mem_cons_of_mem _ hx)]
    · simp [hc]
    · simp [hreturn]

theorem lines_flatMap {texts : List String} (h : ∀ w ∈ texts, ∀ c ∈ w.toList, isLineBreak c = false) :
    Text.lines (texts.flatMap (·.toList ++ ['\n'])) = texts.map String.toList := by
  induction texts with
  | nil => rfl
  | cons w texts ih =>
    rw [List.flatMap_cons, List.append_assoc, List.singleton_append, lines_feed (h w (by simp)),
      ih fun w' hw' => h w' (List.mem_cons_of_mem _ hw'), List.map_cons]

theorem toList_intercalate_feed {texts : List String} (h : texts ≠ []) :
    ("\n".intercalate texts ++ "\n").toList = texts.flatMap (·.toList ++ ['\n']) := by
  induction texts with
  | nil => exact absurd rfl h
  | cons w texts ih =>
    cases texts with
    | nil => simp
    | cons w' texts =>
      have hrest := ih (by simp)
      rw [String.toList_append] at hrest
      rw [String.intercalate_cons_cons, List.flatMap_cons, ← hrest]
      simp

/-- Assembly text is loaded line by line. -/
theorem load_render {comments : Bool} {ls : List Line}
    (h : ∀ w ∈ written comments ls, ∀ c ∈ w.toList, isLineBreak c = false) :
    load (render comments ls) =
      let l := Loading.lines {} 1 ((written comments ls).map String.toList)
      (l.image, l.error) := by
  by_cases hnil : written comments ls = []
  · rw [load, render, hnil]
    rfl
  · rw [load, render, toList_intercalate_feed hnil, lines_flatMap h]

/-- Lines are loaded after the lines before them. -/
theorem loading_append (xs ys : List (List Char)) : ∀ (l : Loading) (n : Nat),
    (l.lines n xs).error = none →
    l.lines n (xs ++ ys) = (l.lines n xs).lines (n + xs.length) ys := by
  induction xs with
  | nil => exact fun l n _ => rfl
  | cons x xs ih =>
    intro l n hnone
    simp only [Loading.lines, List.cons_append, List.length_cons] at hnone ⊢
    split
    · rename_i herror
      simp [herror] at hnone
      simp [hnone] at herror
    · rename_i herror
      rw [if_neg herror] at hnone
      rw [ih _ _ hnone]
      congr 1
      omega

end Lines

section Words

variable {cs pre body post : List Char}

/-- A text that starts and ends with a character that is no blank. -/
structure Bare (cs : List Char) : Prop where
  first : ∃ c rest, cs = c :: rest ∧ isBlank c = false
  last : ∃ c rest, cs.reverse = c :: rest ∧ isBlank c = false

theorem bare_of_forall (hne : cs ≠ []) (h : ∀ c ∈ cs, isBlank c = false) : Bare cs := by
  obtain ⟨c, rest, rfl⟩ := List.exists_cons_of_ne_nil hne
  obtain ⟨d, more, hmore⟩ : ∃ d more, (c :: rest).reverse = d :: more :=
    List.exists_cons_of_ne_nil (by simp)
  have hd : d ∈ (c :: rest).reverse := by rw [hmore]; exact List.mem_cons_self
  exact ⟨⟨c, rest, rfl, h c (by simp)⟩, ⟨d, more, hmore, h d (List.mem_reverse.mp hd)⟩⟩

/-- Blanks may stand between two texts without blanks around them. -/
theorem Bare.append {ds : List Char} (mid : List Char) (h : Bare cs) (h' : Bare ds) :
    Bare (cs ++ (mid ++ ds)) := by
  obtain ⟨⟨c, rest, rfl, hc⟩, -⟩ := h
  obtain ⟨-, d, more, hd, hblank⟩ := h'
  exact ⟨⟨c, _, rfl, hc⟩, ⟨d, more ++ (mid.reverse ++ (c :: rest).reverse), by simp [hd], hblank⟩⟩

theorem trimStart_append (hpre : ∀ c ∈ pre, isBlank c) (hbody : Bare body) (post : List Char) :
    trimStart (pre ++ (body ++ post)) = body ++ post := by
  obtain ⟨⟨c, rest, rfl, hc⟩, -⟩ := hbody
  rw [trimStart, List.dropWhile_append_of_pos hpre]
  simp [hc]

theorem trimEnd_append (hbody : Bare body) (hpost : ∀ c ∈ post, isBlank c) :
    trimEnd (body ++ post) = body := by
  obtain ⟨-, c, rest, hrest, hc⟩ := hbody
  have hbody : body = (c :: rest).reverse := by rw [← hrest, List.reverse_reverse]
  rw [trimEnd, List.reverse_append, List.dropWhile_append_of_pos (by simpa using hpost), hrest, hbody]
  simp [hc]

/-- Trimming takes the blanks around a text away. -/
theorem trim_append (hpre : ∀ c ∈ pre, isBlank c) (hbody : Bare body)
    (hpost : ∀ c ∈ post, isBlank c) : trim (pre ++ (body ++ post)) = body := by
  rw [trim, trimStart_append hpre hbody, trimEnd_append hbody hpost]

theorem trim_bare (hbody : Bare body) : trim body = body := by
  simpa using trim_append (by simp : ∀ c ∈ [], isBlank c) hbody (by simp : ∀ c ∈ [], isBlank c)

theorem trim_blank (h : ∀ c ∈ cs, isBlank c) : trim cs = [] := by
  have hstart : trimStart cs = [] := by
    rw [trimStart, ← List.append_nil cs, List.dropWhile_append_of_pos h]
    rfl
  rw [trim, hstart]
  rfl

/-- Outside of quotes, a text without quotes and hash signs is kept. -/
theorem stripComment_plain (h : ∀ c ∈ cs, c ≠ '"' ∧ c ≠ '#') (rest : List Char) :
    stripComment false false (cs ++ rest) = cs ++ stripComment false false rest := by
  induction cs with
  | nil => rfl
  | cons c cs ih =>
    obtain ⟨hquote, hhash⟩ := h c (by simp)
    simp [stripComment, hquote, hhash, ih fun x hx => h x (List.mem_cons_of_mem _ hx)]

/-- The inside of a literal is kept, and what follows it is still inside of the quotes. -/
theorem stripComment_literal {text : List Char} (h : Literal text) (rest : List Char) :
    stripComment true false (text ++ rest) = text ++ stripComment true false rest := by
  induction h with
  | nil => rfl
  | plain hquote hbackslash _ _ _ ih => simp [stripComment, hquote, hbackslash, ih]
  | escape _ _ ih => simp [stripComment, ih]

/-- Of a comment at the end of a line, at most blanks are left. -/
theorem stripComment_trailing (comments : Bool) (comment : String) :
    ∀ c ∈ stripComment false false (trailing comments comment).toList, isBlank c := by
  unfold trailing
  split
  · intro c hc
    simp [stripComment] at hc
    subst hc
    decide
  · simp [stripComment]

end Words

section Characters

def IsNamePart (c : Char) : Prop := Token.isWordPart c ∨ c = '.'

theorem IsNamePart.range {c : Char} (h : IsNamePart c) : 97 ≤ c.toNat ∧ c.toNat ≤ 122 ∨
    65 ≤ c.toNat ∧ c.toNat ≤ 90 ∨ 48 ≤ c.toNat ∧ c.toNat ≤ 57 ∨ c.toNat = 95 ∨ c.toNat = 46 := by
  rcases h with h | rfl
  · have hcases : c.isAlpha ∨ c.isDigit ∨ c = '_' := by
      simpa [Token.isWordPart, Char.isAlphanum, or_assoc] using h
    rcases hcases with h | h | rfl
    · have := Numerals.range_of_isAlpha h
      omega
    · have : 48 ≤ c.toNat ∧ c.toNat ≤ 57 := by
        simpa [Char.isDigit, UInt32.le_iff_toNat_le] using h
      omega
    · decide
  · decide

theorem IsNamePart.isBlank {c : Char} (h : IsNamePart c) : isBlank c = false := by
  have hrange := h.range
  simp only [Text.isBlank, Bool.or_eq_false_iff, Bool.and_eq_false_iff, decide_eq_false_iff_not,
    beq_eq_false_iff_ne]
  omega

/-- No character with a meaning of its own is part of a name. -/
theorem IsNamePart.ne {c d : Char} (h : IsNamePart c) (hd : d.toNat < 46 ∨ d.toNat = 58) : c ≠ d := by
  rintro rfl
  have hrange := h.range
  omega

theorem IsNamePart.isLabelPart {c : Char} (h : IsNamePart c) : isLabelPart c := by
  rcases h with h | rfl
  · have h : c.isAlphanum ∨ c = '_' := by simpa [Token.isWordPart] using h
    rcases h with h | rfl <;> simp [Machine.isLabelPart, isWordChar, *]
  · decide +kernel

end Characters

/-- An opcode or directive, and its operands after some space. -/
structure Row (word sep args : List Char) : Prop where
  named : ∀ c ∈ word, IsNamePart c
  nonempty : word ≠ []
  spaced : ∀ c ∈ sep, c = ' ' ∨ c = '\t'
  rest : sep = [] ∧ args = [] ∨ sep ≠ [] ∧ Bare args

namespace Row

variable {word sep args : List Char}

theorem blank (h : Row word sep args) : ∀ c ∈ sep, isBlank c := by
  intro c hc
  rcases h.spaced c hc with rfl | rfl <;> decide

theorem bare (h : Row word sep args) : Bare (word ++ (sep ++ args)) := by
  have hword := bare_of_forall h.nonempty fun c hc => (h.named c hc).isBlank
  rcases h.rest with ⟨rfl, rfl⟩ | ⟨-, hargs⟩
  · simpa using hword
  · exact hword.append sep hargs

/-- The first word is the one before the space. -/
theorem splitWord_eq (h : Row word sep args) :
    splitWord (word ++ (sep ++ args)) = (String.ofList word, args) := by
  have hword : ∀ c ∈ word, (!isBlank c) = true := fun c hc => by simp [(h.named c hc).isBlank]
  rw [splitWord, List.takeWhile_append_of_pos hword, List.dropWhile_append_of_pos hword]
  rcases h.rest with ⟨rfl, rfl⟩ | ⟨hne, hargs⟩
  · simp [trimStart]
  · obtain ⟨b, more, rfl⟩ := List.exists_cons_of_ne_nil hne
    have hb := h.blank b (by simp)
    have htrim := trimStart_append h.blank hargs []
    simp only [List.append_nil, List.cons_append] at htrim
    simp [hb, htrim]

/-- A name without a colon after it is no label. -/
theorem splitLabel?_eq (h : Row word sep args) : splitLabel? (word ++ (sep ++ args)) = none := by
  obtain ⟨c, cs, rfl⟩ := List.exists_cons_of_ne_nil h.nonempty
  have hdrop : (cs ++ (sep ++ args)).dropWhile isLabelPart = sep ++ args := by
    rw [List.dropWhile_append_of_pos fun x hx => (h.named x (List.mem_cons_of_mem _ hx)).isLabelPart]
    rcases h.rest with ⟨rfl, rfl⟩ | ⟨hne, -⟩
    · rfl
    · obtain ⟨b, more, rfl⟩ := List.exists_cons_of_ne_nil hne
      have hb : isLabelPart b = false := by
        rcases h.spaced b (by simp) with rfl | rfl <;> decide +kernel
      simp [hb]
  have hcolon : ∀ after, sep ++ args ≠ ':' :: after := by
    intro after heq
    rcases h.rest with ⟨rfl, rfl⟩ | ⟨hne, -⟩
    · simp at heq
    · obtain ⟨b, more, rfl⟩ := List.exists_cons_of_ne_nil hne
      obtain rfl : b = ':' := (List.cons.inj heq).1
      rcases h.spaced ':' (by simp) with hb | hb <;> exact absurd hb (by decide)
  rw [List.cons_append, splitLabel?, hdrop]
  split
  · split
    · exact absurd ‹_› (hcolon _)
    · rfl
  · rfl

end Row

section Parts

variable {word sep args tail : List Char} {name : String} {l : Loading} {n : Nat}

/-- A line without a label is loaded for what it holds. -/
theorem line_row (h : Row word sep args) (hargs : ∀ c ∈ args, c ≠ '"' ∧ c ≠ '#')
    (htail : ∀ c ∈ stripComment false false tail, isBlank c) :
    l.line n ('\t' :: (word ++ (sep ++ args)) ++ tail) = l.content n (word ++ (sep ++ args)) := by
  have hplain : ∀ c ∈ '\t' :: (word ++ (sep ++ args)), c ≠ '"' ∧ c ≠ '#' := by
    intro c hc
    simp only [List.mem_cons, List.mem_append] at hc
    rcases hc with rfl | hc | hc | hc
    · decide
    · exact ⟨(h.named c hc).ne (by decide), (h.named c hc).ne (by decide)⟩
    · rcases h.spaced c hc with rfl | rfl <;> decide
    · exact hargs c hc
  have htrim : trim (stripComment false false ('\t' :: (word ++ (sep ++ args)) ++ tail)) =
      word ++ (sep ++ args) := by
    rw [stripComment_plain hplain]
    exact trim_append (by simp [isBlank] : ∀ c ∈ ['\t'], isBlank c) h.bare htail
  have hne : (word ++ (sep ++ args)).isEmpty = false := by simp [h.nonempty]
  rw [Loading.line, htrim, hne, h.splitLabel?_eq]
  rfl

def IsLabel (name : String) : Prop :=
  ∃ c cs, name.toList = c :: cs ∧ isLabelStart c ∧ ∀ x ∈ c :: cs, IsNamePart x

theorem IsLabel.part (h : IsLabel name) : ∀ c ∈ name.toList, IsNamePart c := by
  obtain ⟨c, cs, hname, -, hparts⟩ := h
  rwa [hname]

theorem IsLabel.plain (h : IsLabel name) : ∀ c ∈ name.toList, c ≠ '"' ∧ c ≠ '#' := fun c hc =>
  ⟨(h.part c hc).ne (by decide), (h.part c hc).ne (by decide)⟩

theorem IsLabel.bare (h : IsLabel name) : Bare name.toList := by
  refine bare_of_forall ?_ fun c hc => (h.part c hc).isBlank
  obtain ⟨c, cs, hname, -⟩ := h
  simp [hname]

/-- A label is taken off the line that it starts. -/
theorem splitLabel?_label (h : IsLabel name) (after : List Char) :
    splitLabel? (name.toList ++ ':' :: after) = some (name, trim after) := by
  obtain ⟨c, cs, hname, hstart, hparts⟩ := h
  have hcs : ∀ x ∈ cs, isLabelPart x := fun x hx =>
    (hparts x (List.mem_cons_of_mem _ hx)).isLabelPart
  have hcolon : isLabelPart ':' = false := by decide +kernel
  have htake : (cs ++ ':' :: after).takeWhile isLabelPart = cs := by
    rw [List.takeWhile_append_of_pos hcs]
    simp [hcolon]
  have hdrop : (cs ++ ':' :: after).dropWhile isLabelPart = ':' :: after := by
    rw [List.dropWhile_append_of_pos hcs]
    simp [hcolon]
  rw [hname, List.cons_append, splitLabel?, if_pos hstart, hdrop, htake, ← hname,
    String.ofList_toList]
  rfl

/-- A line that is a label. -/
theorem line_label (h : IsLabel name) (htail : ∀ c ∈ stripComment false false tail, isBlank c) :
    l.line n (name.toList ++ [':'] ++ tail) = l.label name := by
  have hplain : ∀ c ∈ name.toList ++ [':'], c ≠ '"' ∧ c ≠ '#' := by
    intro c hc
    rcases List.mem_append.mp hc with hc | hc
    · exact h.plain c hc
    · obtain rfl := List.mem_singleton.mp hc
      decide
  have hbare : Bare (name.toList ++ [':']) := by
    simpa using h.bare.append [] (bare_of_forall (by simp) (by simp [isBlank]) : Bare [':'])
  have htrim : trim (stripComment false false (name.toList ++ [':'] ++ tail)) =
      name.toList ++ [':'] := by
    rw [stripComment_plain hplain]
    exact trim_append (by simp : ∀ c ∈ [], isBlank c) hbare htail
  rw [Loading.line, htrim, splitLabel?_label h]
  simp [trim_blank]

/-- A line with a label and data. -/
theorem line_data (h : IsLabel name) (hrow : Row word [' '] args)
    (hargs : stripComment false false args = args) :
    l.line n (name.toList ++ ':' :: '\t' :: (word ++ ([' '] ++ args))) =
      (l.label name).content n (word ++ ([' '] ++ args)) := by
  have hplain : ∀ c ∈ name.toList ++ ':' :: '\t' :: (word ++ [' ']), c ≠ '"' ∧ c ≠ '#' := by
    intro c hc
    simp only [List.mem_cons, List.mem_append, List.not_mem_nil, or_false] at hc
    rcases hc with hc | rfl | rfl | hc | rfl
    · exact h.plain c hc
    · decide
    · decide
    · exact ⟨(hrow.named c hc).ne (by decide), (hrow.named c hc).ne (by decide)⟩
    · decide
  have hstrip : stripComment false false (name.toList ++ ':' :: '\t' :: (word ++ ([' '] ++ args))) =
      name.toList ++ ([':', '\t'] ++ (word ++ ([' '] ++ args))) := by
    have := stripComment_plain hplain args
    rw [hargs] at this
    simpa using this
  have hbare := h.bare.append [':', '\t'] hrow.bare
  have hafter : trim ('\t' :: (word ++ ([' '] ++ args))) = word ++ ([' '] ++ args) := by
    simpa using trim_append (by simp [isBlank] : ∀ c ∈ ['\t'], isBlank c) hrow.bare
      (by simp : ∀ c ∈ [], isBlank c)
  have hne : (word ++ ([' '] ++ args)).isEmpty = false := by simp
  have hne' : (name.toList ++ ([':', '\t'] ++ (word ++ ([' '] ++ args)))).isEmpty = false := by simp
  rw [Loading.line, hstrip, trim_bare hbare, hne']
  simp only [List.cons_append, List.nil_append] at hafter hne ⊢
  simp [splitLabel?_label h, hafter]

/-- A directive about data is carried out. -/
theorem content_directive (h : Row word sep args) (hdot : word.head? = some '.')
    (hother : String.ofList word ∉ [".text", ".data", ".globl"]) :
    l.content n (word ++ (sep ++ args)) = match l.image.directive (String.ofList word) args with
      | .ok image => { l with image }
      | .error e => { l with error := some e } := by
  simp only [List.mem_cons, List.not_mem_nil, or_false, not_or] at hother
  rw [Loading.content, h.splitWord_eq]
  cases hdirective : l.image.directive (String.ofList word) args <;> simp [hother, hdot, hdirective]

/-- Operands are divided by commas and space. -/
theorem intercalate_comma (o : List Char) (os : List (List Char)) :
    [',', ' '].intercalate (o :: os) = [','].intercalate (o :: os.map (' ' :: ·)) := by
  induction os generalizing o with
  | nil => rfl
  | cons p ps ih =>
    have hshift : ∀ qs : List (List Char), [','].intercalate ((' ' :: p) :: qs) =
        ' ' :: [','].intercalate (p :: qs) := by
      intro qs
      cases qs <;> simp [List.intercalate_cons_cons]
    rw [List.intercalate_cons_cons, ih, List.map_cons, List.intercalate_cons_cons, hshift]
    simp

def IsOperand (o : String) : Prop :=
  o.toList ≠ [] ∧ ∀ c ∈ o.toList, isBlank c = false ∧ c ≠ ',' ∧ c ≠ '"' ∧ c ≠ '#'

theorem IsOperand.bare {o : String} (h : IsOperand o) : Bare o.toList :=
  bare_of_forall h.1 fun c hc => (h.2 c hc).1

/-- Written operands are read one by one. -/
theorem operands_split {ops : List String} (hne : ops ≠ []) (h : ∀ o ∈ ops, IsOperand o) :
    (((", ".intercalate ops).toList.splitOn ',').map fun cs => String.ofList (trim cs)) = ops := by
  obtain ⟨o, os, rfl⟩ := List.exists_cons_of_ne_nil hne
  have hsplit : (", ".intercalate (o :: os)).toList.splitOn ',' =
      o.toList :: (os.map String.toList).map (' ' :: ·) := by
    rw [String.toList_intercalate, List.map_cons]
    show ([',', ' '].intercalate _).splitOn ',' = _
    rw [intercalate_comma]
    refine List.splitOn_intercalate ',' ?_ (by simp)
    intro x hx
    simp only [List.mem_cons, List.map_map, List.mem_map, Function.comp_apply] at hx
    rcases hx with rfl | ⟨p, hp, rfl⟩
    · exact fun hmem => ((h o (by simp)).2 ',' hmem).2.1 rfl
    · intro hmem
      have hmem : ',' ∈ p.toList := by simpa using hmem
      exact ((h p (List.mem_cons_of_mem _ hp)).2 ',' hmem).2.1 rfl
  have htrim : ∀ p ∈ os, String.ofList (trim (' ' :: p.toList)) = p := by
    intro p hp
    have hbare := (h p (List.mem_cons_of_mem _ hp)).bare
    have := trim_append (by simp [isBlank] : ∀ c ∈ [' '], isBlank c) hbare (by simp : ∀ c ∈ [], isBlank c)
    rw [List.append_nil] at this
    rw [show ' ' :: p.toList = [' '] ++ p.toList from rfl, this, String.ofList_toList]
  rw [hsplit, List.map_cons, trim_bare (h o (by simp)).bare, String.ofList_toList, List.map_map,
    List.map_map]
  congr 1
  exact (List.map_congr_left (g := id) htrim).trans (List.map_id os)

theorem bare_operands {ops : List String} (hne : ops ≠ []) (h : ∀ o ∈ ops, IsOperand o) :
    Bare (", ".intercalate ops).toList ∧
      ∀ c ∈ (", ".intercalate ops).toList, c = ' ' ∨ isBlank c = false ∧ c ≠ '"' ∧ c ≠ '#' := by
  induction ops with
  | nil => exact absurd rfl hne
  | cons o os ih =>
    have ho := h o (by simp)
    cases os with
    | nil =>
      refine ⟨by simpa using ho.bare, fun c hc => ?_⟩
      obtain ⟨hblank, -, hplain⟩ := ho.2 c (by simpa using hc)
      exact .inr ⟨hblank, hplain⟩
    | cons p ps =>
      obtain ⟨hbare, hchars⟩ := ih (by simp) fun q hq => h q (List.mem_cons_of_mem _ hq)
      have htext : (", ".intercalate (o :: p :: ps)).toList =
          o.toList ++ ([',', ' '] ++ (", ".intercalate (p :: ps)).toList) := by
        rw [String.intercalate_cons_cons, String.toList_append, String.toList_append,
          List.append_assoc]
        rfl
      rw [htext]
      refine ⟨ho.bare.append _ hbare, fun c hc => ?_⟩
      simp only [List.mem_append, List.mem_cons, List.not_mem_nil, or_false] at hc
      rcases hc with hc | (rfl | rfl) | hc
      · obtain ⟨hblank, -, hplain⟩ := ho.2 c hc
        exact .inr ⟨hblank, hplain⟩
      · exact .inr (by decide)
      · exact .inl rfl
      · exact hchars c hc

end Parts

end CMinusMinus.Proofs.Rendering

namespace CMinusMinus.Machine

open Assembly

namespace Image

def addText (image : Image) (name : String) (text : List Char) : Image :=
  { image with
    dataLabels := image.dataLabels.insert name image.dataNext
    texts := image.texts.insert image.dataNext (String.ofList (unescape text))
    dataNext := image.dataNext + ((unescape text).length + 4 : Nat) / 4 * 4 }

def aligned (image : Image) : Int := (image.dataNext + 4 - 1) / 4 * 4

/-- The image with room for a variable and its label at the end of its data. -/
def addGlobal (image : Image) (name : String) (words : Option Int) : Image :=
  let image := { image with
    dataNext := image.aligned
    dataLabels := image.dataLabels.insert name image.aligned }
  match words with
  | none => { image with dataNext := image.dataNext + 4 }
  | some n => if n ≤ 0 then image else image.words 0 n.toNat

end Image

end CMinusMinus.Machine

namespace CMinusMinus.Proofs.Rendering

open Assembly Machine Text WellFormed
open Code (Item linesOf)

/-- What loading a part of the code does, where it starts at a line. -/
def itemLoaded (n : Nat) (l : Loading) : Item → Loading
  | .op i _ => { l with image.text := l.image.text.push ⟨i.opcode, i.operands, n⟩ }
  | .label name _ => l.label name
  | .literal name text => { l with image := l.image.addText name text.toList, inData := false }
  | .global name words => { l with image := l.image.addGlobal name words, inData := true }
  | .start _ => { l with inData := false }
  | .note .. => l

def Unbroken (text : String) : Prop := ∀ c ∈ text.toList, isLineBreak c = false

def ItemOk : Item → Prop
  | .op i comment => (∀ o ∈ i.operands, IsOperand o) ∧ Unbroken comment
  | .label name comment => IsLabel name ∧ Unbroken comment
  | .literal name text => IsLabel name ∧ Literal text.toList ∧ Unbroken text
  | .global name words => IsLabel name ∧ ∀ n ∈ words, isWritable n
  | .start _ => True
  | .note name _ => Unbroken name

section Items

variable {l : Loading} {n : Nat} {comments : Bool}

theorem opcode_letters (i : Instr) : i.opcode.toList ≠ [] ∧ ∀ c ∈ i.opcode.toList, c.isAlpha := by
  cases i with
  | compute op => cases op <;> simp [Instr.opcode, Calc.opcode]
  | _ => simp [Instr.opcode]

theorem opcode_named (i : Instr) : ∀ c ∈ i.opcode.toList, IsNamePart c := fun c hc =>
  .inl (by simp [Token.isWordPart, Char.isAlphanum, (opcode_letters i).2 c hc])

theorem toList_gap (opcode : String) :
    (gap opcode).toList = List.replicate (max 1 (6 - opcode.length)) ' ' := by
  rw [gap, String.pushn_eq_repeat_push]
  induction max 1 (6 - opcode.length) with
  | zero => rfl
  | succ n ih => simp [Nat.repeat, ih, List.replicate_succ']

/-- An instruction is added to the text. -/
theorem content_instr {i : Instr} {sep : List Char} (h : ∀ o ∈ i.operands, IsOperand o)
    (hrow : Row i.opcode.toList sep (", ".intercalate i.operands).toList) :
    l.content n (i.opcode.toList ++ (sep ++ (", ".intercalate i.operands).toList)) =
      { l with image.text := l.image.text.push ⟨i.opcode, i.operands, n⟩ } := by
  obtain ⟨c, cs, hcs⟩ := List.exists_cons_of_ne_nil (opcode_letters i).1
  have hc : c.isAlpha := (opcode_letters i).2 c (by simp [hcs])
  have hhead : i.opcode.toList.head? ≠ some '.' := by
    rw [hcs, List.head?_cons]
    rintro ⟨rfl⟩
    exact absurd hc (by decide)
  have hnot : ∀ text : String, text.toList.head? = some '.' → i.opcode ≠ text := by
    rintro text htext rfl
    exact hhead htext
  have hops : (if (", ".intercalate i.operands).toList.isEmpty then []
      else ((", ".intercalate i.operands).toList.splitOn ',').map fun cs => String.ofList (trim cs)) =
        i.operands := by
    by_cases hnil : i.operands = []
    · simp [hnil]
    · obtain ⟨⟨⟨c, rest, hcons, -⟩, -⟩, -⟩ := bare_operands hnil h
      rw [if_neg (by simp [hcons]), operands_split hnil h]
  simp only [Loading.content, hrow.splitWord_eq, String.ofList_toList, hops,
    hnot ".text" (by decide), hnot ".data" (by decide), hnot ".globl" (by decide), hhead, if_false]

/-- An instruction is loaded as it was written. -/
theorem lines_op {i : Instr} {comment : String} (h : ItemOk (.op i comment)) :
    l.lines n ((written comments (Item.op i comment).lines).map String.toList) =
      itemLoaded n l (.op i comment) := by
  have htail := stripComment_trailing comments comment
  -- with its operands or without any, the line is one row
  obtain ⟨sep, hrow, htext⟩ : ∃ sep, Row i.opcode.toList sep (", ".intercalate i.operands).toList ∧
      (Line.instr i.opcode i.operands comment).text? comments = some (String.ofList
        ('\t' :: (i.opcode.toList ++ (sep ++ (", ".intercalate i.operands).toList)) ++
          (trailing comments comment).toList)) := by
    by_cases hnil : i.operands = []
    · refine ⟨[], ⟨opcode_named i, (opcode_letters i).1, by simp, .inl (by simp [hnil])⟩, ?_⟩
      simp [Line.text?, hnil, ← String.toList_inj]
    · obtain ⟨hbare, -⟩ := bare_operands hnil h.1
      have hne : (", ".intercalate i.operands) ≠ "" := by
        obtain ⟨⟨c, rest, hcons, -⟩, -⟩ := hbare
        intro hempty
        simp [hempty] at hcons
      refine ⟨(gap i.opcode).toList, ⟨opcode_named i, (opcode_letters i).1, ?_, .inr ⟨?_, hbare⟩⟩, ?_⟩
      · intro c hc
        rw [toList_gap] at hc
        exact .inl (List.eq_of_mem_replicate hc)
      · rw [toList_gap]
        simp
      · simp [Line.text?, hne, ← String.toList_inj]
  have hargs : ∀ c ∈ (", ".intercalate i.operands).toList, c ≠ '"' ∧ c ≠ '#' := by
    by_cases hnil : i.operands = []
    · simp [hnil]
    · intro c hc
      rcases (bare_operands hnil h.1).2 c hc with rfl | ⟨-, hplain⟩
      · decide
      · exact hplain
  have hline := line_row (l := l) (n := n) hrow hargs htail
  rw [content_instr h.1 hrow] at hline
  simp only [Item.lines, written, List.filterMap_cons, htext, List.filterMap_nil, List.map_cons,
    List.map_nil, String.toList_ofList, Loading.lines, hline, itemLoaded, ite_self]

theorem lines_cons {l' : Loading} {x : List Char} (h : l.line n x = l') (hnone : l'.error = none)
    (xs : List (List Char)) : l.lines n (x :: xs) = l'.lines (n + 1) xs := by
  simp [Loading.lines, h, hnone]

theorem line_dataSection : l.line n "\t.data".toList = { l with inData := true } := rfl

theorem line_textSection : l.line n "\t.text".toList = { l with inData := false } := rfl

/-- Data with a label are added to the data section. -/
theorem line_datum {name : String} {word args : List Char} (image : Image) {image' : Image}
    (error : Option Error) (hname : IsLabel name) (hrow : Row word [' '] args)
    (hdot : word.head? = some '.') (hother : String.ofList word ∉ [".text", ".data", ".globl"])
    (hstrip : stripComment false false args = args)
    (hdirective : Image.directive
      { image with dataLabels := image.dataLabels.insert name image.dataNext } (String.ofList word) args =
        .ok image') :
    Loading.line ⟨image, true, error⟩ n (name.toList ++ ':' :: '\t' :: (word ++ ([' '] ++ args))) =
      ⟨image', true, error⟩ := by
  rw [line_data hname hrow hstrip, content_directive hrow hdot hother]
  simp only [Loading.label, if_true, hdirective]

theorem bare_quoted (text : List Char) : Bare ('"' :: (text ++ ['"'])) :=
  ⟨⟨_, _, rfl, by decide⟩, ⟨'"', text.reverse ++ ['"'], by simp, by decide⟩⟩

/-- A literal becomes a text of the data. -/
theorem directive_asciiz {text : List Char} (image : Image) :
    image.directive ".asciiz" ('"' :: (text ++ ['"'])) = .ok { image with
      texts := image.texts.insert image.dataNext (String.ofList (unescape text))
      dataNext := image.dataNext + ((unescape text).length + 4 : Nat) / 4 * 4 } := by
  have hlast : ('"' :: (text ++ ['"'])).getLast? = some '"' := by
    rw [← List.cons_append, List.getLast?_concat]
  have hliteral : textLiteral ('"' :: (text ++ ['"'])) = .ok (unescape text) := by
    rw [textLiteral, trim_bare (bare_quoted text), hlast]
    simp
  simp only [Image.directive, hliteral]
  rfl

/-- The text of a literal is loaded. -/
theorem lines_literal {name text : String} {inData : Bool} {image : Image}
    (h : ItemOk (.literal name text)) :
    Loading.lines ⟨image, inData, none⟩ n
      ((written comments (Item.literal name text).lines).map String.toList) =
      ⟨image.addText name text.toList, false, none⟩ := by
  obtain ⟨hname, htext, -⟩ := h
  have hrow : Row ".asciiz".toList [' '] ('"' :: (text.toList ++ ['"'])) :=
    ⟨by simp [IsNamePart, Token.isWordPart], by decide, by simp, .inr ⟨by simp, bare_quoted _⟩⟩
  have hstrip : stripComment false false ('"' :: (text.toList ++ ['"'])) =
      '"' :: (text.toList ++ ['"']) := by
    simpa [stripComment] using stripComment_literal htext ['"']
  have hwritten : (written comments (Item.literal name text).lines).map String.toList =
      ["\t.data".toList, name.toList ++ ':' :: '\t' :: (".asciiz".toList ++ ([' '] ++
        '"' :: (text.toList ++ ['"']))), "\t.text".toList] := by
    have hvalue : ("\"" ++ text ++ "\"") ≠ "" := by simp [← String.toList_inj]
    simp [written, Item.lines, Line.text?, trailing, hvalue]
  have hline := line_datum (n := n + 1) image none hname hrow rfl (by decide)
    hstrip (directive_asciiz _)
  rw [hwritten, lines_cons line_dataSection rfl, lines_cons hline rfl, lines_cons line_textSection rfl]
  rfl

/-- Words of zero are added to the data. -/
theorem directive_word {digits : List Char} {words : Int} {image : Image} (hne : digits ≠ [])
    (hwords : number digits = .ok words) : image.directive ".word" ('0' :: ':' :: digits) =
      .ok (if words ≤ 0 then image else image.words 0 words.toNat) := by
  have hzero : number ['0'] = .ok 0 :=
    Numerals.number_toString (n := 0) (Numerals.isWritable_of_lt (by decide))
  have hempty : digits.isEmpty = false := by simpa using hne
  have hcount : (('0' :: ':' :: digits).dropWhile (· ≠ ':')).drop 1 = digits := by simp
  have hvalue : ('0' :: ':' :: digits).takeWhile (· ≠ ':') = ['0'] := by simp
  simp only [Image.directive, hcount, hvalue, hempty, hwords, hzero]
  by_cases hpos : words ≤ 0
  · simp [hpos, bind, Except.bind]
    rfl
  · simp [hpos, bind, Except.bind]
    rfl

theorem number_two : number ['2'] = .ok 2 :=
  Numerals.number_toString (n := 2) (Numerals.isWritable_of_lt (by decide))

theorem directive_align (image : Image) :
    image.directive ".align" ['2'] = .ok { image with dataNext := image.aligned } := by
  simp only [Image.directive, number_two]
  rfl

theorem line_align : l.line n "\t.align\t2".toList = { l with image.dataNext := l.image.aligned } := by
  have hrow : Row ".align".toList ['\t'] ['2'] :=
    ⟨by simp [IsNamePart, Token.isWordPart], by decide, by simp,
      .inr ⟨by simp, bare_of_forall (by simp) (by simp [isBlank])⟩⟩
  have hline := line_row (l := l) (n := n) hrow (by simp)
    (by simp [stripComment] : ∀ c ∈ stripComment false false [], isBlank c)
  rw [content_directive hrow rfl (by decide), String.ofList_toList, directive_align] at hline
  exact hline

/-- The room of a global variable is laid out. -/
theorem lines_global {name : String} {words : Option Int} {inData : Bool} {image : Image}
    (h : ItemOk (.global name words)) :
    Loading.lines ⟨image, inData, none⟩ n
      ((written comments (Item.global name words).lines).map String.toList) =
      ⟨image.addGlobal name words, true, none⟩ := by
  obtain ⟨hname, hwords⟩ := h
  have hline : ∀ {word args : List Char} {image' : Image}, Row word [' '] args →
      word.head? = some '.' → String.ofList word ∉ [".text", ".data", ".globl"] →
      stripComment false false args = args →
      Image.directive { image with
          dataNext := image.aligned
          dataLabels := image.dataLabels.insert name image.aligned } (String.ofList word) args =
        .ok image' →
      Loading.lines ⟨image, inData, none⟩ n ["\t.data".toList, "\t.align\t2".toList,
        name.toList ++ ':' :: '\t' :: (word ++ ([' '] ++ args))] = ⟨image', true, none⟩ := by
    intro word args image' hrow hdot hother hstrip hdirective
    have hdatum := line_datum (n := n + 1 + 1) { image with dataNext := image.aligned } none
      hname hrow hdot hother hstrip hdirective
    rw [lines_cons line_dataSection rfl, lines_cons line_align rfl, lines_cons hdatum rfl]
    rfl
  cases words with
  | none =>
    have hrow : Row ".space".toList [' '] ['4'] :=
      ⟨by simp [IsNamePart, Token.isWordPart], by decide, by simp,
        .inr ⟨by simp, bare_of_forall (by simp) (by simp [isBlank])⟩⟩
    have hnumber : number ['4'] = .ok 4 :=
      Numerals.number_toString (n := 4) (Numerals.isWritable_of_lt (by decide))
    have hwritten : (written comments (Item.global name none).lines).map String.toList =
        ["\t.data".toList, "\t.align\t2".toList,
          name.toList ++ ':' :: '\t' :: (".space".toList ++ ([' '] ++ ['4']))] := by
      have hvalue : toString wordSize = "4" := by decide
      simp [written, Item.lines, Line.text?, trailing, hvalue]
    rw [hwritten, hline hrow rfl (by decide) rfl]
    simp only [Image.directive, String.ofList_toList, hnumber]
    rfl
  | some words =>
    have hdigits : ∀ c ∈ (toString words).toList, isBlank c = false ∧ c ≠ '"' ∧ c ≠ '#' := by
      intro c hc
      rcases Numerals.isDigit_of_mem_toString hc with rfl | hdigit
      · decide
      · refine ⟨Numerals.isBlank_of_isDigit hdigit, ?_, ?_⟩ <;> rintro rfl <;>
          exact absurd hdigit (by decide)
    have hrow : Row ".word".toList [' '] ('0' :: ':' :: (toString words).toList) := by
      refine ⟨by simp [IsNamePart, Token.isWordPart], by decide, by simp,
        .inr ⟨by simp, bare_of_forall (by simp) ?_⟩⟩
      simp only [List.mem_cons, forall_eq_or_imp]
      exact ⟨by decide, by decide, fun c hc => (hdigits c hc).1⟩
    have hstrip : stripComment false false ('0' :: ':' :: (toString words).toList) =
        '0' :: ':' :: (toString words).toList := by
      have hplain : ∀ c ∈ '0' :: ':' :: (toString words).toList, c ≠ '"' ∧ c ≠ '#' := by
        simp only [List.mem_cons, forall_eq_or_imp]
        exact ⟨by decide, by decide, fun c hc => (hdigits c hc).2⟩
      simpa [stripComment] using stripComment_plain hplain []
    have hwritten : (written comments (Item.global name (some words)).lines).map String.toList =
        ["\t.data".toList, "\t.align\t2".toList, name.toList ++ ':' :: '\t' ::
          (".word".toList ++ ([' '] ++ '0' :: ':' :: (toString words).toList))] := by
      simp [written, Item.lines, Line.text?, trailing]
    rw [hwritten, hline hrow rfl (by decide) hstrip (directive_word (Numerals.toString_ne_nil words)
      (Numerals.number_toString (hwords words rfl)))]
    rfl

theorem line_globl : l.line n "\t.globl\tmain".toList = l := by
  have hrow : Row ".globl".toList ['\t'] "main".toList :=
    ⟨by simp [IsNamePart, Token.isWordPart], by decide, by simp,
      .inr ⟨by simp, bare_of_forall (by decide) (by simp [isBlank])⟩⟩
  have hline := line_row (l := l) (n := n) hrow (by simp)
    (by simp [stripComment] : ∀ c ∈ stripComment false false [], isBlank c)
  rw [Loading.content, hrow.splitWord_eq, String.ofList_toList] at hline
  exact hline

/-- A line that is all comment does nothing. -/
theorem line_remark (text : String) : l.line n ("\t\t# " ++ text).toList = l := by
  have hstrip : stripComment false false ("\t\t# " ++ text).toList = ['\t', '\t'] := by
    simp [stripComment]
  rw [Loading.line, hstrip]
  rfl

/-- A part of the code is loaded as it was written. -/
theorem lines_item (comments : Bool) {i : Item} (h : ItemOk i) (hnone : l.error = none) :
    l.lines n ((written comments i.lines).map String.toList) = itemLoaded n l i ∧
      (itemLoaded n l i).error = none := by
  obtain ⟨image, inData, error⟩ := l
  obtain rfl : error = none := hnone
  cases i with
  | op i comment => exact ⟨lines_op h, rfl⟩
  | label name comment =>
    have hline := line_label (l := ⟨image, inData, none⟩) (n := n) h.1
      (stripComment_trailing comments comment)
    have hnone : (Loading.label ⟨image, inData, none⟩ name).error = none := by
      unfold Loading.label; split <;> rfl
    refine ⟨?_, hnone⟩
    have hwritten : (written comments (Item.label name comment).lines).map String.toList =
        [name.toList ++ [':'] ++ (trailing comments comment).toList] := by
      simp [written, Item.lines, Line.text?]
    rw [hwritten, lines_cons hline hnone]
    rfl
  | literal name text => exact ⟨lines_literal h, rfl⟩
  | global name words => exact ⟨lines_global h, rfl⟩
  | start isMain =>
    refine ⟨?_, rfl⟩
    cases isMain with
    | false => exact (lines_cons rfl rfl _).trans (lines_cons line_textSection rfl _)
    | true =>
      have hwritten : (written comments (Item.start true).lines).map String.toList =
          ["".toList, "\t.text".toList, "\t.globl\tmain".toList] := by
        simp [written, Item.lines, Line.text?]
      rw [hwritten, lines_cons rfl rfl, lines_cons line_textSection rfl, lines_cons line_globl rfl]
      rfl
  | note name size =>
    refine ⟨?_, rfl⟩
    cases comments with
    | false => rfl
    | true =>
      exact lines_cons (line_remark _) rfl []

/-- Loading the parts of some code one after the other, from a line on. -/
def itemsLoaded (comments : Bool) (n : Nat) (l : Loading) : List Item → Loading
  | [] => l
  | i :: is => itemsLoaded comments (n + (written comments i.lines).length) (itemLoaded n l i) is

theorem lines_items (comments : Bool) {items : List Item} (h : ∀ i ∈ items, ItemOk i) : ∀ {l : Loading} {n : Nat},
    l.error = none →
    l.lines n ((written comments (linesOf items)).map String.toList) = itemsLoaded comments n l items ∧
      (itemsLoaded comments n l items).error = none := by
  induction items with
  | nil => exact fun hnone => ⟨rfl, hnone⟩
  | cons i is ih =>
    intro l n hnone
    obtain ⟨hitem, herror⟩ := lines_item (n := n) comments (h i (by simp)) hnone
    obtain ⟨hrest, hdone⟩ := ih (fun j hj => h j (List.mem_cons_of_mem _ hj)) herror
      (n := n + (written comments i.lines).length)
    refine ⟨?_, hdone⟩
    have hwritten : written comments (linesOf (i :: is)) =
        written comments i.lines ++ written comments (linesOf is) := by
      simp [written, linesOf]
    rw [hwritten, List.map_append, loading_append _ _ _ _ (by rw [hitem]; exact herror), hitem,
      List.length_map, hrest]
    rfl

end Items

section Unbroken

theorem isLineBreak_of_isBlank {c : Char} (h : isBlank c = false) : isLineBreak c = false := by
  simp only [isBlank, isLineBreak, Bool.or_eq_false_iff, Bool.and_eq_false_iff,
    decide_eq_false_iff_not, beq_eq_false_iff_ne] at h ⊢
  omega

theorem unbroken_append {s t : String} : Unbroken (s ++ t) ↔ Unbroken s ∧ Unbroken t := by
  simp [Unbroken, or_imp, forall_and]

theorem IsLabel.unbroken {name : String} (h : IsLabel name) : Unbroken name := fun c hc =>
  isLineBreak_of_isBlank (h.part c hc).isBlank

theorem unbroken_toString (n : Int) : Unbroken (toString n) :=
  Numerals.forall_mem_toString (by decide)
    (fun _ hc => isLineBreak_of_isBlank (Numerals.isBlank_of_isDigit hc)) n

theorem unbroken_trailing {comment : String} (comments : Bool) (h : Unbroken comment) :
    Unbroken (trailing comments comment) := by
  unfold trailing
  split
  · exact unbroken_append.mpr ⟨by simp [Unbroken, isLineBreak], h⟩
  · simp [Unbroken]

/-- Nothing that stands on a line has a line break in it. -/
def LineOk : Line → Prop
  | .instr opcode operands comment => Unbroken opcode ∧ Unbroken (", ".intercalate operands) ∧ Unbroken comment
  | .data name opcode value comment => Unbroken name ∧ Unbroken opcode ∧ Unbroken value ∧ Unbroken comment
  | .label name comment => Unbroken name ∧ Unbroken comment
  | .directive name value => Unbroken name ∧ Unbroken value
  | .remark text => Unbroken text
  | .blank => True

theorem unbroken_line {line : Line} (h : LineOk line) (comments : Bool) :
    ∀ w ∈ line.text? comments, Unbroken w := by
  have hsigns : Unbroken "" ∧ Unbroken "\t" ∧ Unbroken " " ∧ Unbroken ":" ∧ Unbroken ":\t" ∧ Unbroken "\t\t# " := by
    simp [Unbroken, isLineBreak]
  have hgap : ∀ opcode, Unbroken (gap opcode) := by
    intro opcode c hc
    rw [toList_gap] at hc
    obtain rfl := List.eq_of_mem_replicate hc
    decide
  cases line with
  | instr | data | directive =>
    rintro _ ⟨rfl⟩
    unfold LineOk at h
    split <;> simp [unbroken_append, hsigns, h, hgap, unbroken_trailing]
  | label =>
    rintro _ ⟨rfl⟩
    unfold LineOk at h
    simp [unbroken_append, hsigns, h, unbroken_trailing]
  | remark text =>
    have h : Unbroken text := h
    cases comments <;> simp [Line.text?, unbroken_append, hsigns, h]
  | blank => simp [Line.text?, hsigns]

theorem unbroken_note {name : String} (h : Unbroken name) (size : Int) :
    Unbroken (((("struct " ++ name) ++ ": ") ++ toString size) ++ " bytes") := by
  have hwords : Unbroken "struct " ∧ Unbroken ": " ∧ Unbroken " bytes" := by simp [Unbroken, isLineBreak]
  simp only [unbroken_append, hwords, h, unbroken_toString, and_self]

/-- No line of a part of the code has a line break in it. -/
theorem lineOk_item {i : Item} (h : ItemOk i) : ∀ line ∈ i.lines, LineOk line := by
  have hwords : Unbroken ".data" ∧ Unbroken ".text" ∧ Unbroken ".align" ∧ Unbroken ".globl" ∧ Unbroken ".asciiz" ∧
      Unbroken ".space" ∧ Unbroken ".word" ∧ Unbroken "2" ∧ Unbroken "main" ∧ Unbroken "0:" ∧ Unbroken "\"" ∧
      Unbroken "" := by
    simp [Unbroken, isLineBreak]
  cases i with
  | op i comment =>
    refine List.forall_mem_singleton.mpr ⟨?_, ?_, h.2⟩
    · exact fun c hc => isLineBreak_of_isBlank (opcode_named i c hc).isBlank
    · by_cases hnil : i.operands = []
      · simp [hnil, hwords]
      · intro c hc
        rcases (bare_operands hnil h.1).2 c hc with rfl | ⟨hblank, -⟩
        · decide
        · exact isLineBreak_of_isBlank hblank
  | label name comment => exact List.forall_mem_singleton.mpr ⟨h.1.unbroken, h.2⟩
  | literal name text => simp [Item.lines, LineOk, unbroken_append, hwords, h.1.unbroken, h.2.2]
  | global name words =>
    cases words <;> simpa [Item.lines, LineOk, unbroken_append, hwords, h.1.unbroken] using unbroken_toString _
  | start isMain => cases isMain <;> simp [Item.lines, LineOk, hwords]
  | note name size => exact List.forall_mem_singleton.mpr (unbroken_note h size)

/-- Code is loaded part by part. -/
theorem load_items {items : List Item} (h : ∀ i ∈ items, ItemOk i) (comments : Bool) :
    load (render comments (linesOf items)) = ((itemsLoaded comments 1 {} items).image, none) := by
  have hwritten : ∀ w ∈ written comments (linesOf items), Unbroken w := by
    intro w hw
    simp only [written, linesOf, List.mem_filterMap, List.mem_flatMap] at hw
    obtain ⟨line, ⟨i, hi, hline⟩, hw⟩ := hw
    exact unbroken_line (lineOk_item (h i hi) line hline) comments w hw
  obtain ⟨hlines, hnone⟩ := lines_items (l := {}) (n := 1) comments h rfl
  rw [load_render hwritten, hlines]
  exact Prod.ext rfl hnone

end Unbroken

end CMinusMinus.Proofs.Rendering
