import CMinusMinus.Proofs.Faults
import CMinusMinus.Proofs.Specimens

/-!
Comments in assembly text change nothing but the numbers of lines. A line of the text is loaded to
the same effect wherever it stands, a comment at its end is taken off with the blanks before it, and
a line that is all comment is passed over. So a program with comments and the same program without
them are loaded alike, and every run of the one ends as the same run of the other. This holds
whatever the texts of literals are, even if they break the lines that they are written on.
-/
namespace CMinusMinus.Machine

def Instruction.unnumbered (i : Instruction) : Instruction := { i with line := 0 }

def Image.unnumbered (image : Image) : Image :=
  { image with text := image.text.map Instruction.unnumbered }

def Error.unnumbered : Error → Error
  | .unsupportedInstruction _ opcode => .unsupportedInstruction 0 opcode
  | e => e

def Outcome.unnumbered (o : Outcome) : Outcome := { o with error := o.error.map Error.unnumbered }

def Loading.unnumbered (l : Loading) : Loading := { l with image := l.image.unnumbered }

/-- Loads one more line without its number, unless one was refused before. -/
def Loading.next (l : Loading) (raw : List Char) : Loading :=
  if l.error.isSome then l else l.line 0 raw

end CMinusMinus.Machine

namespace CMinusMinus.Proofs.Comments

open Assembly Machine Rendering Lowering WellFormed Spelling
open Code (Item linesOf)

section Unnumbered

variable {l : Loading}

theorem words_unnumbered (value : Int) (count : Nat) : ∀ image : Image,
    (image.words value count).unnumbered = image.unnumbered.words value count := by
  induction count with
  | zero => exact fun image => rfl
  | succ count ih => exact fun image => ih _

/-- Directives do not depend on the instructions. -/
theorem directive_unnumbered (image : Image) (name : String) (value : List Char) :
    (image.directive name value).map Image.unnumbered = image.unnumbered.directive name value := by
  unfold Image.directive
  split
  · cases number value with
    | error e => rfl
    | ok bits =>
      by_cases hbits : bits < 0
      · simp [hbits, bind, Except.bind, throw, throwThe, MonadExceptOf.throw, Except.map]
      · simp [hbits, bind, Except.bind, Except.map, pure, Except.pure, Image.unnumbered]
  · cases number value <;> rfl
  · have hwords : ∀ count : Int,
        Except.map Image.unnumbered (if count ≤ 0 then .ok image else do
          let word ← number (value.takeWhile (· ≠ ':'))
          .ok (image.words word count.toNat)) =
        (if count ≤ 0 then .ok image.unnumbered else do
          let word ← number (value.takeWhile (· ≠ ':'))
          .ok (image.unnumbered.words word count.toNat)) := by
      intro count
      split
      · rfl
      · cases number (value.takeWhile (· ≠ ':')) with
        | error e => rfl
        | ok word => exact congrArg Except.ok (words_unnumbered word _ image)
    dsimp only
    split
    · exact hwords 1
    · cases number ((value.dropWhile (· ≠ ':')).drop 1) with
      | error e => rfl
      | ok count => exact hwords count
  · cases textLiteral value <;> rfl
  · rfl

theorem label_unnumbered (name : String) :
    (l.label name).unnumbered = l.unnumbered.label name := by
  unfold Loading.label
  by_cases hdata : l.inData
  · simp [hdata, Loading.unnumbered, Image.unnumbered]
  · simp [hdata, Loading.unnumbered, Image.unnumbered]

theorem content_unnumbered (n : Nat) (line : List Char) :
    (l.content n line).unnumbered = l.unnumbered.content 0 line := by
  have hdirective := directive_unnumbered l.image (splitWord line).1 (splitWord line).2
  unfold Loading.content
  dsimp only
  split
  · rfl
  · split
    · rfl
    · split
      · rfl
      · split
        · rw [show l.unnumbered.image = l.image.unnumbered from rfl, ← hdirective]
          cases l.image.directive (splitWord line).1 (splitWord line).2 <;> rfl
        · simp [Loading.unnumbered, Image.unnumbered, Instruction.unnumbered]

/-- A line has the same effect wherever it stands. -/
theorem line_unnumbered (n : Nat) (raw : List Char) :
    (l.line n raw).unnumbered = l.unnumbered.line 0 raw := by
  unfold Loading.line
  dsimp only
  split
  · rfl
  · split
    · exact content_unnumbered n _
    · split
      · exact label_unnumbered _
      · rw [content_unnumbered, label_unnumbered]

theorem foldl_next_of_error (raws : List (List Char)) (h : l.error.isSome) :
    raws.foldl Loading.next l = l := by
  induction raws with
  | nil => rfl
  | cons raw raws ih => rw [List.foldl_cons, Loading.next, if_pos h, ih]

/-- Lines are loaded one after the other, up to the first that is refused. -/
theorem lines_unnumbered (raws : List (List Char)) : ∀ {l : Loading} {n : Nat}, l.error = none →
    (l.lines n raws).unnumbered = raws.foldl Loading.next l.unnumbered := by
  induction raws with
  | nil => exact fun _ => rfl
  | cons raw raws ih =>
    intro l n hnone
    have hfirst : l.unnumbered.next raw = (l.line n raw).unnumbered := by
      have herror : l.unnumbered.error = none := hnone
      rw [Loading.next, herror, line_unnumbered]
      rfl
    rw [Loading.lines, List.foldl_cons, hfirst]
    split
    · rename_i herror
      exact (foldl_next_of_error (l := (l.line n raw).unnumbered) raws herror).symm
    · rename_i herror
      exact ih (by simpa using herror)

end Unnumbered

section Cutting

/-- Cutting a text after its first character, where no pair of characters ends a line. -/
theorem lines_cons {c : Char} {cs : List Char} (h : c = '\r' → cs.head? ≠ some '\n') :
    Text.lines (c :: cs) = if Text.isLineBreak c then [] :: Text.lines cs
      else match Text.lines cs with
        | [] => [[c]]
        | line :: more => (c :: line) :: more := by
  have hpair : ∀ rest, c = '\r' → cs = '\n' :: rest → False := by
    rintro rest hc rfl
    exact h hc rfl
  exact (Text.lines.eq_3 c cs hpair).trans (by cases Text.lines cs <;> rfl)

/-- What follows a line feed is cut into lines on its own. -/
theorem lines_append_feed (rest : List Char) : ∀ cs : List Char,
    ∃ line more, Text.lines (cs ++ ['\n']) = line :: more ∧
      Text.lines (cs ++ '\n' :: rest) = line :: (more ++ Text.lines rest)
  | [] => ⟨[], [], by simp [Text.lines, Text.isLineBreak]⟩
  | c :: cs => by
    obtain ⟨line, more, hline, hrest⟩ := lines_append_feed rest cs
    by_cases hpair : c = '\r' ∧ (cs ++ ['\n']).head? = some '\n'
    · obtain ⟨rfl, hhead⟩ := hpair
      cases cs with
      | nil => exact ⟨[], [], by simp [Text.lines]⟩
      | cons d cs =>
        obtain rfl : d = '\n' := by simpa using hhead
        obtain ⟨line, more, hline, hrest⟩ := lines_append_feed rest cs
        exact ⟨[], line :: more, by simp [Text.lines, hline, hrest]⟩
    · have hfirst : ∀ more : List Char, c = '\r' → (cs ++ '\n' :: more).head? ≠ some '\n' := by
        intro more hc hhead
        refine hpair ⟨hc, ?_⟩
        cases cs with
        | nil => rfl
        | cons d cs => simpa using hhead
      rw [List.cons_append, List.cons_append, lines_cons (hfirst []), lines_cons (hfirst rest), hline,
        hrest]
      by_cases hbreak : Text.isLineBreak c
      · exact ⟨[], line :: more, by simp [hbreak]⟩
      · exact ⟨c :: line, more, by simp [hbreak]⟩

/-- The lines of the text that a line of the program is written as. -/
def pieces (comments : Bool) (line : Line) : List (List Char) :=
  match line.text? comments with
  | some text => Text.lines (text.toList ++ ['\n'])
  | none => []

theorem lines_written (comments : Bool) (ls : List Line) :
    Text.lines ((written comments ls).flatMap (·.toList ++ ['\n'])) = ls.flatMap (pieces comments) := by
  induction ls with
  | nil => rfl
  | cons line ls ih =>
    rw [List.flatMap_cons, pieces, ← ih, written, List.filterMap_cons]
    cases line.text? comments with
    | none => rfl
    | some text =>
      obtain ⟨first, more, hfirst, hall⟩ := lines_append_feed
        ((ls.filterMap (Line.text? comments)).flatMap (·.toList ++ ['\n'])) text.toList
      dsimp only
      rw [List.flatMap_cons, List.append_assoc, List.singleton_append, hall, hfirst]
      rfl

/-- Without the numbers of lines, loading a program is loading what its lines are written as. -/
theorem load_pieces (comments : Bool) (ls : List Line) :
    (Loading.lines {} 1 (Text.lines (render comments ls).toList)).unnumbered =
      (ls.flatMap (pieces comments)).foldl Loading.next {} := by
  have hstart : ({} : Loading).unnumbered = {} := by simp [Loading.unnumbered, Image.unnumbered]
  rw [lines_unnumbered _ rfl, hstart, ← lines_written]
  by_cases hnil : written comments ls = []
  · rw [render, hnil]
    rfl
  · rw [render, toList_intercalate_feed hnil]

end Cutting

section Tidy

def Clear (text : String) : Prop :=
  ∀ c ∈ text.toList, Text.isLineBreak c = false ∧ c ≠ '"' ∧ c ≠ '#'

/-- Blanks at the end of a text are trimmed away. -/
theorem trim_append_blanks {cs blanks : List Char} (h : ∀ c ∈ blanks, Text.isBlank c) :
    Text.trim (cs ++ blanks) = Text.trim cs := by
  have hend : ∀ ds : List Char, Text.trimEnd (ds ++ blanks) = Text.trimEnd ds := by
    intro ds
    rw [Text.trimEnd, List.reverse_append, List.dropWhile_append_of_pos (by simpa using h)]
    rfl
  rw [Text.trim, Text.trim, Text.trimStart, Text.trimStart, List.dropWhile_append]
  split
  · rename_i hempty
    rw [List.isEmpty_iff.mp hempty, ← List.append_nil blanks, List.dropWhile_append_of_pos h]
    rfl
  · exact hend _

/-- A comment at the end of a line is passed over. -/
theorem line_trailing {text : String} (h : Clear text) (l : Loading) (n : Nat) (comments : Bool)
    (comment : String) :
    l.line n (text ++ trailing comments comment).toList = l.line n text.toList := by
  have hplain : ∀ c ∈ text.toList, c ≠ '"' ∧ c ≠ '#' := fun c hc => (h c hc).2
  have hbare : stripComment false false text.toList = text.toList := by
    simpa [stripComment] using stripComment_plain hplain []
  have hstrip : Text.trim (stripComment false false (text ++ trailing comments comment).toList) =
      Text.trim (stripComment false false text.toList) := by
    rw [String.toList_append, stripComment_plain hplain, hbare]
    exact trim_append_blanks (stripComment_trailing comments comment)
  rw [Loading.line, Loading.line, hstrip]

/-- The comment of a line can be left out: it has none, or it ends a line on which no quotes are
open. -/
def Tidy : Line → Prop
  | .instr opcode operands comment =>
    comment = "" ∨ Clear opcode ∧ Clear (", ".intercalate operands) ∧ Unbroken comment
  | .data _ _ _ comment => comment = ""
  | .label name comment => comment = "" ∨ Clear name ∧ Unbroken comment
  | .directive .. | .blank => True
  | .remark text => Unbroken text

theorem clear_append {s t : String} : Clear (s ++ t) ↔ Clear s ∧ Clear t := by
  simp only [Clear, String.toList_append]
  exact List.forall_mem_append

theorem clear_gap (opcode : String) : Clear (gap opcode) := by
  intro c hc
  rw [toList_gap] at hc
  obtain rfl := List.eq_of_mem_replicate hc
  decide

/-- A line with a comment at its end is one line of the text. -/
theorem lines_trailing {text comment : String} (h : Clear text) (hcomment : Unbroken comment)
    (comments : Bool) : Text.lines ((text ++ trailing comments comment).toList ++ ['\n']) =
      [(text ++ trailing comments comment).toList] := by
  have hunbroken : Unbroken (text ++ trailing comments comment) :=
    unbroken_append.mpr ⟨fun c hc => (h c hc).1, unbroken_trailing comments hcomment⟩
  rw [lines_feed hunbroken]
  rfl

/-- A line that ends with a comment has the same effect without it. -/
theorem foldl_trailing {text comment : String} (h : Clear text) (hcomment : Unbroken comment)
    (l : Loading) (comments : Bool) :
    (Text.lines ((text ++ trailing comments comment).toList ++ ['\n'])).foldl Loading.next l =
      l.next text.toList := by
  rw [lines_trailing h hcomment, List.foldl_cons, List.foldl_nil, Loading.next, Loading.next,
    line_trailing h]

theorem trailing_empty (comments : Bool) : trailing comments "" = "" := by
  simp [trailing]

/-- Each line of a program is loaded to the same effect with comments and without. -/
theorem foldl_pieces {line : Line} (h : Tidy line) (l : Loading) (comments : Bool) :
    (pieces comments line).foldl Loading.next l = (pieces false line).foldl Loading.next l := by
  cases line with
  | instr opcode operands comment =>
    rcases h with rfl | ⟨hopcode, hargs, hcomment⟩
    · simp only [pieces, Line.text?, trailing_empty]
    · have htab : Clear "\t" := by simp [Clear, Text.isLineBreak]
      have hwritten : Clear (if (", ".intercalate operands).isEmpty then "\t" ++ opcode
          else "\t" ++ opcode ++ gap opcode ++ ", ".intercalate operands) := by
        split <;> simp [clear_append, htab, hopcode, hargs, clear_gap]
      simp only [pieces, Line.text?, foldl_trailing hwritten hcomment]
  | data name opcode value comment =>
    obtain rfl : comment = "" := h
    simp only [pieces, Line.text?, trailing_empty]
  | label name comment =>
    rcases h with rfl | ⟨hname, hcomment⟩
    · simp only [pieces, Line.text?, trailing_empty]
    · have hwritten : Clear (name ++ ":") :=
        clear_append.mpr ⟨hname, by simp [Clear, Text.isLineBreak]⟩
      simp only [pieces, Line.text?, foldl_trailing hwritten hcomment]
  | directive name value => rfl
  | blank => rfl
  | remark text =>
    cases comments with
    | false => rfl
    | true =>
      have hunbroken : Unbroken ("\t\t# " ++ text) :=
        unbroken_append.mpr ⟨by simp [Unbroken, Text.isLineBreak], h⟩
      have hpieces : pieces true (.remark text) = [("\t\t# " ++ text).toList] :=
        lines_feed hunbroken []
      rw [hpieces, List.foldl_cons, Loading.next, line_remark, ite_self]
      rfl

theorem foldl_flatMap_pieces {ls : List Line} (h : ∀ line ∈ ls, Tidy line) (comments : Bool) :
    ∀ l : Loading, (ls.flatMap (pieces comments)).foldl Loading.next l =
      (ls.flatMap (pieces false)).foldl Loading.next l := by
  induction ls with
  | nil => exact fun l => rfl
  | cons line ls ih =>
    intro l
    rw [List.flatMap_cons, List.flatMap_cons, List.foldl_append, List.foldl_append,
      foldl_pieces (h line (by simp))]
    exact ih (fun other hother => h other (List.mem_cons_of_mem _ hother)) _

/-- A program is loaded to the same effect with comments and without. -/
theorem load_uncommented {ls : List Line} (h : ∀ line ∈ ls, Tidy line) (comments : Bool) :
    (load (render comments ls)).1.unnumbered = (load (render false ls)).1.unnumbered ∧
      (load (render comments ls)).2 = (load (render false ls)).2 := by
  have hloading := foldl_flatMap_pieces h comments {}
  rw [← load_pieces, ← load_pieces] at hloading
  have himage := congrArg Loading.image hloading
  have herror := congrArg Loading.error hloading
  exact ⟨himage, herror⟩

end Tidy

section Code

variable {lit : String → Prop}

theorem tidy_op {i : Instr} {comment : String} (h : Piece IsLabel IsLabel lit (.op i comment)) :
    Tidy (.instr i.opcode i.operands comment) := by
  refine .inr ⟨fun c hc => ?_, fun c hc => ?_, h.2⟩
  · have hpart := opcode_named i c hc
    exact ⟨isLineBreak_of_isBlank hpart.isBlank, hpart.ne (by decide), hpart.ne (by decide)⟩
  · by_cases hnil : i.operands = []
    · simp [hnil] at hc
    · rcases (bare_operands hnil (operands_of_plain h.1)).2 c hc with rfl | ⟨hblank, hplain⟩
      · decide
      · exact ⟨isLineBreak_of_isBlank hblank, hplain⟩

/-- The comments in the code of a program can be left out, whatever the texts of its literals are. -/
theorem tidy_item {i : Item} (h : Piece IsLabel IsLabel lit i) : ∀ line ∈ i.lines, Tidy line := by
  cases i with
  | op i comment => simpa [Item.lines] using tidy_op h
  | label name comment =>
    simp only [Item.lines, List.forall_mem_singleton]
    exact .inr ⟨fun c hc => ⟨h.1.unbroken c hc, h.1.plain c hc⟩, h.2⟩
  | literal name text => simp [Item.lines, Tidy]
  | global name words => cases words <;> simp [Item.lines, Tidy]
  | start isMain => cases isMain <;> simp [Item.lines, Tidy]
  | note name size =>
    simp only [Item.lines, List.forall_mem_singleton]
    exact unbroken_note h size

end Code

section Runs

def SameStep : EStateM.Result Error State Bool → EStateM.Result Error State Bool → Prop
  | .ok ended s, .ok ended' s' => ended = ended' ∧ s = s'
  | .error e s, .error e' s' => e.unnumbered = e'.unnumbered ∧ s = s'
  | _, _ => False

theorem SameStep.refl : ∀ r : EStateM.Result Error State Bool, SameStep r r
  | .ok _ _ => ⟨rfl, rfl⟩
  | .error _ _ => ⟨rfl, rfl⟩

/-- Images that differ in the numbers of lines only. -/
theorem text_of_unnumbered {image image' : Image} (h : image.unnumbered = image'.unnumbered) :
    ∃ text, image' = { image with text } ∧
      image.text.map Instruction.unnumbered = text.map Instruction.unnumbered := by
  obtain ⟨text, textLabels, dataLabels, memory, texts, dataNext⟩ := image
  obtain ⟨text', textLabels', dataLabels', memory', texts', dataNext'⟩ := image'
  simp only [Image.unnumbered, Image.mk.injEq] at h
  obtain ⟨htext, rfl, rfl, rfl, rfl, rfl⟩ := h
  exact ⟨text', rfl, htext⟩

/-- The number of its line is shown of an instruction that is not supported, and else not used. -/
theorem exec_renumbered (image : Image) (text : Array Instruction) {i i' : Instruction}
    (h : i.unnumbered = i'.unnumbered) (s : State) :
    SameStep (exec image i s) (exec { image with text } i' s) := by
  obtain ⟨opcode, operands, line⟩ := i
  obtain ⟨opcode', operands', line'⟩ := i'
  simp only [Instruction.unnumbered, Instruction.mk.injEq, and_true] at h
  obtain ⟨rfl, rfl⟩ := h
  unfold exec
  cases Op.ofOpcode? opcode with
  | none => exact ⟨rfl, rfl⟩
  | some op => cases op <;> exact SameStep.refl _

variable {image image' : Image}

theorem fetch?_unnumbered (image : Image) (pc : Int) :
    image.unnumbered.fetch? pc = (image.fetch? pc).map Instruction.unnumbered := by
  cases pc with
  | ofNat k => simp [Image.fetch?, Image.unnumbered]
  | negSucc k => rfl

/-- Images that differ in the numbers of lines only make the same steps. -/
theorem step_renumbered (h : image.unnumbered = image'.unnumbered) (s : State) :
    SameStep (step image s) (step image' s) := by
  have hfetch : (image.fetch? s.pc).map Instruction.unnumbered =
      (image'.fetch? s.pc).map Instruction.unnumbered := by
    rw [← fetch?_unnumbered, h, fetch?_unnumbered]
  obtain ⟨text, himage', -⟩ := text_of_unnumbered h
  cases hi : image.fetch? s.pc with
  | none =>
    have hi' : image'.fetch? s.pc = none := Option.map_eq_none_iff.mp (by rw [← hfetch, hi]; rfl)
    have hstep : ∀ {img : Image}, img.fetch? s.pc = none →
        step img s = .error (.outsideProgram s.pc) s := by
      intro img hnone
      rw [step, get_bind, hnone]
      rfl
    rw [hstep hi, hstep hi']
    exact SameStep.refl _
  | some i =>
    obtain ⟨i', hi', hsame⟩ : ∃ i', image'.fetch? s.pc = some i' ∧ i'.unnumbered = i.unnumbered := by
      simpa [hi, eq_comm] using hfetch
    have hstep : ∀ {img : Image} {j : Instruction}, img.fetch? s.pc = some j →
        step img s = exec img j { s with pc := s.pc + 1 } := by
      intro img j hj
      rw [step, get_bind, hj]
      rfl
    rw [hstep hi, hstep hi', himage']
    exact exec_renumbered image text hsame.symm _

/-- Images that differ in the numbers of lines only run alike. -/
theorem runFrom_renumbered (h : image.unnumbered = image'.unnumbered) (steps : Nat) : ∀ s : State,
    (runFrom image steps s).unnumbered = (runFrom image' steps s).unnumbered := by
  induction steps with
  | zero => exact fun s => rfl
  | succ steps ih =>
    intro s
    have hstep := step_renumbered h s
    rw [runFrom, runFrom]
    cases hfirst : step image s with
    | ok ended u =>
      cases hother : step image' s with
      | ok ended' u' =>
        rw [hfirst, hother] at hstep
        obtain ⟨rfl, rfl⟩ := hstep
        cases ended with
        | true => rfl
        | false => exact ih u
      | error e' u' =>
        rw [hfirst, hother] at hstep
        exact hstep.elim
    | error e u =>
      cases hother : step image' s with
      | ok ended' u' =>
        rw [hfirst, hother] at hstep
        exact hstep.elim
      | error e' u' =>
        rw [hfirst, hother] at hstep
        obtain ⟨herror, rfl⟩ := hstep
        simp [Outcome.unnumbered, herror]

theorem run_renumbered (h : image.unnumbered = image'.unnumbered) (inputs : List Int) (steps : Nat) :
    (run image inputs steps).unnumbered = (run image' inputs steps).unnumbered := by
  obtain ⟨text, himage', -⟩ := text_of_unnumbered h
  have hinitial : initial image' inputs = initial image inputs := by rw [himage']; rfl
  have hlabels : image'.textLabels = image.textLabels := by rw [himage']
  rw [run, run, hinitial, hlabels]
  split
  · rfl
  · exact runFrom_renumbered h steps _

/-- Texts that are loaded alike run alike. -/
theorem simulate_renumbered {asm asm' : String} (h : (load asm).1.unnumbered = (load asm').1.unnumbered)
    (herror : (load asm).2 = (load asm').2) (inputs : List Int) (steps : Nat) :
    (simulate asm inputs steps).2.unnumbered = (simulate asm' inputs steps).2.unnumbered := by
  obtain ⟨text, himage', -⟩ := text_of_unnumbered h
  have hmemory : (load asm').1.memory = (load asm).1.memory := by rw [himage']
  have hsimulate : ∀ asm, (simulate asm inputs steps).2 = match (load asm).2 with
      | some e => ⟨{ memory := (load asm).1.memory }, some e⟩
      | none => run (load asm).1 inputs steps := by
    intro asm
    rw [simulate]
    cases load asm with
    | mk image error => cases error <;> rfl
  rw [hsimulate, hsimulate, ← herror, hmemory]
  cases (load asm).2 with
  | some e => rfl
  | none => exact run_renumbered h inputs steps

end Runs

/-- Two texts make the same program but for the numbers of lines: they are loaded to the same image,
or with the same error, and every run of the one ends like the same run of the other, in the same
state and with the same error. -/
structure SameProgram (asm asm' : String) : Prop where
  image : (load asm).1.unnumbered = (load asm').1.unnumbered
  error : (load asm).2 = (load asm').2
  runs : ∀ inputs steps,
    (simulate asm inputs steps).2.unnumbered = (simulate asm' inputs steps).2.unnumbered

/-- Comments do not change a program. For an accepted text, code is made with comments exactly if it
is made without them, and the two make the same program but for the numbers of lines. -/
theorem comments_change_line_numbers_only {text file : String} {a : Analysis}
    (h : Accepts text file a) :
    (∀ comments, (a.assembly comments).fault = some .numeralTooLong ∧
      (a.assembly comments).result = none) ∨
    ∃ asm bare, (a.assembly true).fault = none ∧ (a.assembly true).result = some asm ∧
      (a.assembly false).fault = none ∧ (a.assembly false).result = some bare ∧
      SameProgram asm bare := by
  obtain ⟨p, globals, hanalysed⟩ := h.analysed fun tokens hlex => Grammar.tokens_ok hlex
  obtain ⟨hdone, hstopped⟩ := lower_of_analysed hanalysed h.quiet
  by_cases hwritable : Code.Writable (codeOf a p)
  · have hassembly : ∀ comments, (a.assembly comments).fault = none ∧
        (a.assembly comments).result = some (render comments (linesOf (codeOf a p))) := by
      intro comments
      simp [Analysis.assembly, hdone hwritable]
    have htidy : ∀ line ∈ linesOf (codeOf a p), Tidy line := by
      intro line hline
      obtain ⟨i, hi, hmem⟩ := List.mem_flatMap.mp hline
      exact tidy_item ((spelled_decls hanalysed.symbols hanalysed.decls _).1 i hi) line hmem
    obtain ⟨himage, herror⟩ := load_uncommented htidy true
    exact .inr ⟨_, _, (hassembly true).1, (hassembly true).2, (hassembly false).1, (hassembly false).2,
      himage, herror, simulate_renumbered himage herror⟩
  · refine .inl fun comments => ?_
    simp [Analysis.assembly, hstopped hwritable]

/-- A literal that closes its quotes, breaks its line and has an instruction on a line of its own. -/
def brokenLetters : { letters : List Char // String.ofList letters =
    "void main()\x7bcout<<\"\\\"\x0bfoo\x0b#\";\x7d" } := ⟨_, rfl⟩

theorem broken_literal_makes_same_program : ∃ a, Accepts (String.ofList brokenLetters.1) "main.cmm" a ∧
    ∃ asm bare, (a.assembly true).result = some asm ∧ (a.assembly false).result = some bare ∧
      SameProgram asm bare := by
  have haccepted : ∃ found, accepted? brokenLetters.1 = some found ∧
      (found.2.assembly true).fault = none := by
    have hsome : ((accepted? brokenLetters.1).any fun found =>
        (found.2.assembly true).fault = none) = true := by decide +kernel
    simpa [Option.any_eq_true] using hsome
  obtain ⟨⟨tokens, a⟩, hfound, hfault⟩ := haccepted
  have haccepts := (accepts_of_accepted hfound).2
  refine ⟨a, haccepts, ?_⟩
  rcases comments_change_line_numbers_only haccepts with hlong | ⟨asm, bare, -, hasm, -, hbare, hsame⟩
  · rw [(hlong true).1] at hfault
    cases hfault
  · exact ⟨asm, bare, hasm, hbare, hsame⟩

end CMinusMinus.Proofs.Comments
