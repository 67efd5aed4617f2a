import Mathlib.Algebra.Ring.Nat
import CMinusMinus.Proofs.References

/-!
What is loaded is what was written. The machine finds the instructions of the written lines in their
order, each label of the text at the instruction that follows it and each label of the data where its
storage starts; all words that are laid out are zero, and there is nothing else.
-/
namespace CMinusMinus.Proofs.Mirroring

open Assembly Machine
open Code (Item linesOf)
open Rendering (itemLoaded itemsLoaded)
open Loading (Sectioned dataAfter)
open References (set? sampleLines)

/-- The opcodes and operands of the instructions among some lines. -/
def instructions (lines : List Line) : List (String × List String) :=
  lines.filterMap fun
    | .instr opcode operands _ => some (opcode, operands)
    | _ => none

/-- The characters of a literal that is written between quotes. -/
def literal (value : String) : List Char := unescape (value.toList.drop 1).dropLast

/-- The bytes that a line sets aside: so many bytes, so many words, or a text with a zero after it in
whole words. -/
def storage : Line → Nat
  | .data _ opcode value _ =>
    if opcode = ".space" then ((Text.readInt? value.toList).getD 0).toNat
    else if opcode = ".word" then 4 * ((Text.readInt? (value.toList.drop 2)).getD 0).toNat
    else ((literal value).length + 4) / 4 * 4
  | _ => 0

def bytes (lines : List Line) : Nat := (lines.map storage).sum

/-- An image holds what lines say, and nothing else. -/
structure Mirrors (lines : List Line) (image : Image) : Prop where
  text : image.text.toList.map (fun i => (i.opcode, i.operands)) = instructions lines
  textLabels : ∀ {name n}, image.textLabels[name]? = some n ↔ ∃ before comment,
    before ++ [.label name comment] <+: lines ∧ n = (instructions before).length
  dataLabels : ∀ {name address}, image.dataLabels[name]? = some address ↔
    ∃ before opcode value comment, before ++ [.data name opcode value comment] <+: lines ∧
      address = dataBase + bytes before
  words : ∀ {address word}, image.memory[address]? = some word ↔ word = 0 ∧
    ∃ (before : List Line) (name value comment : String) (k : Nat),
      before ++ [.data name ".word" value comment] <+: lines ∧
      4 * k < storage (.data name ".word" value comment) ∧ address = dataBase + bytes before + 4 * k
  texts : ∀ {address text}, image.texts[address]? = some text ↔ ∃ before name value comment,
    before ++ [.data name ".asciiz" value comment] <+: lines ∧
      address = dataBase + bytes before ∧ text = String.ofList (literal value)
  dataNext : image.dataNext = dataBase + bytes lines

section Lines

variable {lines before : List Line} {line x : Line} {image : Image} {name : String}

theorem prefix_snoc : before ++ [x] <+: lines ++ [line] ↔
    before = lines ∧ x = line ∨ before ++ [x] <+: lines := by
  rw [List.prefix_concat_iff]
  simp

theorem mem_set_before (h : before ++ [x] <+: lines) (hx : set? x = some name) :
    name ∈ lines.filterMap set? := by
  obtain ⟨after, rfl⟩ := h
  simp [List.filterMap_append, hx]

/-- The storage of a line ends before that of the lines after it. -/
theorem bytes_before_le (h : before ++ [x] <+: lines) : bytes before + storage x ≤ bytes lines := by
  obtain ⟨after, rfl⟩ := h
  simp [bytes]

theorem Mirrors.size (h : Mirrors lines image) : image.text.size = (instructions lines).length := by
  rw [← h.text, List.length_map, Array.length_toList]

/-- Directives, remarks and empty lines leave the image as it is. -/
theorem mirrors_directive (line : Line) (h : Mirrors lines image) (hinstr : instructions [line] = [])
    (hset : set? line = none) (hstorage : storage line = 0) : Mirrors (lines ++ [line]) image := by
  have hlabel : ∀ {name comment}, .label name comment ≠ line := by rintro _ _ rfl; simp [set?] at hset
  have hdata : ∀ {name opcode value comment}, .data name opcode value comment ≠ line := by
    rintro _ _ _ _ rfl
    simp [set?] at hset
  refine ⟨?_, ?_, ?_, ?_, ?_, ?_⟩
  · rw [h.text, instructions, instructions, List.filterMap_append]
    simpa [instructions] using hinstr
  · simp [prefix_snoc, hlabel, h.textLabels]
  · simp [prefix_snoc, hdata, h.dataLabels]
  · simp [prefix_snoc, hdata, h.words]
  · simp [prefix_snoc, hdata, h.texts]
  · simp [h.dataNext, bytes, hstorage]

/-- An instruction is added to the text. -/
theorem mirrors_instr (h : Mirrors lines image) (opcode : String) (operands : List String)
    (comment : String) (n : Nat) : Mirrors (lines ++ [.instr opcode operands comment])
      { image with text := image.text.push ⟨opcode, operands, n⟩ } where
  text := by simp [h.text, instructions, List.filterMap_append]
  textLabels := by simp [prefix_snoc, h.textLabels]
  dataLabels := by simp [prefix_snoc, h.dataLabels]
  words := by simp [prefix_snoc, h.words]
  texts := by simp [prefix_snoc, h.texts]
  dataNext := by simp [h.dataNext, bytes, storage]

/-- A label of the text is taken down at the instruction that comes next. -/
theorem mirrors_label (h : Mirrors lines image) (hnew : name ∉ lines.filterMap set?) (comment : String) :
    Mirrors (lines ++ [.label name comment])
      { image with textLabels := image.textLabels.insert name image.text.size } where
  text := by simp [h.text, instructions, List.filterMap_append]
  textLabels {other n} := by
    simp only [Std.TreeMap.getElem?_insert, prefix_snoc, Line.label.injEq]
    by_cases hname : name = other
    · subst hname
      have hnone : ∀ {before comment}, ¬ before ++ [.label name comment] <+: lines :=
        fun hat => hnew (mem_set_before hat rfl)
      simp [hnone, h.size, eq_comm]
    · have hne : ¬ other = name := fun heq => hname heq.symm
      simp [hname, hne, h.textLabels]
  dataLabels := by simp [prefix_snoc, h.dataLabels]
  words := by simp [prefix_snoc, h.words]
  texts := by simp [prefix_snoc, h.texts]
  dataNext := by simp [h.dataNext, bytes, storage]

end Lines

section Data

variable {lines : List Line} {image : Image} {name : String}

/-- The labels of the data after a line that sets one. -/
theorem dataLabels_snoc (h : Mirrors lines image) (hnew : name ∉ lines.filterMap set?)
    {opcode value comment other : String} {address : Int} : (image.dataLabels.insert name image.dataNext)[other]? = some address ↔
      ∃ before opcode' value' comment',
        before ++ [.data other opcode' value' comment'] <+: lines ++ [.data name opcode value comment] ∧
        address = dataBase + bytes before := by
  simp only [Std.TreeMap.getElem?_insert, prefix_snoc, Line.data.injEq]
  by_cases hname : name = other
  · subst hname
    have hnone : ∀ {before opcode value comment}, ¬ before ++ [.data name opcode value comment] <+: lines :=
      fun hat => hnew (mem_set_before hat rfl)
    simp [hnone, h.dataNext, eq_comm]
  · have hne : ¬ other = name := fun heq => hname heq.symm
    simp [hname, hne, h.dataLabels]

/-- Room for a word is set aside. -/
theorem mirrors_space (value comment : String) (h : Mirrors lines image)
    (hnew : name ∉ lines.filterMap set?) {n : Nat} (hread : Text.readInt? value.toList = some (n : Int)) :
    Mirrors (lines ++ [.data name ".space" value comment]) { image with
      dataLabels := image.dataLabels.insert name image.dataNext
      dataNext := image.dataNext + n } where
  text := by simp [h.text, instructions, List.filterMap_append]
  textLabels := by simp [prefix_snoc, h.textLabels]
  dataLabels := dataLabels_snoc h hnew
  words := by simp [prefix_snoc, h.words]
  texts := by simp [prefix_snoc, h.texts]
  dataNext := by
    simp [h.dataNext, bytes, storage, hread]
    omega

/-- The words of an image after some words have been added. -/
theorem memory_words (image : Image) (value : Int) (n : Nat) (address : Int) :
    (image.words value n).memory[address]? =
      if ∃ k < n, address = image.dataNext + 4 * (k : Int) then some value
      else image.memory[address]? := by
  induction n generalizing image with
  | zero => simp [Image.words]
  | succ n ih =>
    rw [Image.words, ih]
    simp only [Std.TreeMap.getElem?_insert]
    by_cases hlater : ∃ k < n, address = image.dataNext + 4 + 4 * (k : Int)
    · obtain ⟨k, hk, heq⟩ := hlater
      rw [if_pos ⟨k, hk, heq⟩, if_pos ⟨k + 1, by omega, by push_cast; omega⟩]
    · rw [if_neg hlater]
      by_cases hfirst : image.dataNext = address
      · have hnow : ∃ k < n + 1, address = image.dataNext + 4 * (k : Int) := ⟨0, by omega, by simp [hfirst]⟩
        rw [if_pos hnow]
        simp [hfirst]
      · have hnone : ¬ ∃ k < n + 1, address = image.dataNext + 4 * (k : Int) := by
          rintro ⟨k, hk, heq⟩
          cases k with
          | zero => exact hfirst (by simp [heq])
          | succ k => exact hlater ⟨k, by omega, by push_cast at heq; omega⟩
        rw [if_neg hnone]
        simp [hfirst]

/-- Words of zero are laid out. -/
theorem mirrors_words (value comment : String) (h : Mirrors lines image)
    (hnew : name ∉ lines.filterMap set?) {n : Nat} (hread : Text.readInt? (value.toList.drop 2) = some (n : Int)) :
    Mirrors (lines ++ [.data name ".word" value comment]) ({ image with
      dataLabels := image.dataLabels.insert name image.dataNext }.words 0 n) := by
  obtain ⟨htext, htextLabels, hdataLabels, htexts, hdataNext⟩ := Loading.words_eq
    { image with dataLabels := image.dataLabels.insert name image.dataNext } 0 n
  have hstorage : storage (.data name ".word" value comment) = 4 * n := by
    simp [storage, hread]
  refine ⟨?_, ?_, ?_, ?_, ?_, ?_⟩
  · rw [htext]
    simp [h.text, instructions, List.filterMap_append]
  · rw [htextLabels]
    simp [prefix_snoc, h.textLabels]
  · rw [hdataLabels]
    exact dataLabels_snoc h hnew
  · intro address word
    rw [memory_words]
    by_cases hadded : ∃ k < n, address = image.dataNext + 4 * (k : Int)
    · rw [if_pos hadded]
      obtain ⟨k, hk, heq⟩ := hadded
      rw [h.dataNext] at heq
      constructor
      · intro hword
        exact ⟨(Option.some.inj hword).symm, lines, name, value, comment, k, prefix_snoc.mpr (.inl ⟨rfl, rfl⟩),
          by omega, heq⟩
      · rintro ⟨rfl, -⟩
        rfl
    · rw [if_neg hadded, h.words]
      refine and_congr_right fun _ => ⟨?_, ?_⟩
      · rintro ⟨before, name', value', comment', k, hat, hk, heq⟩
        exact ⟨before, name', value', comment', k, prefix_snoc.mpr (.inr hat), hk, heq⟩
      · rintro ⟨before, name', value', comment', k, hat, hk, heq⟩
        rcases prefix_snoc.mp hat with ⟨rfl, hline⟩ | hat
        · rw [hline, hstorage] at hk
          exact absurd ⟨k, by omega, by rw [heq, h.dataNext]⟩ hadded
        · exact ⟨before, name', value', comment', k, hat, hk, heq⟩
  · rw [htexts]
    simp [prefix_snoc, h.texts]
  · rw [hdataNext]
    simp [h.dataNext, bytes, hstorage]
    omega

/-- A text is laid out. -/
theorem mirrors_text (value comment : String) (h : Mirrors lines image) (hnew : name ∉ lines.filterMap set?) :
    Mirrors (lines ++ [.data name ".asciiz" value comment]) { image with
      dataLabels := image.dataLabels.insert name image.dataNext
      texts := image.texts.insert image.dataNext (String.ofList (literal value))
      dataNext := image.dataNext + ((literal value).length + 4 : Nat) / 4 * 4 } where
  text := by simp [h.text, instructions, List.filterMap_append]
  textLabels := by simp [prefix_snoc, h.textLabels]
  dataLabels := dataLabels_snoc h hnew
  words := by simp [prefix_snoc, h.words]
  texts {address text} := by
    simp only [Std.TreeMap.getElem?_insert, prefix_snoc, Line.data.injEq]
    by_cases haddress : image.dataNext = address
    · -- the texts before end before the new one starts
      have hearlier : ∀ {before name value comment},
          before ++ [.data name ".asciiz" value comment] <+: lines → address ≠ dataBase + bytes before := by
        intro before name value comment hat heq
        have hbytes := bytes_before_le hat
        rw [h.dataNext] at haddress
        simp only [storage] at hbytes
        rw [if_neg (by decide), if_neg (by decide)] at hbytes
        omega
      rw [haddress]
      simp only [Std.ReflCmp.compare_self, if_true, Option.some.injEq]
      constructor
      · rintro rfl
        exact ⟨lines, name, value, comment, .inl ⟨rfl, rfl, trivial, rfl, rfl⟩, by rw [← haddress, h.dataNext], rfl⟩
      · rintro ⟨before, name', value', comment', ⟨-, -, -, rfl, -⟩ | hat, heq, rfl⟩
        · rfl
        · exact absurd heq (hearlier hat)
    · have hne : ¬ address = dataBase + bytes lines := by rw [← h.dataNext]; exact fun heq => haddress heq.symm
      simp only [Std.LawfulEqCmp.compare_eq_iff_eq, haddress, if_false, h.texts]
      constructor
      · rintro ⟨before, name', value', comment', hat, heq, rfl⟩
        exact ⟨before, name', value', comment', .inr hat, heq, rfl⟩
      · rintro ⟨before, name', value', comment', ⟨rfl, -⟩ | hat, heq, rfl⟩
        · exact absurd heq hne
        · exact ⟨before, name', value', comment', hat, heq, rfl⟩
  dataNext := by
    simp [h.dataNext, bytes, storage]
    omega

end Data

section Items

variable {lines : List Line} {l : Loading} {i : Item}

def Laid : Item → Prop
  | .global _ (some words) => 0 < words ∧ Text.isWritable words
  | _ => True

theorem literal_quoted (text : String) : literal ("\"" ++ text ++ "\"") = unescape text.toList := by
  simp [literal]

theorem storage_space (name : String) : storage (.data name ".space" (toString wordSize) "") = 4 := by
  have hread : Text.readInt? (toString wordSize).toList = some 4 :=
    Numerals.readInt?_toString (Numerals.isWritable_of_lt (by decide))
  simp only [storage, hread]
  rfl

theorem storage_words (name : String) {words : Int} (h : Text.isWritable words) :
    storage (.data name ".word" ("0:" ++ toString words) "") = 4 * words.toNat := by
  have hread : Text.readInt? (("0:" ++ toString words).toList.drop 2) = some words := by
    rw [String.toList_append]
    exact Numerals.readInt?_toString h
  simp only [storage, hread]
  rw [if_neg (by decide)]
  simp

/-- Storage is set aside in whole words, and by each line of data. -/
theorem storage_item (h : Laid i) : ∀ line ∈ i.lines, 4 ∣ storage line ∧
    ∀ {name opcode value comment}, line = .data name opcode value comment → 0 < storage line := by
  intro line hline
  cases i with
  | literal name text =>
    simp only [Item.lines, List.mem_cons, List.not_mem_nil, or_false] at hline
    rcases hline with rfl | rfl | rfl
    · simp [storage]
    · simp only [storage]
      rw [if_neg (by decide), if_neg (by decide)]
      exact ⟨by omega, fun _ => by omega⟩
    · simp [storage]
  | global name words =>
    cases words with
    | none =>
      simp only [Item.lines, List.mem_cons, List.not_mem_nil, or_false] at hline
      rcases hline with rfl | rfl | rfl
      · simp [storage]
      · simp [storage]
      · rw [storage_space]
        exact ⟨Nat.dvd_refl 4, fun _ => by omega⟩
    | some words =>
      obtain ⟨hpos, hwritable⟩ := h
      simp only [Item.lines, List.mem_cons, List.not_mem_nil, or_false] at hline
      rcases hline with rfl | rfl | rfl
      · simp [storage]
      · simp [storage]
      · rw [storage_words name hwritable]
        exact ⟨Nat.dvd_mul_right 4 _, fun _ => by omega⟩
  | start isMain =>
    cases isMain <;> simp [Item.lines] at hline
    · rcases hline with rfl | rfl <;> simp [storage]
    · rcases hline with rfl | rfl | rfl <;> simp [storage]
  | _ =>
    obtain rfl := List.mem_singleton.mp hline
    simp [storage]

/-- What has been loaded mirrors the lines of a part of the code as it mirrored those before. -/
theorem mirrors_item (n : Nat) (h : Mirrors lines l.image) (haligned : 4 ∣ bytes lines)
    (hsection : (Loading.textName? i).isSome → l.inData = false) (hlaid : Laid i)
    (hnew : ∀ name, i.label? = some name → name ∉ lines.filterMap set?) :
    Mirrors (lines ++ i.lines) (itemLoaded n l i).image := by
  have hplace : l.image.aligned = l.image.dataNext := by
    have hbase : (4 : Int) ∣ dataBase := by decide
    rw [Image.aligned, h.dataNext]
    omega
  cases i with
  | op instr comment => exact mirrors_instr h _ _ _ n
  | label name comment =>
    have htext := hsection rfl
    rw [itemLoaded, Loading.label, if_neg (by simp [htext])]
    exact mirrors_label h (hnew name rfl) comment
  | literal name text =>
    have hdata := mirrors_directive (.directive ".data" "") h rfl rfl rfl
    have htext := mirrors_text ("\"" ++ text ++ "\"") "" hdata
      (by simpa [List.filterMap_append, set?] using hnew name rfl)
    have hback := mirrors_directive (.directive ".text" "") htext rfl rfl rfl
    simpa [Item.lines, itemLoaded, Image.addText, literal_quoted] using hback
  | global name words =>
    have hdata := mirrors_directive (.directive ".data" "") h rfl rfl rfl
    have halign := mirrors_directive (.directive ".align" "2") hdata rfl rfl rfl
    have hfresh : name ∉ (lines ++ [Line.directive ".data" ""] ++
        [Line.directive ".align" "2"]).filterMap set? := by
      simpa [List.filterMap_append, set?] using hnew name rfl
    cases words with
    | none =>
      have hread : Text.readInt? (toString wordSize).toList = some ((4 : Nat) : Int) :=
        Numerals.readInt?_toString (Numerals.isWritable_of_lt (by decide))
      have hspace := mirrors_space (toString wordSize) "" halign hfresh hread
      simpa [Item.lines, itemLoaded, Image.addGlobal, hplace] using hspace
    | some words =>
      obtain ⟨hpos, hwritable⟩ := hlaid
      obtain ⟨k, rfl⟩ := Int.eq_ofNat_of_zero_le (Int.le_of_lt hpos)
      have hread : Text.readInt? (("0:" ++ toString (k : Int)).toList.drop 2) = some (k : Int) := by
        rw [String.toList_append]
        exact Numerals.readInt?_toString hwritable
      have hwords := mirrors_words ("0:" ++ toString (k : Int)) "" halign hfresh hread
      have hcount : k ≠ 0 := by omega
      simpa [Item.lines, itemLoaded, Image.addGlobal, hplace, hcount] using hwords
  | start isMain =>
    have hblank := mirrors_directive .blank h rfl rfl rfl
    have htext := mirrors_directive (.directive ".text" "") hblank rfl rfl rfl
    cases isMain with
    | false => simpa [Item.lines, itemLoaded] using htext
    | true =>
      have hglobl := mirrors_directive (.directive ".globl" "main") htext rfl rfl rfl
      simpa [Item.lines, itemLoaded] using hglobl
  | note name size => exact mirrors_directive _ h rfl rfl rfl

theorem set_item (i : Item) : i.lines.filterMap set? = i.label?.toList := by
  cases i with
  | global name words => cases words <;> rfl
  | start isMain => cases isMain <;> rfl
  | _ => rfl

/-- Lines that set aside whole words set aside whole words together. -/
theorem aligned_of_lines (h : ∀ line ∈ lines, 4 ∣ storage line) : 4 ∣ bytes lines := by
  induction lines with
  | nil => exact Nat.dvd_zero 4
  | cons line rest ih =>
    rw [List.forall_mem_cons] at h
    exact Nat.dvd_add h.1 (ih h.2)

/-- What has been loaded mirrors all lines of the code. -/
theorem mirrors_items (comments : Bool) {items : List Item} :
    ∀ {n : Nat} {l : Loading} {lines : List Line}, Mirrors lines l.image →
    (∀ line ∈ lines, 4 ∣ storage line) → Sectioned l.inData items → (∀ i ∈ items, Laid i) →
    (lines.filterMap set? ++ Code.labels items).Nodup →
    Mirrors (lines ++ linesOf items) (itemsLoaded comments n l items).image := by
  induction items with
  | nil =>
    intro n l lines h _ _ _ _
    simpa [linesOf, itemsLoaded] using h
  | cons i is ih =>
    rintro n l lines h haligned ⟨hsection, hrest⟩ hlaid hnodup
    rw [List.forall_mem_cons] at hlaid
    have hlabels : Code.labels (i :: is) = i.label?.toList ++ Code.labels is := by
      simp only [Code.labels, List.filterMap_cons]
      cases i.label? <;> rfl
    rw [hlabels, ← List.append_assoc] at hnodup
    have hnew : ∀ name, i.label? = some name → name ∉ lines.filterMap set? := by
      intro name hname hmem
      rw [hname, List.append_assoc] at hnodup
      exact (List.nodup_append.mp hnodup).2.2 _ hmem _ (by simp) rfl
    have hitem := mirrors_item n h (aligned_of_lines haligned) hsection hlaid.1 hnew
    have hlines : ∀ line ∈ lines ++ i.lines, 4 ∣ storage line := by
      rw [List.forall_mem_append]
      exact ⟨haligned, fun line hline => (storage_item hlaid.1 line hline).1⟩
    have hall := ih (n := n + (written comments i.lines).length) hitem hlines
      (by rw [Loading.inData_loaded]; exact hrest) hlaid.2
      (by rw [List.filterMap_append, set_item]; exact hnodup)
    rw [List.append_assoc] at hall
    exact hall

end Items

theorem mirrors_empty : Mirrors [] {} where
  text := rfl
  textLabels := by simp
  dataLabels := by simp
  words := by simp
  texts := by simp
  dataNext := rfl

section Programs

variable {lit : String → Prop} {a : Analysis} {p : Program} {globals : Scope}

/-- The global variables of a program take whole words. -/
theorem laid_of_loadable (h : Loadable lit a p globals) : ∀ i ∈ codeOf a p, Laid i := by
  intro i hi
  cases i with
  | global name words =>
    cases words with
    | none => trivial
    | some n =>
      obtain ⟨j, v, hv, -, hwords⟩ := global_of_mem h.analysed.symbols h.analysed.decls hi
      obtain ⟨hpos, hdvd⟩ := h.analysed.sizes hv
      have hbytes := h.bytes_eq hv
      rw [← hwords] at hbytes
      refine ⟨?_, h.writable _ hi n (by simp [Item.numbers])⟩
      simp [bytesOf] at hbytes
      omega
  | _ => trivial

theorem mirrors_of_loadable (h : Loadable lit a p globals) (comments : Bool) :
    Mirrors (linesOf (codeOf a p)) (imageOf comments a p) :=
  mirrors_items comments (n := 1) (l := {}) mirrors_empty (by simp) h.sectioned (laid_of_loadable h)
    h.nodup

/-- The code of a program sets aside whole words, and some for each line of data. -/
theorem storage_of_loadable (h : Loadable lit a p globals) : ∀ line ∈ linesOf (codeOf a p),
    4 ∣ storage line ∧
    ∀ {name opcode value comment}, line = .data name opcode value comment → 0 < storage line := by
  intro line hline
  obtain ⟨i, hi, hline⟩ := List.mem_flatMap.mp hline
  exact storage_item (laid_of_loadable h i hi) line hline

/-- The assembly of an accepted text is loaded as it was written: the machine takes it, and has what
its lines say and nothing else. -/
theorem emitted_code_is_loaded {text file : String} {lines : List Line} (comments : Bool)
    (haccepts : Accepts text file a) (hplain : PlainLiterals text) (hlower : a.lower = .ok lines) :
    (a.assembly comments).result = some (render comments lines) ∧
    ∃ image, load (render comments lines) = (image, none) ∧ Mirrors lines image := by
  have hasm : (a.assembly comments).result = some (render comments lines) := by
    simp [Analysis.assembly, hlower]
  refine ⟨hasm, ?_⟩
  obtain ⟨p, globals, hloadable, hrender⟩ := haccepts.loadable hplain hasm
  obtain ⟨-, rfl⟩ := writable_of_lower hloadable.analysed haccepts.quiet hlower
  exact ⟨_, hloadable.load_eq comments, mirrors_of_loadable hloadable comments⟩

/-- The sample calls its function at the place that the label of the function stands for. -/
theorem sample_is_loaded : ∃ image, load (render false sampleLines) = (image, none) ∧
    image.textLabels["_f"]? = some 0 := by
  obtain ⟨-, image, hload, hmirrors⟩ := emitted_code_is_loaded false sample_accepts
    sample_plain References.sample_lower
  refine ⟨image, hload, hmirrors.textLabels.mpr ⟨[.blank, .directive ".text" ""], "FUNCTION f", ?_, rfl⟩⟩
  decide +kernel

end Programs

end CMinusMinus.Proofs.Mirroring
