import CMinusMinus.Proofs.Correctness

/-!
The labels of assembly are unique and closed. Each of them is set once, and what jumps or refers to a
label finds it in the section where it looks for it.
-/
namespace CMinusMinus.Proofs.References

open Assembly WellFormed Spelling
open Code (Item linesOf Writable)
open Loading (Sectioned dataAfter)
open Machine (IsReg)

/-- The sections of assembly. -/
inductive Section where
  | text
  | data
deriving DecidableEq, Repr

def sectionAfter (before : Section) : Line → Section
  | .directive name _ => if name = ".data" then .data else if name = ".text" then .text else before
  | _ => before

def set? : Line → Option String
  | .label name _ | .data name _ _ _ => some name
  | _ => none

/-- The labels that lines set, each with its section, from a section on. -/
def definitions (before : Section) : List Line → List (Section × String)
  | [] => []
  | line :: rest =>
    ((set? line).map (before, ·)).toList ++ definitions (sectionAfter before line) rest

/-- The label that a line jumps to. -/
def target? : Line → Option String
  | .instr opcode operands _ =>
    if opcode = "beq" ∨ opcode = "bne" then operands[2]?
    else if opcode = "b" ∨ opcode = "j" ∨ opcode = "jal" then operands[0]?
    else none
  | _ => none

/-- The label that a line takes an address or a word from: an operand that is not so many bytes from
where a register points. -/
def source? : Line → Option String
  | .instr opcode operands _ =>
    if opcode = "la" ∨ opcode = "lw" then
      operands[1]?.filter fun text => (Machine.indexed? text.toList).isNone
    else none
  | _ => none

section Registers

@[simp] theorem isReg_fp : IsReg Reg.fp := isReg_of_known (by simp)
@[simp] theorem isReg_sp : IsReg Reg.sp := isReg_of_known (by simp)
@[simp] theorem isReg_t0 : IsReg Reg.t0 := isReg_of_known (by simp)
end Registers

section Lines

def sectionOf (inData : Bool) : Section := if inData then .data else .text

def place? : Item → Option (Section × String)
  | .label name _ => some (.text, name)
  | .literal name _ | .global name _ => some (.data, name)
  | _ => none

theorem definitions_append (xs ys : List Line) : ∀ before, definitions before (xs ++ ys) =
    definitions before xs ++ definitions (xs.foldl sectionAfter before) ys := by
  induction xs with
  | nil => exact fun _ => rfl
  | cons x xs ih => exact fun before => by simp [definitions, ih]

/-- The lines of a part of the code set its label in its section. -/
theorem definitions_item {inData : Bool} {i : Item}
    (h : (Loading.textName? i).isSome → inData = false) :
    definitions (sectionOf inData) i.lines = (place? i).toList ∧
      i.lines.foldl sectionAfter (sectionOf inData) = sectionOf (dataAfter inData i) := by
  cases i with
  | label name comment =>
    obtain rfl := h rfl
    exact ⟨rfl, rfl⟩
  | global name words => cases words <;> exact ⟨rfl, rfl⟩
  | start isMain => cases isMain <;> exact ⟨rfl, rfl⟩
  | _ => exact ⟨rfl, rfl⟩

theorem definitions_items {items : List Item} : ∀ {inData : Bool}, Sectioned inData items →
    definitions (sectionOf inData) (linesOf items) = items.filterMap place? := by
  induction items with
  | nil => exact fun _ => rfl
  | cons i is ih =>
    rintro inData ⟨hsection, hrest⟩
    obtain ⟨hset, hafter⟩ := definitions_item hsection
    rw [linesOf, List.flatMap_cons, definitions_append, hset, hafter]
    rw [show List.flatMap Item.lines is = linesOf is from rfl, ih hrest]
    cases hplace : place? i <;> simp [hplace]

theorem map_place (items : List Item) : (items.filterMap place?).map Prod.snd = Code.labels items := by
  rw [Code.labels, List.map_filterMap]
  congr 1
  funext i
  cases i <;> rfl

/-- Only instructions jump or refer to labels. -/
theorem op_of_line {line : Line} {items : List Item} (h : line ∈ linesOf items)
    (hline : target? line ≠ none ∨ source? line ≠ none) :
    ∃ i comment, .op i comment ∈ items ∧ line = .instr i.opcode i.operands comment := by
  obtain ⟨item, hitem, hmem⟩ := List.mem_flatMap.mp h
  cases item with
  | op i comment => exact ⟨i, comment, hitem, List.mem_singleton.mp hmem⟩
  | label name comment =>
    obtain rfl := List.mem_singleton.mp hmem
    simp [target?, source?] at hline
  | literal name text =>
    simp only [Item.lines, List.mem_cons, List.not_mem_nil, or_false] at hmem
    rcases hmem with rfl | rfl | rfl <;> simp [target?, source?] at hline
  | global name words =>
    cases words <;> simp only [Item.lines, List.mem_cons, List.not_mem_nil, or_false] at hmem <;>
      rcases hmem with rfl | rfl | rfl <;> simp [target?, source?] at hline
  | start isMain =>
    cases isMain <;> simp [Item.lines] at hmem
    · rcases hmem with rfl | rfl <;> simp [target?, source?] at hline
    · rcases hmem with rfl | rfl | rfl <;> simp [target?, source?] at hline
  | note name size =>
    obtain rfl := List.mem_singleton.mp hmem
    simp [target?, source?] at hline

variable {T D : String → Prop} {l : String} {i : Instr} {comment : String}

theorem target_of_plain (h : Plain T D i)
    (hl : target? (.instr i.opcode i.operands comment) = some l) : T l := by
  cases i with
  | compute op rd rs value => cases op <;> simp [target?, Instr.opcode, Calc.opcode] at hl
  | beq rs rt target | bne rs rt target =>
    simp only [target?, Instr.opcode, Instr.operands] at hl
    obtain rfl : target = l := by simpa using hl
    exact h.2.2
  | b target | j target | jal target =>
    simp only [target?, Instr.opcode, Instr.operands] at hl
    obtain rfl : target = l := by simpa using hl
    exact h
  | _ => simp [target?, Instr.opcode] at hl

theorem source_of_plain (h : Plain T D i)
    (hl : source? (.instr i.opcode i.operands comment) = some l) : D l := by
  cases i with
  | compute op rd rs value => cases op <;> simp [source?, Instr.opcode, Calc.opcode] at hl
  | la r place | lw r place =>
    cases place with
    | label name =>
      simp [source?, Instr.opcode, Instr.operands, Address.text, Option.filter_eq_some_iff] at hl
      obtain ⟨rfl, -⟩ := hl
      exact h.2
    | indexed offset base =>
      have hbase : IsReg base := isReg_of_known h.2
      have hindexed := Machine.indexed?_text offset hbase
      simp [source?, Instr.opcode, Instr.operands, Option.filter_eq_some_iff] at hl
      simp [← hl.1, hindexed] at hl
  | _ => simp [source?, Instr.opcode] at hl

end Lines

section Programs

variable {lit : String → Prop} {a : Analysis} {p : Program} {globals : Scope}

/-- The functions and global variables of a program have labels. -/
theorem known_of_analysed (h : Analysed lit a p globals) :
    Known (fun l => ∃ comment, .label l comment ∈ codeOf a p)
      (fun l => ∃ words, .global l words ∈ codeOf a p) (shape (envOf a).arena) [globals] where
  calls {x i f} hx hf := by
    have hx : globals.lookup x = some i := by simpa [find] using hx
    rcases decl_of_lookup h.decls hx with hnil | ⟨pre, d, post, visible, hds, -, -, hdecl⟩
    · simp at hnil
    have hf : shape a.arena i = some (.func f) := hf
    cases d with
    | fn d =>
      obtain ⟨-, f', hf', hname, -⟩ := hdecl
      obtain rfl : f = f' := by simpa [hf] using hf'
      refine ⟨"FUNCTION " ++ d.name.name, ?_⟩
      rw [codeOf, hds, decls_append, List.mem_append]
      right
      simp [Code.decls, Code.decl, Code.function, Code.entry, hname]
    | var d =>
      obtain ⟨-, u, hu, -⟩ := hdecl
      simp [hf] at hu
    | struct d =>
      obtain ⟨-, u, hu⟩ := hdecl
      simp [hf] at hu
    | misfit span kind => exact hdecl.elim
  globals {x i v} hx hv _ := by
    have hx : globals.lookup x = some i := by simpa [find] using hx
    obtain ⟨u, hu, rfl⟩ := shape_var hv
    obtain ⟨-, hname, hmem⟩ := h.global hx hu
    exact ⟨_, by rw [← hname] at hmem; exact hmem⟩

/-- The labels of the assembly of an accepted text are unique and closed: none of them is set twice,
branches, jumps and calls go to labels of the text, and addresses and words are taken from labels of
the data. -/
theorem labels_unique_and_closed {text file : String} {lines : List Line}
    (haccepts : Accepts text file a) (hlower : a.lower = .ok lines) :
    ((definitions .text lines).map Prod.snd).Nodup ∧
    (∀ line ∈ lines, ∀ l ∈ target? line, (.text, l) ∈ definitions .text lines) ∧
    ∀ line ∈ lines, ∀ l ∈ source? line, (.data, l) ∈ definitions .text lines := by
  obtain ⟨p, globals, h⟩ := haccepts.analysed fun _ hlex => Grammar.tokens_ok hlex
  obtain ⟨-, rfl⟩ := writable_of_lower h haccepts.quiet hlower
  -- the labels that are known are those that the code sets
  let T := fun l => ((.text, l) : Section × String) ∈ (codeOf a p).filterMap place?
  let D := fun l => ((.data, l) : Section × String) ∈ (codeOf a p).filterMap place?
  have hsets : ∀ i ∈ codeOf a p, Sets T D i := by
    intro i hi
    cases i with
    | label name comment => exact List.mem_filterMap.mpr ⟨_, hi, rfl⟩
    | literal name value => exact List.mem_filterMap.mpr ⟨_, hi, rfl⟩
    | global name words => exact List.mem_filterMap.mpr ⟨_, hi, rfl⟩
    | _ => trivial
  have hknown : Known T D (shape (envOf a).arena) [globals] := by
    have hknown := known_of_analysed h
    refine ⟨fun hx hf => ?_, fun hx hv hglobal => ?_⟩
    · obtain ⟨comment, hmem⟩ := hknown.calls hx hf
      exact List.mem_filterMap.mpr ⟨_, hmem, rfl⟩
    · obtain ⟨words, hmem⟩ := hknown.globals hx hv hglobal
      exact List.mem_filterMap.mpr ⟨_, hmem, rfl⟩
  obtain ⟨hpieces, hsectioned⟩ := pieces_decls h.symbols hknown h.decls hsets
  have hdefinitions : definitions .text (linesOf (codeOf a p)) = (codeOf a p).filterMap place? :=
    definitions_items (hsectioned false)
  rw [hdefinitions, map_place]
  refine ⟨Code.labels_nodup h.decls _, fun line hline l hl => ?_, fun line hline l hl => ?_⟩
  · obtain ⟨i, comment, hmem, rfl⟩ := op_of_line hline (.inl (by simp [Option.mem_def.mp hl]))
    exact target_of_plain (hpieces _ hmem).1 hl
  · obtain ⟨i, comment, hmem, rfl⟩ := op_of_line hline (.inr (by simp [Option.mem_def.mp hl]))
    exact source_of_plain (hpieces _ hmem).1 hl

/-- The lines that are written for the sample. -/
def sampleLines : List Line := sampleAnalysis.lower.toOption.getD []

theorem sample_lower : sampleAnalysis.lower = .ok sampleLines := by
  have hcode := sample_code
  unfold sampleLines
  cases hlower : sampleAnalysis.lower with
  | ok lines => rfl
  | error fault => simp [Analysis.assembly, hlower] at hcode

theorem sample_call_closed : ((definitions .text sampleLines).map Prod.snd).Nodup ∧
    (.text, "_f") ∈ definitions .text sampleLines :=
  have h := labels_unique_and_closed sample_accepts sample_lower
  ⟨h.1, h.2.1 (.instr "jal" ["_f"] "") (by decide +kernel) "_f" rfl⟩

end Programs

end CMinusMinus.Proofs.References
