import CMinusMinus.Proofs.Loading
import CMinusMinus.Proofs.Slots

/-!
The code of a well-formed program can be written and read back. Its registers are registers, its
labels are made from names or numbered, and the texts of its literals are those of the source.
-/
namespace CMinusMinus.Proofs.Spelling

open Assembly Machine Lowering WellFormed Rendering
open Code (Item)
open Loading (Ready Sectioned textName? dataAfter)

def IsKnown (r : Reg) : Prop := r ∈ [Reg.fp, .sp, .ra, .v0, .a0, .t0, .t1, .zero]

def PlainValue : Operand → Prop
  | .reg r => IsKnown r
  | .imm _ => True

section Plain

variable (T D : String → Prop)

/-- The register of a place is one, and its label is among those of the data. -/
def PlainPlace : Address → Prop
  | .label name => D name
  | .indexed _ base => IsKnown base

/-- The registers of an instruction are registers, and its labels among those of the text and of the
data. -/
def Plain : Instr → Prop
  | .li rd _ => IsKnown rd
  | .la r place | .lw r place | .sw r place => IsKnown r ∧ PlainPlace D place
  | .move rd rs => IsKnown rd ∧ IsKnown rs
  | .compute _ rd rs value => IsKnown rd ∧ IsKnown rs ∧ PlainValue value
  | .beq rs rt target | .bne rs rt target => IsKnown rs ∧ IsKnown rt ∧ T target
  | .b target | .j target | .jal target => T target
  | .jr rs => IsKnown rs
  | .syscall => True

end Plain

section Texts

theorem isReg_of_known {r : Reg} (h : IsKnown r) : IsReg r := by
  have hreg : ∀ name : List Char, name ≠ [] → name.all Char.isAlphanum →
      IsReg (String.ofList ('$' :: name)) := fun name hne hname =>
    ⟨name, by simp, hne, fun c hc => by simp [Text.isWordChar, List.all_eq_true.mp hname c hc]⟩
  simp only [IsKnown, List.mem_cons, List.not_mem_nil, or_false] at h
  rcases h with rfl | rfl | rfl | rfl | rfl | rfl | rfl | rfl
  · exact hreg ['f', 'p'] (by simp) (by decide)
  · exact hreg ['s', 'p'] (by simp) (by decide)
  · exact hreg ['r', 'a'] (by simp) (by decide)
  · exact hreg ['v', '0'] (by simp) (by decide)
  · exact hreg ['a', '0'] (by simp) (by decide)
  · exact hreg ['t', '0'] (by simp) (by decide)
  · exact hreg ['t', '1'] (by simp) (by decide)
  · exact hreg ['z', 'e', 'r', 'o'] (by simp) (by decide)

theorem operand_of_known {r : Reg} (h : IsKnown r) : Rendering.IsOperand r := by
  simp only [IsKnown, List.mem_cons, List.not_mem_nil, or_false] at h
  rcases h with rfl | rfl | rfl | rfl | rfl | rfl | rfl | rfl <;>
    simp [Rendering.IsOperand, Reg.fp, Reg.sp, Reg.ra, Reg.v0, Reg.a0, Reg.t0, Reg.t1, Reg.zero,
      Text.isBlank]

theorem operand_of_label {name : String} (h : IsLabel name) : Rendering.IsOperand name := by
  refine ⟨?_, fun c hc => ?_⟩
  · obtain ⟨c, cs, hname, -⟩ := h
    simp [hname]
  · have hpart := h.part c hc
    exact ⟨hpart.isBlank, hpart.ne (by decide), hpart.ne (by decide), hpart.ne (by decide)⟩

theorem operand_of_number (n : Int) : Rendering.IsOperand (toString n) := by
  refine ⟨Numerals.toString_ne_nil n, fun c hc => ?_⟩
  rcases Numerals.isDigit_of_mem_toString hc with rfl | hdigit
  · decide
  · refine ⟨Numerals.isBlank_of_isDigit hdigit, ?_, ?_, ?_⟩ <;> rintro rfl <;>
      exact absurd hdigit (by decide)

theorem operand_of_place {place : Address} (h : PlainPlace IsLabel place) : Rendering.IsOperand place.text := by
  cases place with
  | label name => exact operand_of_label h
  | indexed offset base =>
    have hoffset := operand_of_number offset
    have hbase := operand_of_known h
    have htext : (Address.indexed offset base).text.toList =
        (toString offset).toList ++ (['('] ++ (base.toList ++ [')'])) := by
      simp only [Address.text, String.toList_append]
      show _ ++ ['('] ++ base.toList ++ [')'] = _
      simp
    refine ⟨by simp [htext], fun c hc => ?_⟩
    rw [htext] at hc
    simp only [List.mem_append, List.mem_singleton] at hc
    rcases hc with hc | rfl | hc | rfl
    · exact hoffset.2 c hc
    · decide
    · exact hbase.2 c hc
    · decide

/-- A name does not start like a number. -/
theorem indexed?_of_label {name : String} (h : IsLabel name) : indexed? name.toList = none := by
  obtain ⟨c, cs, hname, hstart, hparts⟩ := h
  have hrange := (hparts c (by simp)).range
  have hdigit : ¬ (48 ≤ c.toNat ∧ c.toNat ≤ 57) := by
    have hcases : c.isAlpha ∨ c = '_' ∨ c = '.' ∨ c = '$' := by
      simpa [isLabelStart, or_assoc] using hstart
    rcases hcases with h | rfl | rfl | rfl
    · have := Numerals.range_of_isAlpha h
      omega
    · decide
    · decide
    · decide
  have hdecimal : Text.isDecimal c = false := by
    have hzeros : ∀ z ∈ Text.decimalZeros, z = 48 ∨ 1632 ≤ z := by decide
    have hnone : Text.decimalZeros.find? (fun z => z ≤ c.toNat && c.toNat ≤ z + 9) = none := by
      rw [List.find?_eq_none]
      intro z hz
      simp only [Bool.and_eq_true, decide_eq_true_eq, not_and]
      rcases hzeros z hz with rfl | hz <;> omega
    rw [Text.isDecimal, Text.decimalValue?, hnone]
    rfl
  have hminus : c ≠ '-' := (hparts c (by simp)).ne (by decide)
  rw [hname, indexed?]
  · simp [hdecimal]
  · simp [hminus]

theorem operands_of_plain {i : Instr} (h : Plain IsLabel IsLabel i) : ∀ o ∈ i.operands, Rendering.IsOperand o := by
  have hvalue : ∀ {value : Operand}, PlainValue value → Rendering.IsOperand value.text := by
    intro value hvalue
    cases value with
    | reg r => exact operand_of_known hvalue
    | imm n => exact operand_of_number n
  cases i with
  | li rd value =>
    simp only [Instr.operands, List.forall_mem_cons, List.not_mem_nil, false_imp_iff, implies_true,
      and_true]
    exact ⟨operand_of_known h, operand_of_number value⟩
  | la r place | lw r place | sw r place =>
    simp only [Instr.operands, List.forall_mem_cons, List.not_mem_nil, false_imp_iff, implies_true,
      and_true]
    exact ⟨operand_of_known h.1, operand_of_place h.2⟩
  | move rd rs =>
    simp only [Instr.operands, List.forall_mem_cons, List.not_mem_nil, false_imp_iff, implies_true,
      and_true]
    exact ⟨operand_of_known h.1, operand_of_known h.2⟩
  | compute op rd rs value =>
    simp only [Instr.operands, List.forall_mem_cons, List.not_mem_nil, false_imp_iff, implies_true,
      and_true]
    exact ⟨operand_of_known h.1, operand_of_known h.2.1, hvalue h.2.2⟩
  | beq rs rt target | bne rs rt target =>
    simp only [Instr.operands, List.forall_mem_cons, List.not_mem_nil, false_imp_iff, implies_true,
      and_true]
    exact ⟨operand_of_known h.1, operand_of_known h.2.1, operand_of_label h.2.2⟩
  | b target | j target | jal target =>
    simp only [Instr.operands, List.forall_mem_cons, List.not_mem_nil, false_imp_iff, implies_true,
      and_true]
    exact operand_of_label h
  | jr rs =>
    simp only [Instr.operands, List.forall_mem_cons, List.not_mem_nil, false_imp_iff, implies_true,
      and_true]
    exact operand_of_known h
  | syscall => simp [Instr.operands]

theorem legible_of_plain {i : Instr} (h : Plain IsLabel IsLabel i) : Legible i := by
  have hplace : ∀ {place : Address}, PlainPlace IsLabel place → Legible.Place place := by
    intro place hplace
    cases place with
    | label name => exact indexed?_of_label hplace
    | indexed offset base => exact isReg_of_known hplace
  cases i with
  | la r place | lw r place | sw r place => exact hplace h.2
  | compute op rd rs value =>
    cases value with
    | reg r => exact isReg_of_known h.2.2
    | imm n => trivial
  | beq rs rt target | bne rs rt target => exact isReg_of_known h.2.1
  | _ => trivial

end Texts

section Names

theorem isLabel_of_head {name : String} (hhead : name.toList.head?.any isLabelStart)
    (hparts : ∀ c ∈ name.toList, IsNamePart c) : IsLabel name := by
  cases hname : name.toList with
  | nil => simp [hname] at hhead
  | cons c cs => exact ⟨c, cs, hname, by simpa [hname] using hhead, hname ▸ hparts⟩

theorem isLabel_append {name text : String} (h : IsLabel name)
    (htext : ∀ c ∈ text.toList, IsNamePart c) : IsLabel (name ++ text) := by
  obtain ⟨first, front, hname, hfirst, hfront⟩ := h
  refine ⟨first, front ++ text.toList, by simp [hname], hfirst, ?_⟩
  intro c hc
  rw [← List.cons_append] at hc
  rcases List.mem_append.mp hc with hc | hc
  · exact hfront c hc
  · exact htext c hc

theorem isLabel_global {x : String} (h : IsWord x) : IsLabel (globalLabel x) :=
  isLabel_append (isLabel_of_head (by decide) (by simp [IsNamePart, Token.isWordPart]))
    fun c hc => .inl (h.2.2 c hc)

theorem isLabel_exit {x : String} (h : IsWord x) : IsLabel (exitLabel x) :=
  isLabel_append (isLabel_of_head (by decide) (by simp [IsNamePart, Token.isWordPart]))
    fun c hc => .inl (h.2.2 c hc)

theorem isLabel_function {x : String} (h : IsWord x) : IsLabel (functionLabel x) := by
  unfold functionLabel
  split
  · exact isLabel_of_head (by decide) (by simp [IsNamePart, Token.isWordPart])
  · exact isLabel_global h

/-- Numbered labels are labels. -/
theorem isLabel_numbered (kind : LabelKind) (c : Code.Counters) : IsLabel (Code.labelOf kind c) := by
  have hstem : IsLabel kind.stem := by
    refine isLabel_of_head ?_ ?_
    · cases kind <;> decide
    · cases kind <;> simp [LabelKind.stem, IsNamePart, Token.isWordPart]
  refine isLabel_append hstem fun x hx => ?_
  have hx : x ∈ Nat.toDigits 10 (c kind) := by simpa using hx
  have hdigit := Nat.isDigit_of_mem_toDigits (by decide) (by decide) hx
  exact .inl (by simp [Token.isWordPart, Char.isAlphanum, hdigit])

end Names

section Parts

variable (T D lit : String → Prop)

/-- A part of the code of a function. Its registers are registers, its labels are among those of the
text and of the data, and no comment breaks its line. -/
def Part : Item → Prop
  | .op i comment => Plain T D i ∧ Unbroken comment
  | .label name comment => T name ∧ Unbroken comment
  | .literal name text => D name ∧ lit text
  | .start _ => True
  | .global .. | .note .. => False

/-- A part of the code of a program. -/
def Piece : Item → Prop
  | .global name _ => D name
  | .note name _ => Unbroken name
  | i => Part T D lit i

/-- The label that a part of the code sets is among those of its section. -/
def Sets : Item → Prop
  | .label name _ => T name
  | .literal name _ | .global name _ => D name
  | _ => True

/-- The names in sight have labels: functions in the text, global variables in the data. -/
structure Known (σ : Symbols) (Γ : List Scope) : Prop where
  calls : ∀ {x i f}, find Γ x = some i → σ i = some (.func f) → T (functionLabel f.name)
  globals : ∀ {x i v}, find Γ x = some i → σ i = some (.var v) → v.isGlobal = true →
    D (globalLabel v.name)

variable {T D lit}

theorem Part.piece {i : Item} (h : Part T D lit i) : Piece T D lit i := by
  cases i with
  | global | note => exact h.elim
  | _ => exact h

@[simp] theorem unbroken_empty : Unbroken "" := by simp [Unbroken]

theorem unbroken_comments : ∀ comment ∈ ["PUSH", "POP", "FRAME", "load return address", "restore FP", "ARG ",
    "FUNCTION "], Unbroken comment := by
  simp [Unbroken, Text.isLineBreak]

@[simp] theorem isKnown_fp : IsKnown .fp := by simp [IsKnown]
@[simp] theorem isKnown_sp : IsKnown .sp := by simp [IsKnown]
@[simp] theorem isKnown_ra : IsKnown .ra := by simp [IsKnown]
@[simp] theorem isKnown_v0 : IsKnown .v0 := by simp [IsKnown]
@[simp] theorem isKnown_a0 : IsKnown .a0 := by simp [IsKnown]
@[simp] theorem isKnown_t0 : IsKnown .t0 := by simp [IsKnown]
@[simp] theorem isKnown_t1 : IsKnown .t1 := by simp [IsKnown]
@[simp] theorem isKnown_zero : IsKnown .zero := by simp [IsKnown]

section Pieces

variable {r : Reg} {v : Variable} (offset : Int)

theorem parts_push (h : IsKnown r) : ∀ i ∈ Code.push r, Part T D lit i := by
  have hcomment := unbroken_comments "PUSH" (by simp)
  simp [Code.push, Part, Plain, PlainPlace, PlainValue, h, hcomment]

theorem parts_pop (h : IsKnown r) : ∀ i ∈ Code.pop r, Part T D lit i := by
  have hcomment := unbroken_comments "POP" (by simp)
  simp [Code.pop, Part, Plain, PlainPlace, PlainValue, h, hcomment]

theorem parts_drop (words : Int) : ∀ i ∈ Code.drop words, Part T D lit i := by
  unfold Code.drop
  split <;> simp [Part, Plain, PlainValue]

theorem parts_service (number : Int) : ∀ i ∈ Code.service number, Part T D lit i := by
  simp [Code.service, Part, Plain]

theorem parts_unary (op : UnaryOp) : ∀ i ∈ Code.unary op, Part T D lit i := by
  cases op <;> simp [Code.unary, Part, Plain, PlainValue]

theorem parts_binary (op : BinaryOp) : ∀ i ∈ Code.binary op, Part T D lit i := by
  unfold Code.binary
  split <;> simp [Part, Plain, PlainValue]

theorem parts_address (h : v.isGlobal = true → D (globalLabel v.name)) (hr : IsKnown r) :
    ∀ i ∈ Code.address v offset r, Part T D lit i := by
  unfold Code.address
  split
  · rename_i hglobal
    split <;> simp [Part, Plain, PlainPlace, PlainValue, hr, h hglobal]
  · simp [Part, Plain, PlainPlace, hr]

theorem parts_fetch (h : v.isGlobal = true → D (globalLabel v.name)) :
    ∀ i ∈ Code.fetch v offset, Part T D lit i := by
  unfold Code.fetch
  split
  · rename_i hglobal
    split
    · simp [Part, Plain, PlainPlace, h hglobal]
    · rw [List.forall_mem_append]
      exact ⟨parts_address offset h isKnown_t0, by simp [Part, Plain, PlainPlace]⟩
  · simp [Part, Plain, PlainPlace]

end Pieces

section Inside

variable {env : Env} {Γ : List Scope}

/-- The variable that a location starts with is a local one, or its label is known. -/
theorem known_of_location (hknown : Known T D (shape env.arena) Γ) {e : Expr} {t : Ty}
    (htyped : Typed lit (shape env.arena) Γ e t) {v : Variable} {offset : Int}
    (h : Lowering.location env e = .ok (v, offset)) (hglobal : v.isGlobal = true) :
    D (globalLabel v.name) := by
  cases e with
  | ident x =>
    obtain ⟨i, s, hfind, hbinding, hs, -⟩ := htyped
    cases s with
    | var u =>
      obtain ⟨w, hw, rfl⟩ := shape_var hs
      rw [Lowering.location, variableOf_eq hbinding hw] at h
      obtain ⟨rfl, -⟩ := Prod.mk.inj (Except.ok.inj h)
      exact hknown.globals (v := { w with offset := 0 }) hfind hs hglobal
    | func f =>
      simp [Lowering.location, Lowering.variableOf, Lowering.symbolOf, hbinding, shape_func hs,
        Except.map] at h
    | struct d =>
      simp [Lowering.location, Lowering.variableOf, Lowering.symbolOf, hbinding, shape_struct hs,
        Except.map] at h
  | dot note obj field reached bad =>
    obtain ⟨u, hplace, -⟩ := htyped
    obtain ⟨x, path, i, root, last, m, -, hfind, hroot, hlocation, -, -⟩ := location_of_place hplace
    obtain ⟨rfl, -⟩ : root = v ∧ m = offset := by simpa [hlocation] using h
    exact hknown.globals (v := { root with offset := 0 }) hfind
      (by simp [shape, hroot, unplaced]) hglobal
  | _ => simp [Lowering.location] at h

theorem parts_onPlace (hknown : Known T D (shape env.arena) Γ) {e : Expr} {t : Ty}
    (htyped : Typed lit (shape env.arena) Γ e t) {items : Variable → Int → List Item}
    (h : ∀ v offset, (v.isGlobal = true → D (globalLabel v.name)) →
      ∀ i ∈ items v offset, Part T D lit i) : ∀ i ∈ Code.onPlace env e items, Part T D lit i := by
  unfold Code.onPlace
  split
  · rename_i v offset hlocation
    exact h v offset (known_of_location hknown htyped hlocation)
  · simp

theorem parts_invoke (hknown : Known T D (shape env.arena) Γ) {callee : Ident} {i : Int}
    {f : Function} (hfind : find Γ callee.name = some i) (hbinding : callee.binding = .symbol i)
    (hf : shape env.arena i = some (.func f)) (count : Nat) :
    ∀ i ∈ Code.invoke env callee count, Part T D lit i := by
  have hsymbol : Lowering.symbolOf env callee = .ok (.func f) := by
    simp [Lowering.symbolOf, hbinding, shape_func hf]
  simp only [Code.invoke, hsymbol, List.forall_mem_cons, List.forall_mem_append]
  exact ⟨⟨hknown.calls hfind hf, unbroken_empty⟩, parts_drop _, parts_push isKnown_v0⟩

theorem parts_count (hknown : Known T D (shape env.arena) Γ) {target : Expr} {t : Ty}
    (htyped : Typed lit (shape env.arena) Γ target t) (delta : Int) :
    ∀ i ∈ Code.count env target delta, Part T D lit i := by
  refine parts_onPlace hknown htyped fun v offset hv => ?_
  rw [List.forall_mem_append]
  exact ⟨parts_address offset hv isKnown_t1, by simp [Part, Plain, PlainPlace, PlainValue]⟩

mutual

/-- The code of an expression refers to labels of its own and to those in sight. -/
theorem parts_expr (hknown : Known T D (shape env.arena) Γ) : (e : Expr) → ∀ {t : Ty} {c : Code.Counters},
    Typed lit (shape env.arena) Γ e t → (∀ i ∈ Code.expr env e c, Sets T D i) →
    ∀ i ∈ Code.expr env e c, Part T D lit i
  | .int .., t, c, _, _ | .bool .., t, c, _, _ => by
    simp only [Code.expr, List.forall_mem_cons]
    exact ⟨⟨isKnown_t0, unbroken_empty⟩, parts_push isKnown_t0⟩
  | .string _ text, t, c, h, hsets => by
    simp only [Code.expr, List.forall_mem_cons] at hsets ⊢
    exact ⟨⟨hsets.1, h.2⟩, ⟨⟨isKnown_t0, hsets.1⟩, unbroken_empty⟩, parts_push isKnown_t0⟩
  | .ident x, t, c, h, _ => by
    rw [Code.expr]
    refine parts_onPlace hknown h fun v offset hv => ?_
    rw [List.forall_mem_append]
    exact ⟨parts_fetch offset hv, parts_push isKnown_t0⟩
  | .dot note obj field reached bad, t, c, h, _ => by
    rw [Code.expr]
    refine parts_onPlace hknown h fun v offset hv => ?_
    rw [List.forall_mem_append]
    exact ⟨parts_fetch offset hv, parts_push isKnown_t0⟩
  | .assign _ target value, t, c, h, hsets => by
    simp only [Code.expr, List.forall_mem_append] at hsets ⊢
    refine ⟨parts_expr hknown value h.2.2.2 hsets.1, parts_onPlace hknown h.2.2.1 fun v offset hv => ?_⟩
    simp only [List.forall_mem_append, List.forall_mem_cons]
    exact ⟨parts_address offset hv isKnown_t1, parts_pop isKnown_t0,
      ⟨⟨isKnown_t0, isKnown_t1⟩, unbroken_empty⟩, parts_push isKnown_t0⟩
  | .call _ callee args, t, c, h, hsets => by
    obtain ⟨i, f, hfind, hbinding, hf, -, hargs⟩ := h
    simp only [Code.expr, List.forall_mem_append] at hsets ⊢
    exact ⟨parts_exprs hknown args hargs hsets.1, parts_invoke hknown hfind hbinding hf _⟩
  | .unary _ op operand, t, c, h, hsets => by
    simp only [Code.expr, List.forall_mem_append] at hsets ⊢
    exact ⟨parts_expr hknown operand h.2 hsets.1, parts_pop isKnown_t0, parts_unary op, parts_push isKnown_t0⟩
  | .binary _ op left right, t, c, h, hsets => by
    obtain ⟨u, -, hleft, hright⟩ := h
    by_cases hop : op = .and ∨ op = .or
    · simp only [Code.expr, hop, if_true, Code.shortCut, List.forall_mem_append,
        List.forall_mem_cons] at hsets ⊢
      obtain ⟨hl, ⟨-, -, -, -, hrightLabel, -⟩, hr, hdone, -⟩ := hsets
      have hbranch : ∀ isAnd : Bool, Plain T D (if isAnd then
          .bne .t0 .zero (Code.labelOf .shortCircuit c)
          else .beq .t0 .zero (Code.labelOf .shortCircuit c)) := by
        intro isAnd
        cases isAnd <;> exact ⟨isKnown_t0, isKnown_zero, hrightLabel⟩
      exact ⟨parts_expr hknown left hleft hl, ⟨parts_pop isKnown_t0, ⟨hbranch _, unbroken_empty⟩,
        parts_push isKnown_t0, ⟨hdone, unbroken_empty⟩, ⟨hrightLabel, unbroken_empty⟩, by simp⟩,
        parts_expr hknown right hright hr, ⟨hdone, unbroken_empty⟩, by simp⟩
    · simp only [Code.expr, hop, if_false, List.forall_mem_append] at hsets ⊢
      exact ⟨parts_expr hknown left hleft hsets.1, parts_expr hknown right hright hsets.2.1,
        parts_pop isKnown_t1, parts_pop isKnown_t0, parts_binary op, parts_push isKnown_t0⟩
  | .misfit .., t, c, _, _ => by simp [Code.expr]

/-- The code of expressions refers to labels of its own and to those in sight. -/
theorem parts_exprs (hknown : Known T D (shape env.arena) Γ) : (es : List Expr) →
    ∀ {ts : List Ty} {c : Code.Counters}, TypedAll lit (shape env.arena) Γ es ts →
    (∀ i ∈ Code.exprs env es c, Sets T D i) → ∀ i ∈ Code.exprs env es c, Part T D lit i
  | [], ts, c, _, _ => by simp [Code.exprs]
  | e :: es, ts, c, h, hsets => by
    obtain ⟨t, rest, -, he, hes⟩ := h
    simp only [Code.exprs, List.forall_mem_append] at hsets ⊢
    exact ⟨parts_expr hknown e he hsets.1, parts_exprs hknown es hes hsets.2⟩

end

/-- Local variables hide labels, and add none. -/
theorem Known.enter (h : Known T D (shape env.arena) Γ) {ds : List VarDecl} {scope : Scope}
    (hdeclares : Declares (shape env.arena) ds scope) : Known T D (shape env.arena) (scope :: Γ) := by
  have hlocal : ∀ {ds scope}, Declares (shape env.arena) ds scope → ∀ {x i}, scope.lookup x = some i →
      ∃ v, shape env.arena i = some (.var v) ∧ v.isGlobal = false := by
    intro ds
    induction ds with
    | nil => rintro _ rfl x i hx; simp at hx
    | cons d ds ih =>
      rintro _ ⟨j, rest, rfl, -, hv, hrest⟩ x i hx
      rcases lookup_cons_cases hx with ⟨-, rfl⟩ | hx
      · exact hv
      · exact ih hrest hx
  have hcases : ∀ {x i}, find (scope :: Γ) x = some i →
      find Γ x = some i ∨ ∃ v, shape env.arena i = some (.var v) ∧ v.isGlobal = false := by
    intro x i hfind
    simp only [find, List.findSome?_cons] at hfind
    cases hx : scope.lookup x with
    | none => rw [hx] at hfind; exact .inl hfind
    | some j =>
      simp only [hx, Option.some.injEq] at hfind
      exact .inr (hlocal hdeclares (hfind ▸ hx))
  refine ⟨fun {x i f} hfind hf => ?_, fun {x i v} hfind hv hglobal => ?_⟩
  · rcases hcases hfind with hfind | ⟨v, hv, -⟩
    · exact h.calls hfind hf
    · simp [hf] at hv
  · rcases hcases hfind with hfind | ⟨u, hu, hlocal⟩
    · exact h.globals hfind hv hglobal
    · obtain rfl : v = u := by simpa [hv] using hu
      simp [hlocal] at hglobal

variable {function : String} {result : Ty}

mutual

/-- The code of a statement refers to labels of its own, to the end of its function and to those in
sight. -/
theorem parts_stmt (hexit : T (exitLabel function)) : (s : Stmt) → ∀ {Γ : List Scope} {c : Code.Counters},
    Known T D (shape env.arena) Γ → StmtOk lit (shape env.arena) Γ result s →
    (∀ i ∈ Code.stmt env function s c, Sets T D i) → ∀ i ∈ Code.stmt env function s c, Part T D lit i
  | .assign _ e, Γ, c, hknown, h, hsets => by
    obtain ⟨t, -, he⟩ := h
    simp only [Code.stmt, List.forall_mem_append] at hsets ⊢
    exact ⟨parts_expr hknown e he hsets.1, parts_pop isKnown_t0⟩
  | .increment _ target, Γ, c, hknown, h, _ | .decrement _ target, Γ, c, hknown, h, _ => by
    rw [Code.stmt]
    exact parts_count hknown h.2 _
  | .read _ target, Γ, c, hknown, h, _ => by
    obtain ⟨-, t, -, htyped⟩ := h
    simp only [Code.stmt, List.forall_mem_append]
    refine ⟨parts_service _, parts_onPlace hknown htyped fun v offset hv => ?_⟩
    rw [List.forall_mem_append]
    exact ⟨parts_address offset hv isKnown_t0, by simp [Part, Plain, PlainPlace]⟩
  | .write _ e, Γ, c, hknown, h, hsets => by
    obtain ⟨t, -, -, he⟩ := h
    simp only [Code.stmt, List.forall_mem_append] at hsets ⊢
    exact ⟨parts_expr hknown e he hsets.1, parts_pop isKnown_a0, parts_service _⟩
  | .ifThen _ cond body, Γ, c, hknown, h, hsets => by
    simp only [Code.stmt, List.forall_mem_append, List.forall_mem_cons] at hsets ⊢
    obtain ⟨hcond, -, -, hbody, hdone, -⟩ := hsets
    exact ⟨parts_expr hknown cond h.1 hcond, parts_pop isKnown_t0,
      ⟨⟨isKnown_t0, isKnown_zero, hdone⟩, unbroken_empty⟩, parts_block hexit body hknown h.2 hbody,
      ⟨hdone, unbroken_empty⟩, by simp⟩
  | .ifElse _ cond body other, Γ, c, hknown, h, hsets => by
    simp only [Code.stmt, List.forall_mem_append, List.forall_mem_cons] at hsets ⊢
    obtain ⟨hcond, -, -, hbody, -, hotherwise, hother, hdone, -⟩ := hsets
    exact ⟨parts_expr hknown cond h.1 hcond, parts_pop isKnown_t0,
      ⟨⟨isKnown_t0, isKnown_zero, hotherwise⟩, unbroken_empty⟩, parts_block hexit body hknown h.2.1 hbody,
      ⟨hdone, unbroken_empty⟩, ⟨hotherwise, unbroken_empty⟩, parts_block hexit other hknown h.2.2 hother,
      ⟨hdone, unbroken_empty⟩, by simp⟩
  | .loop _ cond body, Γ, c, hknown, h, hsets => by
    simp only [Code.stmt, List.forall_mem_append, List.forall_mem_cons] at hsets ⊢
    obtain ⟨hagain, hcond, -, -, hbody, -, hdone, -⟩ := hsets
    exact ⟨⟨hagain, unbroken_empty⟩, parts_expr hknown cond h.1 hcond, parts_pop isKnown_t0,
      ⟨⟨isKnown_t0, isKnown_zero, hdone⟩, unbroken_empty⟩, parts_block hexit body hknown h.2 hbody,
      ⟨hagain, unbroken_empty⟩, ⟨hdone, unbroken_empty⟩, by simp⟩
  | .call _ e, Γ, c, hknown, h, hsets => by
    obtain ⟨_, _, _, t, -, he⟩ := h
    simp only [Code.stmt, List.forall_mem_append] at hsets ⊢
    exact ⟨parts_expr hknown e he hsets.1, parts_pop isKnown_t0⟩
  | .ret _ none, Γ, c, _, _, _ => by
    rw [Code.stmt, List.forall_mem_singleton]
    exact ⟨hexit, unbroken_empty⟩
  | .ret _ (some e), Γ, c, hknown, h, hsets => by
    simp only [Code.stmt, List.forall_mem_append, List.forall_mem_singleton] at hsets ⊢
    exact ⟨parts_expr hknown e h.2 hsets.1, parts_pop isKnown_v0, hexit, unbroken_empty⟩
  | .misfit .., Γ, c, _, _, _ => by simp [Code.stmt]

/-- The code of statements refers to labels of its own, to the end of their function and to those in
sight. -/
theorem parts_stmts (hexit : T (exitLabel function)) : (ss : List Stmt) →
    ∀ {Γ : List Scope} {c : Code.Counters}, Known T D (shape env.arena) Γ →
    StmtsOk lit (shape env.arena) Γ result ss →
    (∀ i ∈ Code.stmts env function ss c, Sets T D i) → ∀ i ∈ Code.stmts env function ss c, Part T D lit i
  | [], Γ, c, _, _, _ => by simp [Code.stmts]
  | s :: ss, Γ, c, hknown, h, hsets => by
    simp only [Code.stmts, List.forall_mem_append] at hsets ⊢
    exact ⟨parts_stmt hexit s hknown h.1 hsets.1, parts_stmts hexit ss hknown h.2 hsets.2⟩

/-- The code of a block refers to labels of its own, to the end of its function and to those in
sight. -/
theorem parts_block (hexit : T (exitLabel function)) : (b : Block) →
    ∀ {Γ : List Scope} {c : Code.Counters}, Known T D (shape env.arena) Γ →
    BlockOk lit (shape env.arena) Γ result b →
    (∀ i ∈ Code.block env function b c, Sets T D i) → ∀ i ∈ Code.block env function b c, Part T D lit i
  | .mk _ _ body, Γ, c, hknown, h, hsets => by
    obtain ⟨scope, hdeclares, -, hbody⟩ := h
    rw [Code.block] at hsets ⊢
    exact parts_stmts hexit body (hknown.enter hdeclares) hbody hsets

end

end Inside

section Declarations

variable {env : Env}

theorem word_of_symbol (hσ : SymbolsOk (shape env.arena)) {i : Int} {symbol : Symbol}
    (h : env.arena.get? i = some symbol) : IsWord symbol.name := by
  have hok := hσ i (unplaced symbol) (by simp [shape, h])
  cases symbol with
  | var v => exact hok.1
  | func f => exact hok.1
  | struct d => exact hok.1

theorem symbol_of_symbolOf {x : Ident} {symbol : Symbol} (h : symbolOf env x = .ok symbol) :
    ∃ i, env.arena.get? i = some symbol := by
  unfold symbolOf at h
  split at h
  · cases h
  · cases h
  · split at h
    · rename_i hget
      obtain rfl := Except.ok.inj h
      exact ⟨_, hget⟩
    · cases h

theorem word_of_variable (hσ : SymbolsOk (shape env.arena)) {x : Ident} {v : Variable}
    (h : variableOf env x = .ok v) : IsWord v.name := by
  unfold variableOf at h
  split at h
  · cases h
  · rename_i u hu
    obtain ⟨i, hi⟩ := symbol_of_symbolOf hu
    obtain rfl : u = v := by simpa using h
    exact word_of_symbol hσ hi
  · cases h

theorem unbroken_word {x : String} (h : IsWord x) : Unbroken x := fun c hc =>
  isLineBreak_of_isBlank (IsNamePart.isBlank (.inl (h.2.2 c hc)))

theorem parts_prologue (frame : Int) : ∀ i ∈ Code.prologue frame, Part T D lit i := by
  have hcomment := unbroken_comments "FRAME" (by simp)
  unfold Code.prologue
  simp only [List.forall_mem_append, List.forall_mem_cons]
  refine ⟨parts_push isKnown_ra, parts_push isKnown_fp, by simp [Part, Plain, PlainValue], ?_⟩
  split <;> simp [Part, Plain, PlainValue, hcomment]

theorem parts_copyArguments (hσ : SymbolsOk (shape env.arena)) (ds : List VarDecl) :
    ∀ i ∈ Code.copyArguments env ds, Part T D lit i := by
  induction ds with
  | nil => simp [Code.copyArguments]
  | cons d ds ih =>
    unfold Code.copyArguments
    split
    · rename_i v hv
      have hcomment : Unbroken ("ARG " ++ v.name) :=
        unbroken_append.mpr ⟨unbroken_comments _ (by simp), unbroken_word (word_of_variable hσ hv)⟩
      simp only [List.forall_mem_cons]
      exact ⟨⟨⟨isKnown_t0, isKnown_fp⟩, hcomment⟩, ⟨⟨isKnown_t0, isKnown_fp⟩, unbroken_empty⟩, ih⟩
    · simp

theorem parts_epilogue (name : String) : ∀ i ∈ Code.epilogue name, Part T D lit i := by
  have hcomment := unbroken_comments "load return address" (by simp)
  have hcomment' := unbroken_comments "restore FP" (by simp)
  unfold Code.epilogue
  split
  · exact parts_service _
  · simp [Part, Plain, PlainPlace, hcomment, hcomment']

/-- The code of a function refers to labels of its own and to those in sight. -/
theorem parts_function (hσ : SymbolsOk (shape env.arena)) {visible : Scope}
    (hknown : Known T D (shape env.arena) [visible]) {d : FnDecl} {f : Function} (hword : IsWord d.name.name)
    (h : FnOk lit (shape env.arena) visible d f) {c : Code.Counters}
    (hsets : ∀ i ∈ Code.function env d c, Sets T D i) : ∀ i ∈ Code.function env d c, Part T D lit i := by
  obtain ⟨-, -, -, scope, hdeclares, -, hbody⟩ := h
  obtain ⟨span, result, name, formals, ⟨bodySpan, decls, body⟩⟩ := d
  have hcomment : Unbroken ("FUNCTION " ++ name.name) :=
    unbroken_append.mpr ⟨unbroken_comments _ (by simp), unbroken_word hword⟩
  simp only [Code.function, Code.entry, Code.block, List.forall_mem_append, List.forall_mem_cons] at hsets ⊢
  obtain ⟨⟨-, hstart, -⟩, hblock, hexit, -⟩ := hsets
  exact ⟨⟨trivial, ⟨hstart, hcomment⟩, parts_prologue _, parts_copyArguments hσ _⟩,
    parts_stmts hexit _ (hknown.enter hdeclares) hbody hblock, ⟨hexit, unbroken_empty⟩, parts_epilogue _⟩

theorem Known.visible {σ : Symbols} {visible globals : Scope} (h : Known T D σ [globals])
    (hvisible : visible <+: globals) : Known T D σ [visible] := by
  have hfind : ∀ {x i}, find [visible] x = some i → find [globals] x = some i := by
    intro x i hx
    have hx : visible.lookup x = some i := by simpa [find] using hx
    simpa [find] using lookup_of_prefix hvisible hx
  exact ⟨fun hx => h.calls (hfind hx), fun hx => h.globals (hfind hx)⟩

/-- The code of functions stays among the instructions. -/
theorem sectioned_append {items rest : List Item} (h : ∀ i ∈ items, Part T D lit i)
    (hrest : Sectioned false rest) : Sectioned false (items ++ rest) := by
  induction items with
  | nil => exact hrest
  | cons i is ih =>
    rw [List.forall_mem_cons] at h
    refine ⟨fun _ => rfl, ?_⟩
    have hstays : dataAfter false i = false := by
      cases i with
      | global => exact h.1.elim
      | _ => rfl
    rw [hstays]
    exact ih h.2

theorem word_of_fn (hσ : SymbolsOk (shape env.arena)) {i : Int} {f : Function}
    (hf : shape env.arena i = some (.func f)) {visible : Scope} {d : FnDecl}
    (h : FnOk lit (shape env.arena) visible d f) : IsWord d.name.name :=
  h.1 ▸ (hσ i _ hf : SymbolOk _ (.func f)).1

/-- The code of a program refers to labels of its own, and its labels stand in their sections. -/
theorem pieces_decls (hσ : SymbolsOk (shape env.arena)) {ds : List Decl} {globals : Scope}
    (hknown : Known T D (shape env.arena) [globals]) :
    ∀ {before : Scope} {c : Code.Counters}, DeclsOk lit (shape env.arena) before ds globals →
      (∀ i ∈ Code.decls env ds c, Sets T D i) →
      (∀ i ∈ Code.decls env ds c, Piece T D lit i) ∧ ∀ inData, Sectioned inData (Code.decls env ds c) := by
  induction ds with
  | nil => exact fun _ _ => ⟨by simp [Code.decls], fun _ => trivial⟩
  | cons d ds ih =>
    rintro before c ⟨i, -, hdecl, hrest⟩ hsets
    simp only [Code.decls, List.forall_mem_append] at hsets ⊢
    obtain ⟨hpieces, hsectioned⟩ := ih hrest hsets.2
    cases d with
    | var d =>
      obtain ⟨hbinding, v, hv, -⟩ := hdecl
      obtain ⟨u, hu, -⟩ := shape_var hv
      simp only [Code.decl, variableOf_eq hbinding hu, List.forall_mem_singleton] at hsets ⊢
      exact ⟨⟨hsets.1, hpieces⟩, fun _ => ⟨by simp [textName?], hsectioned _⟩⟩
    | struct d =>
      rw [Code.decl]
      split
      · rename_i s hs
        obtain ⟨j, hj⟩ := symbol_of_symbolOf hs
        have hname : IsWord s.name := word_of_symbol hσ hj
        rw [List.forall_mem_singleton]
        exact ⟨⟨unbroken_word hname, hpieces⟩, fun _ => ⟨by simp [textName?], hsectioned _⟩⟩
      · exact ⟨⟨by simp, hpieces⟩, hsectioned⟩
    | fn d =>
      obtain ⟨-, f, hf, hok⟩ := hdecl
      have hparts := parts_function hσ (hknown.visible (prefix_of_declsShape hrest))
        (word_of_fn hσ hf hok) hok hsets.1
      refine ⟨⟨fun j hj => (hparts j hj).piece, hpieces⟩, fun inData => ?_⟩
      rw [Code.decl]
      rw [Code.function, Code.entry, List.cons_append] at hparts ⊢
      exact ⟨by simp [textName?], sectioned_append (List.forall_mem_cons.mp hparts).2 (hsectioned _)⟩
    | misfit span kind => exact hdecl.elim

end Declarations

end Parts

section Spelled

variable {lit : String → Prop} {env : Env}

theorem known_labels (hσ : SymbolsOk (shape env.arena)) (Γ : List Scope) :
    Known IsLabel IsLabel (shape env.arena) Γ where
  calls _ hf := isLabel_function (hσ _ _ hf).1
  globals _ hv _ := isLabel_global (hσ _ _ hv).1

/-- What a declaration sets are labels. -/
theorem sets_decl (hσ : SymbolsOk (shape env.arena)) {visible : Scope} {i : Int} {d : Decl}
    (h : DeclOk lit (shape env.arena) visible i d) (c : Code.Counters) :
    ∀ item ∈ Code.decl env d c, Sets IsLabel IsLabel item := by
  have hnamed : ∀ l ∈ Code.labels (Code.decl env d c), IsWord (declName d) := by
    intro l hl
    cases d with
    | var d =>
      obtain ⟨-, v, hv, hname, -⟩ := h
      rw [declName, ← hname]
      exact (hσ i _ hv).1
    | struct d =>
      rw [Code.decl] at hl
      split at hl <;> simp [Code.labels, Item.label?] at hl
    | fn d =>
      obtain ⟨-, f, hf, hok⟩ := h
      exact word_of_fn hσ hf hok
    | misfit span kind => exact h.elim
  have hlabel : ∀ l ∈ Code.labels (Code.decl env d c), IsLabel l := by
    intro l hl
    have hword := hnamed l hl
    rcases (Code.fresh_decl h c).owned l hl with ⟨kind, n, rfl, -⟩ | ⟨x, hx, hl⟩
    · exact isLabel_numbered kind fun _ => n
    · obtain rfl := List.mem_singleton.mp hx
      rcases hl with rfl | rfl | rfl
      · exact isLabel_function hword
      · exact isLabel_exit hword
      · exact isLabel_global hword
  intro item hitem
  cases item with
  | label name | literal name | global name => exact hlabel name (List.mem_filterMap.mpr ⟨_, hitem, rfl⟩)
  | _ => trivial

theorem sets_decls (hσ : SymbolsOk (shape env.arena)) {ds : List Decl} : ∀ {before after : Scope}
    {c : Code.Counters}, DeclsOk lit (shape env.arena) before ds after →
      ∀ item ∈ Code.decls env ds c, Sets IsLabel IsLabel item := by
  induction ds with
  | nil => simp [Code.decls]
  | cons d ds ih =>
    rintro before after c ⟨i, -, hdecl, hrest⟩
    rw [Code.decls, List.forall_mem_append]
    exact ⟨sets_decl hσ hdecl c, ih hrest⟩

/-- The labels of the code of a program can be written, and stand in their sections. -/
theorem spelled_decls (hσ : SymbolsOk (shape env.arena)) {ds : List Decl} {before after : Scope}
    (h : DeclsOk lit (shape env.arena) before ds after) (c : Code.Counters) :
    (∀ i ∈ Code.decls env ds c, Piece IsLabel IsLabel lit i) ∧
      ∀ inData, Sectioned inData (Code.decls env ds c) :=
  pieces_decls hσ (known_labels hσ _) h (sets_decls hσ h)

def Lines (lit : String → Prop) : Prop := ∀ {text}, lit text → Literal text.toList ∧ Unbroken text

/-- A part of the code can be loaded, as far as its numbers can be written. -/
theorem ready_of_piece (hlit : Lines lit) {i : Item} (h : Piece IsLabel IsLabel lit i)
    (hwritable : ∀ n ∈ i.numbers, Text.isWritable n) : Ready i := by
  cases i with
  | op i comment =>
    refine ⟨⟨operands_of_plain h.1, h.2⟩, ?_, hwritable⟩
    rintro _ _ ⟨rfl, rfl⟩
    exact legible_of_plain h.1
  | label name comment => exact ⟨h, by simp, hwritable⟩
  | literal name text => exact ⟨⟨h.1, hlit h.2⟩, by simp, hwritable⟩
  | global name words =>
    refine ⟨⟨h, fun n hn => hwritable n ?_⟩, by simp, hwritable⟩
    rw [hn]
    simp [Item.numbers]
  | start isMain => exact ⟨trivial, by simp, hwritable⟩
  | note name size => exact ⟨h, by simp, hwritable⟩

end Spelled

end CMinusMinus.Proofs.Spelling
