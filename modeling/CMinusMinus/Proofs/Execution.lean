import CMinusMinus.Machine.Run
import CMinusMinus.Proofs.Numerals

/-!
What one step of the machine does, said of instructions and not of their texts. A written
instruction is carried out as `effect` says, provided its texts can be read back: its numbers keep to
the limit of digits, its registers are registers, and its labels do not look like anything else.
-/
namespace CMinusMinus.Machine

open Assembly

namespace State

/-- The word at an address. -/
def load (s : State) (a : Int) : Int := s.memory.getD a 0

def store (s : State) (a v : Int) : State := { s with memory := s.memory.insert a v }

def moveTo (s : State) (pc : Int) : State := { s with pc }

def next (s : State) : State := s.moveTo (s.pc + 1)

section Observations

variable (s : State) (r q : String) (a b v : Int)

@[simp] theorem load_store : (s.store a v).load b = if a = b then v else s.load b := by
  simp [load, store, Std.TreeMap.getD_insert, Std.LawfulEqCmp.compare_eq_iff_eq]

@[simp] theorem reg_store : (s.store a v).reg q = s.reg q := rfl
@[simp] theorem pc_store : (s.store a v).pc = s.pc := rfl
@[simp] theorem output_store : (s.store a v).output = s.output := rfl
@[simp] theorem inputs_store : (s.store a v).inputs = s.inputs := rfl

@[simp] theorem load_moveTo : (s.moveTo b).load a = s.load a := rfl
@[simp] theorem reg_moveTo : (s.moveTo b).reg q = s.reg q := rfl
@[simp] theorem pc_moveTo : (s.moveTo b).pc = b := rfl
@[simp] theorem output_moveTo : (s.moveTo b).output = s.output := rfl
@[simp] theorem inputs_moveTo : (s.moveTo b).inputs = s.inputs := rfl

@[simp] theorem moveTo_moveTo : (s.moveTo a).moveTo b = s.moveTo b := rfl

@[simp] theorem load_next : s.next.load a = s.load a := rfl
@[simp] theorem reg_next : s.next.reg q = s.reg q := rfl
@[simp] theorem pc_next : s.next.pc = s.pc + 1 := rfl
@[simp] theorem output_next : s.next.output = s.output := rfl
@[simp] theorem inputs_next : s.next.inputs = s.inputs := rfl

@[simp] theorem load_setReg : (s.setReg r v).load a = s.load a := by
  unfold setReg; split <;> rfl
@[simp] theorem pc_setReg : (s.setReg r v).pc = s.pc := by
  unfold setReg; split <;> rfl
@[simp] theorem output_setReg : (s.setReg r v).output = s.output := by
  unfold setReg; split <;> rfl
@[simp] theorem inputs_setReg : (s.setReg r v).inputs = s.inputs := by
  unfold setReg; split <;> rfl

@[simp] theorem reg_setReg :
    (s.setReg r v).reg q = if q = "$zero" then 0 else if q = r then wrap v else s.reg q := by
  by_cases hr : r = "$zero"
  · subst hr
    by_cases hq : q = "$zero" <;> simp [setReg, reg, hq]
  · by_cases hq : q = "$zero"
    · simp [reg, hq]
    · by_cases hqr : q = r
      · simp [setReg, reg, hr, hqr]
      · have hrq : ¬ r = q := fun h => hqr h.symm
        simp [setReg, reg, hr, hq, hqr, Std.TreeMap.getD_insert, hrq]

@[simp] theorem reg_zero : s.reg "$zero" = 0 := by simp [reg]

end Observations

end State

def IsReg (r : String) : Prop :=
  ∃ name, r.toList = '$' :: name ∧ name ≠ [] ∧ ∀ c ∈ name, Text.isWordChar c

def Legible.Place : Address → Prop
  | .label name => indexed? name.toList = none
  | .indexed _ base => IsReg base

def Legible.Value : Operand → Prop
  | .reg r => IsReg r
  | .imm _ => True

/-- The texts of an instruction can be read back, its numbers apart. -/
def Legible : Instr → Prop
  | .la _ place | .lw _ place | .sw _ place => Legible.Place place
  | .compute _ _ _ value => Legible.Value value
  | .beq _ rt _ | .bne _ rt _ => IsReg rt
  | _ => True

def locate? (image : Image) (s : State) : Address → Option Int
  | .label name => image.dataLabels[name]?
  | .indexed offset base => some (s.reg base + offset)

def operandOf (s : State) : Operand → Int
  | .reg r => s.reg r
  | .imm value => value

def withPlace (image : Image) (s : State) (place : Address)
    (f : Int → State) : EStateM.Result Error State Bool :=
  match locate? image s place with
  | some a => .ok false (f a)
  | none => .error (.badAddress place.text) s

def goto (image : Image) (s : State) (target : String) : EStateM.Result Error State Bool :=
  match image.textLabels[target]? with
  | some index => .ok false (s.moveTo index)
  | none => .error (.unknownLabel target) s

/-- What an instruction does, from a state that would go on at the next one. -/
def effect (image : Image) (s : State) : Instr → EStateM.Result Error State Bool
  | .li rd value => .ok false (s.setReg rd value)
  | .la rd place => withPlace image s place fun a => s.setReg rd a
  | .lw rd place => withPlace image s place fun a => s.setReg rd (s.load a)
  | .sw rs place => withPlace image s place fun a => s.store a (s.reg rs)
  | .move rd rs => .ok false (s.setReg rd (s.reg rs))
  | .compute op rd rs value =>
    match calculate op (s.reg rs) (operandOf s value) with
    | .ok n => .ok false (s.setReg rd n)
    | .error e => .error e s
  | .beq rs rt target => if s.reg rs = s.reg rt then goto image s target else .ok false s
  | .bne rs rt target => if s.reg rs ≠ s.reg rt then goto image s target else .ok false s
  | .b target | .j target => goto image s target
  | .jal target => goto image (s.setReg "$ra" s.pc) target
  | .jr rs => .ok false (s.moveTo (s.reg rs))
  | .syscall => service image s

theorem valueOf_reg {r : String} (h : IsReg r) (s : State) : valueOf r s = .ok (s.reg r) s := by
  obtain ⟨name, hname, -, -⟩ := h
  rw [valueOf, hname]
  rfl

theorem valueOf_number {n : Int} (h : Text.isWritable n) (s : State) :
    valueOf (toString n) s = .ok n s := by
  have hhead : (toString n).toList.head? ≠ some '$' := by
    intro hc
    have hmem := List.mem_of_head? hc
    rcases Proofs.Numerals.isDigit_of_mem_toString hmem with hc | hc <;> exact absurd hc (by decide)
  rw [valueOf, if_neg hhead, Proofs.Numerals.number_toString h]
  rfl

theorem valueOf_text {value : Operand} (hlegible : Legible.Value value)
    (hnumbers : ∀ n ∈ value.numbers, Text.isWritable n) (s : State) :
    valueOf value.text s = .ok (operandOf s value) s := by
  cases value with
  | reg r => exact valueOf_reg hlegible s
  | imm n => exact valueOf_number (hnumbers n (by simp [Operand.numbers])) s

/-- A run of characters that pass a test, before one that does not. -/
theorem takeWhile_append_cons {p : Char → Bool} {cs : List Char} {c : Char} (rest : List Char)
    (hcs : ∀ x ∈ cs, p x) (hc : p c = false) :
    (cs ++ c :: rest).takeWhile p = cs ∧ (cs ++ c :: rest).dropWhile p = c :: rest := by
  induction cs with
  | nil => simp [hc]
  | cons x xs ih =>
    have hx := hcs x (by simp)
    have hxs := ih fun y hy => hcs y (List.mem_cons_of_mem _ hy)
    simp [hx, hxs]

/-- A place given by a register is read back as it was written. -/
theorem indexed?_text (offset : Int) {base : String} (h : IsReg base) :
    indexed? (Address.indexed offset base).text.toList = some ((toString offset).toList, base) := by
  obtain ⟨name, hname, hne, hword⟩ := h
  have htext : (Address.indexed offset base).text.toList =
      (toString offset).toList ++ '(' :: '$' :: (name ++ [')']) := by
    simp only [Address.text, String.toList_append]
    show _ ++ ['('] ++ base.toList ++ [')'] = _
    simp [hname]
  have hbase : String.ofList ('$' :: name) = base := by rw [← hname, String.ofList_toList]
  obtain ⟨htake, hdrop⟩ := takeWhile_append_cons [] hword (by decide +kernel : Text.isWordChar ')' = false)
  -- the digits of the offset, before the bracket
  have hdigits : ∀ digits, (∀ c ∈ digits, c.isDigit) →
      (digits ++ '(' :: '$' :: (name ++ [')'])).takeWhile Text.isDecimal = digits ∧
      (digits ++ '(' :: '$' :: (name ++ [')'])).dropWhile Text.isDecimal =
        '(' :: '$' :: (name ++ [')']) := fun digits hd =>
    takeWhile_append_cons _ (fun c hc => Proofs.Numerals.isDecimal_of_isDigit (hd c hc)) (by decide)
  have hdigit : ∀ c ∈ Nat.toDigits 10 offset.natAbs, c.isDigit := fun c hc =>
    Nat.isDigit_of_mem_toDigits (by decide) (by decide) hc
  obtain ⟨hsome, hrest⟩ := hdigits _ hdigit
  obtain ⟨d, ds, hcons⟩ : ∃ d ds, Nat.toDigits 10 offset.natAbs = d :: ds :=
    List.exists_cons_of_ne_nil Nat.toDigits_ne_nil
  have hempty : name.isEmpty = false := by simpa using hne
  rw [htext, Proofs.Numerals.toList_toString]
  by_cases hneg : offset < 0
  · simp only [hneg, if_true, indexed?, List.cons_append, hsome, hrest]
    simp only [hcons, htake, hdrop, hempty, hbase]
    simp
  · have hsign : d ≠ '-' := by
      rintro rfl
      exact absurd (hdigit '-' (by simp [hcons])) (by decide)
    rw [if_neg hneg, indexed?]
    · rw [hsome, hrest, hcons]
      simp only [htake, hdrop, hempty, hbase]
      simp
    · rintro rest heq
      rw [hcons] at heq
      exact hsign (List.cons.inj heq).1

theorem addressOf_text (image : Image) {place : Address} (hlegible : Legible.Place place)
    (hnumbers : ∀ n ∈ place.numbers, Text.isWritable n) (s : State) :
    addressOf image place.text s = match locate? image s place with
      | some a => .ok a s
      | none => .error (.badAddress place.text) s := by
  cases place with
  | label name =>
    have hname : indexed? name.toList = none := hlegible
    simp only [addressOf, Address.text, hname, locate?]
    cases image.dataLabels[name]? <;> rfl
  | indexed offset base =>
    have hoffset := Proofs.Numerals.number_toString (hnumbers offset (by simp [Address.numbers]))
    simp only [addressOf, indexed?_text offset hlegible, hoffset]
    rfl

theorem bind_eq {α β : Type} (x : ExecM α) (f : α → ExecM β) (s : State) :
    (x >>= f) s = match x s with
      | .ok a s => f a s
      | .error e s => .error e s := by
  show EStateM.bind x f s = _
  rw [EStateM.bind]
  cases x s <;> rfl

theorem ofOpcode?_calc (op : Calc) : Op.ofOpcode? op.opcode = some (.compute op) := by
  cases op <;> rfl

theorem jump_eq (image : Image) (target : String) (s : State) :
    (do jump image target; return false : ExecM Bool) s = goto image s target := by
  simp only [jump, targetOf, goto]
  cases image.textLabels[target]? <;> rfl

/-- A written instruction is carried out as its effect says. -/
theorem exec_eq (image : Image) {i : Instr} (line : Nat) (s : State) (hlegible : Legible i)
    (hnumbers : ∀ n ∈ i.numbers, Text.isWritable n) :
    exec image ⟨i.opcode, i.operands, line⟩ s = effect image s i := by
  have hplace : ∀ {place : Address} {f : Int → State} {k : Int → ExecM Bool},
      Legible.Place place → (∀ n ∈ place.numbers, Text.isWritable n) →
      (∀ a, k a s = .ok false (f a)) →
      (addressOf image place.text >>= k) s = withPlace image s place f := by
    intro place f k hl hn hk
    rw [bind_eq, addressOf_text image hl hn, withPlace]
    cases locate? image s place with
    | none => rfl
    | some a => exact hk a
  cases i with
  | li rd value =>
    have hvalue := Proofs.Numerals.number_toString (hnumbers value (by simp [Instr.numbers]))
    simp only [exec, Instr.opcode, Instr.operands, Op.ofOpcode?, effect]
    show (ofExcept (number (toString value).toList) >>= _) s = _
    rw [hvalue]
    rfl
  | la rd place => exact hplace hlegible hnumbers fun a => rfl
  | lw rd place => exact hplace hlegible hnumbers fun a => rfl
  | sw rs place => exact hplace hlegible hnumbers fun a => rfl
  | move rd rs => rfl
  | compute op rd rs value =>
    have hvalue := valueOf_text hlegible hnumbers s
    simp only [exec, Instr.opcode, ofOpcode?_calc, Instr.operands, effect]
    show (valueOf value.text >>= _) s = _
    rw [bind_eq, hvalue]
    cases hc : calculate op (s.reg rs) (operandOf s value) <;> simp only [bind_eq, hc] <;> rfl
  | beq rs rt target =>
    show (valueOf rt >>= _) s = _
    rw [bind_eq, valueOf_reg hlegible]
    by_cases h : s.reg rs = s.reg rt
    · simp only [effect, h, if_true, ← jump_eq]
      rfl
    · simp only [effect, h, if_false]
      rfl
  | bne rs rt target =>
    show (valueOf rt >>= _) s = _
    rw [bind_eq, valueOf_reg hlegible]
    by_cases h : s.reg rs = s.reg rt
    · simp only [effect, h, ne_eq, not_true, if_false]
      rfl
    · simp only [effect, h, ne_eq, not_false_eq_true, if_true, ← jump_eq]
      rfl
  | b target => exact jump_eq image target s
  | j target => exact jump_eq image target s
  | jal target => exact jump_eq image target (s.setReg "$ra" s.pc)
  | jr rs => rfl
  | syscall => rfl

section Services

variable (image : Image) {α : Type} {s : State}

theorem reg_bind (name : String) (f : Int → ExecM α) : (reg name >>= f) s = f (s.reg name) s := rfl

theorem get_bind (f : State → ExecM α) : (get >>= f) s = f s s := rfl

theorem service_printInt (h : s.reg "$v0" = 1) : service image s =
    .ok false { s with output := s.output ++ toString (s.reg "$a0") } := by
  rw [service, reg_bind, if_pos h]
  rfl

theorem service_printText {text : String} (h : s.reg "$v0" = 4)
    (htext : image.texts[s.reg "$a0"]? = some text) : service image s =
    .ok false { s with output := s.output ++ text } := by
  rw [service, reg_bind, if_neg (by omega), if_pos h, reg_bind, htext]
  rfl

theorem service_readInt {n : Int} {inputs : List Int} (h : s.reg "$v0" = 5)
    (hinputs : s.inputs = n :: inputs) : service image s =
    .ok false ({ s with inputs }.setReg "$v0" n) := by
  rw [service, reg_bind, if_neg (by omega), if_neg (by omega), if_pos h, get_bind, hinputs]
  rfl

theorem service_exhausted (h : s.reg "$v0" = 5) (hinputs : s.inputs = []) :
    service image s = .error .inputExhausted s := by
  rw [service, reg_bind, if_neg (by omega), if_neg (by omega), if_pos h, get_bind, hinputs]
  rfl

theorem service_exit (h : s.reg "$v0" = 10) : service image s = .ok true s := by
  rw [service, reg_bind, if_neg (by omega), if_neg (by omega), if_neg (by omega), if_pos h]
  rfl

end Services

/-- An instruction stands at a place. -/
def Image.Has (image : Image) (pc : Int) (i : Instr) : Prop :=
  Legible i ∧ (∀ n ∈ i.numbers, Text.isWritable n) ∧
    ∃ line, image.fetch? pc = some ⟨i.opcode, i.operands, line⟩

/-- One step carries out the instruction that the machine has come to. -/
theorem step_eq {image : Image} {s : State} {i : Instr} (h : image.Has s.pc i) :
    step image s = effect image s.next i := by
  obtain ⟨hlegible, hnumbers, line, hfetch⟩ := h
  have hstep : step image s = exec image ⟨i.opcode, i.operands, line⟩ s.next := by
    rw [step, get_bind, hfetch]
    rfl
  rw [hstep, exec_eq image line s.next hlegible hnumbers]

end CMinusMinus.Machine
