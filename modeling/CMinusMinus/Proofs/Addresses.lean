import CMinusMinus.Proofs.Storage
import CMinusMinus.Proofs.Specimens

/-!
The layout of a function in the words of the machine. The sizes of structures are not limited, so that a
frame may be larger than the machine can address. Where the frame of a function is not, each of its words
has an address of its own, and the code that loads a word and the code that works out its address mean the
same one.
-/
namespace CMinusMinus.Proofs.Addresses

open Assembly Machine WellFormed
open Code (Item)
open Storage (WordAt Root blockPlaces)

/-- A word that an activation of a function keeps in its frame: the place to go back to, the frame pointer of
the caller, or what fields lead to in a variable, which is given by its symbol. -/
inductive Cell where
  | back
  | caller
  | word (i : Int) (path : List String)

/-- How many bytes a word of the frame of a function lies below the frame pointer. -/
def Cell.below? (arena : Arena) (d : FnDecl) : Cell → Option Int
  | .back => some 0
  | .caller => some wordSize
  | .word i path => if i ∈ declSlots (fnDecls d) then wordAt? arena i path else none

/-- Carries out code without jumps, one instruction after the other. -/
def perform (image : Image) : List Item → ExecM Unit
  | [] => return
  | .op i _ :: items => do
    let _ ← exec image ⟨i.opcode, i.operands, 0⟩
    perform image items
  | _ :: items => perform image items

/-- The code for the address of a word of a variable puts the address into a register, and the code that
loads the word loads it from there. -/
structure Agree (image : Image) (s : State) (v : Variable) (offset : Int) : Prop where
  address : ∀ r, r = Reg.t0 ∨ r = Reg.t1 → ∃ t, perform image (Code.address v offset r) s = .ok () t ∧
    t.reg r = addressOf image (s.reg Reg.fp) v offset ∧ ∀ b, t.load b = s.load b
  fetch : ∃ t, perform image (Code.fetch v offset) s = .ok () t ∧
    t.reg Reg.t0 = wrap (s.load (addressOf image (s.reg Reg.fp) v offset))

section Frames

variable {arena : Arena} {d : FnDecl} {frame : Int} {c c' : Cell} {n n' : Int}

/-- A word of a frame lies in it. -/
theorem below?_range (harena : ArenaOk arena) (hslots : Separate arena frame (declSlots (fnDecls d)))
    (hframe : 0 ≤ frame) (h : c.below? arena d = some n) : 0 ≤ n ∧ n + 4 ≤ 8 + frame := by
  cases c with
  | back =>
    obtain rfl := Option.some.inj h
    omega
  | caller =>
    obtain rfl := Option.some.inj h
    rw [show wordSize = 4 from rfl]
    omega
  | word i path =>
    obtain ⟨hi, hn⟩ := Option.ite_none_right_eq_some.mp h
    obtain ⟨v, b, hv, hb, rfl⟩ := wordAt?_eq_some hn
    obtain ⟨v', hv', -, hlow, hhigh⟩ := hslots.inFrame i hi
    obtain rfl : v = v' := by simpa [hv] using hv'
    have := fieldAt?_range harena hv hb
    omega

/-- Two words of variables that lie at one place are one word. -/
theorem word_inj (harena : ArenaOk arena) (hslots : Separate arena frame (declSlots (fnDecls d)))
    {i j : Int} {path path' : List String} (hi : i ∈ declSlots (fnDecls d)) (hj : j ∈ declSlots (fnDecls d))
    (h : wordAt? arena i path = some n) (h' : wordAt? arena j path' = some n) : i = j ∧ path = path' := by
  have hsymm : Std.Symm (Apart arena) := ⟨fun _ _ hapart => hapart.symm⟩
  obtain rfl : i = j := by
    by_contra hne
    exact (hslots.apart.forall hi hj hne).wordAt?_ne harena h h'
  obtain ⟨v, b, hv, hb, rfl⟩ := wordAt?_eq_some h
  obtain ⟨v', b', hv', hb', heq⟩ := wordAt?_eq_some h'
  obtain rfl : v = v' := by simpa [hv] using hv'
  obtain rfl : b = b' := by omega
  exact ⟨rfl, fieldAt?_inj harena hv hb' hb⟩

/-- Two words of a frame that lie at one place are one word. -/
theorem below?_inj (harena : ArenaOk arena) (hslots : Separate arena frame (declSlots (fnDecls d)))
    (h : c.below? arena d = some n) (h' : c'.below? arena d = some n) : c = c' := by
  have hword : ∀ {i path m}, (Cell.word i path).below? arena d = some m → 8 ≤ m := by
    intro i path m h
    obtain ⟨hi, hm⟩ := Option.ite_none_right_eq_some.mp h
    obtain ⟨v, b, hv, hb, rfl⟩ := wordAt?_eq_some hm
    obtain ⟨v', hv', -, hlow, -⟩ := hslots.inFrame i hi
    obtain rfl : v = v' := by simpa [hv] using hv'
    have := fieldAt?_range harena hv hb
    omega
  cases c with
  | back | caller =>
    cases h
    cases c' with
    | back | caller => first | rfl | simp [Cell.below?, wordSize] at h'
    | word i path => simpa [wordSize] using hword h'
  | word i path =>
    cases c' with
    | back | caller =>
      cases h'
      simpa [wordSize] using hword h
    | word j path' =>
      obtain ⟨hi, hn⟩ := Option.ite_none_right_eq_some.mp h
      obtain ⟨hj, hn'⟩ := Option.ite_none_right_eq_some.mp h'
      obtain ⟨rfl, rfl⟩ := word_inj harena hslots hi hj hn hn'
      rfl

/-- The words of a frame that the machine can address have addresses of their own. -/
theorem address_inj (harena : ArenaOk arena) (hslots : Separate arena frame (declSlots (fnDecls d)))
    (hframe : 0 ≤ frame) (hfits : 8 + frame ≤ 2 ^ 32) (h : c.below? arena d = some n)
    (h' : c'.below? arena d = some n') {fp : Int} (heq : (fp - n) % 2 ^ 32 = (fp - n') % 2 ^ 32) : c = c' := by
  have hrange := below?_range harena hslots hframe h
  have hrange' := below?_range harena hslots hframe h'
  obtain rfl : n = n' := by omega
  exact below?_inj harena hslots h h'

end Frames

section Machine

variable {image : Image} {s t : State} {v : Variable} {offset base : Int}

theorem perform_cons {i : Instr} {comment : String} {items : List Item} (hlegible : Legible i)
    (hnumbers : ∀ n ∈ i.numbers, Text.isWritable n) (h : effect image s i = .ok false t) :
    perform image (.op i comment :: items) s = perform image items t := by
  rw [perform, bind_eq, exec_eq image 0 s hlegible hnumbers, h]

theorem perform_append {items more : List Item} (h : perform image items s = .ok () t) :
    perform image (items ++ more) s = perform image more t := by
  induction items generalizing s with
  | nil =>
    obtain ⟨⟩ := h
    rfl
  | cons item items ih =>
    cases item with
    | op i comment =>
      rw [perform, bind_eq] at h
      rw [List.cons_append, perform, bind_eq]
      split at h
      · exact ih h
      · simp at h
    | _ => exact ih h

theorem legible_global (x : String) : Legible.Place (.label (globalLabel x)) := by
  have hletters : (globalLabel x).toList = '_' :: x.toList := by simp [globalLabel]
  rw [Legible.Place, hletters]
  rfl

/-- What the code for the address of a word of a variable and the code that loads the word do: each sets a
register, and nothing else. -/
structure Reaches (image : Image) (s : State) (v : Variable) (offset : Int) : Prop where
  address : ∀ r, r = Reg.t0 ∨ r = Reg.t1 → ∃ t, perform image (Code.address v offset r) s = .ok () t ∧
    Activation.Sets r (addressOf image (s.reg Reg.fp) v offset) s t
  fetch : ∃ t, perform image (Code.fetch v offset) s = .ok () t ∧
    Activation.Sets Reg.t0 (wrap (s.load (addressOf image (s.reg Reg.fp) v offset))) s t

theorem Reaches.agree (h : Reaches image s v offset) : Agree image s v offset where
  address r hr := by
    obtain ⟨t, ht, hset⟩ := h.address r hr
    exact ⟨t, ht, hset.reg, hset.load⟩
  fetch := by
    obtain ⟨t, ht, hset⟩ := h.fetch
    exact ⟨t, ht, hset.reg⟩

theorem sets_of_wrap {r : Reg} (hr : r ≠ "$zero") {n m : Int} (h : wrap n = m) :
    Activation.Sets r m s (s.setReg r n) := by
  have hset : Activation.Sets r m s (s.next.setReg r n) := h ▸ Activation.setReg_sets n hr
  exact ⟨by simpa using hset.reg, fun q hq => by simpa using hset.other q hq, by simp, by simp, by simp⟩

theorem ne_zero_of_temporary {r : Reg} (h : r = Reg.t0 ∨ r = Reg.t1) : r ≠ "$zero" := by
  rcases h with rfl | rfl <;> decide

/-- A local variable that lies in the range of addresses is reached. -/
theorem reaches_of_local (hlocal : v.isGlobal = false) (hhigh : s.reg Reg.fp < 2 ^ 31)
    (hlow : -2 ^ 31 ≤ s.reg Reg.fp - (v.offset + offset)) (hplace : 0 ≤ v.offset + offset) :
    Reaches image s v offset := by
  have haddress : addressOf image (s.reg Reg.fp) v offset = s.reg Reg.fp + -(v.offset + offset) := by
    simp [Proofs.addressOf, hlocal, Int.sub_eq_add_neg]
  have hwrap : wrap (s.reg Reg.fp + -(v.offset + offset)) = s.reg Reg.fp + -(v.offset + offset) :=
    wrap_of_fits (by omega) (by omega)
  have hnumbers : ∀ n ∈ [-(v.offset + offset)], Text.isWritable n := by
    rw [List.forall_mem_singleton]
    exact Numerals.isWritable_of_lt (by omega)
  constructor
  · intro r hr
    refine ⟨s.setReg r (s.reg Reg.fp + -(v.offset + offset)), ?_,
      sets_of_wrap (ne_zero_of_temporary hr) (haddress ▸ hwrap)⟩
    rw [Code.address, hlocal]
    exact perform_cons References.isReg_fp hnumbers rfl
  · refine ⟨s.setReg Reg.t0 (s.load (s.reg Reg.fp + -(v.offset + offset))), ?_,
      sets_of_wrap (by decide) (by rw [haddress])⟩
    rw [Code.fetch, hlocal]
    exact perform_cons References.isReg_fp hnumbers rfl

/-- A global variable that lies in the range of addresses is reached. -/
theorem reaches_of_global (hglobal : v.isGlobal = true)
    (hbase : image.dataLabels[globalLabel v.name]? = some base)
    (hlow : -2 ^ 31 ≤ base) (hhigh : base + offset < 2 ^ 31) (hoffset : 0 ≤ offset) :
    Reaches image s v offset := by
  have haddress : addressOf image (s.reg Reg.fp) v offset = base + offset := by
    simp [Proofs.addressOf, hglobal, hbase]
  have hplace : ∀ n ∈ (Address.label (globalLabel v.name)).numbers, Text.isWritable n := by
    simp [Address.numbers]
  have hwritable : ∀ n ∈ [offset], Text.isWritable n := by
    rw [List.forall_mem_singleton]
    exact Numerals.isWritable_of_lt (by omega)
  have hrun : ∀ r, r = Reg.t0 ∨ r = Reg.t1 → ∃ t, perform image (Code.address v offset r) s = .ok () t ∧
      Activation.Sets r (addressOf image (s.reg Reg.fp) v offset) s t := by
    intro r hr
    have hla : effect image s (.la r (.label (globalLabel v.name))) = .ok false (s.setReg r base) := by
      simp [effect, withPlace, locate?, hbase]
    have hlegible : Legible (.la r (.label (globalLabel v.name))) := legible_global v.name
    have hset : Activation.Sets r base s (s.setReg r base) :=
      sets_of_wrap (ne_zero_of_temporary hr) (wrap_of_fits hlow (by omega))
    rw [Code.address, hglobal, if_pos rfl, perform_cons hlegible hplace hla, haddress]
    by_cases hzero : offset = 0
    · refine ⟨s.setReg r base, by simp [hzero]; rfl, ?_⟩
      rwa [hzero, Int.add_zero]
    · have hset' : Activation.Sets r (base + offset) (s.setReg r base)
          ((s.setReg r base).setReg r (base + offset)) :=
        sets_of_wrap (ne_zero_of_temporary hr) (wrap_of_fits (by omega) hhigh)
      refine ⟨(s.setReg r base).setReg r (base + offset), ?_, hset'.reg, fun q hq => ?_, by simp, by simp,
        by simp⟩
      · rw [if_pos hzero]
        refine perform_cons trivial hwritable ?_
        simp only [effect, operandOf, hset.reg, calculate]
      · rw [hset'.other q hq, hset.other q hq]
  refine ⟨hrun, ?_⟩
  rw [Code.fetch, hglobal, if_pos rfl]
  by_cases hzero : offset = 0
  · refine ⟨s.setReg Reg.t0 (s.load base), ?_,
      sets_of_wrap (by decide) (by rw [haddress, hzero, Int.add_zero])⟩
    rw [if_pos hzero]
    refine perform_cons (legible_global v.name) hplace ?_
    simp [effect, withPlace, locate?, hbase]
  · have hfirst : ∀ n ∈ [(0 : Int)], Text.isWritable n := by
      rw [List.forall_mem_singleton]
      exact Numerals.isWritable_of_lt (by decide)
    obtain ⟨t, ht, hset⟩ := hrun Reg.t0 (.inl rfl)
    have hset' : Activation.Sets Reg.t0 (wrap (t.load (t.reg Reg.t0 + 0))) t
        (t.setReg Reg.t0 (t.load (t.reg Reg.t0 + 0))) := sets_of_wrap (by decide) rfl
    refine ⟨t.setReg Reg.t0 (t.load (t.reg Reg.t0 + 0)), ?_, ?_, fun q hq => ?_, ?_, ?_, ?_⟩
    · rw [if_neg hzero, perform_append ht]
      exact perform_cons References.isReg_t0 hfirst rfl
    · rw [hset'.reg, Int.add_zero, hset.reg, hset.load]
    · rw [hset'.other q hq, hset.other q hq]
    · simpa using hset.load
    · simpa using hset.inputs
    · simpa using hset.output

/-- The two kinds of code agree on a local variable that lies in the range of addresses. -/
theorem agree_of_local (hlocal : v.isGlobal = false) (hhigh : s.reg Reg.fp < 2 ^ 31)
    (hlow : -2 ^ 31 ≤ s.reg Reg.fp - (v.offset + offset)) (hplace : 0 ≤ v.offset + offset) :
    Agree image s v offset :=
  (reaches_of_local hlocal hhigh hlow hplace).agree

/-- The two kinds of code agree on a global variable that lies in the range of addresses. -/
theorem agree_of_global (hglobal : v.isGlobal = true) (hbase : image.dataLabels[globalLabel v.name]? = some base)
    (hlow : -2 ^ 31 ≤ base) (hhigh : base + offset < 2 ^ 31) (hoffset : 0 ≤ offset) :
    Agree image s v offset :=
  (reaches_of_global hglobal hbase hlow hhigh hoffset).agree

end Machine

section Programs

variable {text file : String} {a : Analysis} {p : Program} {d : FnDecl}

/-- The frame of a function of an accepted program holds its variables and all of its words. If it is not
larger than the machine can address, its words have addresses of their own; and wherever its addresses fit
into registers, and those of the global variables, the code that loads a word and the code that works out its
address agree. -/
theorem frame_words_have_own_addresses (haccepts : Accepts text file a) (hp : a.program = some p)
    (hd : .fn d ∈ p.decls) : ∃ frame, a.frames.lookup d.name.name = some frame ∧ 0 ≤ frame ∧
    (∀ i ∈ declSlots (fnDecls d), ∃ v, a.arena.get? i = some (.var v) ∧ 0 < v.size ∧ v.size ≤ frame ∧
      8 ≤ v.offset ∧ v.offset + v.size ≤ 8 + frame) ∧
    (∀ {c : Cell} {n}, c.below? a.arena d = some n → 0 ≤ n ∧ n + 4 ≤ 8 + frame) ∧
    (8 + frame ≤ 2 ^ 32 → ∀ (c c' : Cell) (n n' fp : Int), c.below? a.arena d = some n →
      c'.below? a.arena d = some n' → (fp - n) % 2 ^ 32 = (fp - n') % 2 ^ 32 → c = c') ∧
    ∀ e ∈ blockPlaces d.body, ∃ i path v offset, WordAt a.arena e i path ∧
      Lowering.location (envOf a) e = .ok (v, offset) ∧ 0 ≤ offset ∧ offset + 4 ≤ v.size ∧
      if v.isGlobal then ∀ image s base, image.dataLabels[globalLabel v.name]? = some base → -2 ^ 31 ≤ base →
        base + offset < 2 ^ 31 → Agree image s v offset
      else (Cell.word i path).below? a.arena d = some (v.offset + offset) ∧
        ∀ image s, -2 ^ 31 ≤ s.reg Reg.fp - (4 + frame) → s.reg Reg.fp < 2 ^ 31 → Agree image s v offset := by
  obtain ⟨q, globals, h⟩ := haccepts.analysed fun _ hlex => Grammar.tokens_ok hlex
  obtain rfl : p = q := by simpa [hp] using h.program
  obtain ⟨frame, hframe, hnonneg, hslots⟩ := h.frames d hd
  rw [← fnDecls_slots] at hslots
  refine ⟨frame, hframe, hnonneg, ?_, below?_range h.arena hslots hnonneg,
    fun hfits _ _ _ _ _ h₁ h₂ => address_inj h.arena hslots hnonneg hfits h₁ h₂, fun e he => ?_⟩
  · intro i hi
    obtain ⟨v, hv, -, hlow, hhigh⟩ := hslots.inFrame i hi
    exact ⟨v, hv, (h.sizes hv).1, by omega, hlow, hhigh⟩
  · obtain ⟨i, path, hword, hroot⟩ := Storage.places_found h hd e he
    obtain ⟨v, offset, hv, hlocation, hfield, hlow, hhigh⟩ := Storage.location_of_word h hword
    refine ⟨i, path, v, offset, hword, hlocation, hlow, hhigh, ?_⟩
    split
    · rename_i hglobal
      intro image s base hbase hleast hfits
      exact agree_of_global hglobal hbase hleast hfits hlow
    · rename_i hlocal
      have hi : i ∈ declSlots (fnDecls d) := by
        rcases hroot with ⟨g, hg, hgi⟩ | ⟨u, hu, hui⟩
        · exact absurd (h.global (Storage.lookup_of_global h hg hgi) hv).1 hlocal
        · exact List.mem_filterMap.mpr ⟨u, hu, by rw [hui]⟩
      have hbelow : (Cell.word i path).below? a.arena d = some (v.offset + offset) := by
        rw [Cell.below?, if_pos hi, wordAt?, hv]
        simp [hfield]
      have hrange := below?_range h.arena hslots hnonneg hbelow
      refine ⟨hbelow, fun image s hleast hfits => ?_⟩
      exact agree_of_local (by simpa using hlocal) hfits (by omega) hrange.1

/-- The words of the main function of the sample have addresses of their own. -/
theorem sample_words_have_own_addresses : ∃ d frame, .fn d ∈ sampleProgram.decls ∧ d.name.name = "main" ∧
    sampleAnalysis.frames.lookup "main" = some frame ∧ 8 + frame ≤ 2 ^ 32 ∧
    ∀ (c c' : Cell) (n n' fp : Int), c.below? sampleAnalysis.arena d = some n →
      c'.below? sampleAnalysis.arena d = some n' → (fp - n) % 2 ^ 32 = (fp - n') % 2 ^ 32 → c = c' := by
  obtain ⟨d, hd, hname⟩ := sample_main
  obtain ⟨frame, hframe, -, -, -, hown, -⟩ :=
    frame_words_have_own_addresses sample_accepts sample_program hd
  rw [hname] at hframe
  have hsmall : ∀ frame ∈ sampleAnalysis.frames.lookup "main", 8 + frame ≤ 2 ^ 32 := by decide +kernel
  have hfits := hsmall frame hframe
  exact ⟨d, frame, hd, hname, hframe, hfits, hown hfits⟩

/-- A text with a structure that takes as many bytes as there are addresses, and a variable after it. -/
def wideLetters : { letters : List Char // String.ofList letters =
    "void main()\x7bstruct P q;int y;y=5;cout<<y;\x7d" } :=
  ⟨_, rfl⟩

theorem wide_compiled : (compiled? (tower 15 ++ wideLetters.1)).isSome = true := by decide +kernel

def wide : Specimen := .ofLetters (tower 15 ++ wideLetters.1) wide_compiled

/-- The number that is stored in the variable is not found again: its address does not fit into a
register. -/
theorem wide_frame_loses_word : Accepts wide.text "main.cmm" wide.analysis ∧
    wide.analysis.frames.lookup "main" = some (2 ^ 32 + 4) ∧
    (wide.analysis.assembly false).result = some wide.code ∧
    (simulate wide.code [] 40).2.error = none ∧ (simulate wide.code [] 40).2.state.output = "0" := by
  have hframe : wide.analysis.frames.lookup "main" = some (2 ^ 32 + 4) := by decide +kernel
  have hruns : (runFrom wide.image 40 (wide.start []).state).error = none ∧
      (runFrom wide.image 40 (wide.start []).state).state.output = "0" := by
    decide +kernel
  rw [← wide.simulate_eq] at hruns
  exact ⟨wide.accepts, hframe, wide.code_eq, hruns⟩

end Programs

end CMinusMinus.Proofs.Addresses
