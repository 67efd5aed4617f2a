import Mathlib.Data.List.Forall2
import CMinusMinus.Proofs.Mirroring

/-!
Where a program keeps its values. The local variables of a function fill its frame without gaps and
without overlaps, the global variables and the texts of a program lie apart in the data, and no two
locations of single words share a place: the variable that a location starts with and the offset in it
tell the fields that it goes through.
-/
namespace CMinusMinus.Proofs.Storage

open Assembly Machine WellFormed
open Code (Item linesOf)
open Framing (Laid)
open Mirroring (Mirrors bytes storage)

/-- Variables fill a stretch of bytes, one after the other and in whole words. -/
structure Fills (low high : Int) (vs : List Variable) : Prop where
  aligned : ∀ v ∈ vs, 4 ∣ v.offset ∧ 4 ∣ v.size ∧ 0 < v.size
  increasing : vs.Pairwise fun u v => u.offset + u.size ≤ v.offset
  first : ∀ v ∈ vs.head?, v.offset = low
  covers : ∀ b, low ≤ b ∧ b < high ↔ ∃ v ∈ vs, v.offset ≤ b ∧ b < v.offset + v.size

section Frames

variable {arena : Arena}

/-- Variables that lie one after the other fill the bytes from the first to the last. -/
theorem fills_of_laid (hsizes : ∀ {i v}, arena.get? i = some (.var v) → 0 < v.size ∧ 4 ∣ v.size)
    {slots : List Int} : ∀ {low high : Int}, Laid arena slots low high → 4 ∣ low →
      ∃ vs, List.Forall₂ (fun i v => arena.get? i = some (.var v)) slots vs ∧ Fills low high vs := by
  induction slots with
  | nil =>
    rintro low high rfl _
    refine ⟨[], .nil, by simp, .nil, by simp, fun b => ?_⟩
    constructor
    · intro hb
      omega
    · rintro ⟨v, hv, -⟩
      simp at hv
  | cons i rest ih =>
    rintro low high ⟨v, hv, -, rfl, -, hrest⟩ haligned
    obtain ⟨hpos, hdvd⟩ := hsizes hv
    obtain ⟨vs, hvs, hfills⟩ := ih hrest (by omega)
    have hlater : ∀ u ∈ vs, v.offset + v.size ≤ u.offset := by
      intro u hu
      have hstart := (hfills.covers u.offset).mpr ⟨u, hu, Int.le_refl _, by
        have := (hfills.aligned u hu).2.2
        omega⟩
      exact hstart.1
    refine ⟨v :: vs, .cons hv hvs, ?_, .cons hlater hfills.increasing, by simp, fun b => ?_⟩
    · rw [List.forall_mem_cons]
      exact ⟨⟨haligned, hdvd, hpos⟩, hfills.aligned⟩
    · have hle : v.offset + v.size ≤ high := hrest.range.1
      have hcovers := hfills.covers b
      simp only [List.mem_cons, exists_eq_or_imp, ← hcovers]
      omega

/-- The variables of declarations that are all bound. -/
theorem variables_of_slots {env : Lowering.Env} {ds : List VarDecl}
    (hbound : ∀ d ∈ ds, ∃ i, d.name.binding = .symbol i) : ∀ {vs : List Variable},
      List.Forall₂ (fun i v => env.arena.get? i = some (.var v)) (declSlots ds) vs →
      List.Forall₂ (fun d v => Lowering.variableOf env d.name = .ok v) ds vs := by
  induction ds with
  | nil =>
    intro vs h
    obtain rfl := List.forall₂_nil_left_iff.mp h
    exact .nil
  | cons d ds ih =>
    intro vs h
    rw [List.forall_mem_cons] at hbound
    obtain ⟨⟨i, hi⟩, hbound⟩ := hbound
    simp only [declSlots, List.filterMap_cons, hi] at h
    obtain ⟨v, rest, hv, hrest, rfl⟩ := List.forall₂_cons_left_iff.mp h
    exact .cons (variableOf_eq hi hv) (ih hbound hrest)

variable {lit : String → Prop} {σ : Symbols} {result : Ty}

theorem bound_of_declares {ds : List VarDecl} : ∀ {scope : Scope}, Declares σ ds scope →
    ∀ d ∈ ds, ∃ i, d.name.binding = .symbol i := by
  induction ds with
  | nil => simp
  | cons d ds ih =>
    rintro _ ⟨i, rest, rfl, hbinding, -, hrest⟩
    rw [List.forall_mem_cons]
    exact ⟨⟨i, hbinding⟩, ih hrest⟩

mutual

/-- The declarations in a statement that fits its function are bound. -/
theorem bound_stmt : (s : Stmt) → ∀ {Γ : List Scope}, StmtOk lit σ Γ result s →
    ∀ d ∈ stmtDecls s, ∃ i, d.name.binding = .symbol i
  | .ifThen _ _ body, _, h | .loop _ _ body, _, h => by
    rw [stmtDecls]
    exact bound_block body h.2
  | .ifElse _ _ body other, _, h => by
    rw [stmtDecls, List.forall_mem_append]
    exact ⟨bound_block body h.2.1, bound_block other h.2.2⟩
  | .assign .., _, _ | .increment .., _, _ | .decrement .., _, _ | .read .., _, _ | .write .., _, _
  | .call .., _, _ | .ret .., _, _ | .misfit .., _, _ => by simp [stmtDecls]

/-- The declarations in statements that fit their function are bound. -/
theorem bound_stmts : (ss : List Stmt) → ∀ {Γ : List Scope}, StmtsOk lit σ Γ result ss →
    ∀ d ∈ stmtsDecls ss, ∃ i, d.name.binding = .symbol i
  | [], _, _ => by simp [stmtsDecls]
  | s :: ss, _, h => by
    rw [stmtsDecls, List.forall_mem_append]
    exact ⟨bound_stmt s h.1, bound_stmts ss h.2⟩

/-- The declarations in a block that fits its function are bound. -/
theorem bound_block : (b : Block) → ∀ {Γ : List Scope}, BlockOk lit σ Γ result b →
    ∀ d ∈ blockDecls b, ∃ i, d.name.binding = .symbol i
  | .mk _ decls stmts, _, h => by
    obtain ⟨scope, hdeclares, -, hstmts⟩ := h
    rw [blockDecls, List.forall_mem_append]
    exact ⟨bound_of_declares hdeclares, bound_stmts stmts hstmts⟩

end

theorem bound_fn {visible : Scope} {d : FnDecl} {f : Function} (h : FnOk lit σ visible d f) :
    ∀ v ∈ fnDecls d, ∃ i, v.name.binding = .symbol i := by
  obtain ⟨-, -, -, scope, hdeclares, -, hbody⟩ := h
  have hfirst := bound_of_declares hdeclares
  have hrest := bound_stmts _ hbody
  cases hd : d.body with
  | mk span decls stmts =>
    simp only [hd, Block.decls, Block.stmts, List.forall_mem_append] at hfirst hrest
    simp only [fnDecls, hd, blockDecls, List.forall_mem_append]
    exact ⟨hfirst.1, hfirst.2, hrest⟩

end Frames

section Functions

variable {lit : String → Prop} {a : Analysis} {p : Program} {globals : Scope} {d : FnDecl}

/-- A function of an analysed program is in order. -/
theorem fnOk_of_mem (h : Analysed lit a p globals) (hd : .fn d ∈ p.decls) :
    ∃ visible f, visible <+: globals ∧ FnOk lit (shape a.arena) visible d f := by
  obtain ⟨pre, post, hds⟩ := List.append_of_mem hd
  have hdecls := h.decls
  rw [hds] at hdecls
  obtain ⟨visible, i, hvisible, -, -, f, -, hok⟩ := decl_of_mem hdecls
  exact ⟨visible, f, hvisible, hok⟩

/-- The variables of a function fill its frame. -/
theorem frame_filled (h : Analysed lit a p globals) (hd : .fn d ∈ p.decls) : ∃ frame vs,
    a.frames.lookup d.name.name = some frame ∧
    List.Forall₂ (fun d v => Lowering.variableOf (envOf a) d.name = .ok v) (fnDecls d) vs ∧
    Fills 8 (8 + frame) vs := by
  obtain ⟨frame, hframe, hlaid⟩ := h.laid d hd
  obtain ⟨vs, hslots, hfills⟩ := fills_of_laid h.sizes hlaid (by decide)
  obtain ⟨visible, f, -, hok⟩ := fnOk_of_mem h hd
  exact ⟨frame, vs, hframe, variables_of_slots (bound_fn hok) hslots, hfills⟩

end Functions

section Data

variable {lines before before' : List Line} {x x' : Line}

/-- The label of some data, the address at which they start and the bytes that are set aside for
them. -/
def Datum (lines : List Line) (name : String) (address : Int) (size : Nat) : Prop :=
  ∃ before opcode value comment, before ++ [.data name opcode value comment] <+: lines ∧
    address = dataBase + bytes before ∧ size = storage (.data name opcode value comment)

/-- The data of a loaded program lie in whole words and apart, and each global variable has as many
bytes as it takes. -/
structure DataApart (a : Analysis) (p : Program) (lines : List Line) (image : Image) : Prop where
  labels : ∀ {name address}, image.dataLabels[name]? = some address ↔ ∃ size, Datum lines name address size
  aligned : ∀ {name address size}, Datum lines name address size → 4 ∣ address ∧ 4 ∣ size ∧ 0 < size
  apart : ∀ {name name' address address' size size'}, Datum lines name address size →
    Datum lines name' address' size' →
    name = name' ∨ address + size ≤ address' ∨ address' + size' ≤ address
  globals : ∀ d, .var d ∈ p.decls → ∃ v address size, Lowering.variableOf (envOf a) d.name = .ok v ∧
    Datum lines (globalLabel d.name.name) address size ∧ size = v.size

/-- Of two lines, the storage of one ends before that of the other starts. -/
theorem bytes_apart (h : before ++ [x] <+: lines) (h' : before' ++ [x'] <+: lines) :
    before = before' ∧ x = x' ∨ bytes before + storage x ≤ bytes before' ∨
      bytes before' + storage x' ≤ bytes before := by
  by_cases hlength : before.length < before'.length
  · have hat : before ++ [x] <+: before' :=
      List.prefix_of_prefix_length_le h ((List.prefix_append _ _).trans h') (by simp; omega)
    exact .inr (.inl (Mirroring.bytes_before_le hat))
  by_cases hlength' : before'.length < before.length
  · have hat : before' ++ [x'] <+: before :=
      List.prefix_of_prefix_length_le h' ((List.prefix_append _ _).trans h) (by simp; omega)
    exact .inr (.inr (Mirroring.bytes_before_le hat))
  · left
    have hsame : before ++ [x] = before' ++ [x'] := by
      apply (List.prefix_of_prefix_length_le h h' (by simp; omega)).eq_of_length
      simp
      omega
    simpa using hsame

variable {lit : String → Prop} {a : Analysis} {p : Program} {globals : Scope}

/-- The line that sets aside a global variable. -/
theorem datum_of_global {name : String} {words : Option Int} {items : List Item}
    (h : .global name words ∈ items) (hlaid : Mirroring.Laid (.global name words)) :
    ∃ address, Datum (linesOf items) name address (bytesOf words).toNat := by
  obtain ⟨pre, post, rfl⟩ := List.append_of_mem h
  have hlines : linesOf (pre ++ .global name words :: post) =
      linesOf pre ++ ((Item.global name words).lines ++ linesOf post) := by
    simp [linesOf]
  rw [hlines]
  cases words with
  | none =>
    refine ⟨_, linesOf pre ++ [.directive ".data" "", .directive ".align" "2"], ".space",
      toString wordSize, "", ⟨linesOf post, by simp [Item.lines]⟩, rfl, ?_⟩
    rw [Mirroring.storage_space]
    rfl
  | some words =>
    refine ⟨_, linesOf pre ++ [.directive ".data" "", .directive ".align" "2"], ".word",
      "0:" ++ toString words, "", ⟨linesOf post, by simp [Item.lines]⟩, rfl, ?_⟩
    rw [Mirroring.storage_words name hlaid.2]
    simp only [bytesOf, Option.getD_some]
    omega

/-- The data of a loaded program lie apart. -/
theorem dataApart_of_loadable (h : Loadable lit a p globals) (comments : Bool) :
    DataApart a p (linesOf (codeOf a p)) (imageOf comments a p) where
  labels {name address} := by
    rw [(Mirroring.mirrors_of_loadable h comments).dataLabels]
    constructor
    · rintro ⟨before, opcode, value, comment, hat, haddress⟩
      exact ⟨_, before, opcode, value, comment, hat, haddress, rfl⟩
    · rintro ⟨_, before, opcode, value, comment, hat, haddress, -⟩
      exact ⟨before, opcode, value, comment, hat, haddress⟩
  aligned := by
    rintro name _ _ ⟨before, opcode, value, comment, hat, rfl, rfl⟩
    have hstorage := Mirroring.storage_of_loadable h
    have hbase : (4 : Int) ∣ dataBase := by decide
    have hbefore : 4 ∣ bytes before := Mirroring.aligned_of_lines fun line hline =>
      (hstorage line (hat.subset (List.mem_append_left _ hline))).1
    obtain ⟨hdvd, hpos⟩ := hstorage _ (hat.subset (List.mem_append_right _ List.mem_cons_self))
    exact ⟨by omega, hdvd, hpos rfl⟩
  apart := by
    rintro name name' _ _ _ _ ⟨before, opcode, value, comment, hat, rfl, rfl⟩
      ⟨before', opcode', value', comment', hat', rfl, rfl⟩
    rcases bytes_apart hat hat' with ⟨-, hline⟩ | hapart
    · exact .inl (Line.data.inj hline).1
    · right
      omega
  globals d hd := by
    obtain ⟨pre, post, hds⟩ := List.append_of_mem hd
    have hdecls := h.analysed.decls
    rw [hds] at hdecls
    obtain ⟨visible, i, hvisible, hmem, hbinding, v, hv, -, -⟩ := decl_of_mem hdecls
    obtain ⟨u, hu, rfl⟩ := shape_var hv
    have hnodup := (names_of_declsShape h.analysed.decls).2 (by simp)
    have hlookup := lookup_of_mem hnodup (hvisible.subset hmem)
    obtain ⟨-, -, hglobal⟩ := h.analysed.global hlookup hu
    obtain ⟨address, hdatum⟩ := datum_of_global hglobal (Mirroring.laid_of_loadable h _ hglobal)
    rw [h.bytes_eq hu] at hdatum
    have hpos := (h.analysed.sizes hu).1
    exact ⟨u, address, _, variableOf_eq hbinding hu, hdatum, by omega⟩

end Data

section Locations

mutual

def placesIn : Expr → List Expr
  | .ident x => [.ident x]
  | .dot note obj field reached bad => [.dot note obj field reached bad]
  | .assign _ target value => target :: placesIn value
  | .call _ _ args => placesAmong args
  | .unary _ _ operand => placesIn operand
  | .binary _ _ left right => placesIn left ++ placesIn right
  | _ => []

def placesAmong : List Expr → List Expr
  | [] => []
  | e :: es => placesIn e ++ placesAmong es

end

mutual

def stmtPlaces : Stmt → List Expr
  | .assign _ e | .write _ e | .call _ e | .ret _ (some e) => placesIn e
  | .increment _ target | .decrement _ target | .read _ target => [target]
  | .ifThen _ cond body | .loop _ cond body => placesIn cond ++ blockPlaces body
  | .ifElse _ cond body other => placesIn cond ++ (blockPlaces body ++ blockPlaces other)
  | _ => []

def stmtsPlaces : List Stmt → List Expr
  | [] => []
  | s :: ss => stmtPlaces s ++ stmtsPlaces ss

def blockPlaces : Block → List Expr
  | .mk _ _ stmts => stmtsPlaces stmts

end

/-- The symbols of the variables that a function of a program can use. -/
def Root (p : Program) (d : FnDecl) (i : Int) : Prop :=
  (∃ g, .var g ∈ p.decls ∧ g.name.binding = .symbol i) ∨ ∃ v ∈ fnDecls d, v.name.binding = .symbol i

/-- An expression is the location of a word: the symbol of the variable that it lies in, and the names
of the fields that lead to it. -/
def WordAt (arena : Arena) (e : Expr) (i : Int) (path : List String) : Prop :=
  ∃ last, Located arena e i path last ∧ last.structDef = none

section Found

variable {lit : String → Prop} {arena : Arena} {R : Int → Prop} {Γ : List Scope}

def Sees (arena : Arena) (R : Int → Prop) (Γ : List Scope) : Prop :=
  ∀ {x i v}, find Γ x = some i → arena.get? i = some (.var v) → R i

/-- An expression is the location of a word in one of some variables. -/
def Finds (arena : Arena) (R : Int → Prop) (e : Expr) : Prop :=
  ∃ i path, WordAt arena e i path ∧ R i

theorem root_of_located {e : Expr} {i : Int} {path : List String} {last : Variable}
    (h : Located arena e i path last) : ∃ root, arena.get? i = some (.var root) := by
  induction h with
  | ident _ symbol => exact ⟨_, symbol⟩
  | dot _ _ _ _ _ _ ih => exact ih

theorem finds_of_typed (hσ : SymbolsOk (shape arena)) (hsees : Sees arena R Γ) {e : Expr} {t : Ty}
    (hlocation : e.isLocation) (htyped : Typed lit (shape arena) Γ e t) (hoperand : IsOperand t) :
    Finds arena R e := by
  obtain ⟨v, hplace, rfl, hscalar⟩ := place_of_typed hσ hlocation htyped hoperand
  have hnone := structDef_of_place hσ hplace hscalar
  obtain ⟨x, path, i, last, -, hfind, hlocated, rfl⟩ := located_of_place e hplace
  obtain ⟨root, hroot⟩ := root_of_located hlocated
  exact ⟨i, path, ⟨last, hlocated, hnone⟩, hsees hfind hroot⟩

mutual

/-- The locations in an operand are those of words in variables in sight. -/
theorem finds_expr (hσ : SymbolsOk (shape arena)) (hsees : Sees arena R Γ) : (e : Expr) → ∀ {t : Ty},
    Typed lit (shape arena) Γ e t → IsOperand t → ∀ q ∈ placesIn e, Finds arena R q
  | .ident x, t, h, hoperand => by
    simp only [placesIn, List.mem_singleton, forall_eq]
    exact finds_of_typed hσ hsees rfl h hoperand
  | .dot note obj field reached bad, t, h, hoperand => by
    simp only [placesIn, List.mem_singleton, forall_eq]
    exact finds_of_typed hσ hsees rfl h hoperand
  | .assign _ target value, t, h, hoperand => by
    rw [placesIn, List.forall_mem_cons]
    exact ⟨finds_of_typed hσ hsees h.1 h.2.2.1 hoperand, finds_expr hσ hsees value h.2.2.2 hoperand⟩
  | .call _ callee args, t, h, _ => by
    obtain ⟨i, f, -, -, hf, -, hargs⟩ := h
    have hok : SymbolOk (shape arena) (.func f) := hσ i _ hf
    rw [placesIn]
    exact finds_exprs hσ hsees args hargs fun t ht => .inl (hok.2.1 t ht)
  | .unary _ op operand, t, h, hoperand => by
    rw [placesIn]
    exact finds_expr hσ hsees operand h.2 hoperand
  | .binary _ op left right, t, h, _ => by
    obtain ⟨u, hop, hleft, hright⟩ := h
    have hoperand := operand_of_operator hop
    rw [placesIn, List.forall_mem_append]
    exact ⟨finds_expr hσ hsees left hleft hoperand, finds_expr hσ hsees right hright hoperand⟩
  | .int .., _, _, _ | .string .., _, _, _ | .bool .., _, _, _ | .misfit .., _, _, _ => by simp [placesIn]

/-- The locations in arguments are those of words in variables in sight. -/
theorem finds_exprs (hσ : SymbolsOk (shape arena)) (hsees : Sees arena R Γ) : (es : List Expr) →
    ∀ {ts : List Ty}, TypedAll lit (shape arena) Γ es ts → (∀ t ∈ ts, IsOperand t) →
    ∀ q ∈ placesAmong es, Finds arena R q
  | [], _, _, _ => by simp [placesAmong]
  | e :: es, _, h, hoperands => by
    obtain ⟨t, rest, rfl, he, hes⟩ := h
    rw [List.forall_mem_cons] at hoperands
    rw [placesAmong, List.forall_mem_append]
    exact ⟨finds_expr hσ hsees e he hoperands.1, finds_exprs hσ hsees es hes hoperands.2⟩

end

/-- The variables of a block are in sight in it. -/
theorem Sees.enter (h : Sees arena R Γ) {ds : List VarDecl} {scope : Scope}
    (hdeclares : Declares (shape arena) ds scope)
    (hroots : ∀ d ∈ ds, ∀ i, d.name.binding = .symbol i → R i) : Sees arena R (scope :: Γ) := by
  have hscope : ∀ {ds scope}, Declares (shape arena) ds scope →
      (∀ d ∈ ds, ∀ i, d.name.binding = .symbol i → R i) → ∀ {x i}, scope.lookup x = some i → R i := by
    intro ds
    induction ds with
    | nil => rintro _ rfl _ x i hx; simp at hx
    | cons d ds ih =>
      rintro _ ⟨j, rest, rfl, hbinding, -, hrest⟩ hroots x i hx
      rw [List.forall_mem_cons] at hroots
      rcases lookup_cons_cases hx with ⟨-, rfl⟩ | hx
      · exact hroots.1 _ hbinding
      · exact ih hrest hroots.2 hx
  intro x i v hfind hv
  simp only [find, List.findSome?_cons] at hfind
  cases hx : scope.lookup x with
  | none =>
    rw [hx] at hfind
    exact h hfind hv
  | some j =>
    simp only [hx, Option.some.injEq] at hfind
    exact hscope hdeclares hroots (hfind ▸ hx)

variable {result : Ty}

mutual

/-- The locations in a statement are those of words in variables in sight. -/
theorem finds_stmt (hσ : SymbolsOk (shape arena)) : (s : Stmt) → ∀ {Γ : List Scope}, Sees arena R Γ →
    StmtOk lit (shape arena) Γ result s →
    (∀ d ∈ stmtDecls s, ∀ i, d.name.binding = .symbol i → R i) → ∀ q ∈ stmtPlaces s, Finds arena R q
  | .assign _ e, Γ, hsees, h, _ => by
    obtain ⟨t, hscalar, he⟩ := h
    rw [stmtPlaces]
    exact finds_expr hσ hsees e he (.inl hscalar)
  | .increment _ e, Γ, hsees, h, _ | .decrement _ e, Γ, hsees, h, _ => by
    simp only [stmtPlaces, List.mem_singleton, forall_eq]
    exact finds_of_typed hσ hsees h.1 h.2 (.inl (.inl rfl))
  | .read _ e, Γ, hsees, h, _ => by
    obtain ⟨hlocation, t, hscalar, he⟩ := h
    simp only [stmtPlaces, List.mem_singleton, forall_eq]
    exact finds_of_typed hσ hsees hlocation he (.inl hscalar)
  | .write _ e, Γ, hsees, h, _ => by
    obtain ⟨t, hshown, -, he⟩ := h
    rw [stmtPlaces]
    exact finds_expr hσ hsees e he (hshown.imp_right .inl)
  | .ifThen _ cond body, Γ, hsees, h, hroots | .loop _ cond body, Γ, hsees, h, hroots => by
    rw [stmtPlaces, List.forall_mem_append]
    rw [stmtDecls] at hroots
    exact ⟨finds_expr hσ hsees cond h.1 (.inl (.inr rfl)), finds_block hσ body hsees h.2 hroots⟩
  | .ifElse _ cond body other, Γ, hsees, h, hroots => by
    rw [stmtPlaces, List.forall_mem_append, List.forall_mem_append]
    rw [stmtDecls, List.forall_mem_append] at hroots
    exact ⟨finds_expr hσ hsees cond h.1 (.inl (.inr rfl)), finds_block hσ body hsees h.2.1 hroots.1,
      finds_block hσ other hsees h.2.2 hroots.2⟩
  | .call _ e, Γ, hsees, h, _ => by
    obtain ⟨note, callee, args, t, rfl, he⟩ := h
    rw [stmtPlaces]
    exact finds_expr hσ hsees _ he (operand_of_call hσ he)
  | .ret _ none, Γ, _, _, _ | .misfit .., Γ, _, _, _ => by simp [stmtPlaces]
  | .ret _ (some e), Γ, hsees, h, _ => by
    rw [stmtPlaces]
    exact finds_expr hσ hsees e h.2 (.inl h.1)

/-- The locations in statements are those of words in variables in sight. -/
theorem finds_stmts (hσ : SymbolsOk (shape arena)) : (ss : List Stmt) → ∀ {Γ : List Scope},
    Sees arena R Γ → StmtsOk lit (shape arena) Γ result ss →
    (∀ d ∈ stmtsDecls ss, ∀ i, d.name.binding = .symbol i → R i) → ∀ q ∈ stmtsPlaces ss, Finds arena R q
  | [], Γ, _, _, _ => by simp [stmtsPlaces]
  | s :: ss, Γ, hsees, h, hroots => by
    rw [stmtsDecls, List.forall_mem_append] at hroots
    rw [stmtsPlaces, List.forall_mem_append]
    exact ⟨finds_stmt hσ s hsees h.1 hroots.1, finds_stmts hσ ss hsees h.2 hroots.2⟩

/-- The locations in a block are those of words in variables in sight. -/
theorem finds_block (hσ : SymbolsOk (shape arena)) : (b : Block) → ∀ {Γ : List Scope},
    Sees arena R Γ → BlockOk lit (shape arena) Γ result b →
    (∀ d ∈ blockDecls b, ∀ i, d.name.binding = .symbol i → R i) → ∀ q ∈ blockPlaces b, Finds arena R q
  | .mk _ decls stmts, Γ, hsees, h, hroots => by
    obtain ⟨scope, hdeclares, -, hstmts⟩ := h
    rw [blockDecls, List.forall_mem_append] at hroots
    rw [blockPlaces]
    exact finds_stmts hσ stmts (hsees.enter hdeclares hroots.1) hstmts hroots.2

end

end Found

section Apart

variable {lit : String → Prop} {a : Analysis} {p : Program} {globals : Scope} {d : FnDecl}
  {e e' : Expr} {i j : Int} {path path' : List String}

/-- The location of a word is found in its variable. -/
theorem location_of_word (h : Analysed lit a p globals) (hword : WordAt a.arena e i path) :
    ∃ root offset, a.arena.get? i = some (.var root) ∧
      Lowering.location (envOf a) e = .ok (root, offset) ∧ fieldAt? a.arena root path = some offset ∧
      0 ≤ offset ∧ offset + 4 ≤ root.size := by
  obtain ⟨last, hlocated, hnone⟩ := hword
  have hlocated : Located (envOf a).arena e i path last := hlocated
  obtain ⟨root, offset, hroot, hlocation, hfields⟩ := location_of_located hlocated
  have hfield : fieldAt? a.arena root path = some offset := by
    have hpath : fieldAt? a.arena root (path ++ []) = some (offset + 0) :=
      hfields [] 0 (by simp [fieldAt?, hnone])
    simpa using hpath
  obtain ⟨hlow, hhigh⟩ := fieldAt?_range h.arena hroot hfield
  exact ⟨root, offset, hroot, hlocation, hfield, hlow, hhigh⟩

/-- Two locations in one variable that are found at one offset go through the same fields. -/
theorem path_of_location (h : Analysed lit a p globals) (hword : WordAt a.arena e i path)
    (hword' : WordAt a.arena e' i path')
    (heq : Lowering.location (envOf a) e = Lowering.location (envOf a) e') : path = path' := by
  obtain ⟨root, offset, hroot, hlocation, hfield, -⟩ := location_of_word h hword
  obtain ⟨root', offset', hroot', hlocation', hfield', -⟩ := location_of_word h hword'
  rw [hlocation, hlocation'] at heq
  obtain ⟨rfl, rfl⟩ := Prod.mk.inj (Except.ok.inj heq)
  exact fieldAt?_inj h.arena hroot hfield' hfield

/-- The symbol of a global variable is the one that its name stands for. -/
theorem lookup_of_global (h : Analysed lit a p globals) {g : VarDecl} (hg : .var g ∈ p.decls)
    (hbinding : g.name.binding = .symbol i) : globals.lookup g.name.name = some i := by
  obtain ⟨pre, post, hds⟩ := List.append_of_mem hg
  have hdecls := h.decls
  rw [hds] at hdecls
  obtain ⟨visible, j, hvisible, hmem, hj, -⟩ := decl_of_mem hdecls
  obtain rfl : i = j := by simpa [hbinding] using hj
  exact lookup_of_mem ((names_of_declsShape h.decls).2 (by simp)) (hvisible.subset hmem)

/-- The variables that a function can use differ in what is known of them. -/
theorem root_unique (h : Analysed lit a p globals) (hd : .fn d ∈ p.decls) (hi : Root p d i)
    (hj : Root p d j) {v : Variable} (hv : a.arena.get? i = some (.var v))
    (hv' : a.arena.get? j = some (.var v)) : i = j := by
  obtain ⟨frame, hframe, -, hseparate⟩ := h.frames d hd
  rw [← fnDecls_slots] at hseparate
  have hslot : ∀ {u : VarDecl} {k : Int}, u ∈ fnDecls d → u.name.binding = .symbol k →
      k ∈ declSlots (fnDecls d) := by
    intro u k hu hk
    exact List.mem_filterMap.mpr ⟨u, hu, by rw [hk]⟩
  have hlocal : ∀ {u : VarDecl} {k : Int}, u ∈ fnDecls d → u.name.binding = .symbol k →
      a.arena.get? k = some (.var v) → v.isGlobal = false := by
    intro u k hu hk hvk
    obtain ⟨w, hw, hlocal, -⟩ := hseparate.inFrame k (hslot hu hk)
    obtain rfl : v = w := by simpa [hvk] using hw
    exact hlocal
  rcases hi with ⟨g, hg, hgi⟩ | ⟨u, hu, hui⟩
  · obtain ⟨hglobal, hname, -⟩ := h.global (lookup_of_global h hg hgi) hv
    rcases hj with ⟨g', hg', hgj⟩ | ⟨w, hw, hwj⟩
    · obtain ⟨-, hname', -⟩ := h.global (lookup_of_global h hg' hgj) hv'
      have hlookup := lookup_of_global h hg hgi
      have hlookup' := lookup_of_global h hg' hgj
      rw [← hname] at hlookup
      rw [← hname', hlookup] at hlookup'
      exact Option.some.inj hlookup'
    · simp [hlocal hw hwj hv'] at hglobal
  · rcases hj with ⟨g, hg, hgj⟩ | ⟨w, hw, hwj⟩
    · obtain ⟨hglobal, -⟩ := h.global (lookup_of_global h hg hgj) hv'
      simp [hlocal hu hui hv] at hglobal
    · -- slots that overlap are one slot
      by_contra hne
      have hsymm : Std.Symm (Apart a.arena) := ⟨fun _ _ hapart => hapart.symm⟩
      have hapart := hseparate.apart.forall (hslot hu hui) (hslot hw hwj) hne
      have hpos := (h.sizes hv).1
      have := hapart v v hv hv'
      omega

/-- The locations in the body of a function are those of words in variables that it can use. -/
theorem places_found (h : Analysed lit a p globals) (hd : .fn d ∈ p.decls) :
    ∀ q ∈ blockPlaces d.body, Finds a.arena (Root p d) q := by
  obtain ⟨visible, f, hvisible, hok⟩ := fnOk_of_mem h hd
  obtain ⟨-, -, -, scope, hdeclares, -, hbody⟩ := hok
  have htop : Sees a.arena (Root p d) [visible] := by
    intro x i v hfind hv
    have hlookup : visible.lookup x = some i := by simpa [find] using hfind
    have hglobal := lookup_of_prefix hvisible hlookup
    rcases decl_of_lookup h.decls hglobal with
      hnil | ⟨pre, g, post, seen, hds, -, -, hdecl⟩
    · simp at hnil
    have hshape := shape_var_of_get? hv
    cases g with
    | var g => exact .inl ⟨g, by simp [hds], hdecl.1⟩
    | struct g =>
      obtain ⟨-, u, hu⟩ := hdecl
      simp [hshape] at hu
    | fn g =>
      obtain ⟨-, u, hu, -⟩ := hdecl
      simp [hshape] at hu
    | misfit span kind => exact hdecl.elim
  cases hblock : d.body with
  | mk span decls stmts =>
    simp only [hblock, Block.decls, Block.stmts] at hdeclares hbody
    have hroots : ∀ v ∈ fnDecls d, ∀ i, v.name.binding = .symbol i → Root p d i :=
      fun v hv i hi => .inr ⟨v, hv, hi⟩
    simp only [fnDecls, hblock, blockDecls, List.forall_mem_append] at hroots
    rw [blockPlaces]
    refine finds_stmts h.symbols stmts (htop.enter hdeclares ?_) hbody hroots.2.2
    rw [List.forall_mem_append]
    exact ⟨hroots.1, hroots.2.1⟩

end Apart

end Locations

section Programs

variable {text file : String} {a : Analysis} {p : Program}

/-- The storage of an accepted program. The variables of each function fill its frame, in order. The
data of the loaded program lie apart. All locations that the code works on are those of words, a word
lies in the variable of its location, and locations that are found at one place are one. -/
theorem storage_is_injective (haccepts : Accepts text file a) (hp : a.program = some p) :
    (∀ d, .fn d ∈ p.decls → ∃ frame vs, a.frames.lookup d.name.name = some frame ∧
      List.Forall₂ (fun d v => Lowering.variableOf (envOf a) d.name = .ok v) (fnDecls d) vs ∧
      Fills 8 (8 + frame) vs) ∧
    (PlainLiterals text → ∀ comments lines, a.lower = .ok lines → ∃ image,
      load (render comments lines) = (image, none) ∧ DataApart a p lines image) ∧
    (∀ {e i path}, WordAt a.arena e i path → ∃ root offset, a.arena.get? i = some (.var root) ∧
      Lowering.location (envOf a) e = .ok (root, offset) ∧ 0 ≤ offset ∧ offset + 4 ≤ root.size) ∧
    (∀ {e e' i path path'}, WordAt a.arena e i path → WordAt a.arena e' i path' →
      Lowering.location (envOf a) e = Lowering.location (envOf a) e' → path = path') ∧
    ∀ d, .fn d ∈ p.decls →
      (∀ e ∈ blockPlaces d.body, ∃ i path, WordAt a.arena e i path ∧ Root p d i) ∧
      ∀ {e e' i i' path path'}, WordAt a.arena e i path → WordAt a.arena e' i' path' →
        Root p d i → Root p d i' →
        Lowering.location (envOf a) e = Lowering.location (envOf a) e' → i = i' ∧ path = path' := by
  obtain ⟨q, globals, h⟩ := haccepts.analysed fun _ hlex => Grammar.tokens_ok hlex
  obtain rfl : p = q := by simpa [hp] using h.program
  refine ⟨fun d hd => frame_filled h hd, fun hplain comments lines hlower => ?_, fun hword => ?_,
    fun hword hword' => path_of_location h hword hword', fun d hd => ⟨places_found h hd, ?_⟩⟩
  · have hasm : (a.assembly comments).result = some (render comments lines) := by
      simp [Analysis.assembly, hlower]
    obtain ⟨q, globals', hloadable, -⟩ := haccepts.loadable hplain hasm
    obtain rfl : p = q := by simpa [hp] using hloadable.analysed.program
    obtain ⟨-, rfl⟩ := writable_of_lower hloadable.analysed haccepts.quiet hlower
    exact ⟨_, hloadable.load_eq comments, dataApart_of_loadable hloadable comments⟩
  · obtain ⟨root, offset, hroot, hlocation, -, hlow, hhigh⟩ := location_of_word h hword
    exact ⟨root, offset, hroot, hlocation, hlow, hhigh⟩
  · intro e e' i i' path path' hword hword' hroot hroot' heq
    obtain ⟨v, offset, hv, hlocation, -⟩ := location_of_word h hword
    obtain ⟨v', offset', hv', hlocation', -⟩ := location_of_word h hword'
    have hsame := heq
    rw [hlocation, hlocation'] at hsame
    obtain ⟨rfl, -⟩ := Prod.mk.inj (Except.ok.inj hsame)
    obtain rfl := root_unique h hd hroot hroot' hv hv'
    exact ⟨rfl, path_of_location h hword hword' heq⟩

/-- The frame of the first function of the sample is filled by its variables. -/
theorem sample_frame_filled : ∃ d frame vs, .fn d ∈ sampleProgram.decls ∧ d.name.name = "main" ∧
    sampleAnalysis.frames.lookup "main" = some frame ∧ Fills 8 (8 + frame) vs := by
  obtain ⟨d, hd, hname⟩ := sample_main
  obtain ⟨frame, vs, hframe, -, hfills⟩ := (storage_is_injective sample_accepts sample_program).1 d hd
  exact ⟨d, frame, vs, hd, hname, hname ▸ hframe, hfills⟩

end Programs

end CMinusMinus.Proofs.Storage
