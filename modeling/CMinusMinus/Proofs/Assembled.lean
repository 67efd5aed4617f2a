import Mathlib.Data.List.Pairwise
import Mathlib.Tactic.ByContra
import CMinusMinus.Proofs.Accepted
import CMinusMinus.Proofs.Emission
import CMinusMinus.Proofs.Functions
import CMinusMinus.Proofs.Spelling

/-!
The assembly of an analysed program, loaded into the machine. What is written is the code of the
program; once it is loaded, its functions stand in their places, its global variables lie side by side
in the data, and all words are zero.
-/
namespace CMinusMinus.Proofs

open Assembly Machine WellFormed
open Code (Item linesOf Writable)

/-- What the code of an analysed program is made from. -/
def envOf (a : Analysis) : Lowering.Env := ⟨a.file, a.arena, a.frames⟩

/-- The code of an analysed program. -/
def codeOf (a : Analysis) (p : Program) : List Item := Code.decls (envOf a) p.decls fun _ => 0

def imageOf (comments : Bool) (a : Analysis) (p : Program) : Image :=
  (Rendering.itemsLoaded comments 1 {} (codeOf a p)).image

def loadedOf (comments : Bool) (lit : String → Prop) (a : Analysis) (p : Program) (globals : Scope) :
    Loaded where
  image := imageOf comments a p
  env := envOf a
  lit := lit
  program := p
  globals := globals

section Writing

variable {lit : String → Prop} {a : Analysis} {p : Program} {globals : Scope}

/-- What is written for an analysed program is its code, if its numbers can be written; else one of
them stops the writing. -/
theorem lower_of_analysed (h : Analysed lit a p globals) (hquiet : a.hasErrors = false) :
    (Writable (codeOf a p) → a.lower = .ok (linesOf (codeOf a p))) ∧
    (¬ Writable (codeOf a p) → a.lower = .error .numeralTooLong) := by
  have hframes : ∀ d, .fn d ∈ p.decls → ∃ frame, (envOf a).frames.lookup d.name.name = some frame := by
    intro d hd
    obtain ⟨frame, hframe, -⟩ := h.frames d hd
    exact ⟨frame, hframe⟩
  have hemits := emits_decls (c := fun _ => 0) h.symbols p.decls h.decls hframes
  have hlower : a.lower = (Lowering.decls (envOf a) p.decls {}).value.map
      fun _ => (Lowering.decls (envOf a) p.decls {}).lines := by
    simp only [Analysis.lower, h.program, hquiet, Bool.false_eq_true, if_false]
    rfl
  refine ⟨fun hwritable => ?_, fun hwritable => ?_⟩
  · have hdone : Lowering.decls (envOf a) p.decls {} = _ := hemits.done hwritable
    rw [hlower, hdone]
    rfl
  · have hstopped : (Lowering.decls (envOf a) p.decls {}).value = _ := hemits.stopped hwritable
    rw [hlower, hstopped]
    rfl

theorem writable_of_lower (h : Analysed lit a p globals) (hquiet : a.hasErrors = false)
    {lines : List Line} (hlower : a.lower = .ok lines) :
    Writable (codeOf a p) ∧ lines = linesOf (codeOf a p) := by
  obtain ⟨hdone, hstopped⟩ := lower_of_analysed h hquiet
  by_cases hwritable : Writable (codeOf a p)
  · exact ⟨hwritable, by simpa [hlower] using hdone hwritable⟩
  · simp [hlower] at hstopped
    exact absurd hstopped hwritable

end Writing

section Declarations

variable {lit : String → Prop} {σ : Symbols}

/-- A name at the top of a program is that of one of its declarations, which sees the names up to its
own. -/
theorem decl_of_lookup {body : List Scope → Ty → List Stmt → Prop} {ds : List Decl} {x : String}
    {i : Int} : ∀ {before after : Scope}, DeclsShape σ body before ds after →
      after.lookup x = some i → before.lookup x = some i ∨ ∃ pre d post visible,
        ds = pre ++ d :: post ∧ declName d = x ∧ visible <+: after ∧
        DeclShape σ body visible i d := by
  induction ds with
  | nil =>
    rintro before _ rfl h
    exact .inl h
  | cons d ds ih =>
    rintro before after ⟨k, -, hdecl, hrest⟩ h
    rcases ih hrest h with hbefore | ⟨pre, e, post, visible, rfl, hname, hvisible, he⟩
    · rw [List.lookup_append, Option.or_eq_some_iff] at hbefore
      rcases hbefore with hbefore | ⟨-, hlast⟩
      · exact .inl hbefore
      · rcases lookup_cons_cases hlast with ⟨hx, hk⟩ | hnil
        · exact .inr ⟨[], d, ds, _, rfl, hx.symm, prefix_of_declsShape hrest, hk ▸ hdecl⟩
        · simp at hnil
    · exact .inr ⟨d :: pre, e, post, visible, rfl, hname, hvisible, he⟩

/-- Each declaration of a program is in order, and sees the names up to its own. -/
theorem decl_of_mem {body : List Scope → Ty → List Stmt → Prop} {pre post : List Decl} {d : Decl} :
    ∀ {before after : Scope}, DeclsShape σ body before (pre ++ d :: post) after →
      ∃ visible i, visible <+: after ∧ (declName d, i) ∈ visible ∧ DeclShape σ body visible i d := by
  induction pre with
  | nil =>
    rintro before after ⟨i, -, hdecl, hrest⟩
    exact ⟨_, i, prefix_of_declsShape hrest, by simp, hdecl⟩
  | cons e pre ih =>
    rintro before after ⟨_, -, -, hrest⟩
    exact ih hrest

theorem lookup_of_mem {x : String} {i : Int} {scope : Scope} (hnodup : (scope.map Prod.fst).Nodup)
    (h : (x, i) ∈ scope) : scope.lookup x = some i := by
  induction scope with
  | nil => simp at h
  | cons p rest ih =>
    obtain ⟨y, j⟩ := p
    rw [List.map_cons, List.nodup_cons] at hnodup
    rcases List.mem_cons.mp h with heq | hmem
    · cases heq
      simp
    · have hne : (x == y) = false := by
        refine beq_eq_false_iff_ne.mpr ?_
        rintro rfl
        exact hnodup.1 (List.mem_map.mpr ⟨_, hmem, rfl⟩)
      rw [List.lookup_cons, hne]
      exact ih hnodup.2 hmem

/-- The function of a name is the one declaration that has it. -/
theorem function?_of_decls {p : Program} {pre post : List Decl} {d : FnDecl}
    (hdecls : p.decls = pre ++ .fn d :: post) (hnodup : (p.decls.map declName).Nodup) :
    Reference.function? p d.name.name = some d := by
  rw [Reference.function?, hdecls, List.findSome?_append]
  rw [hdecls, List.map_append, List.nodup_append] at hnodup
  refine Option.or_eq_some_iff.mpr (.inr ⟨List.findSome?_eq_none_iff.mpr fun e he => ?_, by simp⟩)
  have hne : declName e ≠ d.name.name :=
    hnodup.2.2 _ (List.mem_map.mpr ⟨e, he, rfl⟩) _ (by simp [declName])
  cases e with
  | fn e => simpa [declName] using hne
  | _ => rfl

end Declarations

section Placing

variable {env : Lowering.Env}

theorem decls_append (pre post : List Decl) : ∀ c, Code.decls env (pre ++ post) c =
    Code.decls env pre c ++ Code.decls env post (Code.declsAfter pre c) := by
  induction pre with
  | nil => exact fun c => rfl
  | cons d pre ih =>
    intro c
    simp only [List.cons_append, Code.decls, Code.declsAfter, ih, List.append_assoc]

theorem itemAt_of_mem {image : Image} {items : List Item} {i : Item} (h : i ∈ items) :
    ∀ {pc : Int}, CodeAt image pc items → ∃ pc', ItemAt image pc' i := by
  induction items with
  | nil => simp at h
  | cons j items ih =>
    rintro pc ⟨hj, hrest⟩
    rcases List.mem_cons.mp h with rfl | h
    · exact ⟨pc, hj⟩
    · exact ih h hrest

/-- The data of global variables come from their declarations. -/
theorem global_of_mem {lit : String → Prop} (hσ : SymbolsOk (shape env.arena)) {name : String}
    {words : Option Int} {ds : List Decl} : ∀ {before after : Scope} {c : Code.Counters}, DeclsOk lit (shape env.arena) before ds after →
      .global name words ∈ Code.decls env ds c → ∃ i v, env.arena.get? i = some (.var v) ∧
        name = globalLabel v.name ∧
        words = if v.structDef.isSome then some (v.size.fdiv wordSize) else none := by
  induction ds with
  | nil => simp [Code.decls]
  | cons d ds ih =>
    rintro before after c ⟨i, -, hdecl, hrest⟩ hmem
    rw [Code.decls, List.mem_append] at hmem
    rcases hmem with hmem | hmem
    · cases d with
      | var d =>
        obtain ⟨hbinding, v, hv, -⟩ := hdecl
        obtain ⟨u, hu, -⟩ := shape_var hv
        rw [Code.decl, variableOf_eq hbinding hu, List.mem_singleton] at hmem
        obtain ⟨rfl, rfl⟩ := Item.global.inj hmem
        exact ⟨i, u, hu, rfl, rfl⟩
      | struct d =>
        rw [Code.decl] at hmem
        split at hmem <;> simp at hmem
      | fn d =>
        -- the code of a function has no such part
        have hsets := Spelling.sets_decl hσ hdecl c
        obtain ⟨-, f, hf, hok⟩ := hdecl
        exact (Spelling.parts_function hσ (Spelling.known_labels hσ _) (Spelling.word_of_fn hσ hf hok) hok
          hsets _ hmem).elim
      | misfit span kind => exact hdecl.elim
    · exact ih hrest hmem

end Placing

section Images

variable {lit : String → Prop} {a : Analysis} {p : Program} {globals : Scope} {comments : Bool}

/-- The declaration of a global variable, and its data. -/
theorem Analysed.global (h : Analysed lit a p globals) {x : String} {i : Int} {v : Variable}
    (hx : globals.lookup x = some i) (hv : a.arena.get? i = some (.var v)) :
    v.isGlobal = true ∧ v.name = x ∧
      .global (globalLabel x) (if v.structDef.isSome then some (v.size.fdiv wordSize) else none) ∈
        codeOf a p := by
  have hshape := shape_var_of_get? hv
  rcases decl_of_lookup h.decls hx with hnil | ⟨pre, d, post, visible, hds, hname, -, hdecl⟩
  · simp at hnil
  cases d with
  | var d =>
    obtain ⟨hbinding, u, hu, huname, hglobal⟩ := hdecl
    obtain rfl : { v with offset := 0 } = u := by simpa [hshape] using hu
    have hvx : v.name = x := huname.trans hname
    refine ⟨hglobal, hvx, ?_⟩
    have hvariable : Lowering.variableOf (envOf a) d.name = .ok v := variableOf_eq hbinding hv
    rw [codeOf, hds, decls_append, List.mem_append]
    right
    simp [Code.decls, Code.decl, hvariable, hvx]
  | struct d =>
    obtain ⟨-, u, hu⟩ := hdecl
    simp [hshape] at hu
  | fn d =>
    obtain ⟨-, u, hu, -⟩ := hdecl
    simp [hshape] at hu
  | misfit span kind => exact hdecl.elim

/-- An analysed program whose code can be written and read back. -/
structure Loadable (lit : String → Prop) (a : Analysis) (p : Program) (globals : Scope) : Prop where
  analysed : Analysed lit a p globals
  lines : Spelling.Lines lit
  writable : Writable (codeOf a p)

namespace Loadable

theorem ready (h : Loadable lit a p globals) : ∀ i ∈ codeOf a p, Loading.Ready i := fun i hi =>
  Spelling.ready_of_piece h.lines ((Spelling.spelled_decls h.analysed.symbols h.analysed.decls _).1 i hi)
    (h.writable i hi)

theorem sectioned (h : Loadable lit a p globals) : Loading.Sectioned false (codeOf a p) :=
  (Spelling.spelled_decls h.analysed.symbols h.analysed.decls _).2 false

theorem nodup (h : Loadable lit a p globals) : (Code.labels (codeOf a p)).Nodup :=
  Code.labels_nodup h.analysed.decls _

/-- The text is loaded as the code that it was written for. -/
theorem load_eq (h : Loadable lit a p globals) (comments : Bool) :
    load (render comments (linesOf (codeOf a p))) = (imageOf comments a p, none) :=
  Rendering.load_items (fun i hi => (h.ready i hi).ok) comments

theorem placed (h : Loadable lit a p globals) (comments : Bool) :
    CodeAt (imageOf comments a p) 0 (codeOf a p) :=
  Loading.codeAt_items comments (n := 1) (l := {}) h.ready h.nodup h.sectioned (Int.le_refl _)

theorem grows (h : Loadable lit a p globals) (comments : Bool) :
    Loading.Grows (Loading.textNames (codeOf a p)) ((Loading.extents (codeOf a p)).map Prod.fst) {}
      (imageOf comments a p) :=
  Loading.grows_items comments (n := 1) (l := {}) h.sectioned

theorem bytes_eq (h : Loadable lit a p globals) {i : Int} {v : Variable}
    (hv : a.arena.get? i = some (.var v)) :
    bytesOf (if v.structDef.isSome then some (v.size.fdiv wordSize) else none) = v.size := by
  obtain ⟨-, hdvd⟩ := h.analysed.sizes hv
  rcases h.analysed.arena.sizes hv with ⟨hnone, hsize⟩ | ⟨k, d, hk, -, -⟩
  · simp [hnone, bytesOf, hsize]
  · simp only [hk, Option.isSome_some, if_true, bytesOf, Option.getD_some, wordSize]
    rw [Int.fdiv_eq_ediv_of_nonneg _ (by omega)]
    exact Int.mul_ediv_cancel' hdvd

/-- All data take room. -/
theorem extent_pos (h : Loadable lit a p globals) : ∀ q ∈ Loading.extents (codeOf a p), 0 < q.2 := by
  intro q hq
  obtain ⟨i, hi, hextent⟩ := List.mem_filterMap.mp hq
  cases i with
  | literal name text =>
    obtain rfl := Option.some.inj hextent
    show (0 : Int) < ((unescape text.toList).length + 4 : Nat) / 4 * 4
    omega
  | global name words =>
    obtain rfl := Option.some.inj hextent
    obtain ⟨i, v, hv, -, rfl⟩ :=
      global_of_mem h.analysed.symbols h.analysed.decls hi
    show 0 < bytesOf _
    rw [h.bytes_eq hv]
    exact (h.analysed.sizes hv).1
  | _ => simp [Loading.extent?] at hextent

/-- Data lie side by side. -/
theorem extents_apart (h : Loadable lit a p globals) (comments : Bool) {q r : String × Int}
    (hq : q ∈ Loading.extents (codeOf a p)) (hr : r ∈ Loading.extents (codeOf a p)) :
    q = r ∨ ∀ {b c}, (imageOf comments a p).dataLabels[q.1]? = some b →
      (imageOf comments a p).dataLabels[r.1]? = some c → b + q.2 ≤ c ∨ c + r.2 ≤ b := by
  have hordered := (Loading.extents_ordered comments (n := 1) (l := {}) h.nodup h.sectioned).2
  have hpairs : (Loading.extents (codeOf a p)).Pairwise fun q r => q = r ∨
      ∀ {b c}, (imageOf comments a p).dataLabels[q.1]? = some b →
        (imageOf comments a p).dataLabels[r.1]? = some c → b + q.2 ≤ c ∨ c + r.2 ≤ b :=
    hordered.imp fun hqr => .inr fun hb hc => .inl (hqr hb hc)
  exact hpairs.forall_of_forall_of_flip (fun _ _ => .inl rfl)
    (hordered.imp fun hqr => .inr fun hb hc => .inr (hqr hc hb)) hq hr

theorem extent_of_label (h : Loadable lit a p globals) {name : String} {b : Int}
    (hb : (imageOf comments a p).dataLabels[name]? = some b) :
    ∃ q ∈ Loading.extents (codeOf a p), q.1 = name := by
  by_contra hnone
  have hnew : name ∉ (Loading.extents (codeOf a p)).map Prod.fst := by
    rintro hmem
    obtain ⟨q, hq, rfl⟩ := List.mem_map.mp hmem
    exact hnone ⟨q, hq, rfl⟩
  rw [(h.grows comments).dataLabels name hnew] at hb
  simp at hb

/-- Different labels of data have different addresses. -/
theorem labels_inj (h : Loadable lit a p globals) {name name' : String} {b : Int}
    (hb : (imageOf comments a p).dataLabels[name]? = some b)
    (hb' : (imageOf comments a p).dataLabels[name']? = some b) : name = name' := by
  obtain ⟨q, hq, rfl⟩ := h.extent_of_label hb
  obtain ⟨r, hr, rfl⟩ := h.extent_of_label hb'
  rcases h.extents_apart comments hq hr with rfl | hapart
  · rfl
  · have := h.extent_pos q hq
    have := h.extent_pos r hr
    have := hapart hb hb'
    omega

theorem global (h : Loadable lit a p globals) {x : String} {i : Int} {v : Variable}
    (hx : globals.lookup x = some i) (hv : a.arena.get? i = some (.var v)) :
    v.isGlobal = true ∧ v.name = x ∧
      .global (globalLabel x) (if v.structDef.isSome then some (v.size.fdiv wordSize) else none) ∈
        codeOf a p :=
  h.analysed.global hx hv

theorem extent_of_global (h : Loadable lit a p globals) {x : String} {i : Int} {v : Variable}
    (hx : globals.lookup x = some i) (hv : a.arena.get? i = some (.var v)) :
    (globalLabel x, v.size) ∈ Loading.extents (codeOf a p) := by
  obtain ⟨-, -, hmem⟩ := h.global hx hv
  refine List.mem_filterMap.mpr ⟨_, hmem, ?_⟩
  rw [Loading.extent?, h.bytes_eq hv]

theorem globalLabel_inj {x y : String} (h : globalLabel x = globalLabel y) : x = y := by
  simpa [globalLabel, String.ext_iff] using h

/-- Global variables lie in the data, side by side. -/
theorem globalsOk (h : Loadable lit a p globals) :
    GlobalsOk a.arena (imageOf comments a p) globals where
  placed {x i v} hx hv := by
    obtain ⟨hglobal, hname, hmem⟩ := h.global hx hv
    obtain ⟨-, b, hb, hlow, hhigh⟩ := itemAt_of_mem hmem (h.placed comments)
    rw [h.bytes_eq hv] at hhigh
    exact ⟨hglobal, hname, b, hb, hlow, hhigh⟩
  apart {x y i j u v b c} hx hy hu hv hb hc := by
    rcases h.extents_apart comments (h.extent_of_global hx hu)
      (h.extent_of_global hy hv) with heq | hapart
    · exact .inl (globalLabel_inj (congrArg Prod.fst heq))
    · exact .inr (hapart hb hc)

/-- A function stands in its place. -/
theorem stands (h : Loadable lit a p globals) (comments : Bool) {pre post : List Decl} {d : FnDecl}
    {f : Function} {visible : Scope} (hds : p.decls = pre ++ .fn d :: post) (hvisible : visible <+: globals)
    (hf : ∃ i, shape a.arena i = some (.func f)) (hok : FnOk lit (shape a.arena) visible d f) :
    ∃ frame, (loadedOf comments lit a p globals).Stands pre d f visible frame := by
  obtain ⟨frame, hframe, hnonneg, hseparate⟩ := h.analysed.frames d (by simp [hds])
  obtain ⟨i, hf⟩ := hf
  have hsymbol : SymbolOk (shape a.arena) (.func f) := h.analysed.symbols i _ hf
  refine ⟨frame, ⟨post, hds⟩, fun hx => lookup_of_prefix hvisible hx, hok, hsymbol.2.1, ?_, hframe,
    hnonneg, hseparate⟩
  have hplaced := h.placed comments
  rw [codeOf, hds, decls_append, codeAt_append, Code.decls, codeAt_append] at hplaced
  have hstart := hplaced.2.1
  rw [Int.zero_add] at hstart
  exact hstart

theorem names_nodup (h : Loadable lit a p globals) : (p.decls.map declName).Nodup :=
  nodup_of_declsShape h.analysed.decls

/-- A loaded program is one whose calls can be followed. -/
theorem sound (h : Loadable lit a p globals) (comments : Bool) :
    (loadedOf comments lit a p globals).Sound where
  arena := h.analysed.arena
  symbols := h.analysed.symbols
  data := (h.grows comments).dataNext
  labels := h.labels_inj
  globals := h.globalsOk
  functions {name i f} hx hf := by
    have hshape : shape a.arena i = some (.func f) := by
      have hf : a.arena.get? i = some (.func f) := hf
      simp [shape, hf, unplaced]
    rcases decl_of_lookup h.analysed.decls hx with hnil | ⟨pre, d, post, visible, hds, hname, hvisible, hdecl⟩
    · simp at hnil
    cases d with
    | fn d =>
      obtain ⟨-, f', hf', hok⟩ := hdecl
      obtain rfl : f = f' := by simpa [hshape] using hf'
      obtain ⟨frame, hstands⟩ := h.stands comments hds hvisible ⟨i, hshape⟩ hok
      have hname : d.name.name = name := hname
      refine ⟨pre, d, visible, frame, hstands, hname, ?_⟩
      rw [← hname]
      exact function?_of_decls hds h.names_nodup
    | var d =>
      obtain ⟨-, u, hu, -⟩ := hdecl
      simp [hshape] at hu
    | struct d =>
      obtain ⟨-, u, hu⟩ := hdecl
      simp [hshape] at hu
    | misfit span kind => exact hdecl.elim

/-- Every function of the program stands in its place. -/
theorem standing (h : Loadable lit a p globals) (comments : Bool) {pre post : List Decl} {d : FnDecl}
    (hds : p.decls = pre ++ .fn d :: post) : ∃ f visible frame,
    (loadedOf comments lit a p globals).Stands pre d f visible frame := by
  have hdecls := h.analysed.decls
  rw [hds] at hdecls
  obtain ⟨visible, i, hvisible, -, -, f, hf, hok⟩ := decl_of_mem hdecls
  exact ⟨f, visible, h.stands comments hds hvisible ⟨i, hf⟩ hok⟩

/-- The function that the program starts with stands in its place, where its label is. -/
theorem main (h : Loadable lit a p globals) (comments : Bool) : ∃ pre d f visible frame,
    (loadedOf comments lit a p globals).Stands pre d f visible frame ∧ d.name.name = "main" ∧
    f.params = [] ∧ Reference.function? p "main" = some d := by
  obtain ⟨e, he, hmain⟩ := List.any_eq_true.mp h.analysed.main
  cases e with
  | fn d =>
    simp only [Typing.isMain, Bool.and_eq_true, beq_iff_eq, List.isEmpty_iff] at hmain
    obtain ⟨⟨hname, hformals⟩, -⟩ := hmain
    obtain ⟨pre, post, hds⟩ := List.append_of_mem he
    obtain ⟨f, visible, frame, hstands⟩ := h.standing comments hds
    refine ⟨pre, d, f, visible, frame, hstands, hname, ?_, ?_⟩
    · have hparams := hstands.ok.2.2.1
      rw [hformals] at hparams
      exact hparams
    · rw [← hname]
      exact function?_of_decls hds h.names_nodup
  | _ => simp [Typing.isMain] at hmain

/-- All words are zero before the first step. -/
theorem blank (comments : Bool) (a : Analysis) (p : Program) : Loading.Blank (imageOf comments a p) :=
  Loading.blank_items comments fun a => by simp

end Loadable

end Images

end CMinusMinus.Proofs
