import CMinusMinus.Compilation
import CMinusMinus.Proofs.Framing

/-!
What the three passes find out. The analysis of a program that has been read goes through: no pass is
stopped. If no error is taken down, the program is well formed, its symbols fit together, and each
function has a frame in which its variables have slots of their own.
-/
namespace CMinusMinus.Proofs

open WellFormed Naming Resolution Checking Verdicts Framing Grammar

section Fields

variable {arena : Arena}

/-- A field of a struct lies in it. -/
theorem Naming.Packed.field (hsane : ArenaSane arena) {scope : Scope} {name : String} {j : Int} :
    ∀ {low high : Int}, Packed arena scope low high → low ≤ high ∧ (scope.lookup name = some j →
      ∃ u, arena.get? j = some (.var u) ∧ low ≤ u.offset ∧ u.offset + u.size ≤ high) := by
  induction scope with
  | nil =>
    rintro low _ rfl
    exact ⟨Int.le_refl _, by simp⟩
  | cons p rest ih =>
    rintro low high ⟨u, hu, rfl, -, hrest⟩
    have hsize : 0 ≤ u.size := (hsane hu).2.1
    obtain ⟨hle, hin⟩ := ih hrest
    refine ⟨by omega, fun hlookup => ?_⟩
    rcases lookup_cons_cases hlookup with ⟨-, rfl⟩ | hlookup
    · exact ⟨u, hu, Int.le_refl _, hle⟩
    · obtain ⟨w, hw, hlow, hhigh⟩ := hin hlookup
      exact ⟨w, hw, by omega, hhigh⟩

/-- Fields of a struct lie side by side. -/
theorem Naming.Packed.apart (hsane : ArenaSane arena) {scope : Scope} {f g : String} {i j : Int}
    {u v : Variable} (hu : arena.get? i = some (.var u)) (hv : arena.get? j = some (.var v)) :
    ∀ {low high : Int}, Packed arena scope low high → scope.lookup f = some i →
      scope.lookup g = some j → f = g ∨ u.offset + u.size ≤ v.offset ∨ v.offset + v.size ≤ u.offset := by
  induction scope with
  | nil => simp
  | cons p rest ih =>
    rintro low high ⟨w, hw, rfl, -, hrest⟩ hf hg
    rcases lookup_cons_cases hf with ⟨rfl, rfl⟩ | hf <;>
      rcases lookup_cons_cases hg with ⟨rfl, rfl⟩ | hg
    · exact .inl rfl
    · obtain rfl : w = u := by simpa [hw] using hu
      obtain ⟨v', hv', hlow, -⟩ := (hrest.field hsane).2 hg
      obtain rfl : v' = v := by simpa [hv'] using hv
      exact .inr (.inl hlow)
    · obtain rfl : w = v := by simpa [hw] using hv
      obtain ⟨u', hu', hlow, -⟩ := (hrest.field hsane).2 hf
      obtain rfl : u' = u := by simpa [hu'] using hu
      exact .inr (.inr hlow)
    · exact ih hrest hf hg

theorem struct_of_shape {arena' : Arena} (hshape : shape arena' = shape arena) {k : Int} {d : StructDef}
    (h : arena'.get? k = some (.struct d)) : arena.get? k = some (.struct d) := by
  have hk : shape arena k = some (.struct d) := by
    rw [← hshape]
    simp [shape, h, unplaced]
  obtain ⟨symbol, hsymbol, hunplaced⟩ := Option.map_eq_some_iff.mp hk
  cases symbol with
  | var v => cases hunplaced
  | func f => cases hunplaced
  | struct e =>
    obtain rfl := Symbol.struct.inj hunplaced
    exact hsymbol

theorem var_of_shape {arena' : Arena} (hshape : shape arena' = shape arena) {i : Int} {v : Variable}
    (h : arena'.get? i = some (.var v)) :
    ∃ u, arena.get? i = some (.var u) ∧ v = { u with offset := v.offset } := by
  have hi : shape arena i = some (unplaced (.var v)) := by
    rw [← hshape]
    simp [shape, h]
  obtain ⟨symbol, hsymbol, hunplaced⟩ := Option.map_eq_some_iff.mp hi
  cases symbol with
  | var u =>
    have hsame := Symbol.var.inj hunplaced
    refine ⟨u, hsymbol, ?_⟩
    cases u
    cases v
    simp_all
  | func f => cases hunplaced
  | struct e => cases hunplaced

/-- Laying out variables that are no fields of structs keeps the structs as they are. -/
theorem arenaOk_of_sane {arena' : Arena} (hsane : ArenaSane arena) (hshape : shape arena' = shape arena)
    (hfields : ∀ {k d j}, arena.get? k = some (.struct d) → Member d j → arena'.get? j = arena.get? j) :
    ArenaOk arena' := by
  have hscope : ∀ {k d}, arena.get? k = some (.struct d) → ∃ scope, Packed arena scope 0 d.size ∧
      ∀ {f j}, d.fields.find? f = some j → scope.lookup f = some j ∧ arena'.get? j = arena.get? j := by
    intro k d hd
    obtain ⟨-, -, -, scope, hscopes, -, hpacked⟩ := hsane hd
    refine ⟨scope, hpacked, fun {f j} hj => ?_⟩
    have hlookup : scope.lookup f = some j := by simpa [SymbolTable.find?, hscopes] using hj
    obtain ⟨first, rest, hsplit, -⟩ := List.lookup_eq_some_iff.mp hlookup
    exact ⟨hlookup, hfields hd ⟨scope, by simp [hscopes], (f, j), by simp [hsplit], rfl⟩⟩
  have hback : ∀ {k d}, arena.get? k = some (.struct d) → arena'.get? k = some (.struct d) :=
    struct_of_shape hshape.symm
  refine ⟨fun {i v} hv => ?_, fun {k d f j} hd hj => ?_, fun {k d f g i j u v} hd hi hj hu hv => ?_⟩
  · obtain ⟨u, hu, hsame⟩ := var_of_shape hshape hv
    have hdef : v.structDef = u.structDef := by rw [hsame]
    have hsize : v.size = u.size := by rw [hsame]
    rw [hdef, hsize]
    rcases (hsane hu).2.2.2 with ⟨-, hnone, hfour⟩ | ⟨_, k, d, -, hk, hd, hd'⟩
    · exact .inl ⟨hnone, hfour⟩
    · exact .inr ⟨k, d, hk, hback hd, hd'⟩
  · obtain ⟨scope, hpacked, hmember⟩ := hscope (struct_of_shape hshape hd)
    obtain ⟨hlookup, hsame⟩ := hmember hj
    obtain ⟨u, hu, hlow, hhigh⟩ := (hpacked.field hsane).2 hlookup
    exact ⟨u, by rw [hsame, hu], hlow, hhigh⟩
  · obtain ⟨scope, hpacked, hmember⟩ := hscope (struct_of_shape hshape hd)
    obtain ⟨hlookup, hsame⟩ := hmember hi
    obtain ⟨hlookup', hsame'⟩ := hmember hj
    exact hpacked.apart hsane (hsame ▸ hu) (hsame' ▸ hv) hlookup hlookup'

end Fields

section Names

variable {σ : Symbols} {body : List Scope → Ty → List Stmt → Prop}

/-- The names at the top of a program are those of its declarations, in order. -/
theorem names_of_declsShape {ds : List Decl} : ∀ {before after : Scope},
    DeclsShape σ body before ds after →
      after.map Prod.fst = before.map Prod.fst ++ ds.map declName ∧
      ((before.map Prod.fst).Nodup → (after.map Prod.fst).Nodup) := by
  induction ds with
  | nil =>
    rintro before _ rfl
    simp
  | cons d ds ih =>
    rintro before after ⟨i, hnew, -, hrest⟩
    obtain ⟨hnames, hnodup⟩ := ih hrest
    refine ⟨by simp [hnames], fun hbefore => hnodup ?_⟩
    rw [List.map_append, List.nodup_append]
    refine ⟨hbefore, by simp, fun x hx y hy => ?_⟩
    obtain rfl : y = declName d := by simpa using hy
    rintro rfl
    exact hnew hx

theorem nodup_of_declsShape {ds : List Decl} {after : Scope} (h : DeclsShape σ body [] ds after) :
    (ds.map declName).Nodup := by
  obtain ⟨hnames, hnodup⟩ := names_of_declsShape h
  have := hnodup (by simp)
  rwa [hnames] at this

end Names

section Symbols

variable {arena : Arena}

theorem sized_of_sane (h : ArenaSane arena) : Sized (shape arena) := by
  intro i v hv
  obtain ⟨symbol, hsymbol, hunplaced⟩ := Option.map_eq_some_iff.mp hv
  cases symbol with
  | var u =>
    obtain rfl := Symbol.var.inj hunplaced
    exact (h hsymbol).2.1
  | func f => cases hunplaced
  | struct d => cases hunplaced

theorem shape_var_of_get? {i : Int} {v : Variable} (h : arena.get? i = some (.var v)) :
    shape arena i = some (.var { v with offset := 0 }) := by
  simp [shape, h, unplaced]

theorem shape_struct_of_get? {i : Int} {d : StructDef} (h : arena.get? i = some (.struct d)) :
    shape arena i = some (.struct d) := by
  simp [shape, h, unplaced]

/-- Symbols that are in order fit together, if the parameters of functions hold words. -/
theorem symbolsOk_of_sane (h : ArenaSane arena)
    (hparams : ∀ {i f}, arena.get? i = some (.func f) → ∀ t ∈ f.params, IsScalar t) :
    SymbolsOk (shape arena) := by
  intro i s hs
  obtain ⟨symbol, hsymbol, rfl⟩ := Option.map_eq_some_iff.mp hs
  have hsane := h hsymbol
  cases symbol with
  | var v =>
    obtain ⟨hname, -, -, hkind⟩ := hsane
    refine ⟨hname, hkind.imp (fun h => ⟨h.1, h.2.1⟩) ?_⟩
    rintro ⟨name, k, d, hty, hk, hd, -⟩
    exact ⟨name, k, d, hty, hk, shape_struct_of_get? hd⟩
  | func f => exact ⟨hsane.1, hparams hsymbol, hsane.2⟩
  | struct d =>
    obtain ⟨hname, -, -, scope, hscopes, -, hpacked⟩ := hsane
    refine ⟨hname, scope, hscopes, fun p hp => ?_⟩
    obtain ⟨u, hu⟩ := hpacked.mem p hp
    exact ⟨_, shape_var_of_get? hu⟩

end Symbols

/-- What the analysis of a program without errors has found out. -/
structure Analysed (lit : String → Prop) (a : Analysis) (p : Program) (globals : Scope) : Prop where
  program : a.program = some p
  arena : ArenaOk a.arena
  symbols : SymbolsOk (shape a.arena)
  sizes : ∀ {i v}, a.arena.get? i = some (.var v) → 0 < v.size ∧ 4 ∣ v.size
  decls : DeclsOk lit (shape a.arena) [] p.decls globals
  main : p.decls.any Typing.isMain
  laid : ∀ d, .fn d ∈ p.decls → ∃ frame, a.frames.lookup d.name.name = some frame ∧
    Laid a.arena (declSlots (fnDecls d)) Frames.firstOffset (Frames.firstOffset + frame)

/-- The variables of each function have slots of their own. -/
theorem Analysed.frames {lit : String → Prop} {a : Analysis} {p : Program} {globals : Scope}
    (h : Analysed lit a p globals) : ∀ d, .fn d ∈ p.decls → ∃ frame,
      a.frames.lookup d.name.name = some frame ∧ 0 ≤ frame ∧ Separate a.arena frame
        (declSlots (d.formals ++ d.body.decls) ++ stmtsSlots d.body.stmts) := by
  intro d hd
  obtain ⟨frame, hlookup, hlaid⟩ := h.laid d hd
  obtain ⟨hnonneg, hseparate⟩ := hlaid.separate
  rw [fnDecls_slots] at hseparate
  exact ⟨frame, hlookup, hnonneg, hseparate⟩

section Passes

variable {lit : String → Prop} {a : Analysis} {p : Program}

def namesStart (a : Analysis) : Names.State :=
  { file := a.file, diagnostics := a.diagnostics, arena := a.arena }

theorem get?_empty (i : Int) : Arena.get? {} i = none := by cases i <;> simp [Arena.get?]

theorem good_start (h : a.arena = {}) : Good (namesStart a) where
  fault := rfl
  arena hi := by
    have hi : a.arena.get? _ = some _ := hi
    simp [h, get?_empty] at hi
  founded hi := by
    have hi : a.arena.get? _ = some _ := hi
    simp [h, get?_empty] at hi
  table scope hscope := by
    obtain rfl : scope = [] := by simpa [namesStart] using hscope
    simp
  nonempty := by simp [namesStart]
  positive _ _ _ hi := by
    have hi : a.arena.get? _ = some _ := hi
    simp [h, get?_empty] at hi

/-- What name analysis leaves of a program: its declarations and a state. -/
structure LookedUp (lit : String → Prop) (a : Analysis) (ds : List Decl) (s : Names.State) : Prop where
  adds : Adds (namesStart a) s (declSlots (ds.flatMap localsOf))
  visited : ∀ d ∈ ds, VisitedDecl (shape s.arena) d
  shaped : Quiet s.diagnostics → ∃ globals, s.table.scopes = [globals] ∧
    DeclsShape (shape s.arena) (fun Γ _ ss => BoundStmts lit (shape s.arena) Γ ss) [] ds globals

/-- The symbols that name analysis has found fit together, if no error is taken down. -/
theorem LookedUp.symbols {ds : List Decl} {s : Names.State} (h : LookedUp lit a ds s)
    (hempty : a.arena = {}) (hquiet : Quiet s.diagnostics) : SymbolsOk (shape s.arena) := by
  refine symbolsOk_of_sane h.adds.good.arena fun {i f} hf => ?_
  rcases h.adds.params hquiet hf with hstart | hscalar
  · have hstart : a.arena.get? i = some (.func f) := hstart
    simp [hempty, get?_empty] at hstart
  · exact hscalar

theorem sightOf_start (hempty : a.arena = {}) : sightOf (namesStart a) = outset := by
  rw [sightOf, namesStart, hempty, outset]

/-- Name analysis binds the names of a program, and says what it says. -/
theorem resolveNames_eq (hp : a.program = some p) (hempty : a.arena = {}) (hraw : ∀ d ∈ p.decls, RawDecl lit d) :
    a.resolveNames =
      ({ a with
          program := some { p with decls := (declsIn outset p.decls).1 }
          arena := (declsIn outset p.decls).2.arena
          diagnostics := a.diagnostics ++ (declsSay outset p.decls).map (about a.file)
          globals := some (declsIn outset p.decls).2.table }, none) := by
  obtain ⟨hwalk, -⟩ := tops_decls hraw (good_start hempty)
  rw [sightOf_start hempty] at hwalk
  have hrun : (p.decls.mapM Names.decl).run { file := a.file, diagnostics := a.diagnostics, arena := a.arena } = _ := hwalk
  simp only [Analysis.resolveNames, hp, hrun]
  rfl

/-- What name analysis makes of a program is in order. -/
theorem looked (hempty : a.arena = {}) (hraw : ∀ d ∈ p.decls, RawDecl lit d) :
    LookedUp lit a (declsIn outset p.decls).1
      (moved (namesStart a) (declsIn outset p.decls).2 (declsSay outset p.decls)) := by
  obtain ⟨-, hadds, hrest⟩ := tops_decls hraw (good_start hempty)
  rw [sightOf_start hempty] at hadds hrest
  exact ⟨hadds, hrest.1 fun _ _ h => h, fun hquiet => hrest.2 rfl ⟨hquiet, fun _ _ h => h⟩⟩

def framesStart (a : Analysis) : Frames.State := { file := a.file, arena := a.arena, frames := a.frames }

/-- Frame layout goes through. -/
theorem laysOut (hp : a.program = some p) (hslotted : ∀ d ∈ p.decls, Slotted (shape a.arena) d) :
    Framed (framesStart a) (p.decls.foldl laidOut (framesStart a)) p.decls ∧ a.layOutFrames =
      ({ a with arena := (p.decls.foldl laidOut (framesStart a)).arena
                frames := (p.decls.foldl laidOut (framesStart a)).frames }, none) := by
  obtain ⟨hrun, hframed⟩ := decls_laidOut (s := framesStart a) rfl hslotted
  have hlayout : a.layOutFrames = ({ a with
      arena := (p.decls.forM Frames.decl (framesStart a)).2.arena
      frames := (p.decls.forM Frames.decl (framesStart a)).2.frames },
      (p.decls.forM Frames.decl (framesStart a)).2.fault) := by
    simp only [Analysis.layOutFrames, hp]
    rfl
  rw [hlayout, hrun, hframed.fault]
  exact ⟨hframed, rfl⟩

/-- What is known about a program after name analysis. -/
def namedAs (a : Analysis) (p : Program) (ds : List Decl) (s : Names.State) : Analysis :=
  { a with program := some { p with decls := ds }, arena := s.arena, diagnostics := s.diagnostics
           globals := some s.table }

/-- What is known about a program after type checking. -/
def typedAs (a : Analysis) (p : Program) (ds : List Decl) (s : Names.State) : Analysis :=
  { namedAs a p ds s with
      program := some { p with decls := ds.map (typedDecl s.arena) }
      diagnostics := s.diagnostics ++ (programRemarks s.arena ds).map (about a.file) }

/-- What is known about a program after frame layout. -/
def framedAs (a : Analysis) (p : Program) (ds : List Decl) (s : Names.State) : Analysis :=
  { typedAs a p ds s with
      arena := ((ds.map (typedDecl s.arena)).foldl laidOut (framesStart (typedAs a p ds s))).arena
      frames := ((ds.map (typedDecl s.arena)).foldl laidOut (framesStart (typedAs a p ds s))).frames }

/-- All passes have gone through. -/
structure Passed (lit : String → Prop) (a : Analysis) (p : Program) (ds : List Decl) (s : Names.State) : Prop where
  looked : LookedUp lit a ds s
  framed : Framed (framesStart (typedAs a p ds s))
    ((ds.map (typedDecl s.arena)).foldl laidOut (framesStart (typedAs a p ds s))) (ds.map (typedDecl s.arena))
  names : a.resolveNames = (namedAs a p ds s, none)
  types : (namedAs a p ds s).checkTypes = (typedAs a p ds s, none)
  layout : (typedAs a p ds s).layOutFrames = (framedAs a p ds s, none)

/-- After name analysis, the other passes go through. -/
theorem LookedUp.passed {ds : List Decl} {s : Names.State} (h : LookedUp lit a ds s)
    (hresolve : a.resolveNames = (namedAs a p ds s, none)) : Passed lit a p ds s := by
  have hslotted : ∀ d ∈ ds.map (typedDecl s.arena), Slotted (shape s.arena) d := by
    simpa using fun d hd => slotted_typedDecl (h.visited d hd)
  obtain ⟨hframed, hlayout⟩ := laysOut (a := typedAs a p ds s) rfl hslotted
  refine ⟨h, hframed, hresolve, ?_, hlayout⟩
  exact checkTypes_eq (a := namedAs a p ds s) rfl h.adds.good.arena h.visited

/-- All passes go through. -/
theorem passes (hp : a.program = some p) (hraw : ∀ d ∈ p.decls, RawDecl lit d) (hempty : a.arena = {}) :
    Passed lit a p (declsIn outset p.decls).1
      (moved (namesStart a) (declsIn outset p.decls).2 (declsSay outset p.decls)) :=
  (looked hempty hraw).passed (resolveNames_eq hp hempty hraw)

/-- The analysis ends in the same state whether or not its frames can be written. -/
theorem Passed.result {ds : List Decl} {s : Names.State} (h : Passed lit a p ds s) :
    a.complete.result = framedAs a p ds s := by
  simp only [Analysis.complete, h.names, h.types, h.layout]
  split <;> rfl

/-- Only a frame whose size cannot be written stops the analysis at its end. If no error is taken down, what
the analysis has found out holds together. -/
structure Completed (lit : String → Prop) (a : Analysis) : Prop where
  fault : a.complete.fault = none ∨ a.complete.fault = some .numeralTooLong ∧
    ∃ q ∈ a.complete.result.frames, Text.isWritable q.2 = false
  file : a.complete.result.file = a.file
  program : ∃ q, a.complete.result.program = some q
  diagnostics : a.diagnostics <+: a.complete.result.diagnostics
  analysed : Quiet a.complete.result.diagnostics → ∃ q globals, Analysed lit a.complete.result q globals

theorem completes (hp : a.program = some p) (hraw : ∀ d ∈ p.decls, RawDecl lit d)
    (hempty : a.arena = {}) : Completed lit a := by
  obtain ⟨ds, s, hpassed⟩ : ∃ ds s, Passed lit a p ds s := ⟨_, _, passes hp hraw hempty⟩
  have hresult := hpassed.result
  obtain ⟨hnames, hframed, hresolve, hcheck, hlayout⟩ := hpassed
  have hgood := hnames.adds.good
  refine ⟨?_, by rw [hresult]; rfl, by rw [hresult]; exact ⟨_, rfl⟩, ?_, fun hquiet => ?_⟩
  · simp only [Analysis.complete, hresolve, hcheck, hlayout]
    split
    · exact .inl rfl
    · rename_i hunwritable
      refine .inr ⟨rfl, ?_⟩
      simpa using hunwritable
  · rw [hresult]
    exact hnames.adds.diagnostics.trans (List.prefix_append _ _)
  rw [hresult] at hquiet ⊢
  obtain ⟨hquiet, hfine⟩ := quiet_append.mp hquiet
  obtain ⟨globals, -, hshaped⟩ := hnames.shaped hquiet
  have hsymbols : SymbolsOk (shape s.arena) := hnames.symbols hempty hquiet
  obtain ⟨hwell, hdecls⟩ := fits_program lit hsymbols hnames.visited ((quiet_about _).mp hfine) hshaped
  have hmain : (ds.map (typedDecl s.arena)).any Typing.isMain := by
    simpa only [List.any_map, Function.comp_def, isMain_typedDecl] using TypeRules.any_isMain_iff.mpr hwell.main
  have hshape : shape (framedAs a p ds s).arena = shape s.arena := hframed.shape
  have hlocals : declSlots ((ds.map (typedDecl s.arena)).flatMap localsOf) = declSlots (ds.flatMap localsOf) := by
    simp only [List.flatMap_map, localsOf_typedDecl]
  refine ⟨_, globals, rfl, ?_, ?_, ?_, ?_, hmain, fun d hd => ?_⟩
  · refine arenaOk_of_sane hgood.arena hshape fun {k d j} hd hj => ?_
    refine hframed.others j ?_
    rw [hlocals]
    exact (hnames.adds.apart hd hj).1
  · rw [hshape]
    exact hsymbols
  · intro i v hv
    obtain ⟨u, hu, hsame⟩ := var_of_shape hshape hv
    have hsize : v.size = u.size := by rw [hsame]
    rw [hsize]
    exact ⟨size_pos hgood hquiet (hgood.arena hu), (hgood.arena hu).2.2.1⟩
  · rw [hshape]
    exact hdecls
  · have hslots : (declSlots ((ds.map (typedDecl s.arena)).flatMap localsOf)).Nodup := by
      rw [hlocals]
      exact (hnames.adds.ranged.2.1).imp fun h => by omega
    exact hframed.functions hslots (sized_of_sane hgood.arena) (nodup_of_declsShape hdecls) d hd

end Passes

end CMinusMinus.Proofs
