import CMinusMinus.Proofs.Variables
import CMinusMinus.Proofs.WellFormed

/-!
Where variables lie, worked out from their symbols. A field lies inside its struct and beside the
other fields, a local variable in its own slot of the frame. So each word of a variable has a place
of its own, and the compiler finds it there.
-/
namespace CMinusMinus.Proofs

open Assembly Machine WellFormed
open Reference (Scopes levelOf? placeOf?)

/-- The word that fields lead to, in bytes from the start of a variable. -/
def fieldAt? (arena : Arena) (v : Variable) : List String → Option Int
  | [] => if v.structDef.isNone then some 0 else none
  | f :: path =>
    match v.structDef.bind arena.get? with
    | some (.struct d) =>
      match (d.fields.find? f).bind arena.get? with
      | some (.var u) => (fieldAt? arena u path).map (u.offset + ·)
      | _ => none
    | _ => none

def wordAt? (arena : Arena) (index : Int) (path : List String) : Option Int :=
  match arena.get? index with
  | some (.var v) => (fieldAt? arena v path).map (v.offset + ·)
  | _ => none

/-- The words of local variables, in bytes below the frame pointer. -/
def slotAt? (arena : Arena) : List Scope → Nat → String → List String → Option Int
  | [], _, _, _ => none
  | scope :: outer, level, x, path =>
    if level = outer.length then (scope.lookup x).bind fun i => wordAt? arena i path
    else slotAt? arena outer level x path

/-- The symbols of local names, each with the number of blocks around its own. -/
def symbolAt? : List Scope → Nat → String → Option Int
  | [], _, _ => none
  | scope :: outer, level, x => if level = outer.length then scope.lookup x else symbolAt? outer level x

def globalAt? (arena : Arena) (image : Image) (globals : Scope) (x : String) (path : List String) :
    Option Int :=
  match (globals.lookup x).bind arena.get? with
  | some (.var v) =>
    match image.dataLabels[globalLabel x]? with
    | some base => (fieldAt? arena v path).map (base + ·)
    | none => none
  | _ => none

/-- The symbols of variables and structs fit together: a variable is as large as what it holds, and
the fields of a struct lie in it side by side. -/
structure ArenaOk (arena : Arena) : Prop where
  sizes : ∀ {i v}, arena.get? i = some (.var v) → v.structDef = none ∧ v.size = 4 ∨
    ∃ k d, v.structDef = some k ∧ arena.get? k = some (.struct d) ∧ v.size = d.size
  fields : ∀ {k d f j}, arena.get? k = some (.struct d) → d.fields.find? f = some j →
    ∃ u, arena.get? j = some (.var u) ∧ 0 ≤ u.offset ∧ u.offset + u.size ≤ d.size
  apart : ∀ {k d f g i j u v}, arena.get? k = some (.struct d) → d.fields.find? f = some i →
    d.fields.find? g = some j → arena.get? i = some (.var u) → arena.get? j = some (.var v) →
    f = g ∨ u.offset + u.size ≤ v.offset ∨ v.offset + v.size ≤ u.offset

section Fields

variable {arena : Arena} {i : Int} {u v : Variable} {f : String} {path path' : List String} {a : Int}

/-- Following a field, and what holds of it. -/
theorem fieldAt?_cons (h : fieldAt? arena v (f :: path) = some a) :
    ∃ k d j u b, v.structDef = some k ∧ arena.get? k = some (.struct d) ∧
      d.fields.find? f = some j ∧ arena.get? j = some (.var u) ∧
      fieldAt? arena u path = some b ∧ a = u.offset + b := by
  rw [fieldAt?] at h
  split at h
  · rename_i d hd
    split at h
    · rename_i u hu
      obtain ⟨k, hk, hd⟩ := Option.bind_eq_some_iff.mp hd
      obtain ⟨j, hj, hu⟩ := Option.bind_eq_some_iff.mp hu
      obtain ⟨b, hb, rfl⟩ := Option.map_eq_some_iff.mp h
      exact ⟨k, d, j, u, b, hk, hd, hj, hu, hb, rfl⟩
    · simp at h
  · simp at h

theorem fieldAt?_nil (h : fieldAt? arena v [] = some a) : v.structDef = none ∧ a = 0 := by
  rw [fieldAt?] at h
  split at h <;> simp_all

/-- A word of a variable lies inside it. -/
theorem fieldAt?_range (harena : ArenaOk arena) (hv : arena.get? i = some (.var v))
    (h : fieldAt? arena v path = some a) : 0 ≤ a ∧ a + 4 ≤ v.size := by
  induction path generalizing i v a with
  | nil =>
    obtain ⟨hnone, rfl⟩ := fieldAt?_nil h
    rcases harena.sizes hv with ⟨-, hsize⟩ | ⟨k, d, hk, -⟩
    · omega
    · simp [hnone] at hk
  | cons f path ih =>
    obtain ⟨k, d, j, u, b, hk, hd, hj, hu, hb, rfl⟩ := fieldAt?_cons h
    obtain ⟨u', hu', hlow, hhigh⟩ := harena.fields hd hj
    obtain rfl : u = u' := by simpa [hu] using hu'
    have hrange := ih hu hb
    rcases harena.sizes hv with ⟨hnone, -⟩ | ⟨k', d', hk', hd', hsize⟩
    · simp [hnone] at hk
    · obtain rfl : k = k' := by simpa [hk] using hk'
      obtain rfl : d = d' := by simpa [hd] using hd'
      omega

/-- Different fields lead to different words. -/
theorem fieldAt?_inj (harena : ArenaOk arena) (hv : arena.get? i = some (.var v))
    (h : fieldAt? arena v path = some a) (h' : fieldAt? arena v path' = some a) : path' = path := by
  induction path generalizing i v a path' with
  | nil =>
    obtain ⟨hnone, rfl⟩ := fieldAt?_nil h
    cases path' with
    | nil => rfl
    | cons g path' =>
      obtain ⟨k, d, j, u, b, hk, -⟩ := fieldAt?_cons h'
      simp [hnone] at hk
  | cons f path ih =>
    obtain ⟨k, d, j, u, b, hk, hd, hj, hu, hb, rfl⟩ := fieldAt?_cons h
    cases path' with
    | nil =>
      obtain ⟨hnone, -⟩ := fieldAt?_nil h'
      simp [hnone] at hk
    | cons g path' =>
      obtain ⟨k', d', j', u', b', hk', hd', hj', hu', hb', heq⟩ := fieldAt?_cons h'
      obtain rfl : k = k' := by simpa [hk] using hk'
      obtain rfl : d = d' := by simpa [hd] using hd'
      have hrange := fieldAt?_range harena hu hb
      have hrange' := fieldAt?_range harena hu' hb'
      rcases harena.apart hd hj hj' hu hu' with rfl | happart
      · obtain rfl : j = j' := by simpa [hj] using hj'
        obtain rfl : u = u' := by simpa [hu] using hu'
        obtain rfl : b = b' := by omega
        rw [ih hu hb hb']
      · omega

end Fields

/-- The places of two variables do not overlap. -/
def Apart (arena : Arena) (i j : Int) : Prop :=
  ∀ u v, arena.get? i = some (.var u) → arena.get? j = some (.var v) →
    u.offset + u.size ≤ v.offset ∨ v.offset + v.size ≤ u.offset

theorem Apart.symm {arena : Arena} {i j : Int} (h : Apart arena i j) : Apart arena j i :=
  fun u v hu hv => (h v u hv hu).symm

/-- Local variables have slots of their own in a frame. -/
structure Separate (arena : Arena) (frame : Int) (indices : List Int) : Prop where
  inFrame : ∀ i ∈ indices, ∃ v, arena.get? i = some (.var v) ∧ v.isGlobal = false ∧
    8 ≤ v.offset ∧ v.offset + v.size ≤ 8 + frame
  apart : indices.Pairwise (Apart arena)

def indicesOf (scopes : List Scope) : List Int := scopes.flatMap (·.map Prod.snd)

section Slots

variable {arena : Arena} {frame : Int} {i j : Int} {x y : String} {path path' : List String} {n : Int}
  {scope : Scope} {locals : List Scope} {l l' : Nat}

theorem Separate.sublist {is js : List Int} (h : Separate arena frame js) (hsub : is.Sublist js) :
    Separate arena frame is :=
  ⟨fun i hi => h.inFrame i (hsub.subset hi), h.apart.sublist hsub⟩

theorem Separate.perm {is js : List Int} (h : Separate arena frame is) (hperm : is.Perm js) :
    Separate arena frame js :=
  ⟨fun i hi => h.inFrame i (hperm.mem_iff.mpr hi),
    (hperm.pairwise_iff fun h => h.symm).mp h.apart⟩

theorem wordAt?_eq_some (h : wordAt? arena i path = some n) :
    ∃ v a, arena.get? i = some (.var v) ∧ fieldAt? arena v path = some a ∧ n = v.offset + a := by
  rw [wordAt?] at h
  split at h
  · rename_i v hv
    obtain ⟨a, ha, rfl⟩ := Option.map_eq_some_iff.mp h
    exact ⟨v, a, hv, ha, rfl⟩
  · simp at h

/-- Variables that lie apart share no word. -/
theorem Apart.wordAt?_ne (h : Apart arena i j) (harena : ArenaOk arena)
    (hi : wordAt? arena i path = some n) : wordAt? arena j path' ≠ some n := by
  intro hj
  obtain ⟨u, a, hu, ha, rfl⟩ := wordAt?_eq_some hi
  obtain ⟨v, b, hv, hb, heq⟩ := wordAt?_eq_some hj
  have := h u v hu hv
  have := fieldAt?_range harena hu ha
  have := fieldAt?_range harena hv hb
  omega

theorem mem_of_lookup (h : scope.lookup x = some i) : i ∈ scope.map Prod.snd := by
  obtain ⟨before, after, rfl, -⟩ := List.lookup_eq_some_iff.mp h
  simp

/-- Two names of one scope stand for variables that lie apart. -/
theorem apart_of_lookup (hscope : (scope.map Prod.snd).Pairwise (Apart arena))
    (hx : scope.lookup x = some i) (hy : scope.lookup y = some j) (hne : x ≠ y) :
    Apart arena i j := by
  induction scope with
  | nil => simp at hx
  | cons p rest ih =>
    obtain ⟨name, k⟩ := p
    rw [List.map_cons, List.pairwise_cons] at hscope
    rw [List.lookup_cons] at hx hy
    by_cases hxn : x = name
    · have hyn : (y == name) = false := by simpa using fun h : y = name => hne (hxn.trans h.symm)
      simp only [hxn, beq_self_eq_true, Option.some.injEq] at hx
      rw [hyn] at hy
      exact hx ▸ hscope.1 j (mem_of_lookup hy)
    · have hxn' : (x == name) = false := by simpa using hxn
      rw [hxn'] at hx
      by_cases hyn : y = name
      · simp only [hyn, beq_self_eq_true, Option.some.injEq] at hy
        exact (hy ▸ hscope.1 i (mem_of_lookup hx)).symm
      · have hyn' : (y == name) = false := by simpa using hyn
        rw [hyn'] at hy
        exact ih hscope.2 hx hy

theorem slotAt?_cons (h : slotAt? arena (scope :: locals) l x path = some n) :
    l = locals.length ∧ (∃ i, scope.lookup x = some i ∧ wordAt? arena i path = some n) ∨
      l ≠ locals.length ∧ slotAt? arena locals l x path = some n := by
  rw [slotAt?] at h
  split at h
  · rename_i hl
    exact .inl ⟨hl, Option.bind_eq_some_iff.mp h⟩
  · rename_i hl
    exact .inr ⟨hl, h⟩

/-- A word of a local variable is a word of its symbol. -/
theorem slotAt?_eq (arena : Arena) (locals : List Scope) (l : Nat) (x : String) (path : List String) :
    slotAt? arena locals l x path = (symbolAt? locals l x).bind fun i => wordAt? arena i path := by
  induction locals with
  | nil => rfl
  | cons scope outer ih =>
    rw [slotAt?, symbolAt?]
    split
    · rfl
    · exact ih

theorem symbolAt?_mem (h : symbolAt? locals l x = some i) : i ∈ indicesOf locals ∧ l < locals.length := by
  induction locals with
  | nil => simp [symbolAt?] at h
  | cons scope outer ih =>
    rw [indicesOf, List.flatMap_cons, List.mem_append, List.length_cons]
    rw [symbolAt?] at h
    split at h
    · exact ⟨.inl (mem_of_lookup h), by omega⟩
    · obtain ⟨hmem, hlt⟩ := ih h
      exact ⟨.inr hmem, by omega⟩

/-- A word of a local variable is a word of one of the variables in scope. -/
theorem slotAt?_mem (h : slotAt? arena locals l x path = some n) :
    ∃ i ∈ indicesOf locals, wordAt? arena i path = some n := by
  rw [slotAt?_eq] at h
  obtain ⟨i, hi, hn⟩ := Option.bind_eq_some_iff.mp h
  exact ⟨i, (symbolAt?_mem hi).1, hn⟩

theorem slotAt?_range (harena : ArenaOk arena) (hseparate : Separate arena frame (indicesOf locals))
    (h : slotAt? arena locals l x path = some n) : 8 ≤ n ∧ n + 4 ≤ 8 + frame := by
  obtain ⟨i, hi, hn⟩ := slotAt?_mem h
  obtain ⟨v, a, hv, ha, rfl⟩ := wordAt?_eq_some hn
  obtain ⟨v', hv', -, hlow, hhigh⟩ := hseparate.inFrame i hi
  obtain rfl : v = v' := by simpa [hv] using hv'
  have := fieldAt?_range harena hv ha
  omega

/-- No two words of local variables have the same slot. -/
theorem slotAt?_inj (harena : ArenaOk arena) (hseparate : Separate arena frame (indicesOf locals))
    (h : slotAt? arena locals l x path = some n) (h' : slotAt? arena locals l' y path' = some n) :
    l' = l ∧ y = x ∧ path' = path := by
  induction locals with
  | nil => simp [slotAt?] at h
  | cons scope outer ih =>
    have hpairs := hseparate.apart
    rw [indicesOf, List.flatMap_cons, List.pairwise_append] at hpairs
    obtain ⟨hscope, houter, hcross⟩ := hpairs
    rcases slotAt?_cons h with ⟨hl, i, hi, hn⟩ | ⟨-, hn⟩ <;>
      rcases slotAt?_cons h' with ⟨hl', j, hj, hn'⟩ | ⟨-, hn'⟩
    · by_cases hxy : x = y
      · subst hxy
        obtain rfl : i = j := by simpa [hi] using hj
        obtain ⟨v, a, hv, ha, rfl⟩ := wordAt?_eq_some hn
        obtain ⟨v', b, hv', hb, heq⟩ := wordAt?_eq_some hn'
        obtain rfl : v = v' := by simpa [hv] using hv'
        obtain rfl : a = b := by omega
        exact ⟨by omega, rfl, fieldAt?_inj harena hv ha hb⟩
      · exact absurd hn' ((apart_of_lookup hscope hi hj hxy).wordAt?_ne harena hn)
    · obtain ⟨j, hj, hn'⟩ := slotAt?_mem hn'
      exact absurd hn' ((hcross i (mem_of_lookup hi) j hj).wordAt?_ne harena hn)
    · obtain ⟨i, hi, hn⟩ := slotAt?_mem hn
      exact absurd hn ((hcross j (mem_of_lookup hj) i hi).wordAt?_ne harena hn')
    · exact ih (hseparate.sublist (by
        rw [indicesOf, indicesOf, List.flatMap_cons]
        exact List.sublist_append_right _ _)) hn hn'

end Slots

section Locations

variable {env : Lowering.Env} {Γ : List Scope} {i : Int} {v : Variable}

theorem shape_var {arena : Arena} (h : shape arena i = some (.var v)) :
    ∃ u, arena.get? i = some (.var u) ∧ v = { u with offset := 0 } := by
  obtain ⟨s, hs, hv⟩ := Option.map_eq_some_iff.mp h
  cases s with
  | var u => exact ⟨u, hs, by simpa [unplaced] using hv.symm⟩
  | func f => simp [unplaced] at hv
  | struct d => simp [unplaced] at hv

theorem shape_struct {arena : Arena} {d : StructDef} (h : shape arena i = some (.struct d)) :
    arena.get? i = some (.struct d) := by
  obtain ⟨s, hs, hd⟩ := Option.map_eq_some_iff.mp h
  cases s with
  | var u => simp [unplaced] at hd
  | func f => simp [unplaced] at hd
  | struct d' => simpa [unplaced, hs] using hd

theorem shape_func {arena : Arena} {f : Function} (h : shape arena i = some (.func f)) :
    arena.get? i = some (.func f) := by
  obtain ⟨s, hs, hf⟩ := Option.map_eq_some_iff.mp h
  cases s with
  | var u => simp [unplaced] at hf
  | func f' => simpa [unplaced, hs] using hf
  | struct d => simp [unplaced] at hf

theorem variableOf_eq {x : Ident} {u : Variable} (hbinding : x.binding = .symbol i)
    (hu : env.arena.get? i = some (.var u)) : Lowering.variableOf env x = .ok u := by
  simp [Lowering.variableOf, Lowering.symbolOf, hbinding, hu]

/-- An expression is a location: the symbol of the variable that it starts with, the names of the
fields that it goes on with, and the variable that they lead to. -/
inductive Located (arena : Arena) : Expr → Int → List String → Variable → Prop
  | ident {x : Ident} {i : Int} {v : Variable} (binding : x.binding = .symbol i)
      (symbol : arena.get? i = some (.var v)) : Located arena (.ident x) i [] v
  | dot {note : Note} {obj : Expr} {field : Ident} {reached : Option Int} {i j k : Int}
      {path : List String} {u v : Variable} {d : StructDef} (object : Located arena obj i path u)
      (struct : u.structDef = some k) (fields : arena.get? k = some (.struct d))
      (found : d.fields.find? field.name = some j) (binding : field.binding = .symbol j)
      (symbol : arena.get? j = some (.var v)) :
      Located arena (.dot note obj field reached false) i (path ++ [field.name]) v

/-- A location in sight starts with the variable that its name stands for. -/
theorem located_of_place {arena : Arena} : (e : Expr) → ∀ {v : Variable}, Place (shape arena) Γ e v →
    ∃ x path i last, placeOf? e = some (x, path) ∧ find Γ x = some i ∧ Located arena e i path last ∧
      v = { last with offset := 0 }
  | .ident x, v, h => by
    obtain ⟨i, hfind, hbinding, hv⟩ := h
    obtain ⟨u, hu, hv⟩ := shape_var hv
    exact ⟨x.name, [], i, u, rfl, hfind, .ident hbinding hu, hv⟩
  | .dot note obj field reached bad, v, h => by
    obtain ⟨rfl, -, u, k, d, j, hobj, hk, hd, hj, hbinding, hv⟩ := h
    obtain ⟨x, path, i, last, hplace, hfind, hlocated, rfl⟩ := located_of_place obj hobj
    obtain ⟨w, hw, hv⟩ := shape_var hv
    refine ⟨x, path ++ [field.name], i, w, ?_, hfind,
      .dot hlocated hk (shape_struct hd) hj hbinding hw, hv⟩
    rw [placeOf?, hplace]
    rfl
  | .int .., _, h | .string .., _, h | .bool .., _, h | .assign .., _, h | .call .., _, h
  | .unary .., _, h | .binary .., _, h | .misfit .., _, h => by simp [Place] at h

/-- A location is found as the variable that it starts with and the offset that its fields add up
to. -/
theorem location_of_located {e : Expr} {path : List String} {last : Variable}
    (h : Located env.arena e i path last) : ∃ root offset, env.arena.get? i = some (.var root) ∧
      Lowering.location env e = .ok (root, offset) ∧ ∀ rest a, fieldAt? env.arena last rest = some a →
        fieldAt? env.arena root (path ++ rest) = some (offset + a) := by
  induction h with
  | @ident x i v hbinding hv =>
    refine ⟨v, 0, hv, ?_, by simp⟩
    rw [Lowering.location, variableOf_eq hbinding hv]
    rfl
  | @dot note obj field reached i j k path u v d _ hk hd hj hbinding hv ih =>
    obtain ⟨root, offset, hroot, hlocation, hfields⟩ := ih
    refine ⟨root, offset + v.offset, hroot, ?_, fun rest a ha => ?_⟩
    · rw [Lowering.location, hlocation, variableOf_eq hbinding hv]
      rfl
    · have hstep : fieldAt? env.arena u (field.name :: rest) = some (v.offset + a) := by
        simp [fieldAt?, hk, hd, hj, hv, ha]
      rw [List.append_assoc, Int.add_assoc]
      exact hfields _ _ hstep

theorem location_of_place {e : Expr} (h : Place (shape env.arena) Γ e v) :
    ∃ x path i root last offset, placeOf? e = some (x, path) ∧ find Γ x = some i ∧
      env.arena.get? i = some (.var root) ∧ Lowering.location env e = .ok (root, offset) ∧
      v = { last with offset := 0 } ∧ ∀ rest a, fieldAt? env.arena last rest = some a →
        fieldAt? env.arena root (path ++ rest) = some (offset + a) := by
  obtain ⟨x, path, i, last, hplace, hfind, hlocated, hv⟩ := located_of_place e h
  obtain ⟨root, offset, hroot, hlocation, hfields⟩ := location_of_located hlocated
  exact ⟨x, path, i, root, last, offset, hplace, hfind, hroot, hlocation, hv, hfields⟩

end Locations

/-- Global variables lie in the data of a loaded program, each in a place of its own. -/
structure GlobalsOk (arena : Arena) (image : Image) (globals : Scope) : Prop where
  placed : ∀ {x i v}, globals.lookup x = some i → arena.get? i = some (.var v) →
    v.isGlobal = true ∧ v.name = x ∧ ∃ base, image.dataLabels[globalLabel x]? = some base ∧
      dataBase ≤ base ∧ base + v.size ≤ image.dataNext
  apart : ∀ {x y i j u v a b}, globals.lookup x = some i → globals.lookup y = some j →
    arena.get? i = some (.var u) → arena.get? j = some (.var v) →
    image.dataLabels[globalLabel x]? = some a → image.dataLabels[globalLabel y]? = some b →
    x = y ∨ a + u.size ≤ b ∨ b + v.size ≤ a

/-- Where the variables lie that are in sight, with some local scopes. -/
def layoutOf (arena : Arena) (image : Image) (globals : Scope) (locals : List Scope) : Layout where
  globals := globalAt? arena image globals
  slots := slotAt? arena locals

/-- The names of local scopes. -/
def namesOf (locals : List Scope) : Scopes := locals.map (·.map Prod.fst)

section Layouts

variable {arena : Arena} {image : Image} {globals visible : Scope} {locals : List Scope} {frame : Int}
  {x : String} {path : List String} {a : Int}

theorem globalAt?_eq_some (h : globalAt? arena image globals x path = some a) :
    ∃ i v base b, globals.lookup x = some i ∧ arena.get? i = some (.var v) ∧
      image.dataLabels[globalLabel x]? = some base ∧ fieldAt? arena v path = some b ∧
      a = base + b := by
  rw [globalAt?] at h
  split at h
  · rename_i v hv
    obtain ⟨i, hi, hv⟩ := Option.bind_eq_some_iff.mp hv
    split at h
    · rename_i base hbase
      obtain ⟨b, hb, rfl⟩ := Option.map_eq_some_iff.mp h
      exact ⟨i, v, base, b, hi, hv, hbase, hb, rfl⟩
    · simp at h
  · simp at h

theorem layoutOf_sound (harena : ArenaOk arena) (hglobals : GlobalsOk arena image globals)
    (hlocals : Separate arena frame (indicesOf locals)) :
    (layoutOf arena image globals locals).Sound image frame where
  global_range h := by
    obtain ⟨i, v, base, b, hi, hv, hbase, hb, rfl⟩ := globalAt?_eq_some h
    obtain ⟨-, -, base', hbase', hlow, hhigh⟩ := hglobals.placed hi hv
    obtain rfl : base = base' := by simpa [hbase] using hbase'
    have := fieldAt?_range harena hv hb
    omega
  global_inj h h' := by
    obtain ⟨i, v, base, b, hi, hv, hbase, hb, rfl⟩ := globalAt?_eq_some h
    obtain ⟨i', v', base', b', hi', hv', hbase', hb', heq⟩ := globalAt?_eq_some h'
    have := fieldAt?_range harena hv hb
    have := fieldAt?_range harena hv' hb'
    rcases hglobals.apart hi hi' hv hv' hbase hbase' with rfl | hapart
    · obtain rfl : i = i' := by simpa [hi] using hi'
      obtain rfl : v = v' := by simpa [hv] using hv'
      obtain rfl : base = base' := by simpa [hbase] using hbase'
      obtain rfl : b = b' := by omega
      exact ⟨rfl, fieldAt?_inj harena hv hb hb'⟩
    · omega
  slot_range h := slotAt?_range harena hlocals h
  slot_inj h h' := slotAt?_inj harena hlocals h h'

/-- A name in sight is a local one, or else a global one. -/
theorem find_local {i : Int} (h : find (locals ++ [visible]) x = some i) :
    (∃ level, levelOf? (namesOf locals) x = some level ∧ symbolAt? locals level x = some i) ∨
    levelOf? (namesOf locals) x = none ∧ visible.lookup x = some i := by
  induction locals with
  | nil => exact .inr ⟨rfl, by simpa [find] using h⟩
  | cons scope outer ih =>
    simp only [find, List.cons_append, List.findSome?_cons] at h
    cases hx : scope.lookup x with
    | some j =>
      simp only [hx, Option.some.injEq] at h
      subst h
      have hmem : x ∈ scope.map Prod.fst := by
        obtain ⟨before, after, rfl, -⟩ := List.lookup_eq_some_iff.mp hx
        simp
      refine .inl ⟨outer.length, ?_, ?_⟩
      · simp [namesOf, levelOf?, hmem]
      · simp [symbolAt?, hx]
    | none =>
      simp only [hx] at h
      have hmem : x ∉ scope.map Prod.fst := by
        intro hmem
        obtain ⟨p, hp, hpx⟩ := List.mem_map.mp hmem
        have := List.lookup_eq_none_iff.mp hx p hp
        simp [hpx] at this
      have hlevel : levelOf? (namesOf (scope :: outer)) x = levelOf? (namesOf outer) x := by
        simp [namesOf, levelOf?, hmem]
      rw [hlevel]
      refine (ih h).imp ?_ id
      rintro ⟨level, hl, hsymbol⟩
      refine ⟨level, hl, ?_⟩
      have hlt := (symbolAt?_mem hsymbol).2
      rw [symbolAt?, if_neg (by omega), hsymbol]

/-- A name in sight is a local one with a slot, or else a global one. -/
theorem find_cases (arena : Arena) {i : Int} (h : find (locals ++ [visible]) x = some i) :
    (∃ level, Reference.levelOf? (namesOf locals) x = some level ∧ i ∈ indicesOf locals ∧
      ∀ path, slotAt? arena locals level x path = wordAt? arena i path) ∨
    Reference.levelOf? (namesOf locals) x = none ∧ visible.lookup x = some i := by
  rcases find_local h with ⟨level, hlevel, hsymbol⟩ | hglobal
  · refine .inl ⟨level, hlevel, (symbolAt?_mem hsymbol).1, fun path => ?_⟩
    rw [slotAt?_eq, hsymbol]
    rfl
  · exact .inr hglobal

/-- The compiler finds each location where the word of its variable lies. -/
theorem resolved_of_place {env : Lowering.Env} {e : Expr} {v : Variable}
    (hglobals : GlobalsOk env.arena image globals)
    (hvisible : ∀ {x i}, visible.lookup x = some i → globals.lookup x = some i)
    (hlocals : Separate env.arena frame (indicesOf locals))
    (h : Place (shape env.arena) (locals ++ [visible]) e v) (hv : v.structDef = none) :
    ∃ x path u offset, Resolved image env (layoutOf env.arena image globals locals)
      (namesOf locals) e x path u offset := by
  obtain ⟨x, path, i, root, last, offset, hplace, hfind, hroot, hlocation, rfl, hfields⟩ :=
    location_of_place h
  have hnone : last.structDef = none := hv
  have hfield : fieldAt? env.arena root path = some offset := by
    simpa using hfields [] 0 (by simp [fieldAt?, hnone])
  refine ⟨x, path, root, offset, hplace, hlocation, ?_⟩
  rcases find_cases env.arena hfind with ⟨level, hlevel, hi, hslot⟩ | ⟨hlevel, hx⟩
  · right
    obtain ⟨v', hv', hlocal, -⟩ := hlocals.inFrame i hi
    obtain rfl : root = v' := by simpa [hroot] using hv'
    refine ⟨hlocal, level, hlevel, ?_⟩
    show slotAt? env.arena locals level x path = _
    rw [hslot]
    simp [wordAt?, hroot, hfield]
  · left
    obtain ⟨hglobal, hname, base, hbase, -⟩ := hglobals.placed (hvisible hx) hroot
    refine ⟨hglobal, hlevel, base, by rw [hname, hbase], ?_⟩
    show globalAt? env.arena image globals x path = _
    simp [globalAt?, hvisible hx, hroot, hbase, hfield]

end Layouts

end CMinusMinus.Proofs
