import CMinusMinus.Analysis.Names
import Mathlib.Data.List.Nodup

/-!
Lexical scoping, said of a program as a whole. A program is read as the list of the names that occur in
it, in the order in which they are looked at, each with the scope that it stands in. The scopes are
numbered by their place in the program: a scope lies in another if its steps end in the steps of the
other. What a name stands for is then a question about the occurrences before it.
-/
namespace CMinusMinus.Proofs.Lexical

/-- A scope, as the steps that lead into it, the last one first. A step is the number of a declaration
of the program or of a statement of a block; a mark tells the second block of a statement from the
first. -/
abbrev Nest := List (Nat × Bool)

/-- What a declaration is for. -/
inductive Role where
  | variable (type : TypeName)
  | parameter (type : TypeName)
  | field (type : TypeName)
  | struct
  | function

/-- A name that occurs in a program: the scope in which it stands, and what is declared there. A name
that is used has no role. -/
structure Occurrence where
  nest : Nest
  id : Ident
  role : Option Role

section Programs

mutual

/-- The names used in an expression, in the order in which they are looked up. -/
def uses : Expr → List Ident
  | .ident x => [x]
  | .dot _ obj _ _ _ => uses obj
  | .assign _ target value => uses value ++ uses target
  | .call _ callee args => callee :: usesAll args
  | .unary _ _ operand => uses operand
  | .binary _ _ left right => uses left ++ uses right
  | .int .. | .string .. | .bool .. | .misfit .. => []

def usesAll : List Expr → List Ident
  | [] => []
  | e :: es => uses e ++ usesAll es

end

def usedAt (nest : Nest) (xs : List Ident) : List Occurrence :=
  xs.map fun x => { nest, id := x, role := none }

def declaredAt (nest : Nest) (role : TypeName → Role) (ds : List VarDecl) : List Occurrence :=
  ds.map fun d => { nest, id := d.name, role := some (role d.type) }

mutual

/-- The names that occur in a statement, which has a number in its block. A condition stands in the
scope around it. -/
def inStmt (nest : Nest) (k : Nat) : Stmt → List Occurrence
  | .assign _ e | .increment _ e | .decrement _ e | .read _ e | .write _ e | .call _ e
  | .ret _ (some e) => usedAt nest (uses e)
  | .ifThen _ cond body | .loop _ cond body =>
    usedAt nest (uses cond) ++ inBlock ((k, false) :: nest) body
  | .ifElse _ cond body other =>
    usedAt nest (uses cond) ++
      (inBlock ((k, false) :: nest) body ++ inBlock ((k, true) :: nest) other)
  | .ret _ none | .misfit .. => []

def inStmts (nest : Nest) (k : Nat) : List Stmt → List Occurrence
  | [] => []
  | st :: ss => inStmt nest k st ++ inStmts nest (k + 1) ss

def inBlock (nest : Nest) : Block → List Occurrence
  | .mk _ decls body => declaredAt nest .variable decls ++ inStmts nest 0 body

end

/-- The names that occur in a declaration of the program, which has a number in it. The fields of a
struct come before its name. The parameters of a function and the declarations of its body stand in one
scope, after the function. -/
def inDecl (k : Nat) : Decl → List Occurrence
  | .var d => declaredAt [] .variable [d]
  | .struct d => declaredAt [(k, false)] .field d.fields ++ [⟨[], d.name, some .struct⟩]
  | .fn d => ⟨[], d.name, some .function⟩ ::
      (declaredAt [(k, false)] .parameter d.formals ++ inBlock [(k, false)] d.body)
  | .misfit .. => []

/-- The names that occur in declarations, numbered from some number on. -/
def inDecls (k : Nat) : List Decl → List Occurrence
  | [] => []
  | d :: ds => inDecl k d ++ inDecls (k + 1) ds

end Programs

section Rules

/-- The index of the symbol that a declaration was accepted with. -/
def Occurrence.index? (o : Occurrence) : Option Int :=
  match o.role, o.id.binding with
  | some _, .symbol i => some i
  | _, _ => none

def Occurrence.isUnresolved (o : Occurrence) : Bool :=
  o.role.isNone && o.id.binding = .unresolved

variable (before : List Occurrence)

def Visible (nest : Nest) (name : String) (d : Occurrence) : Prop :=
  d ∈ before ∧ d.index?.isSome ∧ d.id.name = name ∧ d.nest <:+ nest

/-- A name stands for a declaration: it is in sight, and none is in sight further in. -/
def Denotes (nest : Nest) (name : String) (d : Occurrence) : Prop :=
  Visible before nest name d ∧
    ∀ d', Visible before nest name d' → d'.nest.length ≤ d.nest.length

/-- The type of a variable can be had: it is not void, and if it is named as a struct, the name stands
for one. -/
def Typable (nest : Nest) (t : TypeName) : Prop :=
  t.name ≠ "void" ∧ (t.isStruct = true → ∃ d, Denotes before nest t.name d ∧ d.role = some .struct)

/-- What is declared can be had. The struct of a field is looked for around the fields. -/
def Available (nest : Nest) : Role → Prop
  | .variable t => Typable before nest t
  | .field t => Typable before nest.tail t
  | .parameter t => t.name ≠ "void"
  | .struct | .function => True

def Free (nest : Nest) (name : String) : Prop :=
  ∀ d ∈ before, d.index?.isSome → d.nest = nest → d.id.name ≠ name

/-- A use is bound to the symbol of the declaration that its name stands for, if there is one. A
declaration is accepted if its name is free and it can be had; it is then bound to the next symbol. -/
def Right (o : Occurrence) : Prop :=
  match o.role with
  | none =>
    (∃ d i, Denotes before o.nest o.id.name d ∧ d.index? = some i ∧ o.id.binding = .symbol i) ∨
      (∀ d, ¬ Visible before o.nest o.id.name d) ∧ o.id.binding = .unresolved
  | some role =>
    (Free before o.nest o.id.name ∧ Available before o.nest role) ∧
        o.id.binding = .symbol (before.countP (·.index?.isSome)) ∨
      ¬ (Free before o.nest o.id.name ∧ Available before o.nest role) ∧ o.id.binding = .unvisited

end Rules

def Scoped (os : List Occurrence) : Prop :=
  ∀ before o after, os = before ++ o :: after → Right before o

def Describes (o : Occurrence) : Symbol → Prop
  | .var v => v.name = o.id.name ∧
      ∃ t, o.role = some (.variable t) ∨ o.role = some (.parameter t) ∨ o.role = some (.field t)
  | .struct d => d.name = o.id.name ∧ o.role = some .struct
  | .func f => f.name = o.id.name ∧ o.role = some .function

/-- The struct type of a variable, and the scope in which it is looked for. -/
def Occurrence.structType? (o : Occurrence) : Option (Nest × TypeName) :=
  match o.role with
  | some (.variable t) => if t.isStruct then some (o.nest, t) else none
  | some (.field t) => if t.isStruct then some (o.nest.tail, t) else none
  | _ => none

def Defines (before : List Occurrence) (name : String) (d : Occurrence) : Prop :=
  d ∈ before ∧ d.index?.isSome ∧ d.id.name = name ∧ d.nest = [] ∧ d.role = some .struct

/-- Something else than what stands at the top is in sight under a name. -/
def Hidden (before : List Occurrence) (nest : Nest) (name : String) : Prop :=
  ∃ d, Visible before nest name d ∧ d.nest ≠ []

/-- A diagnostic about a type that is no struct. -/
def isStructless (d : Diagnostic) : Bool :=
  match d.finding with
  | .naming (.notAStruct _) => true
  | _ => false

def HasStruct (arena : Arena) (i k : Int) : Prop :=
  ∃ v e, arena.get? i = some (.var v) ∧ v.structDef = some k ∧ arena.get? k = some (.struct e) ∧ v.size = e.size

/-- The struct types of names in order, with the diagnostics about them. A type is found if a struct of its
name was accepted before and is not hidden; a variable that is accepted has that struct. Each type that is
not found is taken down, and its variable is not accepted. -/
inductive Structs (file : Option String) (arena : Arena) : List Occurrence → List Diagnostic → Prop
  | nil : Structs file arena [] []
  | other {os ds o} (h : Structs file arena os ds) (htype : o.structType? = none)
      (htop : o.role = some .struct → o.nest = []) : Structs file arena (os ++ [o]) ds
  | found {os ds o nest t d k} (h : Structs file arena os ds) (htype : o.structType? = some (nest, t))
      (hdefines : Defines os t.name d) (hvisible : ¬ Hidden os nest t.name) (hk : d.index? = some k)
      (hstruct : ∀ i, o.index? = some i → HasStruct arena i k) : Structs file arena (os ++ [o]) ds
  | missing {os ds o nest t} (h : Structs file arena os ds) (htype : o.structType? = some (nest, t))
      (hmissing : (∀ d, ¬ Defines os t.name d) ∨ Hidden os nest t.name) (hrefused : o.index? = none) :
      Structs file arena (os ++ [o]) (ds ++ [.atSpan .error (.naming (.notAStruct t.name)) file t.span])

def scopeAt (os : List Occurrence) (nest : Nest) : Scope :=
  os.filterMap fun o => if o.nest = nest then o.index?.map (o.id.name, ·) else none

def chain (os : List Occurrence) : Nest → List Scope
  | [] => [scopeAt os []]
  | step :: nest => scopeAt os (step :: nest) :: chain os nest

section Chains

variable {os os' : List Occurrence} {o : Occurrence} {nest : Nest} {name : String} {i : Int}

theorem scopeAt_append : scopeAt (os ++ os') nest = scopeAt os nest ++ scopeAt os' nest :=
  List.filterMap_append

theorem mem_scopeAt : (name, i) ∈ scopeAt os nest ↔
    ∃ o ∈ os, o.nest = nest ∧ o.id.name = name ∧ o.index? = some i := by
  simp only [scopeAt, List.mem_filterMap]
  constructor
  · rintro ⟨o, ho, hentry⟩
    by_cases hnest : o.nest = nest
    · rw [if_pos hnest] at hentry
      obtain ⟨j, hj, hpair⟩ := Option.map_eq_some_iff.mp hentry
      obtain ⟨hname, rfl⟩ := Prod.mk.inj hpair
      exact ⟨o, ho, hnest, hname, hj⟩
    · rw [if_neg hnest] at hentry
      cases hentry
  · rintro ⟨o, ho, hnest, hname, hindex⟩
    exact ⟨o, ho, by simp [hnest, hname, hindex]⟩

/-- What stands elsewhere adds nothing to a scope. -/
theorem scopeAt_elsewhere (h : ∀ o ∈ os, o.nest ≠ nest) : scopeAt os nest = [] := by
  rw [scopeAt, List.filterMap_eq_nil_iff]
  intro o ho
  rw [if_neg (h o ho)]

theorem lookup_scopeAt (h : (scopeAt os nest).lookup name = some i) :
    ∃ o ∈ os, o.nest = nest ∧ o.id.name = name ∧ o.index? = some i := by
  obtain ⟨before, after, heq, -⟩ := List.lookup_eq_some_iff.mp h
  apply mem_scopeAt.mp
  rw [heq]
  simp

theorem lookup_scopeAt_none (h : (scopeAt os nest).lookup name = none) : Free os nest name := by
  rintro d hd hindex hnest rfl
  obtain ⟨i, hi⟩ := Option.isSome_iff_exists.mp hindex
  have hmem := mem_scopeAt.mpr ⟨d, hd, hnest, rfl, hi⟩
  have := List.lookup_eq_none_iff.mp h _ hmem
  simp at this

/-- A name that is found in the scopes in sight stands for a declaration there. -/
theorem denotes_of_find : ∀ {nest : Nest}, (chain os nest).findSome? (·.lookup name) = some i →
    ∃ d, Denotes os nest name d ∧ d.index? = some i
  | [], h => by
    have h : (scopeAt os []).lookup name = some i := by simpa [chain] using h
    obtain ⟨d, hd, hnest, hname, hindex⟩ := lookup_scopeAt h
    refine ⟨d, ⟨⟨hd, by simp [hindex], hname, by simp [hnest]⟩, ?_⟩, hindex⟩
    rintro d' ⟨-, -, -, hsuffix⟩
    rw [List.suffix_nil.mp hsuffix]
    exact Nat.zero_le _
  | step :: nest, h => by
    rw [chain, List.findSome?_cons] at h
    split at h
    · rename_i j hfound
      obtain rfl := Option.some.inj h
      obtain ⟨d, hd, hnest, hname, hindex⟩ := lookup_scopeAt hfound
      refine ⟨d, ⟨⟨hd, by simp [hindex], hname, by simp [hnest]⟩, ?_⟩, hindex⟩
      rintro d' ⟨-, -, -, hsuffix⟩
      rw [hnest]
      exact hsuffix.length_le
    · rename_i hnone
      obtain ⟨d, ⟨⟨hd, haccepted, hname, hsuffix⟩, hinner⟩, hindex⟩ := denotes_of_find h
      refine ⟨d, ⟨⟨hd, haccepted, hname, hsuffix.trans (List.suffix_cons step nest)⟩, ?_⟩, hindex⟩
      -- nothing is in sight in the innermost scope
      rintro d' ⟨hd', haccepted', hname', hsuffix'⟩
      rcases List.suffix_cons_iff.mp hsuffix' with heq | hsuffix'
      · exact absurd hname' (lookup_scopeAt_none hnone d' hd' haccepted' heq)
      · exact hinner d' ⟨hd', haccepted', hname', hsuffix'⟩

/-- A name that is not found in the scopes in sight has no declaration in sight. -/
theorem not_visible_of_find : ∀ {nest : Nest}, (chain os nest).findSome? (·.lookup name) = none →
    ∀ d, ¬ Visible os nest name d
  | [], h => by
    have h : (scopeAt os []).lookup name = none := by simpa [chain] using h
    rintro d ⟨hd, haccepted, hname, hsuffix⟩
    exact lookup_scopeAt_none h d hd haccepted (List.suffix_nil.mp hsuffix) hname
  | step :: nest, h => by
    rw [chain, List.findSome?_cons] at h
    split at h
    · cases h
    · rename_i hnone
      rintro d ⟨hd, haccepted, hname, hsuffix⟩
      rcases List.suffix_cons_iff.mp hsuffix with heq | hsuffix
      · exact lookup_scopeAt_none hnone d hd haccepted heq hname
      · exact not_visible_of_find h d ⟨hd, haccepted, hname, hsuffix⟩

/-- Where the names of a scope are all different, a name stands for one declaration. -/
theorem Denotes.index_unique (hnodup : ∀ n, ((scopeAt os n).map Prod.fst).Nodup) {d d' : Occurrence}
    (h : Denotes os nest name d) (h' : Denotes os nest name d') : d.index? = d'.index? := by
  obtain ⟨⟨hd, haccepted, hname, hsuffix⟩, hinner⟩ := h
  obtain ⟨⟨hd', haccepted', hname', hsuffix'⟩, hinner'⟩ := h'
  have hlength : d.nest.length = d'.nest.length :=
    Nat.le_antisymm (hinner' d ⟨hd, haccepted, hname, hsuffix⟩)
      (hinner d' ⟨hd', haccepted', hname', hsuffix'⟩)
  have hnest : d.nest = d'.nest :=
    (List.suffix_of_suffix_length_le hsuffix hsuffix' (Nat.le_of_eq hlength)).eq_of_length hlength
  obtain ⟨i, hi⟩ := Option.isSome_iff_exists.mp haccepted
  obtain ⟨j, hj⟩ := Option.isSome_iff_exists.mp haccepted'
  have hmem := mem_scopeAt.mpr ⟨d, hd, hnest, hname, hi⟩
  have hmem' := mem_scopeAt.mpr ⟨d', hd', rfl, hname', hj⟩
  have heq := List.inj_on_of_nodup_map (hnodup d'.nest) hmem hmem' rfl
  rw [hi, hj, (Prod.mk.inj heq).2]

end Chains

section Structs

variable {file : Option String} {arena arena' : Arena} {os : List Occurrence} {ds : List Diagnostic}

theorem Structs.grows (h : Structs file arena os ds)
    (hgrows : ∀ {i s}, arena.get? i = some s → arena'.get? i = some s) : Structs file arena' os ds := by
  induction h with
  | nil => exact .nil
  | other _ htype htop ih => exact .other ih htype htop
  | found _ htype hdefines hvisible hk hstruct ih =>
    refine .found ih htype hdefines hvisible hk fun i hi => ?_
    obtain ⟨v, e, hv, hdef, he, hsize⟩ := hstruct i hi
    exact ⟨v, e, hgrows hv, hdef, hgrows he, hsize⟩
  | missing _ htype hmissing hrefused ih => exact .missing ih htype hmissing hrefused

/-- Structs stand at the top. -/
theorem Structs.top (h : Structs file arena os ds) : ∀ o ∈ os, o.role = some .struct → o.nest = [] := by
  induction h with
  | nil => simp
  | other _ _ htop ih =>
    rw [List.forall_mem_append, List.forall_mem_singleton]
    exact ⟨ih, htop⟩
  | found _ htype _ _ _ _ ih | missing _ htype _ _ ih =>
    rw [List.forall_mem_append, List.forall_mem_singleton]
    refine ⟨ih, fun hrole => ?_⟩
    simp [Occurrence.structType?, hrole] at htype

/-- A name stands for a struct if one was accepted under it and is not hidden. -/
theorem Structs.denotes_iff (h : Structs file arena os ds) {nest : Nest} {name : String} {d : Occurrence} :
    Denotes os nest name d ∧ d.role = some .struct ↔ Defines os name d ∧ ¬ Hidden os nest name := by
  constructor
  · rintro ⟨⟨⟨hd, haccepted, hname, -⟩, hinner⟩, hrole⟩
    have hnest := h.top d hd hrole
    refine ⟨⟨hd, haccepted, hname, hnest, hrole⟩, ?_⟩
    rintro ⟨d', hvisible, hne⟩
    have := hinner d' hvisible
    rw [hnest] at this
    exact hne (List.eq_nil_of_length_eq_zero (Nat.le_zero.mp this))
  · rintro ⟨⟨hd, haccepted, hname, hnest, hrole⟩, hvisible⟩
    refine ⟨⟨⟨hd, haccepted, hname, hnest ▸ List.nil_suffix⟩, fun d' hd' => ?_⟩, hrole⟩
    by_cases hnest' : d'.nest = []
    · simp [hnest']
    · exact absurd ⟨d', hd', hnest'⟩ hvisible

end Structs

end CMinusMinus.Proofs.Lexical
