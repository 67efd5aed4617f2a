import CMinusMinus.Proofs.Occurrences
import CMinusMinus.Proofs.Resolution
import CMinusMinus.Proofs.WellTyped

/-!
Name analysis is lexical scoping. The walk through a program keeps the scopes that are in sight from
where it stands, as the names looked at so far make them: it opens each scope once and leaves it for
good. So each name is bound as the names before it say, each use without a declaration in sight is
taken down once, and the symbols are those of the accepted declarations in their order.
-/
namespace CMinusMinus.Proofs.Lexical

open Names WellFormed Grammar Naming Resolution

section Erasure

def unboundIdent (x : Ident) : Ident := { x with binding := .unvisited }

/-- A declaration of a variable without what its name is bound to. -/
def unboundVar (d : VarDecl) : VarDecl := { d with name := unboundIdent d.name }

mutual

def unboundExpr : Expr → Expr
  | .ident x => .ident (unboundIdent x)
  | .dot note obj field _ _ => .dot note (unboundExpr obj) (unboundIdent field) none false
  | .assign note target value => .assign note (unboundExpr target) (unboundExpr value)
  | .call note callee args => .call note (unboundIdent callee) (unboundExprs args)
  | .unary note op operand => .unary note op (unboundExpr operand)
  | .binary note op left right => .binary note op (unboundExpr left) (unboundExpr right)
  | .int note v => .int note v
  | .string note text => .string note text
  | .bool note b => .bool note b
  | .misfit note kind => .misfit note kind

def unboundExprs : List Expr → List Expr
  | [] => []
  | e :: es => unboundExpr e :: unboundExprs es

end

mutual

def unboundStmt : Stmt → Stmt
  | .assign span e => .assign span (unboundExpr e)
  | .increment span e => .increment span (unboundExpr e)
  | .decrement span e => .decrement span (unboundExpr e)
  | .read span e => .read span (unboundExpr e)
  | .write span e => .write span (unboundExpr e)
  | .ifThen span cond body => .ifThen span (unboundExpr cond) (unboundBlock body)
  | .ifElse span cond body other =>
    .ifElse span (unboundExpr cond) (unboundBlock body) (unboundBlock other)
  | .loop span cond body => .loop span (unboundExpr cond) (unboundBlock body)
  | .call span e => .call span (unboundExpr e)
  | .ret span none => .ret span none
  | .ret span (some e) => .ret span (some (unboundExpr e))
  | .misfit span kind => .misfit span kind

def unboundStmts : List Stmt → List Stmt
  | [] => []
  | s :: ss => unboundStmt s :: unboundStmts ss

def unboundBlock : Block → Block
  | .mk span decls body => .mk span (decls.map unboundVar) (unboundStmts body)

end

/-- A declaration without what its names are bound to. -/
def unboundDecl : Decl → Decl
  | .var d => .var (unboundVar d)
  | .struct d => .struct { d with name := unboundIdent d.name, fields := d.fields.map unboundVar }
  | .fn d => .fn { d with
      name := unboundIdent d.name, formals := d.formals.map unboundVar, body := unboundBlock d.body }
  | .misfit span kind => .misfit span kind

section Resolved

variable (w : Sight)

theorem unbound_accessIn (arena : Arena) (owner : Option Int) (field : Ident) :
    unboundIdent (accessIn arena owner field).1 = unboundIdent field := by
  unfold accessIn
  split <;> rfl

mutual

/-- Looking up the names of an expression changes nothing but what they are bound to. -/
theorem unbound_resolved : (e : Expr) → unboundExpr (resolved w e) = unboundExpr e
  | .ident _ | .int .. | .string .. | .bool .. | .misfit .. => rfl
  | .dot note obj field _ _ => by
    rw [resolved, access, unboundExpr, unboundExpr, unbound_resolved obj, unbound_accessIn]
  | .assign _ target value => by
    rw [resolved, unboundExpr, unboundExpr, unbound_resolved target, unbound_resolved value]
  | .call _ callee args => by
    rw [resolved, unboundExpr, unboundExpr, unbound_resolvedAll args]
    rfl
  | .unary _ _ operand => by rw [resolved, unboundExpr, unboundExpr, unbound_resolved operand]
  | .binary _ _ left right => by
    rw [resolved, unboundExpr, unboundExpr, unbound_resolved left, unbound_resolved right]

theorem unbound_resolvedAll : (es : List Expr) → unboundExprs (resolvedAll w es) = unboundExprs es
  | [] => rfl
  | e :: es => by rw [resolvedAll, unboundExprs, unboundExprs, unbound_resolved e, unbound_resolvedAll es]

end

theorem unbound_varIn (d : VarDecl) : unboundVar (varIn w d).1 = unboundVar d := by
  unfold varIn
  split <;> rfl

theorem unbound_formalIn (d : VarDecl) : unboundVar (formalIn w d).1 = unboundVar d := by
  unfold formalIn
  split <;> rfl

theorem unbound_allIn {f : Sight → VarDecl → VarDecl × Sight} (hf : ∀ w d, unboundVar (f w d).1 = unboundVar d)
    (ds : List VarDecl) : ∀ w, (allIn f w ds).1.map unboundVar = ds.map unboundVar := by
  induction ds with
  | nil => exact fun _ => rfl
  | cons d ds ih =>
    intro w
    rw [allIn, List.map_cons, List.map_cons, hf, ih]

theorem unbound_fieldsIn (ds : List VarDecl) : ∀ (w : Sight) (table : SymbolTable) (offset : Int),
    (fieldsIn w table offset ds).1.1.map unboundVar = ds.map unboundVar := by
  induction ds with
  | nil => exact fun _ _ _ => rfl
  | cons d ds ih =>
    intro w table offset
    rw [fieldsIn]
    split
    · rw [List.map_cons, List.map_cons, ih]
    · rw [List.map_cons, List.map_cons, ih]
      rfl

mutual

theorem unbound_stmtIn (w : Sight) : (st : Stmt) → unboundStmt (stmtIn w st) = unboundStmt st
  | .assign _ e | .increment _ e | .decrement _ e | .read _ e | .write _ e | .call _ e | .ret _ (some e) => by
    rw [stmtIn, unboundStmt, unboundStmt, unbound_resolved]
  | .ifThen _ cond body | .loop _ cond body => by
    rw [stmtIn, unboundStmt, unboundStmt, unbound_resolved, unbound_blockIn _ body]
  | .ifElse _ cond body other => by
    rw [stmtIn, unboundStmt, unboundStmt, unbound_resolved, unbound_blockIn _ body, unbound_blockIn _ other]
  | .ret _ none | .misfit .. => rfl

theorem unbound_stmtsIn (w : Sight) : (ss : List Stmt) → unboundStmts (stmtsIn w ss) = unboundStmts ss
  | [] => rfl
  | st :: ss => by rw [stmtsIn, unboundStmts, unboundStmts, unbound_stmtIn _ st, unbound_stmtsIn _ ss]

theorem unbound_blockIn (w : Sight) : (b : Block) → unboundBlock (blockIn w b) = unboundBlock b
  | .mk _ decls body => by
    rw [blockIn, unboundBlock, unboundBlock, unbound_allIn unbound_varIn, unbound_stmtsIn _ body]

end

theorem unbound_declIn (d : Decl) : unboundDecl (declIn w d).1 = unboundDecl d := by
  cases d with
  | var d => rw [declIn, unboundDecl, unboundDecl, unbound_varIn]
  | struct d =>
    have hfields := unbound_fieldsIn d.fields w {} 0
    rw [declIn, structDeclIn]
    split
    · simp only [unboundDecl, hfields]
    · simp only [unboundDecl, hfields, unboundIdent]
  | fn d =>
    have hname : unboundIdent (fnName w d) = unboundIdent d.name := by
      unfold fnName
      split <;> rfl
    obtain ⟨_, _, name, formals, ⟨_, decls, body⟩⟩ := d
    simp only [declIn, fnIn, unboundDecl, hname, fnFormals, fnLocals, unboundBlock,
      unbound_allIn unbound_formalIn, unbound_allIn unbound_varIn, unbound_stmtsIn, Block.decls, Block.stmts, Block.span]
  | misfit span kind => rfl

/-- Name analysis changes nothing but what names are bound to. -/
theorem unbound_declsIn (ds : List Decl) : ∀ w, (declsIn w ds).1.map unboundDecl = ds.map unboundDecl := by
  induction ds with
  | nil => exact fun _ => rfl
  | cons d ds ih =>
    intro w
    rw [declsIn, List.map_cons, List.map_cons, unbound_declIn, ih]

end Resolved

end Erasure

section Nests

variable {os os' : List Occurrence} {o : Occurrence} {nest : Nest} {step step' : Nat × Bool} {k : Nat}

def Unopened (os : List Occurrence) (nest : Nest) : Prop := ∀ o ∈ os, ¬ nest <:+ o.nest

/-- Of the scopes in a scope, only those with smaller numbers have been opened. -/
def Past (os : List Occurrence) (nest : Nest) (k : Nat) : Prop :=
  ∀ o ∈ os, ∀ step, (step :: nest) <:+ o.nest → step.1 < k

theorem not_cons_suffix (step : Nat × Bool) (nest : Nest) : ¬ (step :: nest) <:+ nest := by
  intro h
  have := h.length_le
  simp only [List.length_cons] at this
  omega

/-- Two scopes in one scope do not lie in each other. -/
theorem step_of_suffix {inner : Nest} (h : (step :: nest) <:+ inner) (h' : (step' :: nest) <:+ inner) :
    step = step' := by
  have heq := (List.suffix_of_suffix_length_le h h' (by simp)).eq_of_length (by simp)
  exact (List.cons.inj heq).1

theorem Past.unopened (h : Past os nest k) {j : Nat} (hj : k ≤ j) (b : Bool) :
    Unopened os ((j, b) :: nest) := by
  intro o ho hsuffix
  have := h o ho _ hsuffix
  simp only at this
  omega

theorem Unopened.past (h : Unopened os nest) : Past os nest 0 := by
  intro o ho step hsuffix
  exact absurd ((List.suffix_cons _ _).trans hsuffix) (h o ho)

/-- Names that stand in a scope itself open no scope in it. -/
theorem Past.here (h : Past os nest k) (h' : ∀ o ∈ os', o.nest = nest) : Past (os ++ os') nest k := by
  intro o ho step hsuffix
  rcases List.mem_append.mp ho with ho | ho
  · exact h o ho step hsuffix
  · rw [h' o ho] at hsuffix
    exact absurd hsuffix (not_cons_suffix step nest)

/-- Names that stand in the scopes of one number close it. -/
theorem Past.next (h : Past os nest k)
    (h' : ∀ o ∈ os', o.nest = nest ∨ ∃ b, ((k, b) :: nest) <:+ o.nest) :
    Past (os ++ os') nest (k + 1) := by
  intro o ho step hsuffix
  rcases List.mem_append.mp ho with ho | ho
  · have := h o ho step hsuffix
    omega
  · rcases h' o ho with heq | ⟨b, hin⟩
    · rw [heq] at hsuffix
      exact absurd hsuffix (not_cons_suffix step nest)
    · rw [step_of_suffix hsuffix hin]
      exact Nat.lt_succ_self k

theorem nest_usedAt (xs : List Ident) : ∀ o ∈ usedAt nest xs, o.nest = nest := by
  simp [usedAt]

theorem nest_declaredAt (role : TypeName → Role) (ds : List VarDecl) :
    ∀ o ∈ declaredAt nest role ds, o.nest = nest := by
  simp [declaredAt]

mutual

/-- The names of a statement stand in its scope or in the scopes of its number. -/
theorem nest_inStmt : (st : Stmt) → ∀ {nest : Nest} {k : Nat}, ∀ o ∈ inStmt nest k st,
    o.nest = nest ∨ ∃ b, ((k, b) :: nest) <:+ o.nest
  | .assign _ e, nest, k | .increment _ e, nest, k | .decrement _ e, nest, k | .read _ e, nest, k
  | .write _ e, nest, k | .call _ e, nest, k | .ret _ (some e), nest, k => by
    intro o ho
    rw [inStmt] at ho
    exact .inl (nest_usedAt _ o ho)
  | .ifThen _ cond body, nest, k | .loop _ cond body, nest, k => by
    intro o ho
    rw [inStmt] at ho
    rcases List.mem_append.mp ho with ho | ho
    · exact .inl (nest_usedAt _ o ho)
    · exact .inr ⟨_, nest_inBlock body o ho⟩
  | .ifElse _ cond body other, nest, k => by
    intro o ho
    rw [inStmt] at ho
    rcases List.mem_append.mp ho with ho | ho
    · exact .inl (nest_usedAt _ o ho)
    · rcases List.mem_append.mp ho with ho | ho
      · exact .inr ⟨_, nest_inBlock body o ho⟩
      · exact .inr ⟨_, nest_inBlock other o ho⟩
  | .ret _ none, nest, k | .misfit .., nest, k => by simp [inStmt]

/-- The names of statements stand in their scope or inside of it. -/
theorem nest_inStmts : (ss : List Stmt) → ∀ {nest : Nest} {k : Nat}, ∀ o ∈ inStmts nest k ss,
    nest <:+ o.nest
  | [], nest, k => by simp [inStmts]
  | st :: ss, nest, k => by
    intro o ho
    rw [inStmts] at ho
    rcases List.mem_append.mp ho with ho | ho
    · rcases nest_inStmt st o ho with heq | ⟨b, hin⟩
      · exact heq ▸ List.suffix_refl _
      · exact (List.suffix_cons _ _).trans hin
    · exact nest_inStmts ss o ho

/-- The names of a block stand in its scope or inside of it. -/
theorem nest_inBlock : (b : Block) → ∀ {nest : Nest}, ∀ o ∈ inBlock nest b, nest <:+ o.nest
  | .mk _ decls body, nest => by
    intro o ho
    rw [inBlock] at ho
    rcases List.mem_append.mp ho with ho | ho
    · exact nest_declaredAt _ _ o ho ▸ List.suffix_refl _
    · exact nest_inStmts body o ho

end

/-- The names of a declaration stand at the top or in the scope of its number. -/
theorem nest_inDecl (d : Decl) : ∀ o ∈ inDecl k d, o.nest = [] ∨ ∃ b, [(k, b)] <:+ o.nest := by
  intro o ho
  cases d with
  | var d => exact .inl (nest_declaredAt _ _ o ho)
  | struct d =>
    rcases List.mem_append.mp ho with ho | ho
    · exact .inr ⟨false, nest_declaredAt _ _ o ho ▸ List.suffix_refl _⟩
    · obtain rfl := List.mem_singleton.mp ho
      exact .inl rfl
  | fn d =>
    rcases List.mem_cons.mp ho with rfl | ho
    · exact .inl rfl
    · rcases List.mem_append.mp ho with ho | ho
      · exact .inr ⟨false, nest_declaredAt _ _ o ho ▸ List.suffix_refl _⟩
      · exact .inr ⟨false, nest_inBlock d.body o ho⟩
  | misfit span kind => simp [inDecl] at ho

end Nests

section Chains

variable {os os' : List Occurrence} {o : Occurrence} {nest : Nest} {i : Int}

/-- What is not accepted adds to no scope. -/
theorem scopeAt_silent (h : o.index? = none) : scopeAt (os ++ [o]) nest = scopeAt os nest := by
  rw [scopeAt_append]
  simp [scopeAt, h]

theorem chain_silent (h : o.index? = none) : ∀ {nest : Nest}, chain (os ++ [o]) nest = chain os nest
  | [] => by rw [chain, chain, scopeAt_silent h]
  | step :: nest => by rw [chain, chain, scopeAt_silent h, chain_silent h]

/-- What stands further in adds to no scope in sight. -/
theorem chain_inside (h : nest.length < o.nest.length) : ∀ {outer : Nest}, outer <:+ nest →
    chain (os ++ [o]) outer = chain os outer
  | [], _ => by
    have hne : ∀ x ∈ [o], x.nest ≠ [] := by
      intro x hx hnil
      obtain rfl := List.mem_singleton.mp hx
      simp [hnil] at h
    rw [chain, chain, scopeAt_append, scopeAt_elsewhere hne, List.append_nil]
  | step :: outer, hsuffix => by
    have hne : ∀ x ∈ [o], x.nest ≠ step :: outer := by
      intro x hx hnest
      obtain rfl := List.mem_singleton.mp hx
      have := hsuffix.length_le
      rw [hnest] at h
      omega
    rw [chain, chain, scopeAt_append, scopeAt_elsewhere hne, List.append_nil,
      chain_inside h ((List.suffix_cons _ _).trans hsuffix)]

/-- An accepted declaration is added to its scope. -/
theorem scopeAt_enter (hnest : o.nest = nest) (hindex : o.index? = some i) :
    scopeAt (os ++ [o]) nest = scopeAt os nest ++ [(o.id.name, i)] := by
  rw [scopeAt_append]
  simp [scopeAt, hnest, hindex]

theorem chain_enter (hnest : o.nest = nest) (hindex : o.index? = some i) :
    chain (os ++ [o]) nest = (scopeAt os nest ++ [(o.id.name, i)]) :: (chain os nest).tail := by
  have hscope : scopeAt (os ++ [o]) nest = scopeAt os nest ++ [(o.id.name, i)] :=
    scopeAt_enter hnest hindex
  cases nest with
  | nil => rw [chain, hscope, chain, List.tail_cons]
  | cons step nest =>
    have hinside : chain (os ++ [o]) nest = chain os nest :=
      chain_inside (by simp [hnest]) (List.suffix_refl nest)
    rw [chain, hscope, hinside, chain, List.tail_cons]

theorem inner_chain (table : SymbolTable) (h : table.scopes = chain os nest) :
    table.inner = scopeAt os nest := by
  rw [SymbolTable.inner, h]
  cases nest <;> rfl

/-- A scope that has not been opened has no names. -/
theorem chain_open {step : Nat × Bool} (h : Unopened os (step :: nest)) :
    chain os (step :: nest) = [] :: chain os nest := by
  rw [chain, scopeAt_elsewhere]
  intro o ho heq
  exact h o ho (heq ▸ List.suffix_refl _)

end Chains

section Reached

def isUndeclared (d : Diagnostic) : Bool :=
  match d.finding with
  | .naming (.undeclared _) => true
  | _ => false

/-- A diagnostic of the check of types. -/
def isTyping (d : Diagnostic) : Bool :=
  match d.finding with
  | .typing _ => true
  | _ => false

def complaint (file : Option String) (o : Occurrence) : Diagnostic :=
  .atSpan .error (.naming (.undeclared o.id.name)) file o.id.note.span

/-- What is in sight after some names, standing in a scope, and what has been said about them. -/
structure Reached (before : List Occurrence) (nest : Nest) (w : Sight) (said : List Diagnostic) : Prop where
  scopes : w.table.scopes = chain before nest
  lexical : Scoped before
  distinct : ∀ n, ((scopeAt before n).map Prod.fst).Nodup
  indices : before.filterMap Occurrence.index? = (List.range w.arena.size).map Int.ofNat
  symbols : ∀ o ∈ before, ∀ i, o.index? = some i → ∃ symbol, w.arena.get? i = some symbol ∧
    Describes o symbol
  undeclared : said.filter isUndeclared = (before.filter (·.isUnresolved)).map (complaint none)
  untyped : said.filter isTyping = []
  structs : Structs none w.arena before (said.filter isStructless)

/-- A diagnostic is about something else than the use of a name or a type. -/
def IsAside (d : Diagnostic) : Prop := isUndeclared d = false ∧ isTyping d = false ∧ isStructless d = false

theorem aside_if {p : Prop} [Decidable p] {d : Diagnostic} (h : IsAside d) :
    ∀ e ∈ (if p then [d] else []), IsAside e := by
  split
  · simpa using h
  · simp

theorem filter_asides {ds : List Diagnostic} (h : ∀ d ∈ ds, IsAside d) :
    ds.filter isUndeclared = [] ∧ ds.filter isTyping = [] ∧ ds.filter isStructless = [] := by
  simp only [List.filter_eq_nil_iff, Bool.not_eq_true]
  exact ⟨fun d hd => (h d hd).1, fun d hd => (h d hd).2.1, fun d hd => (h d hd).2.2⟩

section Steps

variable {before : List Occurrence} {nest : Nest} {w : Sight} {said more : List Diagnostic} {o : Occurrence}
  {name : String}

/-- Something else is said. -/
theorem Reached.say (h : Reached before nest w said) (hmore : ∀ d ∈ more, IsAside d) :
    Reached before nest w (said ++ more) := by
  obtain ⟨hundeclared, huntyped, hstructless⟩ := filter_asides hmore
  exact { h with
    undeclared := by rw [List.filter_append, hundeclared, List.append_nil, h.undeclared]
    untyped := by rw [List.filter_append, huntyped, List.append_nil, h.untyped]
    structs := by
      rw [List.filter_append, hstructless, List.append_nil]
      exact h.structs }

theorem Scoped.snoc (h : Scoped before) (hright : Right before o) : Scoped (before ++ [o]) := by
  intro front o' after heq
  rcases List.append_eq_append_iff.mp heq with ⟨rest, hfront, hrest⟩ | ⟨rest, hbefore, hrest⟩
  · cases rest with
    | nil =>
      obtain ⟨rfl, -⟩ := List.cons.inj hrest
      rw [hfront, List.append_nil]
      exact hright
    | cons x rest =>
      have := congrArg List.length hrest
      simp at this
  · cases rest with
    | nil =>
      obtain ⟨rfl, -⟩ := List.cons.inj hrest
      rw [hbefore, List.append_nil] at hright
      exact hright
    | cons x rest =>
      obtain ⟨rfl, -⟩ := List.cons.inj hrest
      exact h front o' rest hbefore

/-- As many symbols have been found as declarations accepted. -/
theorem Reached.count (h : Reached before nest w said) : before.countP (·.index?.isSome) = w.arena.size := by
  have hlength := congrArg List.length h.indices
  simpa [List.length_filterMap_eq_countP] using hlength

/-- A name that is not accepted adds no symbol. A use without a declaration is taken down. -/
theorem Reached.pass (h : Reached before nest w said) (hindex : o.index? = none) (hright : Right before o)
    (hundeclared : more.filter isUndeclared = ([o].filter (·.isUnresolved)).map (complaint none))
    (huntyped : more.filter isTyping = [])
    (hstructs : Structs none w.arena (before ++ [o]) (said.filter isStructless ++ more.filter isStructless)) :
    Reached (before ++ [o]) nest w (said ++ more) where
  scopes := by rw [chain_silent hindex, h.scopes]
  lexical := h.lexical.snoc hright
  distinct n := by rw [scopeAt_silent hindex]; exact h.distinct n
  indices := by simp [hindex, h.indices]
  symbols := by
    rw [List.forall_mem_append, List.forall_mem_singleton]
    exact ⟨h.symbols, by simp [hindex]⟩
  undeclared := by rw [List.filter_append, h.undeclared, hundeclared, List.filter_append, List.map_append]
  untyped := by rw [List.filter_append, h.untyped, huntyped, List.append_nil]
  structs := by rw [List.filter_append]; exact hstructs

/-- A declaration that is accepted adds a symbol. -/
theorem Reached.accept (h : Reached before nest w said) (symbol : Symbol) (table : SymbolTable)
    (hindex : o.index? = some (w.arena.size : Int)) (hfree : Free before o.nest o.id.name)
    (hscopes : table.scopes = chain (before ++ [o]) nest) (hright : Right before o)
    (hdescribes : Describes o symbol)
    (hstructs : Structs none (w.arena.push symbol) (before ++ [o]) (said.filter isStructless)) :
    Reached (before ++ [o]) nest ⟨table, w.arena.push symbol⟩ said where
  scopes := hscopes
  lexical := h.lexical.snoc hright
  distinct n := by
    by_cases hn : o.nest = n
    · rw [scopeAt_enter hn hindex, List.map_append, List.nodup_append]
      refine ⟨h.distinct n, by simp, fun a ha b hb hab => ?_⟩
      obtain rfl : b = o.id.name := by simpa using hb
      obtain ⟨⟨_, i⟩, hp, rfl⟩ := List.mem_map.mp ha
      obtain ⟨d, hd, hnest, hname, hi⟩ := mem_scopeAt.mp hp
      exact hfree d hd (by simp [hi]) (hnest.trans hn.symm) (hname.trans hab)
    · have hlast : scopeAt [o] n = [] := scopeAt_elsewhere (by simpa using hn)
      simpa [scopeAt_append, hlast] using h.distinct n
  indices := by
    rw [size_push, List.range_succ, List.map_append, ← h.indices]
    simp [hindex]
  symbols := by
    rw [List.forall_mem_append, List.forall_mem_singleton]
    refine ⟨fun o' ho' i hi => ?_, fun i hi => ?_⟩
    · obtain ⟨t, ht, hdescribes'⟩ := h.symbols o' ho' i hi
      exact ⟨t, grows_push ht, hdescribes'⟩
    · obtain rfl : i = (w.arena.size : Int) := by simpa [hindex] using hi.symm
      exact ⟨symbol, by simp [get?_push], hdescribes⟩
  undeclared := by
    have hnot : o.isUnresolved = false := by
      cases hrole : o.role with
      | none => simp [Occurrence.index?, hrole] at hindex
      | some role => simp [Occurrence.isUnresolved, hrole]
    rw [h.undeclared]
    simp [hnot]
  untyped := h.untyped
  structs := hstructs

/-- A new scope is opened. -/
theorem Reached.opens (h : Reached before nest w said) {step : Nat × Bool}
    (hunopened : Unopened before (step :: nest)) : Reached before (step :: nest) w.push said :=
  { h with scopes := by rw [chain_open hunopened, ← h.scopes]; rfl }

/-- The innermost scope is left. -/
theorem Reached.closes {step : Nat × Bool} (h : Reached before (step :: nest) w said) :
    Reached before nest w.pop said :=
  { h with scopes := by rw [Sight.pop, SymbolTable.pop, h.scopes, chain, List.tail_cons] }

theorem free_iff {table : SymbolTable} (h : table.inner = scopeAt before nest) :
    (table.findInner? name).isSome = false ↔ Free before nest name := by
  rw [SymbolTable.findInner?, h, Option.isSome_eq_false_iff, Option.isNone_iff_eq_none]
  refine ⟨lookup_scopeAt_none, fun hfree => ?_⟩
  cases hfound : (scopeAt before nest).lookup name with
  | none => rfl
  | some i =>
    obtain ⟨d, hd, hnest, hname, hindex⟩ := lookup_scopeAt hfound
    exact absurd hname (hfree d hd (by simp [hindex]) hnest)

theorem Reached.taken_iff (h : Reached before nest w said) : w.isTaken name = false ↔ Free before nest name :=
  free_iff (inner_chain w.table h.scopes)

/-- A struct is found under a name exactly if the name stands for one. -/
theorem Reached.structNamed (h : Reached before nest w said) (name : String) :
    match structIn w name with
    | some (k, e) => w.arena.get? k = some (.struct e) ∧
        ∃ d, (Denotes before nest name d ∧ d.role = some .struct) ∧ d.index? = some k
    | none => ∀ d, ¬ (Denotes before nest name d ∧ d.role = some .struct) := by
  unfold structIn SymbolTable.find?
  rw [h.scopes]
  cases hfind : (chain before nest).findSome? (·.lookup name) with
  | none => exact fun d hd => not_visible_of_find hfind d hd.1.1
  | some i =>
    obtain ⟨d, hdenotes, hindex⟩ := denotes_of_find hfind
    obtain ⟨symbol, hsymbol, hdescribes⟩ := h.symbols d hdenotes.1.1 i hindex
    -- all that the name can stand for has this symbol
    have hall : ∀ d', Denotes before nest name d' → Describes d' symbol := by
      intro d' hdenotes'
      have hindex' : d'.index? = some i := by rw [hdenotes'.index_unique h.distinct hdenotes, hindex]
      obtain ⟨symbol', hsymbol', hdescribes'⟩ := h.symbols d' hdenotes'.1.1 i hindex'
      rw [hsymbol] at hsymbol'
      rwa [← Option.some.inj hsymbol'] at hdescribes'
    cases symbol with
    | struct e =>
      simp only [Option.bind_some, hsymbol]
      exact ⟨trivial, d, ⟨hdenotes, hdescribes.2⟩, hindex⟩
    | var v =>
      simp only [Option.bind_some, hsymbol]
      rintro d' ⟨hdenotes', hrole⟩
      obtain ⟨-, t, ht⟩ := hall d' hdenotes'
      simp [hrole] at ht
    | func f =>
      simp only [Option.bind_some, hsymbol]
      rintro d' ⟨hdenotes', hrole⟩
      have := (hall d' hdenotes').2
      simp [hrole] at this

end Steps

end Reached

section Walk

variable {lit : String → Prop} {before : List Occurrence} {nest : Nest} {w : Sight} {said : List Diagnostic}

/-- A name is used. -/
theorem reached_use (h : Reached before nest w said) (x : Ident) :
    Reached (before ++ usedAt nest [bound w x]) nest w (said ++ useSays w x) := by
  unfold useSays bound
  cases hfind : w.table.find? x.name with
  | none =>
    have hnone := hfind
    rw [SymbolTable.find?, h.scopes] at hnone
    refine h.pass rfl (.inr ⟨not_visible_of_find hnone, rfl⟩) rfl rfl ?_
    exact (List.append_nil (List.filter _ said)).symm ▸ .other h.structs rfl (fun h => by cases h)
  | some i =>
    have hsome := hfind
    rw [SymbolTable.find?, h.scopes] at hsome
    obtain ⟨d, hdenotes, hindex⟩ := denotes_of_find hsome
    refine h.pass rfl (.inl ⟨d, i, hdenotes, hindex, rfl⟩) rfl rfl ?_
    exact (List.append_nil (List.filter _ said)).symm ▸ .other h.structs rfl (fun h => by cases h)

theorem aside_access (arena : Arena) (obj : Expr) (field : Ident) : ∀ d ∈ accessSays arena obj field, IsAside d := by
  rw [accessSays, List.forall_mem_append]
  refine ⟨aside_if ⟨rfl, rfl, rfl⟩, ?_⟩
  cases ownerOf arena obj with
  | none => simp [fieldSays]
  | some k =>
    rw [fieldSays]
    split
    · simp
    · simpa using ⟨rfl, rfl, rfl⟩

theorem usedAt_append {xs ys : List Ident} : usedAt nest (xs ++ ys) = usedAt nest xs ++ usedAt nest ys :=
  List.map_append

mutual

/-- The names of an expression are used. -/
theorem reached_expr : (e : Expr) → ∀ {before : List Occurrence} {said : List Diagnostic},
    Reached before nest w said → Reached (before ++ usedAt nest (uses (resolved w e))) nest w (said ++ exprSays w e)
  | .int .., before, said, h | .string .., before, said, h | .bool .., before, said, h
  | .misfit .., before, said, h => by simpa [resolved, uses, usedAt, exprSays] using h
  | .ident x, before, said, h => reached_use h x
  | .dot note obj field reached bad, before, said, h => by
    rw [resolved, access, uses, exprSays, ← List.append_assoc]
    exact (reached_expr obj h).say (aside_access _ _ _)
  | .assign note target value, before, said, h => by
    rw [resolved, uses, usedAt_append, exprSays, ← List.append_assoc, ← List.append_assoc]
    exact reached_expr target (reached_expr value h)
  | .call note callee args, before, said, h => by
    rw [resolved, uses, ← List.singleton_append, usedAt_append, exprSays, ← List.append_assoc, ← List.append_assoc]
    exact reached_exprs args (reached_use h callee)
  | .unary note op operand, before, said, h => by
    rw [resolved, uses, exprSays]
    exact reached_expr operand h
  | .binary note op left right, before, said, h => by
    rw [resolved, uses, usedAt_append, exprSays, ← List.append_assoc, ← List.append_assoc]
    exact reached_expr right (reached_expr left h)

/-- The names of expressions are used in order. -/
theorem reached_exprs : (es : List Expr) → ∀ {before : List Occurrence} {said : List Diagnostic},
    Reached before nest w said →
      Reached (before ++ usedAt nest (usesAll (resolvedAll w es))) nest w (said ++ exprsSay w es)
  | [], before, said, h => by simpa [resolvedAll, usesAll, usedAt, exprsSay] using h
  | e :: es, before, said, h => by
    rw [resolvedAll, usesAll, usedAt_append, exprsSay, ← List.append_assoc, ← List.append_assoc]
    exact reached_exprs es (reached_expr e h)

end

section Declarations

variable {d : VarDecl}

/-- The type of a declared variable has been looked for. If a variable is made, it has the struct. -/
inductive Sought (arena : Arena) (before : List Occurrence) (nest : Nest) (t : TypeName) :
    Option Variable → List Diagnostic → Prop
  | word {v?} (hword : t.isStruct = false) : Sought arena before nest t v? []
  | struct {v? d k e} (hstruct : t.isStruct = true) (hdefines : Defines before t.name d)
      (hvisible : ¬ Hidden before nest t.name) (hk : d.index? = some k) (he : arena.get? k = some (.struct e))
      (hv : ∀ v, v? = some v → v.structDef = some k ∧ v.size = e.size) : Sought arena before nest t v? []
  | missing (hstruct : t.isStruct = true)
      (hmissing : (∀ d, ¬ Defines before t.name d) ∨ Hidden before nest t.name) :
      Sought arena before nest t none [objection (.notAStruct t.name) t.span]

/-- The type of a declaration is accounted for. -/
theorem Sought.structs {t : TypeName} {v? : Option Variable} {new ds : List Diagnostic} {o : Occurrence}
    {arena arena' : Arena} (h : Sought arena before nest t v? new) (hbefore : Structs none arena before ds)
    (hgrows : Grows arena arena') (htype : o.structType? = if t.isStruct then some (nest, t) else none)
    (hrole : o.role ≠ some .struct) (hv : ∀ i, o.index? = some i → ∃ v u, v? = some v ∧
      arena'.get? i = some (.var u) ∧ u.structDef = v.structDef ∧ u.size = v.size) :
    Structs none arena' (before ++ [o]) (ds ++ new) := by
  have hbefore := hbefore.grows hgrows
  cases h with
  | word hword =>
    rw [List.append_nil]
    exact .other hbefore (by simp [htype, hword]) fun heq => absurd heq hrole
  | struct hstruct hdefines hvisible hk he hvar =>
    rw [List.append_nil]
    refine .found hbefore (by rw [htype, if_pos hstruct]) hdefines hvisible hk fun i hi => ?_
    obtain ⟨v, u, hsome, hu, hdef, hsize⟩ := hv i hi
    obtain ⟨hk, hsize'⟩ := hvar v hsome
    exact ⟨u, _, hu, hdef.trans hk, hgrows he, hsize.trans hsize'⟩
  | missing hstruct hmissing =>
    refine .missing hbefore (by rw [htype, if_pos hstruct]) hmissing (Option.eq_none_iff_forall_ne_some.mpr ?_)
    intro i hi
    obtain ⟨v, u, hsome, -⟩ := hv i hi
    cases hsome

/-- A variable is made exactly if its type can be had and its name is free. -/
theorem Reached.sought (h : Reached before nest w said) (hraw : RawVar d) (isTaken : Bool) (twice : NameFinding)
    (htwice : IsAside (objection twice d.name.note.span)) :
    Sought w.arena before nest d.type (newIn w d isTaken) ((newSays w d isTaken twice).filter isStructless) ∧
      ((newIn w d isTaken).isSome ↔ isTaken = false ∧ Typable before nest d.type) := by
  have hvoid := (filter_asides (aside_if (p := (d.type.name == "void") = true)
    (d := objection (.declaredVoid d.name.name) d.name.note.span) ⟨rfl, rfl, rfl⟩)).2.2
  have htwice := (filter_asides (aside_if (p := isTaken = true) htwice)).2.2
  rw [newSays, List.filter_append, List.filter_append, hvoid, htwice, List.nil_append, List.append_nil, newIn, typedIn]
  cases hstruct : d.type.isStruct with
  | true =>
    have hnamed := h.structNamed d.type.name
    cases hfound : structIn w d.type.name with
    | none =>
      rw [hfound] at hnamed
      have hmissing : (∀ e, ¬ Defines before d.type.name e) ∨ Hidden before nest d.type.name := by
        by_contra hnot
        rw [not_or, not_forall_not] at hnot
        obtain ⟨⟨e, he⟩, hvisible⟩ := hnot
        exact hnamed e (h.structs.denotes_iff.mpr ⟨he, hvisible⟩)
      simp only [if_true, Option.map_none, ite_self, Option.isSome_none, Bool.false_eq_true, false_iff]
      refine ⟨.missing hstruct hmissing, fun hall => ?_⟩
      obtain ⟨e, he⟩ := hall.2.2 hstruct
      exact hnamed e he
    | some p =>
      obtain ⟨k, def'⟩ := p
      rw [hfound] at hnamed
      obtain ⟨hk, e, hdenotes, hindex⟩ := hnamed
      obtain ⟨hdefines, hvisible⟩ := h.structs.denotes_iff.mp hdenotes
      refine ⟨.struct hstruct hdefines hvisible hindex hk fun v hv => ?_, ?_⟩
      · split at hv
        · cases hv
        · obtain rfl := Option.some.inj hv
          exact ⟨rfl, rfl⟩
      · by_cases hname : d.type.name = "void" <;> cases isTaken <;> simp [Typable, hname, hstruct]
        exact ⟨e, hdenotes⟩
  | false =>
    obtain ⟨t, -, hsome, -⟩ := ofWord_of_typeWord (hraw.type hstruct)
    refine ⟨.word hstruct, ?_⟩
    by_cases hname : d.type.name = "void" <;> cases isTaken <;> simp [Typable, hname, hstruct, hsome]

/-- What is said about a declaration is about neither the use of a name nor types of expressions. -/
theorem filter_newSays (w : Sight) (isTaken : Bool) (twice : NameFinding) (htwice : IsAside (objection twice d.name.note.span)) :
    (newSays w d isTaken twice).filter isUndeclared = [] ∧ (newSays w d isTaken twice).filter isTyping = [] := by
  have hvoid := filter_asides (aside_if (p := (d.type.name == "void") = true)
    (d := objection (.declaredVoid d.name.name) d.name.note.span) ⟨rfl, rfl, rfl⟩)
  have htwice := filter_asides (aside_if (p := isTaken = true) htwice)
  rw [newSays, List.filter_append, List.filter_append, List.filter_append, List.filter_append, hvoid.1, hvoid.2.1,
    htwice.1, htwice.2.1]
  split <;> exact ⟨rfl, rfl⟩

/-- A declaration that can be had is entered if its name is free. -/
theorem reached_enter (h : Reached before nest w said) {x : Ident} {symbol : Symbol} (role : Role)
    (hfree : Free before nest x.name) (havailable : Available before nest role)
    (hdescribes : ∀ b, Describes ⟨nest, { x with binding := b }, some role⟩ symbol)
    (hstructs : Structs none (w.arena.push symbol)
      (before ++ [⟨nest, { x with binding := .symbol w.arena.size }, some role⟩]) (said.filter isStructless)) :
    Reached (before ++ [⟨nest, { x with binding := .symbol w.arena.size }, some role⟩]) nest
      (w.enter x.name symbol) said := by
  refine h.accept symbol _ rfl hfree ?_ (.inl ⟨⟨hfree, havailable⟩, by rw [h.count]⟩) (hdescribes _) hstructs
  rw [insert_scopes (by rw [h.scopes]; cases nest <;> simp [chain]), inner_chain w.table h.scopes, h.scopes,
    chain_enter rfl rfl]

/-- A declaration that is refused is left as it was. -/
theorem Reached.refuse (h : Reached before nest w said) (inner : Nest) (role : Role) {x : Ident} (hraw : RawIdent x)
    {more : List Diagnostic} (hnot : ¬ (Free before inner x.name ∧ Available before inner role))
    (hundeclared : more.filter isUndeclared = []) (huntyped : more.filter isTyping = [])
    (hstructs : Structs none w.arena (before ++ [⟨inner, x, some role⟩])
      (said.filter isStructless ++ more.filter isStructless)) :
    Reached (before ++ [⟨inner, x, some role⟩]) nest w (said ++ more) :=
  h.pass (by simp [Occurrence.index?, hraw.binding]) (.inr ⟨hnot, hraw.binding⟩) hundeclared huntyped hstructs

/-- A variable is declared. -/
theorem reached_varIn (h : Reached before nest w said) (hraw : RawVar d) :
    Reached (before ++ declaredAt nest .variable [(varIn w d).1]) nest (varIn w d).2 (said ++ varSays w d) := by
  obtain ⟨hsought, hiff⟩ := h.sought hraw (w.isTaken d.name.name) (.declaredTwice d.name.name) ⟨rfl, rfl, rfl⟩
  rw [h.taken_iff] at hiff
  unfold varIn varSays
  cases hnew : newIn w d (w.isTaken d.name.name) with
  | none =>
    rw [hnew] at hsought hiff
    obtain ⟨hundeclared, huntyped⟩ := filter_newSays (d := d) w (w.isTaken d.name.name)
      (.declaredTwice d.name.name) ⟨rfl, rfl, rfl⟩
    refine h.refuse nest (.variable d.type) hraw.name (fun hboth => (by cases hiff.mpr hboth)) hundeclared huntyped ?_
    exact hsought.structs h.structs (fun hi => hi) rfl (fun h => by cases h)
      (by simp [Occurrence.index?, hraw.name.binding])
  | some u =>
    rw [newSays_of_newIn hnew, hnew] at hsought
    obtain ⟨hfree, htypable⟩ := hiff.mp (by rw [hnew]; rfl)
    rw [newSays_of_newIn hnew, List.append_nil]
    refine reached_enter h (.variable d.type) hfree htypable (fun b => ⟨(newIn_name hnew).1, _, .inl rfl⟩) ?_
    rw [← List.append_nil (List.filter _ said)]
    refine hsought.structs h.structs grows_push rfl (fun h => by cases h) fun i hi => ?_
    obtain rfl : (w.arena.size : Int) = i := Option.some.inj hi
    exact ⟨u, { u with isGlobal := w.table.depth == 1 }, rfl, by simp [get?_push], rfl, rfl⟩

/-- A parameter is declared. -/
theorem reached_formalIn (h : Reached before nest w said) (hraw : RawFormal d) :
    Reached (before ++ declaredAt nest .parameter [(formalIn w d).1]) nest (formalIn w d).2
      (said ++ formalSays w d) := by
  have hasides : ∀ e ∈ formalSays w d, IsAside e := by
    rw [formalSays, List.forall_mem_append]
    exact ⟨aside_if ⟨rfl, rfl, rfl⟩, aside_if ⟨rfl, rfl, rfl⟩⟩
  have hsaid := h.say hasides
  unfold formalIn
  split
  · rename_i hrefused
    rw [← List.append_nil (said ++ _)]
    refine hsaid.refuse nest (.parameter d.type) hraw.name ?_ rfl rfl ?_
    · rintro ⟨hfree, hvoid⟩
      rw [← h.taken_iff] at hfree
      have hvoid : d.type.name ≠ "void" := hvoid
      simp [hfree, hvoid] at hrefused
    · rw [List.filter_nil, List.append_nil]
      exact .other hsaid.structs rfl (fun h => by cases h)
  · rename_i hfine
    simp only [Bool.or_eq_true, not_or, Bool.not_eq_true, beq_eq_false_iff_ne] at hfine
    exact reached_enter hsaid (.parameter d.type) (h.taken_iff.mp hfine.2) hfine.1
      (fun b => ⟨rfl, _, .inr (.inl rfl)⟩) (.other (hsaid.structs.grows grows_push) rfl (fun h => by cases h))

/-- Variables are declared one after the other. -/
theorem reached_allIn {role : TypeName → Role} {f : Sight → VarDecl → VarDecl × Sight}
    {g : Sight → VarDecl → List Diagnostic} {ds : List VarDecl}
    (hf : ∀ d ∈ ds, ∀ {before : List Occurrence} {w : Sight} {said : List Diagnostic}, Reached before nest w said →
      Reached (before ++ declaredAt nest role [(f w d).1]) nest (f w d).2 (said ++ g w d)) :
    ∀ {before : List Occurrence} {w : Sight} {said : List Diagnostic}, Reached before nest w said →
      Reached (before ++ declaredAt nest role (allIn f w ds).1) nest (allIn f w ds).2 (said ++ allSay f g w ds) := by
  induction ds with
  | nil =>
    intro before w said h
    simpa [allIn, allSay, declaredAt] using h
  | cons d ds ih =>
    intro before w said h
    have hrest := ih (fun e he => hf e (by simp [he])) (hf d (by simp) h)
    rw [List.append_assoc, List.append_assoc] at hrest
    exact hrest

end Declarations

section Statements

theorem unopened_append {os : List Occurrence} (h : Unopened before nest)
    (h' : Unopened os nest) : Unopened (before ++ os) nest := List.forall_mem_append.mpr ⟨h, h'⟩

mutual

/-- The names of a statement are looked at. -/
theorem reached_stmt : (st : Stmt) → RawStmt lit st → ∀ {before : List Occurrence} {nest : Nest} {k : Nat}
    {w : Sight} {said : List Diagnostic}, Reached before nest w said → Past before nest k →
      Reached (before ++ inStmt nest k (stmtIn w st)) nest (stmtAfter w st) (said ++ stmtSays w st)
  | .assign _ e, hraw, before, nest, k, w, said, h, hpast
  | .increment _ e, hraw, before, nest, k, w, said, h, hpast
  | .decrement _ e, hraw, before, nest, k, w, said, h, hpast
  | .read _ e, hraw, before, nest, k, w, said, h, hpast
  | .call _ e, hraw, before, nest, k, w, said, h, hpast
  | .write _ e, hraw, before, nest, k, w, said, h, hpast
  | .ret _ (some e), hraw, before, nest, k, w, said, h, hpast => by
    rw [stmtIn, inStmt, stmtSays]
    exact reached_expr e h
  | .ifThen _ cond body, hraw, before, nest, k, w, said, h, hpast
  | .loop _ cond body, hraw, before, nest, k, w, said, h, hpast => by
    have hpast₁ := hpast.here (nest_usedAt (uses (resolved w cond)))
    rw [stmtIn, inStmt, stmtAfter, stmtSays, ← List.append_assoc, ← List.append_assoc]
    exact reached_block body hraw.2 (reached_expr cond h) (hpast₁.unopened (Nat.le_refl k) false)
  | .ifElse _ cond body other, hraw, before, nest, k, w, said, h, hpast => by
    have hpast₁ := hpast.here (nest_usedAt (uses (resolved w cond)))
    have hbody := reached_block body hraw.2.1 (reached_expr cond h) (hpast₁.unopened (Nat.le_refl k) false)
    -- the two blocks are different scopes
    have hother : Unopened (inBlock ((k, false) :: nest) (blockIn w body)) ((k, true) :: nest) := by
      intro o ho hsuffix
      have := step_of_suffix hsuffix (nest_inBlock (blockIn w body) o ho)
      simp at this
    rw [stmtIn, inStmt, stmtAfter, stmtSays]
    simp only [← List.append_assoc]
    exact reached_block other hraw.2.2 hbody (unopened_append (hpast₁.unopened (Nat.le_refl k) true) hother)
  | .ret _ none, _, before, nest, k, w, said, h, _ => by simpa [stmtIn, inStmt, stmtAfter, stmtSays] using h
  | .misfit .., hraw, _, _, _, _, _, _, _ => hraw.elim

/-- The names of statements are looked at in order. -/
theorem reached_stmts : (ss : List Stmt) → RawStmts lit ss → ∀ {before : List Occurrence} {nest : Nest} {k : Nat}
    {w : Sight} {said : List Diagnostic}, Reached before nest w said → Past before nest k →
      Reached (before ++ inStmts nest k (stmtsIn w ss)) nest (stmtsAfter w ss) (said ++ stmtsSay w ss)
  | [], _, before, nest, k, w, said, h, _ => by simpa [stmtsIn, inStmts, stmtsAfter, stmtsSay] using h
  | st :: ss, hraw, before, nest, k, w, said, h, hpast => by
    rw [stmtsIn, inStmts, stmtsAfter, stmtsSay, ← List.append_assoc, ← List.append_assoc]
    exact reached_stmts ss hraw.2 (reached_stmt st hraw.1 h hpast) (hpast.next (nest_inStmt (stmtIn w st)))

/-- The names of a block are looked at in a scope of their own. -/
theorem reached_block : (b : Block) → RawBlock lit b → ∀ {before : List Occurrence} {nest : Nest}
    {step : Nat × Bool} {w : Sight} {said : List Diagnostic}, Reached before nest w said →
      Unopened before (step :: nest) →
      Reached (before ++ inBlock (step :: nest) (blockIn w b)) nest (blockAfter w b) (said ++ blockSays w b)
  | .mk span decls body, hraw, before, nest, step, w, said, h, hunopened => by
    have hdecls := reached_allIn (fun d hd _ _ _ hreached => reached_varIn hreached (hraw.1 d hd)) (h.opens hunopened)
    rw [blockIn, inBlock, blockAfter, blockSays, ← List.append_assoc, ← List.append_assoc]
    exact (reached_stmts body hraw.2 hdecls (hunopened.past.here (nest_declaredAt _ _))).closes

end

end Statements

section Programs

/-- The fields of a struct are declared in a scope of their own, from which only the top of the program
is in sight. -/
theorem reached_fields {k : Nat} {ds : List VarDecl} (hraw : ∀ d ∈ ds, RawVar d) :
    ∀ {before : List Occurrence} {w : Sight} {said : List Diagnostic} (table : SymbolTable) (size : Int),
    Reached before [] w said → table.scopes = [scopeAt before [(k, false)]] →
      Reached (before ++ declaredAt [(k, false)] .field (fieldsIn w table size ds).1.1) []
        (fieldsIn w table size ds).2 (said ++ fieldsSay w table size ds) := by
  induction ds with
  | nil =>
    intro before w said table size h _
    simpa [fieldsIn, fieldsSay, declaredAt] using h
  | cons d ds ih =>
    intro before w said table size h htable
    have hd := hraw d (by simp)
    have ih := @ih fun e he => hraw e (by simp [he])
    have hinner : table.inner = scopeAt before [(k, false)] := by rw [SymbolTable.inner, htable]; rfl
    obtain ⟨hsought, hiff⟩ := h.sought hd (table.findInner? d.name.name).isSome (.fieldDeclaredTwice d.name.name)
      ⟨rfl, rfl, rfl⟩
    rw [free_iff hinner] at hiff
    rw [fieldsIn, fieldsSay]
    cases hnew : newIn w d (table.findInner? d.name.name).isSome with
    | none =>
      rw [hnew] at hsought hiff
      obtain ⟨hundeclared, huntyped⟩ := filter_newSays (d := d) w (table.findInner? d.name.name).isSome
        (.fieldDeclaredTwice d.name.name) ⟨rfl, rfl, rfl⟩
      have hindex : Occurrence.index? ⟨[(k, false)], d.name, some (.field d.type)⟩ = none := by
        simp [Occurrence.index?, hd.name.binding]
      have hrest := ih table size (h.refuse [(k, false)] (.field d.type) hd.name
        (fun hboth => (by cases hiff.mpr hboth)) hundeclared huntyped
        (hsought.structs h.structs (fun hi => hi) rfl (fun h => by cases h) (by simp [hindex]))) (htable.trans (by rw [scopeAt_silent hindex]))
      rw [List.append_assoc, List.append_assoc] at hrest
      exact hrest
    | some u =>
      rw [newSays_of_newIn hnew, hnew] at hsought
      obtain ⟨hfree, htypable⟩ := hiff.mp (by rw [hnew]; rfl)
      let o : Occurrence := ⟨[(k, false)], { d.name with binding := .symbol w.arena.size }, some (.field d.type)⟩
      have hscope : scopeAt (before ++ [o]) [(k, false)] =
          scopeAt before [(k, false)] ++ [(d.name.name, (w.arena.size : Int))] := scopeAt_enter rfl rfl
      have hchain : chain (before ++ [o]) [] = chain before [] :=
        chain_inside (by simp [o]) (List.suffix_refl [])
      have hstructs : Structs none (w.arena.push (.var { u with offset := size })) (before ++ [o])
          (said.filter isStructless ++ []) := by
        refine hsought.structs h.structs grows_push rfl (fun h => by cases h) fun i hi => ?_
        obtain rfl : (w.arena.size : Int) = i := Option.some.inj hi
        exact ⟨u, { u with offset := size }, rfl, by simp [get?_push], rfl, rfl⟩
      rw [List.append_nil] at hstructs
      have hrest := ih (table.insert d.name.name w.arena.size) (size + u.size)
        (h.accept (.var { u with offset := size }) w.table (o := o) rfl hfree (by rw [hchain, h.scopes])
          (.inl ⟨⟨hfree, htypable⟩, by rw [h.count]⟩) ⟨(newIn_name hnew).1, _, .inr (.inr rfl)⟩ hstructs)
        (by rw [insert_scopes (by simp [htable]), hinner, htable, hscope]; rfl)
      rw [List.append_assoc] at hrest
      rw [newSays_of_newIn hnew, List.nil_append]
      exact hrest

/-- A struct is declared after its fields. -/
theorem reached_struct {k : Nat} (h : Reached before [] w said) (hpast : Past before [] k) {d : StructDecl}
    (hname : RawIdent d.name) (hraw : ∀ f ∈ d.fields, RawVar f) :
    Reached (before ++ inDecl k (.struct (structDeclIn w d).1)) [] (structDeclIn w d).2 (said ++ structSays w d) := by
  have hempty : scopeAt before [(k, false)] = [] := by
    have hopen := chain_open (hpast.unopened (Nat.le_refl k) false)
    rw [chain] at hopen
    exact (List.cons.inj hopen).1
  have htwice : ∀ e ∈ (if w.isTaken d.name.name then [objection (.declaredTwice d.name.name) d.name.note.span]
      else []), IsAside e := aside_if ⟨rfl, rfl, rfl⟩
  have hfields := reached_fields (k := k) hraw {} 0 (h.say htwice) (by rw [hempty])
  have htaken : w.isTaken d.name.name = false ↔ Free (before ++ declaredAt [(k, false)] .field
      (fieldsIn w {} 0 d.fields).1.1) [] d.name.name := by
    rw [← hfields.taken_iff, Sight.isTaken, Sight.isTaken, fieldsIn_table]
  rw [structSays, ← List.append_assoc]
  unfold structDeclIn
  cases htwice : w.isTaken d.name.name with
  | true =>
    rw [htwice] at hfields
    simp only [if_true, inDecl] at hfields ⊢
    rw [← List.append_assoc, ← List.append_nil (_ ++ fieldsSay _ _ _ _)]
    refine hfields.refuse [] .struct hname (fun hboth => ?_) rfl rfl ?_
    · rw [htaken.mpr hboth.1] at htwice
      cases htwice
    · rw [List.filter_nil, List.append_nil]
      exact .other hfields.structs rfl fun _ => rfl
  | false =>
    rw [htwice] at hfields
    simp only [Bool.false_eq_true, if_false, inDecl] at hfields ⊢
    rw [← List.append_assoc]
    exact reached_enter hfields .struct (htaken.mp htwice) trivial (fun b => ⟨rfl, rfl⟩)
      (.other (hfields.structs.grows grows_push) rfl fun _ => rfl)

/-- A function is declared before its parameters and its body, which share one scope. -/
theorem reached_fn {k : Nat} (h : Reached before [] w said) (hpast : Past before [] k) {d : FnDecl}
    (hname : RawIdent d.name) (hformals : ∀ f ∈ d.formals, RawFormal f) (hbody : RawBlock lit d.body) :
    Reached (before ++ inDecl k (.fn (fnIn w d).1)) [] (fnIn w d).2 (said ++ fnSays w d) := by
  have hasides : ∀ e ∈ (if w.isTaken d.name.name then [objection (.declaredTwice d.name.name) d.name.note.span]
      else []), IsAside e := aside_if ⟨rfl, rfl, rfl⟩
  have hsaid := h.say hasides
  have hnamed : Reached (before ++ [⟨[], fnName w d, some .function⟩]) [] (fnNamed w d) (said ++
      if w.isTaken d.name.name then [objection (.declaredTwice d.name.name) d.name.note.span] else []) := by
    unfold fnName fnNamed
    cases htaken : w.isTaken d.name.name with
    | true =>
      rw [htaken] at hsaid
      rw [← List.append_nil (said ++ _)]
      refine hsaid.refuse [] .function hname (fun hboth => ?_) rfl rfl ?_
      · rw [h.taken_iff.mpr hboth.1] at htaken
        cases htaken
      · rw [List.filter_nil, List.append_nil]
        exact .other hsaid.structs rfl (fun h => by cases h)
    | false =>
      rw [htaken] at hsaid
      exact reached_enter hsaid .function (h.taken_iff.mp htaken) trivial (fun b => ⟨rfl, rfl⟩)
        (.other (hsaid.structs.grows grows_push) rfl (fun h => by cases h))
  have hpast₁ : Past (before ++ [⟨[], fnName w d, some .function⟩]) [] k := hpast.here (by simp)
  have hunopened := hpast₁.unopened (Nat.le_refl k) false
  obtain ⟨_, _, name, formals, ⟨span, decls, body⟩⟩ := d
  have hparams := reached_allIn (fun d hd _ _ _ hreached => reached_formalIn hreached (hformals d hd))
    (hnamed.opens hunopened)
  have hlocals := reached_allIn (fun d hd _ _ _ hreached => reached_varIn hreached (hbody.1 d hd)) hparams
  have hall := (reached_stmts body hbody.2 hlocals
    ((hunopened.past.here (nest_declaredAt _ _)).here (nest_declaredAt _ _))).closes
  simp only [List.append_assoc, List.singleton_append] at hall
  exact hall

/-- A declaration at the top of the program is looked at. -/
theorem reached_decl {k : Nat} (h : Reached before [] w said) (hpast : Past before [] k) {d : Decl}
    (hraw : RawDecl lit d) :
    Reached (before ++ inDecl k (declIn w d).1) [] (declIn w d).2 (said ++ declSays w d) := by
  cases d with
  | var d => exact reached_varIn h hraw
  | struct d => exact reached_struct h hpast hraw.1 hraw.2.2
  | fn d => exact reached_fn h hpast hraw.1 hraw.2.2.1 hraw.2.2.2
  | misfit span kind => exact hraw.elim

/-- The declarations of a program are looked at in order. -/
theorem reached_decls {ds : List Decl} (hraw : ∀ d ∈ ds, RawDecl lit d) :
    ∀ {before : List Occurrence} {k : Nat} {w : Sight} {said : List Diagnostic}, Reached before [] w said →
      Past before [] k →
      Reached (before ++ inDecls k (declsIn w ds).1) [] (declsIn w ds).2 (said ++ declsSay w ds) := by
  induction ds with
  | nil =>
    intro before k w said h _
    simpa [inDecls, declsIn, declsSay] using h
  | cons d ds ih =>
    intro before k w said h hpast
    rw [declsIn, inDecls, declsSay, ← List.append_assoc, ← List.append_assoc]
    exact ih (fun e he => hraw e (by simp [he])) (reached_decl h hpast (hraw d (by simp)))
      (hpast.next (nest_inDecl (declIn w d).1))

/-- The names of a whole program have been looked at. -/
theorem reached_program {ds : List Decl} (hraw : ∀ d ∈ ds, RawDecl lit d) :
    Reached (inDecls 0 (declsIn outset ds).1) [] (declsIn outset ds).2 (declsSay outset ds) := by
  have hstart : Reached [] [] outset [] :=
    ⟨rfl, fun front o after h => by simp at h, fun _ => List.nodup_nil, rfl, by simp, rfl, rfl, .nil⟩
  exact reached_decls hraw hstart (by simp [Past])

/-- The types of a program are accounted for, whichever file they are in. -/
theorem Structs.about {arena : Arena} {os : List Occurrence} {ds : List Diagnostic} (file : Option String)
    (h : Structs none arena os ds) : Structs file arena os (ds.map (Proofs.about file)) := by
  induction h with
  | nil => exact .nil
  | other _ htype htop ih => exact .other ih htype htop
  | found _ htype hdefines hvisible hk hstruct ih => exact .found ih htype hdefines hvisible hk hstruct
  | missing _ htype hmissing hrefused ih =>
    rw [List.map_append]
    exact .missing ih htype hmissing hrefused

theorem filter_about {p : Diagnostic → Bool} (file : Option String) (hp : ∀ d, p (about file d) = p d)
    (ds : List Diagnostic) : (ds.map (about file)).filter p = (ds.filter p).map (about file) := by
  rw [List.filter_map]
  exact congrArg _ (List.filter_congr fun d _ => hp d)

/-- The names of a program are scoped lexically, with what an analysis has found out about them: each is
bound as the names before it say, each use without a declaration in sight is taken down once, the symbols
are those of the accepted declarations in order, and what is accepted at the top is in the one scope that
is left. -/
structure LexicallyScoped (os : List Occurrence) (a : Analysis) : Prop where
  bound : Scoped os
  distinct : ∀ nest, ((scopeAt os nest).map Prod.fst).Nodup
  undeclared : a.diagnostics.filter isUndeclared = (os.filter (·.isUnresolved)).map (complaint a.file)
  indices : os.filterMap Occurrence.index? = (List.range a.arena.size).map Int.ofNat
  symbols : ∀ o ∈ os, ∀ i, o.index? = some i → ∃ symbol, a.arena.get? i = some symbol ∧
    Describes o symbol
  globals : ∃ table, a.globals = some table ∧ table.scopes = [scopeAt os []]

/-- Name analysis is lexical scoping. It goes through for every program that was read, changes nothing
but what the names are bound to, and binds them as the scopes of the program say. -/
theorem names_are_lexically_scoped {text : String} {tokens : List Token} {p : Program} (file : String)
    (hlex : Token.lex text = .ok tokens) (hparse : Program.ofTokens tokens = .ok p) :
    ∃ a q, (readFrom file p).resolveNames = (a, none) ∧ a.program = some q ∧
      q.decls.map unboundDecl = p.decls.map unboundDecl ∧ LexicallyScoped (inDecls 0 q.decls) a := by
  have hraw := raw_of_tokens (tokens_ok hlex) hparse
  have hreached := reached_program hraw
  refine ⟨_, _, resolveNames_eq (a := readFrom file p) rfl rfl hraw, rfl, unbound_declsIn _ _,
    hreached.lexical, hreached.distinct, ?_, hreached.indices, hreached.symbols, _, rfl, hreached.scopes⟩
  show ((declsSay outset p.decls).map (about _)).filter isUndeclared = _
  rw [filter_about _ (fun _ => rfl), hreached.undeclared, List.map_map]
  rfl

/-- A text with a name declared at the top, twice in a function and again in a block, and a name that is
declared nowhere. -/
def shadowingText : String :=
  "int x;void f(){int x;bool x;x=y;if(true){int x;x=1;}x=2;}"

/-- The uses of the name are bound to the variable of the function, to that of the block, and to that of
the function again. -/
theorem shadowing_is_scoped : ∃ a q, TypeRules.namesOf shadowingText = some a ∧ a.program = some q ∧
    LexicallyScoped (inDecls 0 q.decls) a ∧
    ((inDecls 0 q.decls).map fun o => (o.nest, o.id.name, o.id.binding)) =
      [([], "x", .symbol 0), ([], "f", .symbol 1), ([(1, false)], "x", .symbol 2),
        ([(1, false)], "x", .unvisited), ([(1, false)], "y", .unresolved),
        ([(1, false)], "x", .symbol 2), ([(1, false), (1, false)], "x", .symbol 3),
        ([(1, false), (1, false)], "x", .symbol 3), ([(1, false)], "x", .symbol 2)] := by
  have hbindings : ∃ a, TypeRules.namesOf shadowingText = some a ∧ (a.program.any fun q =>
      ((inDecls 0 q.decls).map fun o => (o.nest, o.id.name, o.id.binding)) =
      [([], "x", .symbol 0), ([], "f", .symbol 1), ([(1, false)], "x", .symbol 2),
        ([(1, false)], "x", .unvisited), ([(1, false)], "y", .unresolved),
        ([(1, false)], "x", .symbol 2), ([(1, false), (1, false)], "x", .symbol 3),
        ([(1, false), (1, false)], "x", .symbol 3), ([(1, false)], "x", .symbol 2)]) := by
    rw [← Option.any_eq_true]
    decide +kernel
  obtain ⟨a, ha, hany⟩ := hbindings
  rw [Option.any_eq_true] at hany
  obtain ⟨q, hq, hlist⟩ := hany
  obtain ⟨tokens, p, hlex, hparse, hread⟩ := TypeRules.read_of_namesOf ha
  obtain ⟨a', q', hresolve, hq', -, hscoped⟩ := names_are_lexically_scoped "main.cmm" hlex hparse
  obtain rfl : a' = a := by rw [← hread, hresolve]
  obtain rfl : q' = q := Option.some.inj (hq'.symm.trans hq)
  exact ⟨a', q', ha, hq, hscoped, by simpa using hlist⟩

end Programs

end Walk

end CMinusMinus.Proofs.Lexical
