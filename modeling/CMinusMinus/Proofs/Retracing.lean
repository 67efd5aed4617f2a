import CMinusMinus.Proofs.Views

/-!
Name analysis of what is seen of a program. The names of a program that has been analysed are changed, each
with the declaration that it is bound to, and the program is analysed again. If no two declarations have
come to share a name, a name that was free is free again, every name is bound as before, and the symbols are
those of before as they are seen.
-/
namespace CMinusMinus.Proofs.Views

open Names WellFormed Grammar Naming Resolution
open Printing (unspannedNote unspannedIdent unspannedType unspannedVar)
open Lexical (unboundIdent unboundVar unboundExpr unboundExprs unboundStmt unboundStmts unboundBlock
  unboundDecl)

/-- The names in a scope are those of the symbols that they stand for. -/
def Labels (arena : Arena) (scope : Scope) : Prop := ∀ p ∈ scope, ∃ t, arena.get? p.2 = some t ∧ t.name = p.1

/-- The names in all scopes of a table are those of the symbols that they stand for. -/
def Labelled (arena : Arena) (t : SymbolTable) : Prop := ∀ scope ∈ t.scopes, Labels arena scope

/-- The names in sight, and those of the fields of structs, are those of the symbols that they stand for. -/
structure Tagged (w : Sight) : Prop where
  table : Labelled w.arena w.table
  fields : ∀ {i d}, w.arena.get? i = some (.struct d) → Labelled w.arena d.fields

namespace View

def Plain (v : View) : Prop := ∀ b n, v.name b n = n

/-- No two symbols come to share a name, and only local variables and fields have other names. -/
structure Faithful (v : View) (τ : Symbols) : Prop where
  apart : ∀ {i j s t}, τ i = some s → τ j = some t →
    v.name (.symbol i) s.name = v.name (.symbol j) t.name → i = j ∨ s.name = t.name
  kept : ∀ {i s}, τ i = some s → (∀ u, s = .var u → u.isGlobal = true) → v.name (.symbol i) s.name = s.name
  unresolved : ∀ n, v.name .unresolved n = n
  unvisited : ∀ n, v.name .unvisited n = n

def sight (v : View) (w : Sight) : Sight := ⟨v.table w.table, v.arena w.arena⟩

/-- No error is found, if names are changed. -/
def Hushed (v : View) (ds : List Diagnostic) : Prop := v.Plain ∨ Quiet ds

end View

variable {v : View} {τ : Symbols} {w : Sight} {lit : String → Prop}

section Saying

variable {ds ds' es es' : List Diagnostic}

theorem View.Hushed.left (h : v.Hushed (ds ++ es)) : v.Hushed ds :=
  h.imp_right fun h => (List.forall_mem_append.mp h).1

theorem View.Hushed.right (h : v.Hushed (ds ++ es)) : v.Hushed es :=
  h.imp_right fun h => (List.forall_mem_append.mp h).2

theorem echoes_objection {finding finding' : NameFinding} (span span' : Option Span)
    (h : v.finding (.naming finding') = v.finding (.naming finding)) :
    v.Echoes [objection finding span] [objection finding' span'] := by
  simp [View.Echoes, View.diagnostic, objection, Diagnostic.atSpan, h]

/-- An objection is made again, on the same condition. -/
theorem echoes_if {p : Prop} [Decidable p] {finding finding' : NameFinding} (span span' : Option Span)
    (h : v.finding (.naming finding') = v.finding (.naming finding)) :
    v.Echoes (if p then [objection finding span] else []) (if p then [objection finding' span'] else []) := by
  split
  · exact echoes_objection span span' h
  · rfl

end Saying

section Lookup

theorem Labels.grows {arena arena' : Arena} {scope : Scope} (h : Labels arena scope)
    (hgrows : Grows arena arena') : Labels arena' scope := by
  intro p hp
  obtain ⟨t, ht, hname⟩ := h p hp
  exact ⟨t, hgrows ht, hname⟩

theorem Labelled.grows {arena arena' : Arena} {t : SymbolTable} (h : Labelled arena t)
    (hgrows : Grows arena arena') : Labelled arena' t := fun scope hscope => (h scope hscope).grows hgrows

theorem Labelled.inner {arena : Arena} {t : SymbolTable} (h : Labelled arena t) : Labels arena t.inner := by
  obtain ⟨scopes, frozen⟩ := t
  cases scopes with
  | nil => exact fun p hp => (by cases hp)
  | cons scope outer => exact h scope (by simp)

/-- The new symbol has the name that it is entered under. -/
theorem Labelled.insert {arena : Arena} {t : SymbolTable} (h : Labelled arena t) {n : String} {i : Int}
    {symbol : Symbol} (hi : arena.get? i = some symbol) (hn : symbol.name = n) :
    Labelled arena (t.insert n i) := by
  obtain ⟨scopes, frozen⟩ := t
  cases scopes with
  | nil => exact h
  | cons first outer =>
    obtain ⟨hfirst, houter⟩ := List.forall_mem_cons.mp h
    refine List.forall_mem_cons.mpr ⟨List.forall_mem_append.mpr ⟨hfirst, ?_⟩, houter⟩
    simpa using ⟨symbol, hi, hn⟩

/-- A symbol whose fields, if it is a struct, are those of their symbols can be added. -/
theorem Tagged.push (h : Tagged w) {symbol : Symbol}
    (hfields : ∀ d, symbol = .struct d → Labelled w.arena d.fields) :
    Tagged { w with arena := w.arena.push symbol } where
  table := h.table.grows grows_push
  fields hd := by
    rcases get?_push_cases hd with hd | ⟨-, hd⟩
    · exact (h.fields hd).grows grows_push
    · exact (hfields _ hd.symm).grows grows_push

theorem Tagged.enter (h : Tagged w) {n : String} {symbol : Symbol} (hn : symbol.name = n)
    (hfields : ∀ d, symbol = .struct d → Labelled w.arena d.fields) : Tagged (w.enter n symbol) where
  table := (h.table.grows grows_push).insert (by simp [get?_push]) hn
  fields := (h.push hfields).fields

theorem name_unplaced (t : Symbol) : (unplaced t).name = t.name := by cases t <;> rfl

theorem Labels.within {arena : Arena} {scope : Scope} (h : Labels arena scope) (hwithin : Extends (shape arena) τ) :
    ∀ p ∈ scope, ∃ t, τ p.2 = some t ∧ t.name = p.1 := by
  intro p hp
  obtain ⟨t, ht, hname⟩ := h p hp
  exact ⟨unplaced t, shape_of_get hwithin ht, by rw [name_unplaced, hname]⟩

section Tables

theorem scope_plain (h : v.Plain) (scope : Scope) : v.scope scope = scope := by simp [View.scope, h _ _]

theorem table_plain (h : v.Plain) (t : SymbolTable) : v.table t = t := by
  obtain ⟨scopes, frozen⟩ := t
  have hscopes : scopes.map v.scope = scopes := by
    conv_rhs => rw [← List.map_id scopes]
    exact List.map_congr_left fun scope _ => scope_plain h scope
  simp [View.table, hscopes]

theorem table_insert (t : SymbolTable) (n : String) (i : Int) :
    v.table (t.insert n i) = (v.table t).insert (v.name (.symbol i) n) i := by
  obtain ⟨scopes, frozen⟩ := t
  cases scopes with
  | nil => rfl
  | cons scope outer => simp [SymbolTable.insert, View.table, View.scope]

theorem table_pop (t : SymbolTable) : v.table t.pop = (v.table t).pop := by
  simp [View.table, SymbolTable.pop, List.map_tail]

theorem table_depth (t : SymbolTable) : (v.table t).depth = t.depth := by
  simp [View.table, SymbolTable.depth]

theorem table_inner (t : SymbolTable) : (v.table t).inner = v.scope t.inner := by
  obtain ⟨scopes, frozen⟩ := t
  cases scopes with
  | nil => rfl
  | cons scope outer => rfl

end Tables

variable (hv : v.Faithful τ) {n : String} {i : Int} {t : Symbol} (ht : τ i = some t) (hn : t.name = n)

include hv ht hn

/-- A name that has become another stands for the same symbol as before, or still for none but that. -/
theorem lookup_scope {scope : Scope} (hlabels : ∀ p ∈ scope, ∃ t, τ p.2 = some t ∧ t.name = p.1) :
    (scope.lookup n = some i → (v.scope scope).lookup (v.name (.symbol i) n) = some i) ∧
    (scope.lookup n = none → (v.scope scope).lookup (v.name (.symbol i) n) = none ∨
      (v.scope scope).lookup (v.name (.symbol i) n) = some i) := by
  induction scope with
  | nil => exact ⟨by simp, fun _ => .inl rfl⟩
  | cons p scope ih =>
    obtain ⟨m, j⟩ := p
    obtain ⟨⟨u, hu, (hm : u.name = m)⟩, hlabels⟩ := List.forall_mem_cons.mp hlabels
    obtain ⟨hsome, hnone⟩ := ih hlabels
    have hcons : ∀ (rest : Scope) (x y : String), ((y, j) :: rest).lookup x =
        if x = y then some j else rest.lookup x := by
      intro rest x y
      rw [List.lookup_cons]
      by_cases hxy : x = y
      · simp [hxy]
      · simp [hxy, beq_false_of_ne hxy]
    have hseen : v.scope ((m, j) :: scope) = (v.name (.symbol j) m, j) :: v.scope scope := rfl
    rw [hseen, hcons, hcons]
    by_cases hnm : n = m
    · rw [if_pos hnm]
      refine ⟨fun hij => ?_, fun h => (by cases h)⟩
      obtain rfl : j = i := Option.some.inj hij
      rw [hnm, if_pos rfl]
    · rw [if_neg hnm]
      by_cases heq : v.name (.symbol i) n = v.name (.symbol j) m
      · rw [if_pos heq]
        rw [← hn, ← hm] at heq
        have hij : i = j := (hv.apart ht hu heq).resolve_right (by rw [hn, hm]; exact hnm)
        rw [hij]
        exact ⟨fun _ => rfl, fun _ => .inr rfl⟩
      · rw [if_neg heq]
        exact ⟨hsome, hnone⟩

theorem find_scopes {scopes : List Scope}
    (hlabels : ∀ scope ∈ scopes, ∀ p ∈ scope, ∃ t, τ p.2 = some t ∧ t.name = p.1)
    (h : scopes.findSome? (·.lookup n) = some i) :
    (scopes.map v.scope).findSome? (·.lookup (v.name (.symbol i) n)) = some i := by
  induction scopes with
  | nil => cases h
  | cons scope outer ih =>
    obtain ⟨hscope, houter⟩ := List.forall_mem_cons.mp hlabels
    obtain ⟨hsome, hnone⟩ := lookup_scope hv ht hn hscope
    rw [List.map_cons, List.findSome?_cons]
    rw [List.findSome?_cons] at h
    cases hlookup : scope.lookup n with
    | some j =>
      rw [hlookup] at h
      obtain rfl : j = i := Option.some.inj h
      rw [hsome hlookup]
    | none =>
      rw [hlookup] at h
      rcases hnone hlookup with hlookup' | hlookup'
      · rw [hlookup']
        exact ih houter h
      · rw [hlookup']

/-- A name that is free stays free for a new symbol. -/
theorem findInner_table {arena : Arena} {table : SymbolTable}
    (hlabels : ∀ p ∈ table.inner, ∃ t, τ p.2 = some t ∧ t.name = p.1) (hinner : Labels arena table.inner)
    (hi : arena.size ≤ i) (h : table.findInner? n = none) :
    (v.table table).findInner? (v.name (.symbol i) n) = none := by
  rw [SymbolTable.findInner?, table_inner]
  rcases (lookup_scope hv ht hn hlabels).2 h with hnone | hsome
  · exact hnone
  · obtain ⟨front, after, hsplit, -⟩ := List.lookup_eq_some_iff.mp hsome
    have hmem : (v.name (.symbol i) n, i) ∈ v.scope table.inner := by simp [hsplit]
    obtain ⟨p, hp, hpi⟩ := List.mem_map.mp hmem
    obtain ⟨u, hu, -⟩ := hinner p hp
    have hindex : p.2 = i := congrArg Prod.snd hpi
    have := (get?_lt hu).2
    omega

end Lookup

section Uses

theorem Labelled.find {arena : Arena} {table : SymbolTable} (h : Labelled arena table) {n : String} {i : Int}
    (hfind : table.find? n = some i) : ∃ t, arena.get? i = some t ∧ t.name = n := by
  obtain ⟨scope, hscope, hlookup⟩ := List.exists_of_findSome?_eq_some hfind
  obtain ⟨front, after, hsplit, -⟩ := List.lookup_eq_some_iff.mp hlookup
  exact h scope hscope (n, i) (by simp [hsplit])

variable (hv : v.Faithful τ) (htagged : Tagged w) (hwithin : Extends (shape w.arena) τ)

include hv hwithin

/-- What a name stands for stays what it was. -/
theorem find_table {table : SymbolTable} (hlabels : Labelled w.arena table) {n : String} {i : Int}
    (h : table.find? n = some i) : (v.table table).find? (v.name (.symbol i) n) = some i := by
  obtain ⟨t, ht, hname⟩ := hlabels.find h
  rw [← name_unplaced] at hname
  exact find_scopes hv (shape_of_get hwithin ht) hname (fun scope hscope => (hlabels scope hscope).within hwithin) h

include htagged

/-- A name is looked up again. -/
theorem bound_seen (x : Ident) (hhushed : v.Hushed (useSays w x)) :
    bound (v.sight w) (unboundIdent (v.ident (bound w x))) = v.ident (bound w x) ∧
      v.Echoes (useSays w x) (useSays (v.sight w) (unboundIdent (v.ident (bound w x)))) := by
  cases hfind : w.table.find? x.name with
  | none =>
    have hsaid : useSays w x = [objection (.undeclared x.name) x.note.span] := by simp [useSays, hfind]
    have hplain : v.Plain := hhushed.resolve_right (hsaid ▸ not_quiet)
    have hfind' : (v.sight w).table.find? (v.name .unresolved x.name) = none := by
      rw [View.sight, table_plain hplain, hplain, hfind]
    have hfinding := v.finding_name (.naming <| .undeclared ·) .unresolved x.name
    simp only [bound, useSays, unboundIdent, View.ident, hfind, hfind', Option.map_none, Option.getD_none]
    exact ⟨trivial, echoes_objection _ _ hfinding⟩
  | some i =>
    have hfind' : (v.sight w).table.find? (v.name (.symbol i) x.name) = some i :=
      find_table hv hwithin htagged.table hfind
    simp only [bound, useSays, unboundIdent, View.ident, hfind, hfind', Option.map_some, Option.getD_some]
    exact ⟨trivial, rfl⟩

omit hv hwithin htagged

/-- The struct whose fields an expression offers does not go by names. -/
theorem ownerOf_seen (arena : Arena) (e : Expr) : ownerOf (v.arena arena) (v.expr e) = ownerOf arena e := by
  cases e with
  | ident x =>
    obtain ⟨note, name, binding⟩ := x
    cases binding with
    | symbol i =>
      simp only [View.expr, View.ident, ownerOf, v.get?_arena]
      cases arena.get? i with
      | none => rfl
      | some t => cases t <;> rfl
    | unvisited => rfl
    | unresolved => rfl
  | _ => rfl

theorem isLost_seen (e : Expr) : isLost (v.expr e) = isLost e := by cases e <;> rfl

theorem fieldOf_plain (h : v.Plain) {arena : Arena} {k : Int} {n : String} (hnone : fieldOf arena k n = none) :
    fieldOf (v.arena arena) k n = none := by
  unfold fieldOf at hnone ⊢
  rw [v.get?_arena]
  cases hk : arena.get? k with
  | none => rfl
  | some t =>
    cases t with
    | struct d =>
      simp only [hk, Option.map_some, View.symbol, table_plain h] at hnone ⊢
      cases hfind : d.fields.find? n with
      | none => rfl
      | some j =>
        simp only [hfind, Option.bind_some, v.get?_arena] at hnone ⊢
        cases hj : arena.get? j with
        | none => rfl
        | some t => cases t <;> simp_all [View.symbol]
    | var u => rfl
    | func f => rfl

include hv hwithin htagged

theorem fieldOf_seen {k j : Int} {n : String} {u : Variable} (h : fieldOf w.arena k n = some (j, u)) :
    ∃ u', fieldOf (v.arena w.arena) k (v.name (.symbol j) n) = some (j, u') ∧ u'.structDef = u.structDef := by
  unfold fieldOf at h
  cases hk : w.arena.get? k with
  | none => simp [hk] at h
  | some t =>
    cases t with
    | var | func => simp [hk] at h
    | struct d =>
      simp only [hk] at h
      obtain ⟨i, hfind, hi⟩ := Option.bind_eq_some_iff.mp h
      cases ht : w.arena.get? i with
      | none => simp [ht] at hi
      | some t =>
        cases t with
        | struct | func => simp [ht] at hi
        | var u₀ =>
          obtain ⟨rfl, rfl⟩ : i = j ∧ u₀ = u := by simpa [ht] using hi
          have hfind' := find_table hv hwithin (htagged.fields hk) hfind
          refine ⟨{ u₀ with name := if u₀.isGlobal then u₀.name else v.name (.symbol i) u₀.name }, ?_, rfl⟩
          simp only [fieldOf, v.get?_arena, hk, Option.map_some, View.symbol, hfind', Option.bind_some, ht]

/-- A field is looked up again in a struct. -/
theorem accessIn_seen (owner : Option Int) (field : Ident) (hhushed : v.Hushed (fieldSays w.arena field owner)) :
    accessIn (v.arena w.arena) owner (unboundIdent (v.ident (accessIn w.arena owner field).1)) =
      (v.ident (accessIn w.arena owner field).1, (accessIn w.arena owner field).2) ∧
    v.Echoes (fieldSays w.arena field owner)
      (fieldSays (v.arena w.arena) (unboundIdent (v.ident (accessIn w.arena owner field).1)) owner) := by
  cases owner with
  | none => exact ⟨rfl, rfl⟩
  | some k =>
    cases hfield : fieldOf w.arena k field.name with
    | none =>
      have hsaid : fieldSays w.arena field (some k) = [objection (.noSuchField field.name) field.note.span] := by
        simp [fieldSays, hfield]
      have hplain : v.Plain := hhushed.resolve_right (hsaid ▸ not_quiet)
      have hfield' : fieldOf (v.arena w.arena) k (v.name .unresolved field.name) = none := by
        rw [hplain]
        exact fieldOf_plain hplain hfield
      have hfinding := v.finding_name (.naming <| .noSuchField ·) .unresolved field.name
      simp only [accessIn, fieldSays, unboundIdent, View.ident, Option.bind_some, hfield, hfield']
      exact ⟨trivial, echoes_objection _ _ hfinding⟩
    | some p =>
      obtain ⟨j, u⟩ := p
      obtain ⟨u', hfield', hdef⟩ := fieldOf_seen hv htagged hwithin hfield
      simp only [accessIn, fieldSays, unboundIdent, View.ident, Option.bind_some, hfield, hfield', hdef]
      exact ⟨trivial, rfl⟩

end Uses

section Expressions

mutual

/-- The names of an expression are looked up again. -/
theorem resolved_seen (hv : v.Faithful τ) (htagged : Tagged w) (hwithin : Extends (shape w.arena) τ) : (e : Expr) →
    v.Hushed (exprSays w e) →
    resolved (v.sight w) (unboundExpr (v.expr (resolved w e))) = v.expr (resolved w e) ∧
      v.Echoes (exprSays w e) (exprSays (v.sight w) (unboundExpr (v.expr (resolved w e))))
  | .int .., _ | .string .., _ | .bool .., _ | .misfit .., _ => ⟨rfl, rfl⟩
  | .ident x, h => by
    obtain ⟨hbound, hechoes⟩ := bound_seen hv htagged hwithin x h
    exact ⟨congrArg Expr.ident hbound, hechoes⟩
  | .dot note obj field _ _, h => by
    rw [exprSays, accessSays, ← List.append_assoc] at h
    obtain ⟨hobj, hechoes⟩ := resolved_seen hv htagged hwithin obj h.left.left
    obtain ⟨hfield, hechoes'⟩ := accessIn_seen hv htagged hwithin (ownerOf w.arena (resolved w obj)) field h.right
    have howner := ownerOf_seen (v := v) w.arena (resolved w obj)
    simp only [resolved, access, View.expr, unboundExpr, exprSays, accessSays, ownerSays, hobj] at hechoes ⊢
    simp only [View.sight, howner, hfield, isLost_seen] at hechoes ⊢
    exact ⟨trivial, hechoes.append ((echoes_if _ _ rfl).append hechoes')⟩
  | .assign note target value, h => by
    rw [exprSays] at h
    obtain ⟨hvalue, hechoes⟩ := resolved_seen hv htagged hwithin value h.left
    obtain ⟨htarget, hechoes'⟩ := resolved_seen hv htagged hwithin target h.right
    simp only [resolved, View.expr, unboundExpr, exprSays, hvalue, htarget]
    exact ⟨trivial, hechoes.append hechoes'⟩
  | .call note callee args, h => by
    rw [exprSays] at h
    obtain ⟨hcallee, hechoes⟩ := bound_seen hv htagged hwithin callee h.left
    obtain ⟨hargs, hechoes'⟩ := resolvedAll_seen hv htagged hwithin args h.right
    simp only [resolved, View.expr, unboundExpr, exprSays, hcallee, hargs]
    exact ⟨trivial, hechoes.append hechoes'⟩
  | .unary note op operand, h => by
    rw [exprSays] at h
    obtain ⟨hoperand, hechoes⟩ := resolved_seen hv htagged hwithin operand h
    simp only [resolved, View.expr, unboundExpr, exprSays, hoperand]
    exact ⟨trivial, hechoes⟩
  | .binary note op left right, h => by
    rw [exprSays] at h
    obtain ⟨hleft, hechoes⟩ := resolved_seen hv htagged hwithin left h.left
    obtain ⟨hright, hechoes'⟩ := resolved_seen hv htagged hwithin right h.right
    simp only [resolved, View.expr, unboundExpr, exprSays, hleft, hright]
    exact ⟨trivial, hechoes.append hechoes'⟩

theorem resolvedAll_seen (hv : v.Faithful τ) (htagged : Tagged w) (hwithin : Extends (shape w.arena) τ) :
    (es : List Expr) → v.Hushed (exprsSay w es) →
    resolvedAll (v.sight w) (unboundExprs (v.exprs (resolvedAll w es))) = v.exprs (resolvedAll w es) ∧
      v.Echoes (exprsSay w es) (exprsSay (v.sight w) (unboundExprs (v.exprs (resolvedAll w es))))
  | [], _ => ⟨rfl, rfl⟩
  | e :: es, h => by
    rw [exprsSay] at h
    obtain ⟨he, hechoes⟩ := resolved_seen hv htagged hwithin e h.left
    obtain ⟨hes, hechoes'⟩ := resolvedAll_seen hv htagged hwithin es h.right
    simp only [resolvedAll, View.exprs, unboundExprs, exprsSay, he, hes]
    exact ⟨trivial, hechoes.append hechoes'⟩

end

end Expressions

section Variables

/-- What is entered is seen as something entered under another name. -/
theorem sight_enter (n : String) (symbol : Symbol) : v.sight (w.enter n symbol) =
    (v.sight w).enter (v.name (.symbol w.arena.size) n) (v.symbol w.arena.size symbol) := by
  simp only [View.sight, Sight.enter, table_insert, v.push_arena, v.size_arena]

/-- A variable is seen under the name that its symbol is seen under. -/
theorem symbol_var (hv : v.Faithful τ) {i : Int} {u : Variable} (hu : τ i = some (unplaced (.var u))) :
    v.symbol i (.var u) = .var { u with name := v.name (.symbol i) u.name } := by
  rw [View.symbol]
  cases hglobal : u.isGlobal with
  | false => rfl
  | true =>
    have hkept : v.name (.symbol i) u.name = u.name := hv.kept hu fun _ hw => Symbol.var.inj hw ▸ hglobal
    rw [hkept]
    rfl

variable {d : VarDecl} {u : Variable}

/-- A name that was free is free again for a new symbol. -/
theorem free_seen (hv : v.Faithful τ) {arena : Arena} {table : SymbolTable} (hlabels : Labelled arena table)
    {symbol : Symbol} (hwithin : Extends (shape (arena.push symbol)) τ) {n : String} (hname : symbol.name = n)
    (h : (table.findInner? n).isSome = false) :
    ((v.table table).findInner? (v.name (.symbol arena.size) n)).isSome = false := by
  have ht := shape_of_get hwithin (i := arena.size) (t := symbol) (by simp [get?_push])
  have hinner := hlabels.inner.within (shape_earlier hwithin grows_push)
  rw [findInner_table hv ht (by rw [name_unplaced, hname]) hinner hlabels.inner (Int.le_refl _) (by simpa using h)]
  rfl

/-- A variable is entered again. -/
theorem enter_seen (hv : v.Faithful τ) (hname : u.name = d.name.name)
    (hwithin : Extends (shape (w.enter d.name.name (.var u)).arena) τ) :
    (boundVar (v.sight w) (unboundVar (v.var (boundVar w d))), (v.sight w).enter
      (v.name (.symbol w.arena.size) d.name.name) (.var { u with name := v.name (.symbol w.arena.size) d.name.name })) =
    (v.var (boundVar w d), v.sight (w.enter d.name.name (.var u))) := by
  have hu := shape_of_get hwithin (i := w.arena.size) (t := .var u) (by simp [Sight.enter, get?_push])
  rw [sight_enter, symbol_var hv hu, hname]
  simp only [boundVar, unboundVar, unboundIdent, View.var, View.ident, View.sight, v.size_arena]

/-- A struct in sight is found again under its name. -/
theorem structIn_seen (hv : v.Faithful τ) (htagged : Tagged w) (hwithin : Extends (shape w.arena) τ) {n : String}
    (h : v.Plain ∨ (structIn w n).isNone = false) :
    structIn (v.sight w) n = (structIn w n).map fun p => (p.1, { p.2 with fields := v.table p.2.fields }) := by
  have hfind : (v.sight w).table.find? n = w.table.find? n := by
    rcases h with hplain | hsome
    · rw [View.sight, table_plain hplain]
    · unfold structIn at hsome
      cases hfind : w.table.find? n with
      | none => simp [hfind] at hsome
      | some k =>
        obtain ⟨t, ht, hname⟩ := htagged.table.find hfind
        cases t with
        | var u => simp [hfind, ht] at hsome
        | func f => simp [hfind, ht] at hsome
        | struct e =>
          have hkept : v.name (.symbol k) n = n := by
            rw [← hname]
            exact hv.kept (shape_of_get hwithin ht) fun u hu => (by cases hu)
          have hfind' := find_table hv hwithin htagged.table hfind
          rwa [hkept] at hfind'
  unfold structIn
  rw [hfind]
  cases w.table.find? n with
  | none => rfl
  | some k =>
    simp only [Option.bind_some, View.sight, v.get?_arena]
    cases w.arena.get? k with
    | none => rfl
    | some t => cases t <;> rfl

/-- The variable that a declaration introduces is found again, under another name. -/
theorem newIn_seen (hv : v.Faithful τ) (htagged : Tagged w) (hwithin : Extends (shape w.arena) τ) {isTaken : Bool}
    {twice twice' : NameFinding} (hhushed : v.Hushed (newSays w d isTaken twice)) {x : Ident} (b : Binding)
    (hx : x.name = v.name b d.name.name) (htwice : v.finding (.naming twice') = v.finding (.naming twice)) :
    newIn (v.sight w) ⟨none, unspannedType d.type, x⟩ isTaken =
      (newIn w d isTaken).map (fun u => { u with name := x.name }) ∧
    v.Echoes (newSays w d isTaken twice) (newSays (v.sight w) ⟨none, unspannedType d.type, x⟩ isTaken twice') := by
  have hvoid : v.finding (.naming (.declaredVoid x.name)) = v.finding (.naming (.declaredVoid d.name.name)) := by
    rw [hx]
    exact v.finding_name (.naming <| .declaredVoid ·) b d.name.name
  have hstruct : d.type.isStruct = true → structIn (v.sight w) d.type.name =
      (structIn w d.type.name).map fun p => (p.1, { p.2 with fields := v.table p.2.fields }) := by
    intro hstruct
    refine structIn_seen hv htagged hwithin (hhushed.right.left.imp_right fun hquiet => ?_)
    simpa [hstruct, Option.isSome_iff_ne_none] using quiet_if.mp hquiet
  obtain ⟨_, type, name⟩ := d
  refine ⟨?_, (echoes_if _ _ hvoid).append (View.Echoes.append ?_ (echoes_if _ _ htwice))⟩
  · unfold newIn
    by_cases hrefused : (type.name == "void" || isTaken) = true
    · rw [if_pos hrefused, if_pos (by exact hrefused), Option.map_none]
    · rw [if_neg hrefused, if_neg (by exact hrefused), typedIn, typedIn]
      by_cases hs : type.isStruct = true
      · rw [if_pos hs, if_pos (by exact hs), show structIn _ (unspannedType type).name = _ from hstruct hs,
          Option.map_map, Option.map_map]
        rfl
      · rw [if_neg hs, if_neg (by exact hs), Option.map_map]
        rfl
  · have hnone : (type.isStruct && (structIn (v.sight w) type.name).isNone) =
        (type.isStruct && (structIn w type.name).isNone) := by
      cases hs : type.isStruct with
      | false => rfl
      | true =>
        rw [show structIn (v.sight w) type.name = _ from hstruct hs, Option.isNone_map]
    show v.Echoes (if (type.isStruct && (structIn w type.name).isNone) = true then _ else _)
      (if (type.isStruct && (structIn (v.sight w) type.name).isNone) = true then _ else _)
    rw [hnone]
    exact echoes_if _ _ rfl

theorem unboundVar_seen (hraw : RawIdent d.name) : unboundVar (v.var d) = v.var d := by
  simp only [unboundVar, unboundIdent, View.var, View.ident, hraw.binding]

/-- A variable is declared again. -/
theorem varIn_seen (hv : v.Faithful τ) (hraw : RawVar d) (htagged : Tagged w)
    (hwithin : Extends (shape (varIn w d).2.arena) τ) (hhushed : v.Hushed (varSays w d)) :
    varIn (v.sight w) (unboundVar (v.var (varIn w d).1)) = (v.var (varIn w d).1, v.sight (varIn w d).2) ∧
      v.Echoes (varSays w d) (varSays (v.sight w) (unboundVar (v.var (varIn w d).1))) := by
  have hbefore := shape_earlier hwithin ((stable_grows w.arena).var d fun h => h)
  have htwice := fun b => v.finding_name (.naming <| .declaredTwice ·) b d.name.name
  unfold varIn at hwithin ⊢
  cases hnew : newIn w d (w.isTaken d.name.name) with
  | none =>
    have hplain : v.Plain := hhushed.resolve_right (newSays_not_quiet hraw hnew)
    have htaken : (v.sight w).isTaken (v.ident d.name).name = w.isTaken d.name.name := by
      rw [View.ident, hplain, Sight.isTaken, View.sight, table_plain hplain, Sight.isTaken]
    obtain ⟨hnew', hechoes⟩ := newIn_seen hv htagged hbefore hhushed (x := v.ident d.name) _ rfl (htwice _)
    rw [hnew, Option.map_none, ← htaken] at hnew'
    simp only [unboundVar_seen hraw.name]
    refine ⟨?_, ?_⟩
    · simp only [View.var, hnew']
    · rw [varSays, varSays, View.var, htaken]
      exact hechoes
  | some u =>
    simp only [hnew] at hwithin
    have hfree := free_of_newIn hnew
    have htaken : (v.sight w).isTaken (v.name (.symbol w.arena.size) d.name.name) = false :=
      free_seen hv htagged.table hwithin (newIn_name hnew).1 hfree
    obtain ⟨hnew', hechoes⟩ := newIn_seen hv htagged hbefore hhushed
      (x := unboundIdent (v.ident (boundVar w d).name)) (.symbol w.arena.size) rfl (htwice _)
    have hentered := enter_seen hv (d := d) (u := { u with isGlobal := w.table.depth == 1 }) (newIn_name hnew).1 hwithin
    rw [hnew, Option.map_some, hfree] at hnew'
    refine ⟨?_, ?_⟩
    · rw [← hentered]
      simp only [unboundVar, unboundIdent, View.var, View.ident, boundVar] at hnew' ⊢
      simp only [htaken, hnew']
      simp only [View.sight, table_depth]
    · rw [varSays, varSays]
      simp only [unboundVar, unboundIdent, View.var, View.ident, boundVar] at hechoes ⊢
      rw [htaken, ← hfree]
      exact hechoes

/-- A parameter is declared again. -/
theorem formalIn_seen (hv : v.Faithful τ) (hraw : RawIdent d.name) (htagged : Tagged w)
    (hwithin : Extends (shape (formalIn w d).2.arena) τ) (hhushed : v.Hushed (formalSays w d)) :
    formalIn (v.sight w) (unboundVar (v.var (formalIn w d).1)) = (v.var (formalIn w d).1, v.sight (formalIn w d).2) ∧
      v.Echoes (formalSays w d) (formalSays (v.sight w) (unboundVar (v.var (formalIn w d).1))) := by
  have hvoid := fun b => v.finding_name (.naming <| .declaredVoid ·) b d.name.name
  have htwice := fun b => v.finding_name (.naming <| .declaredTwice ·) b d.name.name
  unfold formalIn at hwithin ⊢
  by_cases hrefused : (d.type.name == "void" || w.isTaken d.name.name) = true
  · have hplain : v.Plain := by
      refine hhushed.resolve_right fun hquiet => ?_
      rw [formalSays, Quiet, List.forall_mem_append] at hquiet
      obtain ⟨hvoid, hfree⟩ := hquiet.imp quiet_if.mp quiet_if.mp
      exact absurd hrefused (by simp [hvoid, hfree])
    have htaken : (v.sight w).isTaken (v.ident d.name).name = w.isTaken d.name.name := by
      rw [View.ident, hplain, Sight.isTaken, View.sight, table_plain hplain, Sight.isTaken]
    simp only [if_pos hrefused, unboundVar_seen hraw]
    refine ⟨?_, ?_⟩
    · rw [if_pos (by rw [View.var, htaken]; exact hrefused)]
    · rw [formalSays, formalSays, View.var, htaken]
      exact (echoes_if _ _ (hvoid _)).append (echoes_if _ _ (htwice _))
  · simp only [if_neg hrefused] at hwithin ⊢
    simp only [Bool.or_eq_true, not_or, Bool.not_eq_true] at hrefused
    have htaken : (v.sight w).isTaken (v.name (.symbol w.arena.size) d.name.name) = false :=
      free_seen hv htagged.table hwithin rfl hrefused.2
    have hentered := enter_seen hv (d := d) (u := { name := d.name.name, ty := (Ty.ofWord? d.type.name).getD .error })
      rfl hwithin
    refine ⟨?_, ?_⟩
    · rw [← hentered, if_neg]
      · rfl
      · rw [Bool.or_eq_true, not_or, Bool.not_eq_true, Bool.not_eq_true]
        exact ⟨hrefused.1, htaken⟩
    · have hsame : (v.sight w).isTaken (unboundVar (v.var (boundVar w d))).name.name = w.isTaken d.name.name :=
        htaken.trans hrefused.2.symm
      rw [formalSays, formalSays, hsame]
      exact (echoes_if _ _ (hvoid _)).append (echoes_if _ _ (htwice _))

/-- Variables are declared again, one after the other. -/
theorem allIn_seen {f : Sight → VarDecl → VarDecl × Sight} {g : Sight → VarDecl → List Diagnostic}
    {ds : List VarDecl}
    (hf : ∀ d ∈ ds, ∀ {w : Sight}, Tagged w → Extends (shape (f w d).2.arena) τ → v.Hushed (g w d) →
      f (v.sight w) (unboundVar (v.var (f w d).1)) = (v.var (f w d).1, v.sight (f w d).2) ∧
        v.Echoes (g w d) (g (v.sight w) (unboundVar (v.var (f w d).1))))
    (htagged : ∀ {w} d, Tagged w → Tagged (f w d).2)
    (hgrows : ∀ (arena : Arena) {w} d, Grows arena w.arena → Grows arena (f w d).2.arena) :
    ∀ {w : Sight}, Tagged w → Extends (shape (allIn f w ds).2.arena) τ → v.Hushed (allSay f g w ds) →
      allIn f (v.sight w) (((allIn f w ds).1.map v.var).map unboundVar) =
        ((allIn f w ds).1.map v.var, v.sight (allIn f w ds).2) ∧
      v.Echoes (allSay f g w ds) (allSay f g (v.sight w) (((allIn f w ds).1.map v.var).map unboundVar)) := by
  induction ds with
  | nil => exact fun _ _ _ => ⟨rfl, rfl⟩
  | cons d ds ih =>
    intro w h hwithin hhushed
    rw [allSay] at hhushed
    have hlater : Grows (f w d).2.arena (allIn f (f w d).2 ds).2.arena :=
      Stable.all (P := fun w' => Grows (f w d).2.arena w'.arena) (hgrows _) ds fun h => h
    obtain ⟨hfirst, hechoes⟩ := hf d (by simp) h (shape_earlier hwithin hlater) hhushed.left
    obtain ⟨hrest, hechoes'⟩ := ih (fun e he => hf e (by simp [he])) (htagged d h) hwithin hhushed.right
    simp only [allIn, allSay, List.map_cons, hfirst, hrest]
    exact ⟨trivial, hechoes.append hechoes'⟩

end Variables

section Statements

theorem stable_tagged : Stable Tagged where
  push h := ⟨List.forall_mem_cons.mpr ⟨fun p hp => (by cases hp), h.table⟩, h.fields⟩
  pop h := ⟨fun scope hscope => h.table scope (List.mem_of_mem_tail hscope), h.fields⟩
  var d h := by
    unfold varIn
    split
    · exact h
    · rename_i u hnew
      exact h.enter (newIn_name hnew).1 fun _ he => (by cases he)
  formal d h := by
    unfold formalIn
    split
    · exact h
    · exact h.enter rfl fun _ he => (by cases he)

theorem locals_seen (hv : v.Faithful τ) {ds : List VarDecl} (hraw : ∀ d ∈ ds, RawVar d) (h : Tagged w)
    (hwithin : Extends (shape (allIn varIn w ds).2.arena) τ) (hhushed : v.Hushed (allSay varIn varSays w ds)) :
    allIn varIn (v.sight w) (((allIn varIn w ds).1.map v.var).map unboundVar) =
      ((allIn varIn w ds).1.map v.var, v.sight (allIn varIn w ds).2) ∧
    v.Echoes (allSay varIn varSays w ds)
      (allSay varIn varSays (v.sight w) (((allIn varIn w ds).1.map v.var).map unboundVar)) :=
  allIn_seen (fun d hd _ => varIn_seen hv (hraw d hd)) stable_tagged.var (fun arena => (stable_grows arena).var) h
    hwithin hhushed

theorem sight_push (w : Sight) : v.sight w.push = (v.sight w).push := rfl

theorem sight_pop (w : Sight) : v.sight w.pop = (v.sight w).pop := by
  simp only [View.sight, Sight.pop, table_pop]

mutual

/-- A statement is visited again. -/
theorem stmtIn_seen (hv : v.Faithful τ) : (st : Stmt) → RawStmt lit st → ∀ {w : Sight}, Tagged w →
    Extends (shape (stmtAfter w st).arena) τ → v.Hushed (stmtSays w st) →
    stmtIn (v.sight w) (unboundStmt (v.stmt (stmtIn w st))) = v.stmt (stmtIn w st) ∧
      stmtAfter (v.sight w) (unboundStmt (v.stmt (stmtIn w st))) = v.sight (stmtAfter w st) ∧
      v.Echoes (stmtSays w st) (stmtSays (v.sight w) (unboundStmt (v.stmt (stmtIn w st))))
  | .assign span e, _, w, h, hwithin, hhushed | .increment span e, _, w, h, hwithin, hhushed
  | .decrement span e, _, w, h, hwithin, hhushed | .read span e, _, w, h, hwithin, hhushed
  | .call span e, _, w, h, hwithin, hhushed | .write span e, _, w, h, hwithin, hhushed
  | .ret span (some e), _, w, h, hwithin, hhushed => by
    obtain ⟨he, hechoes⟩ := resolved_seen hv h hwithin e hhushed
    simp only [stmtIn, View.stmt, unboundStmt, he]
    exact ⟨trivial, rfl, hechoes⟩
  | .ret span none, _, w, h, _, _ => ⟨rfl, rfl, rfl⟩
  | .misfit .., hraw, _, _, _, _ => hraw.elim
  | .ifThen span cond body, hraw, w, h, hwithin, hhushed | .loop span cond body, hraw, w, h, hwithin, hhushed => by
    rw [stmtSays] at hhushed
    have hbefore := shape_earlier hwithin ((stable_grows w.arena).block body fun h => h)
    obtain ⟨hcond, hechoes⟩ := resolved_seen hv h hbefore cond hhushed.left
    obtain ⟨hbody, hafter, hechoes'⟩ := blockIn_seen hv body hraw.2 h hwithin hhushed.right
    simp only [stmtIn, View.stmt, unboundStmt, stmtAfter, stmtSays, hcond, hbody, hafter]
    exact ⟨trivial, trivial, hechoes.append hechoes'⟩
  | .ifElse span cond body other, hraw, w, h, hwithin, hhushed => by
    rw [stmtSays] at hhushed
    have hmiddle := shape_earlier hwithin ((stable_grows (blockAfter w body).arena).block other fun h => h)
    have hbefore := shape_earlier hmiddle ((stable_grows w.arena).block body fun h => h)
    obtain ⟨hcond, hechoes⟩ := resolved_seen hv h hbefore cond hhushed.left
    obtain ⟨hbody, hafter, hechoes'⟩ := blockIn_seen hv body hraw.2.1 h hmiddle hhushed.right.left
    obtain ⟨hother, hafter', hechoes''⟩ := blockIn_seen hv other hraw.2.2 (stable_tagged.block body h) hwithin
      hhushed.right.right
    simp only [stmtIn, View.stmt, unboundStmt, stmtAfter, stmtSays, hcond, hbody, hafter, hother, hafter']
    exact ⟨trivial, trivial, hechoes.append (hechoes'.append hechoes'')⟩

theorem stmtsIn_seen (hv : v.Faithful τ) : (ss : List Stmt) → RawStmts lit ss → ∀ {w : Sight}, Tagged w →
    Extends (shape (stmtsAfter w ss).arena) τ → v.Hushed (stmtsSay w ss) →
    stmtsIn (v.sight w) (unboundStmts (v.stmts (stmtsIn w ss))) = v.stmts (stmtsIn w ss) ∧
      stmtsAfter (v.sight w) (unboundStmts (v.stmts (stmtsIn w ss))) = v.sight (stmtsAfter w ss) ∧
      v.Echoes (stmtsSay w ss) (stmtsSay (v.sight w) (unboundStmts (v.stmts (stmtsIn w ss))))
  | [], _, w, h, _, _ => ⟨rfl, rfl, rfl⟩
  | st :: ss, hraw, w, h, hwithin, hhushed => by
    rw [stmtsSay] at hhushed
    have hmiddle := shape_earlier hwithin ((stable_grows (stmtAfter w st).arena).stmts ss fun h => h)
    obtain ⟨hst, hafter, hechoes⟩ := stmtIn_seen hv st hraw.1 h hmiddle hhushed.left
    obtain ⟨hss, hafter', hechoes'⟩ := stmtsIn_seen hv ss hraw.2 (stable_tagged.stmt st h) hwithin hhushed.right
    simp only [stmtsIn, View.stmts, unboundStmts, stmtsAfter, stmtsSay, hst, hafter, hss, hafter']
    exact ⟨trivial, trivial, hechoes.append hechoes'⟩

theorem blockIn_seen (hv : v.Faithful τ) : (b : Block) → RawBlock lit b → ∀ {w : Sight}, Tagged w →
    Extends (shape (blockAfter w b).arena) τ → v.Hushed (blockSays w b) →
    blockIn (v.sight w) (unboundBlock (v.block (blockIn w b))) = v.block (blockIn w b) ∧
      blockAfter (v.sight w) (unboundBlock (v.block (blockIn w b))) = v.sight (blockAfter w b) ∧
      v.Echoes (blockSays w b) (blockSays (v.sight w) (unboundBlock (v.block (blockIn w b))))
  | .mk span decls body, hraw, w, h, hwithin, hhushed => by
    rw [blockSays] at hhushed
    have hopened := stable_tagged.push h
    have hmiddle := shape_earlier hwithin ((stable_grows (allIn varIn w.push decls).2.arena).stmts body fun h => h)
    obtain ⟨hdecls, hechoes⟩ := locals_seen hv hraw.1 hopened hmiddle hhushed.left
    obtain ⟨hbody, hafter, hechoes'⟩ := stmtsIn_seen hv body hraw.2 (Stable.all stable_tagged.var decls hopened)
      hwithin hhushed.right
    rw [sight_push] at hdecls hechoes
    simp only [blockIn, View.block, unboundBlock, blockAfter, blockSays, hdecls, hbody, hafter, sight_pop]
    exact ⟨trivial, trivial, hechoes.append hechoes'⟩

end

end Statements

section Programs

theorem labelled_empty (arena : Arena) : Labelled arena {} := by
  intro scope hscope
  obtain rfl : scope = [] := by simpa using hscope
  exact fun p hp => (by cases hp)

/-- The fields of a struct are labelled with their names. -/
theorem fieldsIn_tagged (ds : List VarDecl) : ∀ {w : Sight} {table : SymbolTable} (offset : Int), Tagged w →
    Labelled w.arena table → Labelled (fieldsIn w table offset ds).2.arena (fieldsIn w table offset ds).1.2.1 ∧
      Tagged (fieldsIn w table offset ds).2 := by
  induction ds with
  | nil => exact fun _ htagged hlabels => ⟨hlabels, htagged⟩
  | cons d ds ih =>
    intro w table offset htagged hlabels
    cases hnew : newIn w d (table.findInner? d.name.name).isSome with
    | none =>
      rw [(fields_refused offset ds hnew).1]
      exact ih offset htagged hlabels
    | some u =>
      rw [(fields_accepted offset ds hnew).1]
      have hget : (fieldAfter w u offset).arena.get? w.arena.size = some (.var { u with offset }) := by
        simp [fieldAfter, get?_push]
      exact ih _ (htagged.push fun _ h => (by cases h)) ((hlabels.grows grows_push).insert hget (newIn_name hnew).1)

/-- The fields of a struct are visited again. -/
theorem fieldsIn_seen (hv : v.Faithful τ) {ds : List VarDecl} (hraw : ∀ d ∈ ds, RawVar d) :
    ∀ {w : Sight} {table : SymbolTable} (offset : Int), Tagged w → Labelled w.arena table →
    Extends (shape (fieldsIn w table offset ds).2.arena) τ → v.Hushed (fieldsSay w table offset ds) →
    fieldsIn (v.sight w) (v.table table) offset (((fieldsIn w table offset ds).1.1.map v.var).map unboundVar) =
      (((fieldsIn w table offset ds).1.1.map v.var, v.table (fieldsIn w table offset ds).1.2.1,
        (fieldsIn w table offset ds).1.2.2), v.sight (fieldsIn w table offset ds).2) ∧
    v.Echoes (fieldsSay w table offset ds)
      (fieldsSay (v.sight w) (v.table table) offset (((fieldsIn w table offset ds).1.1.map v.var).map unboundVar)) := by
  induction ds with
  | nil => exact fun _ _ _ _ _ => ⟨rfl, rfl⟩
  | cons d ds ih =>
    intro w table offset htagged hlabels hwithin hhushed
    have hd := hraw d (by simp)
    have ih := @ih fun e he => hraw e (by simp [he])
    have hbefore := shape_earlier hwithin (fieldsIn_grows (d :: ds) w table offset)
    have htwice := fun b => v.finding_name (.naming <| .fieldDeclaredTwice ·) b d.name.name
    cases hnew : newIn w d (table.findInner? d.name.name).isSome with
    | none =>
      obtain ⟨hfields, hsaid⟩ := fields_refused offset ds hnew
      rw [hfields] at hwithin ⊢
      rw [hsaid] at hhushed ⊢
      have hplain : v.Plain := hhushed.left.resolve_right (newSays_not_quiet hd hnew)
      have htaken : ((v.table table).findInner? (v.var d).name.name).isSome =
          (table.findInner? d.name.name).isSome := by
        rw [View.var, View.ident, hplain, table_plain hplain]
      obtain ⟨hnew', hechoes⟩ := newIn_seen hv htagged hbefore hhushed.left (x := v.ident d.name) _ rfl
        (htwice d.name.binding)
      rw [hnew, Option.map_none, ← htaken] at hnew'
      obtain ⟨hrest, hechoes'⟩ := ih offset htagged hlabels hwithin hhushed.right
      obtain ⟨hfields', hsaid'⟩ := fields_refused (d := v.var d) offset
        (((fieldsIn w table offset ds).1.1.map v.var).map unboundVar) hnew'
      rw [List.map_cons, List.map_cons, unboundVar_seen hd.name, hfields', hsaid', hrest, htaken]
      exact ⟨rfl, hechoes.append hechoes'⟩
    | some u =>
      obtain ⟨hfields, hsaid⟩ := fields_accepted offset ds hnew
      rw [hfields] at hwithin ⊢
      rw [hsaid] at hhushed ⊢
      have hname := (newIn_name hnew).1
      have hfree := free_of_newIn hnew
      have hafter := shape_earlier hwithin (fieldsIn_grows ds _ _ _)
      have hget : (fieldAfter w u offset).arena.get? w.arena.size = some (.var { u with offset }) := by
        simp [fieldAfter, get?_push]
      have hfree' := free_seen hv hlabels hafter hname hfree
      have hsilent : v.Hushed (newSays w d (table.findInner? d.name.name).isSome (.fieldDeclaredTwice d.name.name)) :=
        .inr (by rw [newSays_of_newIn hnew]; exact fun d hd => (by cases hd))
      have hnew' : newIn (v.sight w) (unboundVar (v.var (boundVar w d)))
          ((v.table table).findInner? (v.name (.symbol w.arena.size) d.name.name)).isSome =
          some { u with name := v.name (.symbol w.arena.size) d.name.name } := by
        have hseen := (newIn_seen hv htagged hbefore hsilent (x := unboundIdent (v.ident (boundVar w d).name))
          (.symbol w.arena.size) rfl (htwice (.symbol w.arena.size))).1
        rwa [hnew, Option.map_some, hfree, ← hfree'] at hseen
      obtain ⟨hrest, hechoes⟩ := ih (w := fieldAfter w u offset) _ (htagged.push fun _ h => (by cases h))
        ((hlabels.grows grows_push).insert hget hname) hwithin hhushed
      obtain ⟨hfields', hsaid'⟩ := fields_accepted (d := unboundVar (v.var (boundVar w d))) offset
        (((fieldsIn (fieldAfter w u offset) (table.insert d.name.name w.arena.size) (offset + u.size) ds).1.1.map
          v.var).map unboundVar) hnew'
      have hsight : fieldAfter (v.sight w) { u with name := v.name (.symbol w.arena.size) d.name.name } offset =
          v.sight (fieldAfter w u offset) := by
        rw [fieldAfter, View.sight, View.sight, fieldAfter, v.push_arena, symbol_var hv (shape_of_get hafter hget),
          hname]
      have hinsert : (v.table table).insert (unboundVar (v.var (boundVar w d))).name.name (v.sight w).arena.size =
          v.table (table.insert d.name.name w.arena.size) := by
        rw [table_insert, View.sight, v.size_arena]
        rfl
      have hbound : boundVar (v.sight w) (unboundVar (v.var (boundVar w d))) = v.var (boundVar w d) := by
        simp only [boundVar, unboundVar, unboundIdent, View.var, View.ident, View.sight, v.size_arena]
      rw [hsight, hinsert] at hfields' hsaid'
      rw [List.map_cons, List.map_cons, hfields', hsaid', hbound]
      exact ⟨congrArg (fun r => ((v.var (boundVar w d) :: r.1.1, r.1.2), r.2)) hrest, hechoes⟩

/-- The name of a struct or a function is kept, and is free again if it was free. -/
theorem kept_seen (hv : v.Faithful τ) (htagged : Tagged w) (symbol : Symbol) {n : String} (hname : symbol.name = n)
    (hkind : ∀ u, symbol ≠ .var u) (hwithin : w.isTaken n = false → Extends (shape (w.enter n symbol).arena) τ)
    (hhushed : v.Plain ∨ w.isTaken n = false) : (v.sight w).isTaken n = w.isTaken n ∧
      (w.isTaken n = false → v.sight (w.enter n symbol) = (v.sight w).enter n (v.symbol w.arena.size symbol)) := by
  have hkept : w.isTaken n = false → v.name (.symbol w.arena.size) n = n := by
    intro hfree
    have hget := shape_of_get (hwithin hfree) (i := w.arena.size) (t := symbol) (by simp [Sight.enter, get?_push])
    have hunplaced : ∀ u, unplaced symbol = .var u → u.isGlobal = true := by
      cases symbol with
      | var u => exact absurd rfl (hkind u)
      | _ => exact fun u hu => (by cases hu)
    have := hv.kept hget hunplaced
    rwa [name_unplaced, hname] at this
  refine ⟨?_, fun hfree => by rw [sight_enter, hkept hfree]⟩
  rcases hhushed with hplain | hfree
  · rw [Sight.isTaken, View.sight, table_plain hplain, Sight.isTaken]
  · have hfree' := free_seen hv htagged.table (hwithin hfree) hname hfree
    rw [hkept hfree] at hfree'
    rw [hfree]
    exact hfree'

theorem hushed_taken {n : String} {b : Bool} {span : Option Span}
    (h : v.Hushed (if b then [objection (.declaredTwice n) span] else [])) : v.Plain ∨ b = false :=
  h.imp_right fun hquiet => Bool.not_eq_true _ ▸ quiet_if.mp hquiet

/-- A struct is declared again. -/
theorem structDeclIn_seen (hv : v.Faithful τ) {d : StructDecl} (hname : RawIdent d.name)
    (hraw : ∀ f ∈ d.fields, RawVar f) (htagged : Tagged w) (hwithin : Extends (shape (structDeclIn w d).2.arena) τ)
    (hhushed : v.Hushed (structSays w d)) :
    declIn (v.sight w) (unboundDecl (v.decl (.struct (structDeclIn w d).1))) =
      (v.decl (.struct (structDeclIn w d).1), v.sight (structDeclIn w d).2) ∧
    v.Echoes (structSays w d) (declSays (v.sight w) (unboundDecl (v.decl (.struct (structDeclIn w d).1)))) := by
  rw [structSays] at hhushed
  have hinside := fieldsIn_tagged d.fields 0 htagged (labelled_empty w.arena)
  have hsame : (fieldsIn w {} 0 d.fields).2.isTaken d.name.name = w.isTaken d.name.name := by
    rw [Sight.isTaken, fieldsIn_table, Sight.isTaken]
  have hsame' : (v.sight (fieldsIn w {} 0 d.fields).2).isTaken d.name.name = (v.sight w).isTaken d.name.name := by
    rw [Sight.isTaken, View.sight, fieldsIn_table]
    rfl
  have hbefore : Extends (shape (fieldsIn w {} 0 d.fields).2.arena) τ := by
    refine shape_earlier hwithin ?_
    unfold structDeclIn
    split
    · exact fun h => h
    · exact grows_push
  obtain ⟨htaken, henter⟩ := kept_seen (n := d.name.name) hv hinside.2 (.struct
      ⟨d.name.name, (fieldsIn w {} 0 d.fields).1.2.1.freeze, (fieldsIn w {} 0 d.fields).1.2.2⟩) rfl
    (fun u hu => by cases hu) (fun hfree => by simpa [structDeclIn, hsame ▸ hfree] using hwithin)
    (hsame ▸ hushed_taken hhushed.left)
  rw [hsame', hsame] at htaken
  rw [hsame] at henter
  obtain ⟨hfields, hechoes⟩ := fieldsIn_seen hv hraw 0 htagged (labelled_empty w.arena) hbefore hhushed.right
  cases hfree : w.isTaken d.name.name with
  | true =>
    rw [hfree] at htaken
    simp only [structDeclIn, structSays, hfree, if_true, View.decl, unboundDecl, declIn, declSays, unboundIdent,
      unspannedIdent, htaken]
    rw [show fieldsIn (v.sight w) {} 0 _ = _ from hfields, hname.binding]
    exact ⟨rfl, (echoes_objection _ _ rfl).append hechoes⟩
  | false =>
    rw [hfree] at htaken
    simp only [structDeclIn, structSays, hfree, View.decl, unboundDecl, declIn, declSays, unboundIdent,
      unspannedIdent, htaken, henter hfree, Bool.false_eq_true, if_false]
    rw [show fieldsIn (v.sight w) {} 0 _ = _ from hfields]
    simp only [View.sight, v.size_arena]
    exact ⟨rfl, hechoes⟩

theorem paramTys_seen (w : Sight) (d : FnDecl) :
    (((fnFormals w d).1.map v.var).map unboundVar).map paramTy = d.formals.map paramTy := by
  have hunbound := congrArg (List.map paramTy)
    (Lexical.unbound_allIn Lexical.unbound_formalIn d.formals (fnNamed w d).push)
  rw [List.map_map, List.map_map] at hunbound ⊢
  exact hunbound

theorem fnName_seen {d : FnDecl} (hraw : RawIdent d.name) :
    unboundIdent (unspannedIdent (fnName w d)) = unspannedIdent d.name := by
  unfold fnName
  split <;> simp only [unboundIdent, unspannedIdent, hraw.binding]

/-- A function is named again. -/
theorem fnNamed_seen (hv : v.Faithful τ) {d d' : FnDecl} (htagged : Tagged w)
    (hwithin : Extends (shape (fnNamed w d).arena) τ) (hhushed : v.Plain ∨ w.isTaken d.name.name = false)
    (hname : d'.name = unspannedIdent d.name) (hsame : functionOf d' = functionOf d) :
    (v.sight w).isTaken d'.name.name = w.isTaken d.name.name ∧ fnNamed (v.sight w) d' = v.sight (fnNamed w d) ∧
      fnName (v.sight w) d' = unspannedIdent (fnName w d) := by
  obtain ⟨htaken, henter⟩ := kept_seen (n := d.name.name) hv htagged (.func (functionOf d)) rfl
    (fun u hu => by cases hu) (fun hfree => by simpa [fnNamed, hfree] using hwithin) hhushed
  have htaken : (v.sight w).isTaken (unspannedIdent d.name).name = w.isTaken d.name.name := htaken
  simp only [fnNamed, fnName, hname, hsame, htaken]
  cases hfree : w.isTaken d.name.name with
  | true => exact ⟨trivial, rfl, rfl⟩
  | false =>
    have hsize : (v.sight w).arena.size = w.arena.size := v.size_arena w.arena
    simp only [Bool.false_eq_true, if_false, henter hfree, hsize]
    exact ⟨trivial, rfl, rfl⟩

/-- A function is declared again. -/
theorem fnIn_seen (hv : v.Faithful τ) {d : FnDecl} (hraw : RawDecl lit (.fn d)) (htagged : Tagged w)
    (hwithin : Extends (shape (fnIn w d).2.arena) τ) (hhushed : v.Hushed (fnSays w d)) :
    declIn (v.sight w) (unboundDecl (v.decl (.fn (fnIn w d).1))) =
      (v.decl (.fn (fnIn w d).1), v.sight (fnIn w d).2) ∧
    v.Echoes (fnSays w d) (declSays (v.sight w) (unboundDecl (v.decl (.fn (fnIn w d).1)))) := by
  obtain ⟨hname, -, hformals, hbody⟩ := hraw
  obtain ⟨hdecls, hstmts⟩ : (∀ f ∈ d.body.decls, RawVar f) ∧ RawStmts lit d.body.stmts := by
    cases hbody' : d.body
    rwa [hbody', RawBlock] at hbody
  rw [fnSays] at hhushed
  let d' : FnDecl := ⟨none, unspannedType d.result, unboundIdent (unspannedIdent (fnName w d)),
    ((fnFormals w d).1.map v.var).map unboundVar, unboundBlock (v.block (fnIn w d).1.body)⟩
  have hgrows (w' : Sight) := stable_grows w'.arena
  have hlocals : Extends (shape (fnLocals w d).2.arena) τ := shape_earlier hwithin ((hgrows _).stmts _ fun h => h)
  have hparams : Extends (shape (fnFormals w d).2.arena) τ :=
    shape_earlier hlocals (Stable.all (P := fun w' => Grows _ w'.arena) (hgrows _).var _ fun h => h)
  have hnamed : Extends (shape (fnNamed w d).push.arena) τ :=
    shape_earlier hparams (Stable.all (P := fun w' => Grows _ w'.arena) (hgrows _).formal _ fun h => h)
  have hsame : functionOf d' = functionOf d := by
    have hparamTys : d'.formals.map paramTy = d.formals.map paramTy := paramTys_seen w d
    have hname : d'.name = unspannedIdent d.name := fnName_seen hname
    rw [functionOf, functionOf, hparamTys, hname]
    rfl
  obtain ⟨htaken, hnamed', hname'⟩ := fnNamed_seen hv htagged hnamed (hushed_taken hhushed.left)
    (fnName_seen hname) hsame
  have hopened : Tagged (fnNamed w d).push := by
    refine stable_tagged.push ?_
    unfold fnNamed
    split
    · exact htagged
    · exact htagged.enter rfl fun _ he => (by cases he)
  have hinside : Tagged (fnFormals w d).2 := Stable.all stable_tagged.formal d.formals hopened
  obtain ⟨hformals', hechoes⟩ := allIn_seen (fun f hf _ => formalIn_seen hv (hformals f hf).name)
    stable_tagged.formal (fun arena => (stable_grows arena).formal) hopened hparams hhushed.right.left
  obtain ⟨hlocals', hechoes'⟩ := locals_seen hv hdecls hinside hlocals hhushed.right.right.left
  obtain ⟨hbody', hafter, hechoes''⟩ := stmtsIn_seen hv _ hstmts (Stable.all stable_tagged.var _ hinside)
    hwithin hhushed.right.right.right
  have hformals' : fnFormals (v.sight w) d' = ((fnFormals w d).1.map v.var, v.sight (fnFormals w d).2) := by
    rw [fnFormals, hnamed', ← sight_push]
    exact hformals'
  have hlocals' : fnLocals (v.sight w) d' = ((fnLocals w d).1.map v.var, v.sight (fnLocals w d).2) := by
    rw [fnLocals, hformals']
    exact hlocals'
  have hin : fnIn (v.sight w) d' = (⟨none, unspannedType d.result, unspannedIdent (fnName w d),
      (fnFormals w d).1.map v.var, v.block (fnIn w d).1.body⟩, v.sight (fnIn w d).2) := by
    have hbody' : stmtsIn (v.sight (fnLocals w d).2) d'.body.stmts = _ := hbody'
    have hafter : stmtsAfter (v.sight (fnLocals w d).2) d'.body.stmts = _ := hafter
    rw [fnIn, hname', hformals', hlocals', hbody', hafter, ← sight_pop]
    rfl
  refine ⟨congrArg (fun r => (Decl.fn r.1, r.2)) hin, ?_⟩
  show v.Echoes _ (fnSays (v.sight w) d')
  rw [fnSays, fnSays, htaken, hnamed', hformals', hlocals', ← sight_push]
  refine View.Echoes.append ?_ (hechoes.append (hechoes'.append hechoes''))
  have hword : d'.name.name = d.name.name := congrArg Function.name hsame
  rw [hword]
  exact echoes_if _ _ rfl

/-- What a declaration of a program leaves in sight is labelled. -/
theorem declIn_tagged (htagged : Tagged w) (d : Decl) : Tagged (declIn w d).2 := by
  cases d with
  | var d => exact stable_tagged.var d htagged
  | struct d =>
    obtain ⟨hlabels, hinside⟩ := fieldsIn_tagged d.fields 0 htagged (labelled_empty w.arena)
    unfold declIn structDeclIn
    dsimp only
    split
    · exact hinside
    · refine hinside.enter rfl fun e he => ?_
      rw [← Symbol.struct.inj he]
      exact hlabels
  | fn d =>
    refine stable_tagged.fn d ?_
    unfold fnNamed
    split
    · exact htagged
    · exact htagged.enter rfl fun _ he => (by cases he)
  | misfit => exact htagged

/-- A global variable keeps its name. -/
theorem global_kept (hv : v.Faithful τ) {d : VarDecl} (hraw : RawIdent d.name) (htop : w.table.depth = 1)
    (hwithin : Extends (shape (varIn w d).2.arena) τ) : v.var (varIn w d).1 = unspannedVar (varIn w d).1 := by
  unfold varIn at hwithin ⊢
  cases hnew : newIn w d (w.isTaken d.name.name) with
  | none => simp only [View.var, View.ident, hraw.binding, hv.unvisited, unspannedVar, unspannedIdent]
  | some u =>
    simp only [hnew] at hwithin
    have hget := shape_of_get hwithin (i := w.arena.size) (t := .var { u with isGlobal := w.table.depth == 1 })
      (by simp [Sight.enter, get?_push])
    have hkept := hv.kept hget fun x hx => by rw [← Symbol.var.inj hx]; simp [htop]
    rw [name_unplaced, Symbol.name, (newIn_name hnew).1] at hkept
    simp only [boundVar, View.var, View.ident, hkept, unspannedVar, unspannedIdent]

/-- A declaration of a program is visited again. -/
theorem declIn_seen (hv : v.Faithful τ) {d : Decl} (hraw : RawDecl lit d) (htagged : Tagged w)
    (htop : w.table.depth = 1) (hwithin : Extends (shape (declIn w d).2.arena) τ) (hhushed : v.Hushed (declSays w d)) :
    declIn (v.sight w) (unboundDecl (v.decl (declIn w d).1)) = (v.decl (declIn w d).1, v.sight (declIn w d).2) ∧
      v.Echoes (declSays w d) (declSays (v.sight w) (unboundDecl (v.decl (declIn w d).1))) := by
  cases d with
  | var d =>
    obtain ⟨hvar, hechoes⟩ := varIn_seen hv hraw htagged hwithin hhushed
    have hkept := global_kept hv hraw.name htop hwithin
    simp only [declIn, declSays, View.decl, unboundDecl, ← hkept, hvar]
    exact ⟨trivial, hechoes⟩
  | struct d => exact structDeclIn_seen hv hraw.1 hraw.2.2 htagged hwithin hhushed
  | fn d => exact fnIn_seen hv hraw htagged hwithin hhushed
  | misfit => exact hraw.elim

/-- The declarations of a program are visited again. -/
theorem declsIn_seen (hv : v.Faithful τ) {ds : List Decl} (hraw : ∀ d ∈ ds, RawDecl lit d) :
    ∀ {w : Sight}, Tagged w → w.table.depth = 1 → Extends (shape (declsIn w ds).2.arena) τ → v.Hushed (declsSay w ds) →
    declsIn (v.sight w) (((declsIn w ds).1.map v.decl).map unboundDecl) =
      ((declsIn w ds).1.map v.decl, v.sight (declsIn w ds).2) ∧
    v.Echoes (declsSay w ds) (declsSay (v.sight w) (((declsIn w ds).1.map v.decl).map unboundDecl)) := by
  induction ds with
  | nil => exact fun _ _ _ _ => ⟨rfl, rfl⟩
  | cons d ds ih =>
    intro w htagged htop hwithin hhushed
    rw [declsSay] at hhushed
    obtain ⟨hd, hechoes⟩ := declIn_seen hv (hraw d (by simp)) htagged htop
      (shape_earlier hwithin (declsIn_grows ds (declIn w d).2)) hhushed.left
    obtain ⟨hds, hechoes'⟩ := ih (fun e he => hraw e (by simp [he])) (declIn_tagged htagged d)
      ((declIn_depth w d).trans htop) hwithin hhushed.right
    simp only [declsIn, declsSay, List.map_cons, hd, hds]
    exact ⟨trivial, hechoes.append hechoes'⟩

end Programs

end CMinusMinus.Proofs.Views
