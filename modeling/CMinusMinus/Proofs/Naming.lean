import CMinusMinus.Analysis.Names
import CMinusMinus.Proofs.Grammar
import CMinusMinus.Proofs.Passes

/-!
Name analysis. The walk through a raw program is never stopped: every index that it meets is that of
a symbol, and structs have the fields that their tables say. If it takes down no error, every name
is bound to the innermost declaration in sight.
-/
namespace CMinusMinus.Proofs.Naming

open Names WellFormed Grammar

/-- The fields of a struct lie one after the other, from an offset on. -/
def Packed (arena : Arena) : Scope → Int → Int → Prop
  | [], low, high => low = high
  | (_, j) :: rest, low, high => ∃ u, arena.get? j = some (.var u) ∧ u.offset = low ∧
      u.isGlobal = false ∧ Packed arena rest (low + u.size) high

def VarSane (arena : Arena) (v : Variable) : Prop :=
  IsWord v.name ∧ 0 ≤ v.size ∧ 4 ∣ v.size ∧ (IsScalar v.ty ∧ v.structDef = none ∧ v.size = 4 ∨
    ∃ name k d, v.ty = .struct name ∧ v.structDef = some k ∧ arena.get? k = some (.struct d) ∧
      v.size = d.size)

/-- A symbol is in order, even if the program is not: the parameters of a function may be in error,
and a struct may have lost fields. -/
def Sane (arena : Arena) : Symbol → Prop
  | .var v => VarSane arena v
  | .func f => IsWord f.name ∧ (IsScalar f.result ∨ f.result = .void)
  | .struct d => IsWord d.name ∧ 0 ≤ d.size ∧ 4 ∣ d.size ∧
      ∃ scope, d.fields.scopes = [scope] ∧ (scope.map Prod.fst).Nodup ∧ Packed arena scope 0 d.size

def ArenaSane (arena : Arena) : Prop := ∀ {i t}, arena.get? i = some t → Sane arena t

/-- The symbols that a symbol refers to: the struct of a variable, the fields of a struct. -/
def Refers : Symbol → Int → Prop
  | .var v, j => v.structDef = some j
  | .func _, _ => False
  | .struct d, j => ∃ scope ∈ d.fields.scopes, ∃ p ∈ scope, p.2 = j

/-- Symbols refer to earlier ones, and structs take no more fields. -/
def Founded (arena : Arena) : Prop := ∀ {i t}, arena.get? i = some t →
  (∀ j, Refers t j → j < i) ∧ ∀ d, t = .struct d → d.fields.frozen

def Grows (arena arena' : Arena) : Prop := ∀ {i s}, arena.get? i = some s → arena'.get? i = some s

def TableSane (arena : Arena) (scopes : List Scope) : Prop :=
  ∀ scope ∈ scopes, ∀ p ∈ scope, ∃ s, arena.get? p.2 = some s

/-- What holds all along the walk. -/
structure Good (s : State) : Prop where
  fault : s.fault = none
  arena : ArenaSane s.arena
  founded : Founded s.arena
  table : TableSane s.arena s.table.scopes
  nonempty : s.table.scopes ≠ []
  positive : Quiet s.diagnostics → ∀ {i d}, s.arena.get? i = some (.struct d) → 0 < d.size

/-- What every piece of the walk does to the state, if it declares no functions and structs. -/
structure Advances (s s' : State) : Prop where
  good : Good s'
  diagnostics : s.diagnostics <+: s'.diagnostics
  grows : Grows s.arena s'.arena
  vars : ∀ {i t}, s'.arena.get? i = some t → s.arena.get? i = some t ∨
    s.arena.size ≤ i ∧ ∃ v, t = .var v

section Arenas

variable {arena arena' : Arena} {i : Int} {symbol symbol' : Symbol}

theorem get?_lt (h : arena.get? i = some symbol) : 0 ≤ i ∧ i < arena.size := by
  cases i with
  | ofNat n =>
    have h : arena.symbols[n]? = some symbol := h
    obtain ⟨hn, -⟩ := Array.getElem?_eq_some_iff.mp h
    simp only [Arena.size, Int.ofNat_eq_natCast]
    omega
  | negSucc n => cases h

theorem get?_push : (arena.push symbol).get? i =
    if i = arena.size then some symbol else arena.get? i := by
  cases i with
  | ofNat n =>
    simp only [Arena.get?, Arena.push, Arena.size, Array.getElem?_push, Int.ofNat_eq_natCast,
      Int.natCast_inj]
  | negSucc n =>
    have hne : ¬ Int.negSucc n = (arena.size : Int) := by omega
    rw [if_neg hne]
    rfl

theorem grows_push : Grows arena (arena.push symbol) := by
  intro i s h
  have := get?_lt h
  rw [get?_push, if_neg (by omega), h]

theorem Grows.trans {arena'' : Arena} (h : Grows arena arena') (h' : Grows arena' arena'') :
    Grows arena arena'' := fun hi => h' (h hi)

theorem Packed.grows {scope : Scope} (h : Grows arena arena') : ∀ {low high : Int},
    Packed arena scope low high → Packed arena' scope low high := by
  induction scope with
  | nil => exact fun hp => hp
  | cons p rest ih =>
    rintro low high ⟨u, hu, hoffset, hlocal, hrest⟩
    exact ⟨u, h hu, hoffset, hlocal, ih hrest⟩

theorem TableSane.grows {scopes : List Scope} (h : Grows arena arena') (htable : TableSane arena scopes) :
    TableSane arena' scopes := by
  intro scope hscope p hp
  obtain ⟨s, hs⟩ := htable scope hscope p hp
  exact ⟨s, h hs⟩

theorem VarSane.grows {v : Variable} (h : Grows arena arena') (hv : VarSane arena v) :
    VarSane arena' v := by
  refine ⟨hv.1, hv.2.1, hv.2.2.1, hv.2.2.2.imp_right ?_⟩
  rintro ⟨name, k, d, hty, hk, hd, hsize⟩
  exact ⟨name, k, d, hty, hk, h hd, hsize⟩

theorem Sane.grows (h : Grows arena arena') (hsane : Sane arena symbol) : Sane arena' symbol := by
  cases symbol with
  | var v => exact VarSane.grows h hsane
  | func f => exact hsane
  | struct d =>
    obtain ⟨hname, hsize, hdvd, scope, hscope, hnodup, hpacked⟩ := hsane
    exact ⟨hname, hsize, hdvd, scope, hscope, hnodup, hpacked.grows h⟩

theorem get?_push_cases {t : Symbol} (h : (arena.push symbol).get? i = some t) :
    arena.get? i = some t ∨ i = arena.size ∧ t = symbol := by
  rw [get?_push] at h
  split at h
  · exact .inr ⟨‹_›, (Option.some.inj h).symm⟩
  · exact .inl h

/-- A symbol that fits what is there can be added. -/
theorem ArenaSane.push (h : ArenaSane arena) (hsymbol : Sane arena symbol) :
    ArenaSane (arena.push symbol) := by
  intro i t ht
  rcases get?_push_cases ht with ht | ⟨-, rfl⟩
  · exact (h ht).grows grows_push
  · exact hsymbol.grows grows_push

/-- The fields of a struct are variables. -/
theorem Packed.mem {scope : Scope} : ∀ {low high : Int}, Packed arena scope low high →
    ∀ p ∈ scope, ∃ u, arena.get? p.2 = some (.var u) := by
  induction scope with
  | nil => simp
  | cons p rest ih =>
    rintro low high ⟨u, hu, -, -, hrest⟩ q hq
    rcases List.mem_cons.mp hq with rfl | hq
    · exact ⟨u, hu⟩
    · exact ih hrest q hq

theorem Sane.refers (h : Sane arena symbol) {j : Int} (hj : Refers symbol j) : ∃ t, arena.get? j = some t := by
  cases symbol with
  | var v =>
    have hj : v.structDef = some j := hj
    rcases h.2.2.2 with ⟨-, hnone, -⟩ | ⟨_, k, d, -, hk, hd, -⟩
    · cases hnone.symm.trans hj
    · cases hk.symm.trans hj
      exact ⟨_, hd⟩
  | func f => exact hj.elim
  | struct d =>
    obtain ⟨-, -, -, scope, hscopes, -, hpacked⟩ := h
    obtain ⟨scope', hscope', p, hp, rfl⟩ := hj
    obtain rfl : scope' = scope := by simpa [hscopes] using hscope'
    obtain ⟨u, hu⟩ := hpacked.mem p hp
    exact ⟨_, hu⟩

theorem Founded.push (h : Founded arena) (hsymbol : Sane arena symbol)
    (hfrozen : ∀ d, symbol = .struct d → d.fields.frozen) : Founded (arena.push symbol) := by
  intro i t ht
  rcases get?_push_cases ht with ht | ⟨rfl, rfl⟩
  · exact h ht
  · refine ⟨fun j hj => ?_, hfrozen⟩
    obtain ⟨t, ht⟩ := hsymbol.refers hj
    exact (get?_lt ht).2

end Arenas

/-- The symbols found so far are among those that the program ends with. -/
def Within (τ : Symbols) (s : State) : Prop := Extends (shape s.arena) τ

/-- The walk has taken down no error so far, and goes on to a program with some symbols. -/
structure Ends (τ : Symbols) (s : State) : Prop where
  quiet : Quiet s.diagnostics
  within : Within τ s

section States

variable {τ : Symbols} {s s' s'' : State}

theorem shape_of_get {arena : Arena} (h : Extends (shape arena) τ) {i : Int} {t : Symbol}
    (ht : arena.get? i = some t) : τ i = some (unplaced t) := h i _ (by simp [shape, ht])

theorem shape_earlier {arena arena' : Arena} (h : Extends (shape arena') τ) (hgrows : Grows arena arena') :
    Extends (shape arena) τ := by
  intro i t ht
  obtain ⟨symbol, hsymbol, rfl⟩ := Option.map_eq_some_iff.mp ht
  exact shape_of_get h (hgrows hsymbol)

theorem Within.earlier (h : Within τ s') (hgrows : Grows s.arena s'.arena) : Within τ s := shape_earlier h hgrows

theorem Within.get (h : Within τ s) {i : Int} {symbol : Symbol} (hi : s.arena.get? i = some symbol) :
    τ i = some (unplaced symbol) := shape_of_get h hi

theorem Advances.size (h : Advances s s') : s.arena.size ≤ s'.arena.size := by
  have hlast : ∀ n : Nat, n < s.arena.size → n < s'.arena.size := by
    intro n hn
    have hn : n < s.arena.symbols.size := hn
    have hget : s.arena.get? n = some s.arena.symbols[n] := Array.getElem?_eq_getElem hn
    have := (get?_lt (h.grows hget)).2
    omega
  rcases Nat.eq_zero_or_pos s.arena.size with hzero | hpos
  · omega
  · have := hlast (s.arena.size - 1) (by omega)
    omega

theorem Advances.trans (h : Advances s s') (h' : Advances s' s'') : Advances s s'' where
  good := h'.good
  diagnostics := h.diagnostics.trans h'.diagnostics
  grows hi := h'.grows (h.grows hi)
  vars hi := by
    rcases h'.vars hi with hi | ⟨hle, v, hv⟩
    · exact h.vars hi
    · have := h.size
      exact .inr ⟨by omega, v, hv⟩

theorem Ends.earlier (h : Ends τ s') (hadvances : Advances s s') : Ends τ s :=
  ⟨h.quiet.earlier hadvances.diagnostics, h.within.earlier hadvances.grows⟩

theorem stopped_eq (h : Good s) : s.stopped = false := by simp [Journal.stopped, h.fault]

end States

section Uses

variable {τ : Symbols} {s : State}

/-- An identifier is bound to a symbol, or to nothing after an error. -/
def Seen (τ : Symbols) (x : Ident) : Prop :=
  x.binding = .unresolved ∨ ∃ i t, x.binding = .symbol i ∧ τ i = some t

def BoundName (τ : Symbols) (Γ : List Scope) (x : Ident) : Prop :=
  ∃ i t, find Γ x.name = some i ∧ x.binding = .symbol i ∧ τ i = some t

/-- What a name stands for is a symbol. -/
theorem Good.find (h : Good s) {name : String} {i : Int} (hfind : s.table.find? name = some i) :
    ∃ t, s.arena.get? i = some t := by
  obtain ⟨scope, hscope, hlookup⟩ := List.exists_of_findSome?_eq_some hfind
  obtain ⟨before, after, hsplit, -⟩ := List.lookup_eq_some_iff.mp hlookup
  exact h.table scope hscope (name, i) (by simp [hsplit])

theorem ofIndex_of_get? {arena : Arena} {i : Int} {t : Symbol} (h : arena.get? i = some t) :
    Binding.ofIndex i = .symbol i := by
  have := get?_lt h
  rw [Binding.ofIndex, if_neg (by omega)]

mutual

/-- An expression whose names have been looked up, with or without success. -/
def Visited (σ : Symbols) : Expr → Prop
  | .int note _ | .string note _ | .bool note _ => note.ty = none
  | .ident x => x.note.ty = none ∧ Seen σ x
  | .dot note obj field reached bad => note.ty = none ∧ Visited σ obj ∧
      (bad = true ∨ ∃ j u, field.binding = .symbol j ∧ σ j = some (.var u) ∧ reached = u.structDef)
  | .assign note target value => note.ty = none ∧ Visited σ target ∧ Visited σ value
  | .call note callee args => note.ty = none ∧ Seen σ callee ∧ VisitedAll σ args
  | .unary note op operand => note.ty = none ∧ (op = .neg ∨ op = .not) ∧ Visited σ operand
  | .binary note op left right =>
    note.ty = none ∧ (∀ sign, op ≠ .other sign) ∧ Visited σ left ∧ Visited σ right
  | .misfit .. => False

def VisitedAll (σ : Symbols) : List Expr → Prop
  | [] => True
  | e :: es => Visited σ e ∧ VisitedAll σ es

end

theorem Seen.mono {σ : Symbols} {x : Ident} (hext : Extends σ τ) (h : Seen σ x) : Seen τ x := by
  rcases h with h | ⟨i, t, hi, ht⟩
  · exact .inl h
  · exact .inr ⟨i, t, hi, hext i t ht⟩

mutual

theorem Visited.mono {σ : Symbols} (hext : Extends σ τ) : {e : Expr} → Visited σ e → Visited τ e
  | .int .., h | .string .., h | .bool .., h => by simpa [Visited] using h
  | .ident x, h => ⟨h.1, h.2.mono hext⟩
  | .dot note obj field reached bad, h => by
    refine ⟨h.1, Visited.mono hext h.2.1, h.2.2.imp_right ?_⟩
    rintro ⟨j, u, hj, hu, hreached⟩
    exact ⟨j, u, hj, hext j _ hu, hreached⟩
  | .assign note target value, h => ⟨h.1, Visited.mono hext h.2.1, Visited.mono hext h.2.2⟩
  | .call note callee args, h => ⟨h.1, h.2.1.mono hext, VisitedAll.mono hext h.2.2⟩
  | .unary note op operand, h => ⟨h.1, h.2.1, Visited.mono hext h.2.2⟩
  | .binary note op left right, h => ⟨h.1, h.2.1, Visited.mono hext h.2.2.1, Visited.mono hext h.2.2.2⟩
  | .misfit .., h => h.elim

theorem VisitedAll.mono {σ : Symbols} (hext : Extends σ τ) : {es : List Expr} →
    VisitedAll σ es → VisitedAll τ es
  | [], _ => by rw [VisitedAll]; trivial
  | e :: es, h => ⟨Visited.mono hext h.1, VisitedAll.mono hext h.2⟩

end

theorem field_of_find {arena : Arena} (harena : ArenaSane arena) {k j : Int} {d : StructDef}
    {name : String} (hd : arena.get? k = some (.struct d)) (hj : d.fields.find? name = some j) :
    ∃ u, arena.get? j = some (.var u) := by
  obtain ⟨-, -, -, scope, hscope, -, hpacked⟩ := harena hd
  have hlookup : scope.lookup name = some j := by
    simpa [SymbolTable.find?, hscope] using hj
  obtain ⟨before, after, hsplit, -⟩ := List.lookup_eq_some_iff.mp hlookup
  exact hpacked.mem (name, j) (by simp [hsplit])

end Uses

end CMinusMinus.Proofs.Naming
