import CMinusMinus.Proofs.Declarations

/-!
Name analysis of statements, functions and structs, and of programs. A block is visited in a scope of
its own, which is gone afterwards; a declaration at the top of the program stays in sight.
-/
namespace CMinusMinus.Proofs.Naming

open Names WellFormed Grammar Resolution

mutual

/-- A statement whose names have been looked up, with or without success. -/
def VisitedStmt (σ : Symbols) : Stmt → Prop
  | .assign _ e | .increment _ e | .decrement _ e | .read _ e | .write _ e | .call _ e => Visited σ e
  | .ifThen _ cond body => Visited σ cond ∧ VisitedBlock σ body
  | .ifElse _ cond body other => Visited σ cond ∧ VisitedBlock σ body ∧ VisitedBlock σ other
  | .loop _ cond body => Visited σ cond ∧ VisitedBlock σ body
  | .ret _ none => True
  | .ret _ (some e) => Visited σ e
  | .misfit .. => False

def VisitedStmts (σ : Symbols) : List Stmt → Prop
  | [] => True
  | s :: ss => VisitedStmt σ s ∧ VisitedStmts σ ss

def VisitedBlock (σ : Symbols) : Block → Prop
  | .mk _ _ stmts => VisitedStmts σ stmts

end

section Bound

variable (lit : String → Prop) (σ : Symbols)

mutual

/-- All identifiers of a statement are bound to what they stand for. -/
def BoundStmt (Γ : List Scope) : Stmt → Prop
  | .assign _ e => (∃ note target value, e = .assign note target value) ∧ Bound lit σ Γ e
  | .increment _ e | .decrement _ e | .read _ e => e.isLocation ∧ Bound lit σ Γ e
  | .write _ e => Bound lit σ Γ e
  | .ifThen _ cond body => Bound lit σ Γ cond ∧ BoundBlock Γ body
  | .ifElse _ cond body other => Bound lit σ Γ cond ∧ BoundBlock Γ body ∧ BoundBlock Γ other
  | .loop _ cond body => Bound lit σ Γ cond ∧ BoundBlock Γ body
  | .call _ e => (∃ note callee args, e = .call note callee args) ∧ Bound lit σ Γ e
  | .ret _ none => True
  | .ret _ (some e) => Bound lit σ Γ e
  | .misfit .. => False

def BoundStmts (Γ : List Scope) : List Stmt → Prop
  | [] => True
  | s :: ss => BoundStmt Γ s ∧ BoundStmts Γ ss

def BoundBlock (Γ : List Scope) : Block → Prop
  | .mk _ decls stmts => ∃ scope, Declares σ decls scope ∧ (scope.map Prod.fst).Nodup ∧
      BoundStmts (scope :: Γ) stmts

end

end Bound

section Statements

variable {lit : String → Prop} {α β : Type} {s : State} {x : NamesM α} {f : α → NamesM β} {a : α} {b : β}
  {w w' : Sight} {said said' : List Diagnostic} {ds es : List VarDecl} {visited bound visited' bound' : Symbols → Prop}

/-- A state with a new innermost scope. -/
theorem Good.push {s : State} (h : Good s) : Good { s with table := s.table.push } where
  fault := h.fault
  arena := h.arena
  founded := h.founded
  table scope hscope p hp := by
    rcases List.mem_cons.mp hscope with rfl | hscope
    · cases hp
    · exact h.table scope hscope p hp
  nonempty := by simp [SymbolTable.push]
  positive := h.positive

/-- A state without its innermost scope, where another is left. -/
theorem Good.pop {s : State} (h : Good s) (hne : s.table.scopes.tail ≠ []) :
    Good { s with table := s.table.pop } where
  fault := h.fault
  arena := h.arena
  founded := h.founded
  table scope hscope := h.table scope (List.mem_of_mem_tail hscope)
  nonempty := hne
  positive := h.positive

theorem depth_push {s : State} (h : Good s) : s.table.push.depth ≠ 1 := by
  have := List.length_pos_iff.mpr h.nonempty
  simp only [SymbolTable.depth, SymbolTable.push, List.length_cons]
  omega

/-- Only the innermost scope differs. -/
theorem Advances.pop {s s' : State} (h : Advances { s with table := s.table.push } s') (hgood : Good s)
    (houter : s'.table.scopes.tail = s.table.scopes) :
    Advances s { s' with table := s'.table.pop } where
  good := h.good.pop (by rw [houter]; exact hgood.nonempty)
  diagnostics := h.diagnostics
  grows := h.grows
  vars := h.vars

/-- A piece of a function is visited: its scopes are gone afterwards, and its names have been looked up, with
success if no error is taken down. -/
structure Goes (s : State) (x : NamesM α) (a : α) (w : Sight) (said : List Diagnostic) (decls : List VarDecl)
    (visited bound : Symbols → Prop) : Prop where
  gives : Gives s x a w said
  walked : Walked s (moved s w said) decls
  scopes : w.table.scopes = s.table.scopes
  visited : ∀ {τ}, Within τ (moved s w said) → visited τ
  bound : ∀ {τ}, Ends τ (moved s w said) → bound τ

namespace Goes

theorem good (h : Goes s x a w said ds visited bound) : Good (moved s w said) := h.walked.advances.good

theorem seq (h : Goes s x a w said ds visited bound) (h' : Goes (moved s w said) (f a) b w' said' es visited' bound') :
    Goes s (x >>= f) b w' (said ++ said') (ds ++ es) (fun τ => visited τ ∧ visited' τ) fun τ => bound τ ∧ bound' τ := by
  refine ⟨h.gives.seq h'.gives, ?_, h'.scopes.trans h.scopes, fun hwithin => ?_, fun hends => ?_⟩
  · exact moved_moved ▸ h.walked.append h'.walked
  · rw [← moved_moved] at hwithin
    exact ⟨h.visited (hwithin.earlier h'.walked.advances.grows), h'.visited hwithin⟩
  · rw [← moved_moved] at hends
    exact ⟨h.bound (hends.earlier h'.walked.advances), h'.bound hends⟩

theorem last (h : Goes s x a w said ds visited bound) (g : α → β) :
    Goes s (do let a ← x; return g a) (g a) w said ds visited bound := { h with gives := h.gives.last g }

theorem imp (h : Goes s x a w said ds visited bound) (hbound : ∀ {τ}, bound τ → bound' τ) :
    Goes s x a w said ds visited bound' := { h with bound := fun hends => hbound (h.bound hends) }

end Goes

theorem goes_expr (h : Good s) {e : Expr} (hraw : Raw lit e) :
    Goes s (Names.expr e) (resolved (sightOf s) e) (sightOf s) (exprSays (sightOf s) e) []
      (fun τ => Visited τ (resolved (sightOf s) e)) fun τ => Bound lit τ s.table.scopes (resolved (sightOf s) e) where
  gives := gives_expr e hraw h
  walked := (advances_saying h _).walked
  scopes := rfl
  visited hwithin := (visited_resolved h e hraw).mono hwithin
  bound hends := bound_resolved h hends.within e hraw (quiet_moved.mp hends.quiet).2

/-- A scope is left, after declarations in it and what comes after them. -/
theorem Goes.closes {w₁ : Sight} {said₁ : List Diagnostic} {y : NamesM β} (h : Good s)
    (hwalked : Walked { s with table := s.table.push } (moved s w₁ said₁) ds)
    (houter : w₁.table.scopes.tail = s.table.scopes) (hgoes : Goes (moved s w₁ said₁) x a w said es visited bound)
    (hgives : Gives s y b w.pop (said₁ ++ said)) :
    Goes s y b w.pop (said₁ ++ said) (ds ++ es) visited fun τ => Ends τ (moved s w₁ said₁) ∧ bound τ := by
  have hleft : w.pop.table.scopes = s.table.scopes := (congrArg List.tail hgoes.scopes).trans houter
  have hall := hwalked.append hgoes.walked
  rw [moved_moved] at hall
  refine ⟨hgives, ⟨hall.advances.pop h hleft, hall.slots, hall.locals⟩, hleft, hgoes.visited, fun {τ} hends => ?_⟩
  have hends : Ends τ (moved (moved s w₁ said₁) w said) := by
    rw [moved_moved]
    exact ⟨hends.quiet, hends.within⟩
  exact ⟨hends.earlier hgoes.walked.advances, hgoes.bound hends⟩

theorem declared_vars {decls : List VarDecl} (hraw : ∀ d ∈ decls, RawVar d) (h : Good s) (hdepth : s.table.depth ≠ 1) :
    Gives s (decls.mapM Names.varDecl) (allIn varIn (sightOf s) decls).1 (allIn varIn (sightOf s) decls).2
      (allSay varIn varSays (sightOf s) decls) ∧
    DeclaredAll (fun _ _ => True) s
      (moved s (allIn varIn (sightOf s) decls).2 (allSay varIn varSays (sightOf s) decls)) decls
      (allIn varIn (sightOf s) decls).1 :=
  declared_all (fun d hd _ h _ => ⟨gives_varDecl h (hraw d hd), declared_var h (hraw d hd)⟩) h hdepth

mutual

/-- A raw statement is visited. -/
theorem goes_stmt : (st : Stmt) → RawStmt lit st → ∀ {s : State}, Good s →
    Goes s (Names.stmt st) (stmtIn (sightOf s) st) (stmtAfter (sightOf s) st) (stmtSays (sightOf s) st)
      (stmtDecls (stmtIn (sightOf s) st)) (fun τ => VisitedStmt τ (stmtIn (sightOf s) st))
      fun τ => BoundStmt lit τ s.table.scopes (stmtIn (sightOf s) st)
  | .assign _ e, hraw, _, h =>
    ((goes_expr h hraw.2).last _).imp fun hbound => ⟨(sameForm_resolved _ e).assign hraw.1, hbound⟩
  | .increment _ e, hraw, _, h | .decrement _ e, hraw, _, h | .read _ e, hraw, _, h =>
    ((goes_expr h hraw.2).last _).imp fun hbound => ⟨(sameForm_resolved _ e).location hraw.1, hbound⟩
  | .call _ e, hraw, _, h =>
    ((goes_expr h hraw.2).last _).imp fun hbound => ⟨(sameForm_resolved _ e).call hraw.1, hbound⟩
  | .write _ _, hraw, _, h | .ret _ (some _), hraw, _, h => (goes_expr h hraw).last _
  | .ifThen _ _ body, hraw, _, h | .loop _ _ body, hraw, _, h =>
    (goes_expr h hraw.1).seq ((goes_nested body hraw.2 (good_saying h _)).last _)
  | .ifElse _ cond body other, hraw, s, h => by
    have hbody := goes_nested body hraw.2.1 (good_saying h (exprSays (sightOf s) cond))
    have hother := goes_nested other hraw.2.2 hbody.good
    refine ((goes_expr h hraw.1).seq (hbody.seq (hother.last _))).imp ?_
    rintro τ ⟨hcond, hbody', hother'⟩
    rw [moved_table, hbody.scopes] at hother'
    exact ⟨hcond, hbody', hother'⟩
  | .ret _ none, _, _, h =>
    ⟨.pure _, (advances_saying h []).walked, rfl, fun _ => trivial, fun _ => trivial⟩
  | .misfit .., hraw, _, _ => hraw.elim

/-- Raw statements are visited in order. -/
theorem goes_stmts : (ss : List Stmt) → RawStmts lit ss → ∀ {s : State}, Good s →
    Goes s (Names.stmts ss) (stmtsIn (sightOf s) ss) (stmtsAfter (sightOf s) ss) (stmtsSay (sightOf s) ss)
      (stmtsDecls (stmtsIn (sightOf s) ss)) (fun τ => VisitedStmts τ (stmtsIn (sightOf s) ss))
      fun τ => BoundStmts lit τ s.table.scopes (stmtsIn (sightOf s) ss)
  | [], _, _, h => ⟨.pure _, (advances_saying h []).walked, rfl, fun _ => trivial, fun _ => trivial⟩
  | st :: ss, hraw, s, h => by
    have hfirst := goes_stmt st hraw.1 h
    have hrest := goes_stmts ss hraw.2 hfirst.good
    refine (hfirst.seq (hrest.last _)).imp ?_
    rintro τ ⟨hst, hss⟩
    rw [moved_table, hfirst.scopes] at hss
    exact ⟨hst, hss⟩

/-- A raw block is visited. -/
theorem goes_nested : (b : Block) → RawBlock lit b → ∀ {s : State}, Good s →
    Goes s (Names.nested b) (blockIn (sightOf s) b) (blockAfter (sightOf s) b) (blockSays (sightOf s) b)
      (blockDecls (blockIn (sightOf s) b)) (fun τ => VisitedBlock τ (blockIn (sightOf s) b))
      fun τ => BoundBlock lit τ s.table.scopes (blockIn (sightOf s) b)
  | .mk span decls body, hraw, s, h => by
    obtain ⟨hgives, hdecls⟩ := declared_vars hraw.1 h.push (depth_push h)
    have hbody := goes_stmts body hraw.2 hdecls.walked.advances.good
    refine (Goes.closes h hdecls.walked hdecls.outer hbody (.opens (hgives.seq (hbody.gives.closes _)))).imp ?_
    rintro τ ⟨hends, hbound⟩
    obtain ⟨scope, hentered, hdeclares, -, hnodup⟩ := hdecls.entered hends
    rw [hentered] at hbound
    exact ⟨scope, hdeclares, hnodup .nil, hbound⟩

end

end Statements

section Structs

variable {s : State}

theorem Packed.snoc {arena : Arena} {name : String} {j : Int} {u : Variable}
    (hj : arena.get? j = some (.var u)) (hlocal : u.isGlobal = false) {scope : Scope} :
    ∀ {low : Int}, Packed arena scope low u.offset →
      Packed arena (scope ++ [(name, j)]) low (u.offset + u.size) := by
  induction scope with
  | nil =>
    rintro low rfl
    exact ⟨u, hj, rfl, hlocal, rfl⟩
  | cons p rest ih =>
    rintro low ⟨v, hv, hoffset, hv', hrest⟩
    exact ⟨v, hv, hoffset, hv', ih hrest⟩

/-- A variable in order can be added without a name in sight. -/
theorem Good.push_var (h : Good s) {v : Variable} (hsane : VarSane s.arena v) :
    Advances s { s with arena := s.arena.push (.var v) } where
  good := {
    fault := h.fault
    arena := ArenaSane.push h.arena (show Sane s.arena (.var v) from hsane)
    founded := Founded.push h.founded (show Sane s.arena (.var v) from hsane) fun _ h => (by cases h)
    table := h.table.grows grows_push
    nonempty := h.nonempty
    positive := fun hquiet i d hd => by
      rcases get?_push_cases hd with hd | ⟨-, hd⟩
      · exact h.positive hquiet hd
      · cases hd }
  diagnostics := List.prefix_refl _
  grows := grows_push
  vars ht := (get?_push_cases ht).imp_right fun h => ⟨by omega, v, h.2⟩

theorem size_pos (h : Good s) (hquiet : Quiet s.diagnostics) {v : Variable} (hv : VarSane s.arena v) :
    0 < v.size := by
  rcases hv.2.2.2 with ⟨-, -, hsize⟩ | ⟨name, k, d, -, -, hd, hsize⟩
  · omega
  · have := h.positive hquiet hd
    omega

/-- The fields of a struct so far: their names in one scope, side by side from the start. -/
structure Members (arena : Arena) (table : SymbolTable) (scope : Scope) (size : Int) : Prop where
  scopes : table.scopes = [scope]
  nodup : (scope.map Prod.fst).Nodup
  packed : Packed arena scope 0 size
  dvd : 4 ∣ size
  nonneg : 0 ≤ size

/-- One more field of a struct. -/
theorem Members.snoc {arena : Arena} {table : SymbolTable} {scope : Scope} {size : Int} {name : String} {v : Variable}
    (h : Members arena table scope size) (hfree : (table.findInner? name).isSome = false) (hv : VarSane arena v)
    (hlocal : v.isGlobal = false) :
    Members (arena.push (.var { v with offset := size })) (table.insert name arena.size)
      (scope ++ [(name, (arena.size : Int))]) (size + v.size) where
  scopes := by
    rw [insert_scopes (by simp [h.scopes])]
    simp [SymbolTable.inner, h.scopes]
  nodup := by
    rw [List.map_append, List.nodup_append]
    refine ⟨h.nodup, by simp, fun a ha b hb hab => ?_⟩
    obtain rfl : b = name := by simpa using hb
    obtain ⟨p, hp, hpname⟩ := List.mem_map.mp ha
    have hlookup : scope.lookup b = none := by
      simpa [SymbolTable.findInner?, SymbolTable.inner, h.scopes] using hfree
    simpa [hpname, hab] using List.lookup_eq_none_iff.mp hlookup p hp
  packed := Packed.snoc (u := { v with offset := size }) get?_push_self hlocal (h.packed.grows grows_push)
  dvd := Int.dvd_add h.dvd hv.2.2.1
  nonneg := Int.add_nonneg h.nonneg hv.2.1

/-- Fields are visited one after the other. -/
theorem members_fields {ds : List VarDecl} (hraw : ∀ d ∈ ds, RawVar d) : ∀ {s : State} {table : SymbolTable}
    {scope : Scope} {size : Int}, Good s → Members s.arena table scope size →
    Gives s (Names.fields ds table size) (fieldsIn (sightOf s) table size ds).1
      (fieldsIn (sightOf s) table size ds).2 (fieldsSay (sightOf s) table size ds) ∧
    Advances s (moved s (fieldsIn (sightOf s) table size ds).2 (fieldsSay (sightOf s) table size ds)) ∧
    ∃ scope', Members (fieldsIn (sightOf s) table size ds).2.arena (fieldsIn (sightOf s) table size ds).1.2.1 scope'
        (fieldsIn (sightOf s) table size ds).1.2.2 ∧
      (∀ p ∈ scope', p ∈ scope ∨ s.arena.size ≤ p.2) ∧
      (Quiet s.diagnostics → Quiet (fieldsSay (sightOf s) table size ds) →
        size ≤ (fieldsIn (sightOf s) table size ds).1.2.2 ∧
          (ds ≠ [] → size < (fieldsIn (sightOf s) table size ds).1.2.2)) := by
  induction ds with
  | nil =>
    intro s table scope size h hmembers
    refine ⟨.pure _, advances_saying h [], scope, hmembers, fun p hp => .inl hp, fun _ _ => ?_⟩
    exact ⟨Int.le_refl _, fun hne => absurd rfl hne⟩
  | cons d ds ih =>
    intro s table scope size h hmembers
    have hd := hraw d (by simp)
    have hraws : ∀ d ∈ ds, RawVar d := fun e he => hraw e (by simp [he])
    have hnew := gives_newVariable h hd (table.findInner? d.name.name).isSome (.fieldDeclaredTwice d.name.name)
    rw [Names.fields]
    cases hu : newIn (sightOf s) d (table.findInner? d.name.name).isSome with
    | none =>
      rw [hu] at hnew
      obtain ⟨hgives, hadvances, scope', hmembers', hfresh, -⟩ := ih hraws (good_saying h _) hmembers
      rw [moved_moved] at hadvances
      rw [(fields_refused size ds hu).1, (fields_refused size ds hu).2]
      refine ⟨hnew.seq (hgives.last _), (advances_saying h _).trans hadvances, scope', hmembers', hfresh,
        fun _ hquiet => ?_⟩
      exact absurd (quiet_append.mp hquiet).1 (newSays_not_quiet hd hu)
    | some u =>
      rw [hu, newSays_of_newIn hu] at hnew
      have hsane := newIn_sane h hd hu
      have hadvances := h.push_var (v := { u with offset := size }) hsane
      have hmore := hmembers.snoc (free_of_newIn hu) hsane (newIn_name hu).2
      obtain ⟨hgives, hadvances', scope', hmembers', hfresh, hgrown⟩ := ih hraws hadvances.good hmore
      rw [(fields_accepted size ds hu).1, (fields_accepted size ds hu).2]
      refine ⟨hnew.first (.get (.stores (hgives.last _))), hadvances.trans hadvances', scope', hmembers', fun p hp => ?_,
        fun hquiet hquiet' => ?_⟩
      · rcases hfresh p hp with hp | hp
        · rcases List.mem_append.mp hp with hp | hp
          · exact .inl hp
          · obtain rfl := List.mem_singleton.mp hp
            exact .inr (Int.le_refl _)
        · have hp : ((s.arena.push (.var { u with offset := size })).size : Int) ≤ p.2 := hp
          rw [size_push] at hp
          exact .inr (by omega)
      · have hpos : 0 < u.size := size_pos h hquiet hsane
        have hle := (hgrown hquiet hquiet').1
        have hlt := Int.lt_of_lt_of_le (Int.lt_add_of_pos_right size hpos) hle
        exact ⟨Int.le_of_lt hlt, fun _ => hlt⟩

end Structs

def Member (d : StructDef) (j : Int) : Prop := ∃ scope ∈ d.fields.scopes, ∃ p ∈ scope, p.2 = j

/-- What a declaration at the top of the program does to the state, with the symbols of the local
variables in it. No local variable is the field of a struct. -/
structure Adds (s s' : State) (slots : List Int) : Prop where
  good : Good s'
  diagnostics : s.diagnostics <+: s'.diagnostics
  grows : Grows s.arena s'.arena
  ranged : Ranged s.arena.size s'.arena.size slots
  apart : ∀ {k d j}, s'.arena.get? k = some (.struct d) → Member d j →
    j ∉ slots ∧ (s.arena.get? k = some (.struct d) ∨ s.arena.size ≤ j)
  params : Quiet s'.diagnostics → ∀ {i f}, s'.arena.get? i = some (.func f) →
    s.arena.get? i = some (.func f) ∨ ∀ t ∈ f.params, IsScalar t

section Programs

variable {lit : String → Prop} {τ : Symbols} {s s' s'' : State} {slots slots' : List Int}

theorem Adds.append (h : Adds s s' slots) (h' : Adds s' s'' slots') :
    Adds s s'' (slots ++ slots') where
  good := h'.good
  diagnostics := h.diagnostics.trans h'.diagnostics
  grows hi := h'.grows (h.grows hi)
  ranged := h.ranged.append h'.ranged
  apart {k d j} hd hj := by
    obtain ⟨hj', hold | hnew⟩ := h'.apart hd hj
    · obtain ⟨hj'', hcases⟩ := h.apart hold hj
      exact ⟨by simp [hj', hj''], hcases⟩
    · have hfresh : j ∉ slots := fun hmem => by
        have := (h.ranged.2.2 j hmem).2
        omega
      have := h.ranged.1
      exact ⟨by simp [hj', hfresh], .inr (by omega)⟩
  params hquiet {i f} hf := by
    rcases h'.params hquiet hf with hf | hscalar
    · exact h.params (hquiet.earlier h'.diagnostics) hf
    · exact .inr hscalar

theorem Ends.before (h : Ends τ s') (hadds : Adds s s' slots) : Ends τ s :=
  ⟨h.quiet.earlier hadds.diagnostics, h.within.earlier hadds.grows⟩

/-- The field of a struct is a symbol. -/
theorem Good.member (h : Good s) {k j : Int} {d : StructDef} (hd : s.arena.get? k = some (.struct d))
    (hj : Member d j) : 0 ≤ j ∧ j < s.arena.size := by
  obtain ⟨scope, hscope, p, hp, rfl⟩ := hj
  obtain ⟨-, -, -, scope', hscopes, -, hpacked⟩ := h.arena hd
  obtain rfl : scope = scope' := by simpa [hscopes] using hscope
  obtain ⟨u, hu⟩ := hpacked.mem p hp
  exact get?_lt hu

/-- Where only variables are new, all structs and functions are old. -/
theorem Advances.adds (h : Advances s s') (hgood : Good s)
    (hslots : Ranged s.arena.size s'.arena.size slots) : Adds s s' slots where
  good := h.good
  diagnostics := h.diagnostics
  grows := h.grows
  ranged := hslots
  apart {k d j} hd hj := by
    rcases h.vars hd with hold | ⟨-, v, hv⟩
    · have := hgood.member hold hj
      refine ⟨fun hmem => ?_, .inl hold⟩
      have := hslots.2.2 j hmem
      omega
    · cases hv
  params _ {i f} hf := by
    rcases h.vars hf with hold | ⟨-, v, hv⟩
    · exact .inl hold
    · cases hv

/-- The local variables of a declaration at the top of the program. -/
def localsOf : Decl → List VarDecl
  | .fn d => fnDecls d
  | _ => []

/-- A declaration whose names have been looked up, with or without success. -/
def VisitedDecl (σ : Symbols) : Decl → Prop
  | .var _ | .struct _ => True
  | .fn d => IsTypeWord d.result.name ∧ (∀ v ∈ fnDecls d, SlotOk σ v) ∧ VisitedBlock σ d.body
  | .misfit .. => False

/-- What visiting a declaration at the top of the program leaves: the state, the declaration with its
names looked up, and, if no error is taken down, a new name at the top. -/
structure Tops (lit : String → Prop) (s s' : State) (d : Decl) : Prop where
  adds : Adds s s' (declSlots (localsOf d))
  visited : ∀ {τ}, Within τ s' → VisitedDecl τ d
  shaped : ∀ {τ scope}, s.table.scopes = [scope] → Ends τ s' → ∃ i,
    s'.table.scopes = [scope ++ [(declName d, i)]] ∧ declName d ∉ scope.map Prod.fst ∧
    DeclShape τ (fun Γ _ ss => BoundStmts lit τ Γ ss) (scope ++ [(declName d, i)]) i d

/-- A global variable is declared. -/
theorem tops_var (h : Good s) {d : VarDecl} (hraw : RawVar d) :
    Tops lit s (moved s (varIn (sightOf s) d).2 (varSays (sightOf s) d)) (.var (varIn (sightOf s) d).1) := by
  have hd := declared_var h hraw
  refine ⟨hd.advances.adds h (.nil hd.advances.size), fun _ => trivial, fun {τ scope} hscope hends => ?_⟩
  rcases hd.bound with ⟨-, hloud⟩ | ⟨hbinding, -, ⟨v, hv, hname, hglobal, -⟩, hnew, hscopes⟩
  · exact absurd hends.quiet hloud
  have hinner : s.table.inner = scope := by simp [SymbolTable.inner, hscope]
  rw [hinner] at hnew hscopes
  refine ⟨s.arena.size, ?_, ?_, hbinding, _, hends.within.get hv, ?_, ?_⟩
  · rw [hscopes, hscope, declName, hd.name, List.tail_cons]
  · rw [declName, hd.name]
    exact hnew
  · rw [hd.name]
    exact hname
  · rw [hglobal, SymbolTable.depth, hscope]
    rfl

/-- The fields of a struct stay out of the scopes. -/
theorem fieldsIn_table (ds : List VarDecl) : ∀ (w : Sight) (table : SymbolTable) (offset : Int),
    (fieldsIn w table offset ds).2.table = w.table := by
  induction ds with
  | nil => exact fun _ _ _ => rfl
  | cons d ds ih =>
    intro w table offset
    rw [fieldsIn]
    split
    · exact ih w table offset
    · exact ih _ _ _

/-- A struct is declared. -/
theorem tops_struct (h : Good s) {d : StructDecl} (hname : RawIdent d.name) (hfields : d.fields ≠ [])
    (hraw : ∀ f ∈ d.fields, RawVar f) :
    Gives s (Names.structDecl d) (structDeclIn (sightOf s) d).1 (structDeclIn (sightOf s) d).2
      (structSays (sightOf s) d) ∧
    Tops lit s (moved s (structDeclIn (sightOf s) d).2 (structSays (sightOf s) d))
      (.struct (structDeclIn (sightOf s) d).1) := by
  have hnone : Members s.arena {} [] 0 := ⟨rfl, .nil, rfl, by simp, by simp⟩
  have htable := fieldsIn_table d.fields (sightOf s) {} 0
  unfold Names.structDecl structDeclIn structSays
  cases htaken : (sightOf s).isTaken d.name.name with
  | true =>
    have htwice : (s.table.findInner? d.name.name).isSome = true := htaken
    have hreport := gives_report h (.declaredTwice d.name.name) d.name.note.span
    obtain ⟨hgives, hadvances, -⟩ := members_fields hraw (good_saying h [_]) hnone
    have hall := (advances_saying h _).trans hadvances
    rw [moved_moved] at hall
    refine ⟨.get ?_, hall.adds h (.nil hall.size), fun _ => trivial, fun _ hends => ?_⟩
    · simp only [htwice, if_true]
      exact hreport.seq (hgives.last _)
    · exact absurd (quiet_append.mp (quiet_moved.mp hends.quiet).2).1 not_quiet
  | false =>
    have hfree : (s.table.findInner? d.name.name).isSome = false := htaken
    obtain ⟨hgives, hadvances, scope, hmembers, hfresh, hgrown⟩ := members_fields hraw h hnone
    -- nothing more is needed of the fields
    generalize fieldsIn (sightOf s) {} 0 d.fields = r at *
    have hsane : Sane r.2.arena (.struct ⟨d.name.name, r.1.2.1.freeze, r.1.2.2⟩) :=
      ⟨hname.word, hmembers.nonneg, hmembers.dvd, scope, hmembers.scopes, hmembers.nodup, hmembers.packed⟩
    simp only [Bool.false_eq_true, if_false, List.nil_append]
    refine ⟨.get ?_, ?_, fun _ => trivial, fun {τ globals} hglobals hends => ?_⟩
    · simp only [hfree, Bool.false_eq_true, if_false]
      rw [← List.append_nil (fieldsSay _ _ _ _)]
      refine hgives.seq ((gives_declare hadvances.good ?_ _).last _)
      rw [Sight.isTaken, sightOf_table, moved_table, htable]
      exact hfree
    · exact {
        good := hadvances.good.enter hsane fun e he => by
          obtain rfl := Symbol.struct.inj he
          exact ⟨rfl, fun hquiet => (hgrown (quiet_moved.mp hquiet).1 (quiet_moved.mp hquiet).2).2 hfields⟩
        diagnostics := hadvances.diagnostics
        grows := Grows.trans hadvances.grows grows_push
        ranged := .nil (Nat.le_trans hadvances.size size_le_push)
        apart := by
          intro k e j he hj
          refine ⟨by simp [localsOf, declSlots], ?_⟩
          rcases get?_push_cases he with he | ⟨-, he⟩
          · rcases hadvances.vars he with he | ⟨-, v, hv⟩
            · exact .inl he
            · cases hv
          · obtain rfl := Symbol.struct.inj he
            obtain ⟨scope', hscope', p, hp, rfl⟩ := hj
            have hscopes : r.1.2.1.freeze.scopes = [scope] := hmembers.scopes
            obtain rfl : scope' = scope := by simpa [hscopes] using hscope'
            exact (hfresh p hp).elim (fun h => (by cases h)) .inr
        params := by
          intro _ i f hf
          rcases get?_push_cases hf with hf | ⟨-, hf⟩
          · rcases hadvances.vars hf with hf | ⟨-, v, hv⟩
            · exact .inl hf
            · cases hv
          · cases hf }
    · have hscopes := entered_scopes hadvances.good d.name.name (.struct ⟨d.name.name, r.1.2.1.freeze, r.1.2.2⟩)
      have hnew := not_mem_of_free hfree
      have hinner : s.table.inner = globals := by simp [SymbolTable.inner, hglobals]
      rw [moved_table, htable, sightOf_table, hinner, hglobals] at hscopes
      rw [hinner] at hnew
      exact ⟨_, hscopes, hnew, rfl, _, hends.within.get get?_push_self⟩

theorem paramTys {ds : List VarDecl} (hraw : ∀ d ∈ ds, RawFormal d) :
    (ds.mapM fun f => if f.type.name = "void" then pure Ty.error else Ty.ofWord f.type.name :
      Except Fault (List Ty)) = .ok (ds.map paramTy) := by
  induction ds with
  | nil => rfl
  | cons d ds ih =>
    obtain ⟨t, hok, hsome, -⟩ := ofWord_of_typeWord (hraw d (by simp)).type.word
    have hd : (if d.type.name = "void" then pure Ty.error else Ty.ofWord d.type.name :
        Except Fault Ty) = .ok (paramTy d) := by
      by_cases hvoid : d.type.name = "void"
      · simp [hvoid, paramTy, pure, Except.pure]
      · simp [hvoid, paramTy, hok, hsome]
    rw [List.mapM_cons, hd, ih fun e he => hraw e (by simp [he])]
    rfl

/-- A raw function has a signature. -/
theorem signature_ok {d : FnDecl} (hresult : IsTypeWord d.result.name)
    (hformals : ∀ f ∈ d.formals, RawFormal f) : ∃ result,
    signature d = .ok ⟨d.name.name, d.formals.map paramTy, result⟩ ∧
      Ty.ofWord? d.result.name = some result ∧ (IsScalar result ∨ result = .void) := by
  obtain ⟨result, hok, hsome, -, hresult⟩ := ofWord_of_typeWord hresult
  refine ⟨result, ?_, hsome, hresult⟩
  rw [signature, paramTys hformals, hok]
  rfl

/-- What comes before the walk through a function: its name is entered, or an error taken down. -/
structure Announced (s s' : State) (f : Function) : Prop where
  good : Good s'
  diagnostics : s.diagnostics <+: s'.diagnostics
  grows : Grows s.arena s'.arena
  size : s.arena.size ≤ s'.arena.size
  new : ∀ {i t}, s'.arena.get? i = some t → s.arena.get? i = some t ∨ t = .func f

theorem announced_fn (h : Good s) {d : FnDecl} (hname : RawIdent d.name) (hresult : IsTypeWord d.result.name)
    (said : List Diagnostic) : Announced s (moved s (fnNamed (sightOf s) d) said) (functionOf d) := by
  have hadvances := advances_saying h said
  unfold fnNamed
  split
  · exact ⟨hadvances.good, hadvances.diagnostics, hadvances.grows, hadvances.size, .inl⟩
  · obtain ⟨t, -, hsome, -, hscalar⟩ := ofWord_of_typeWord hresult
    have hsane : Sane s.arena (.func (functionOf d)) := ⟨hname.word, by simpa [functionOf, hsome] using hscalar⟩
    exact ⟨hadvances.good.enter hsane fun _ h => (by cases h), hadvances.diagnostics, grows_push, size_le_push,
      fun ht => (get?_push_cases ht).imp_right And.right⟩

/-- The walk through a function that has been announced. -/
theorem Announced.adds {f : Function} (h : Announced s s' f) (hgood : Good s)
    (hadvances : Advances s' s'') (hslots : Ranged s'.arena.size s''.arena.size slots)
    (hparams : Quiet s''.diagnostics → ∀ t ∈ f.params, IsScalar t) : Adds s s'' slots where
  good := hadvances.good
  diagnostics := h.diagnostics.trans hadvances.diagnostics
  grows := Grows.trans h.grows hadvances.grows
  ranged := ⟨Nat.le_trans h.size hslots.1, hslots.2.1, fun i hi => by
    have := hslots.2.2 i hi
    have := h.size
    omega⟩
  apart {k d j} hd hj := by
    rcases hadvances.vars hd with hd | ⟨-, v, hv⟩
    · rcases h.new hd with hd | hd
      · have := hgood.member hd hj
        have := h.size
        refine ⟨fun hmem => ?_, .inl hd⟩
        have := hslots.2.2 j hmem
        omega
      · cases hd
    · cases hv
  params hquiet {i g} hg := by
    rcases hadvances.vars hg with hg | ⟨-, v, hv⟩
    · rcases h.new hg with hg | hg
      · exact .inl hg
      · obtain rfl := Symbol.func.inj hg
        exact .inr (hparams hquiet)
    · cases hv

theorem declares_concat {cs ds : List VarDecl} : ∀ {first rest : Scope}, Declares τ cs first →
    Declares τ ds rest → Declares τ (cs ++ ds) (first ++ rest) := by
  induction cs with
  | nil =>
    rintro _ rest rfl hrest
    exact hrest
  | cons c cs ih =>
    rintro _ rest ⟨i, first, rfl, hbinding, hv, hfirst⟩ hrest
    exact ⟨i, first ++ rest, rfl, hbinding, hv, ih hfirst hrest⟩

/-- The parameters and the body of a function share one scope. -/
theorem goes_body (h : Good s) {d : FnDecl} (hformals : ∀ f ∈ d.formals, RawFormal f) (hbody : RawBlock lit d.body)
    {α : Type} (g : List VarDecl → List VarDecl → List Stmt → α) {params locals : List VarDecl × Sight}
    (hparams : params = allIn formalIn (sightOf s).push d.formals) (hlocals : locals = allIn varIn params.2 d.body.decls) :
    Goes s (do
        modify fun s => { s with table := s.table.push }
        let formals ← d.formals.mapM Names.formal
        let decls ← d.body.decls.mapM Names.varDecl
        let body ← Names.stmts d.body.stmts
        modify fun s => { s with table := s.table.pop }
        return g formals decls body)
      (g params.1 locals.1 (stmtsIn locals.2 d.body.stmts)) (stmtsAfter locals.2 d.body.stmts).pop
      (allSay formalIn formalSays (sightOf s).push d.formals ++
        (allSay varIn varSays params.2 d.body.decls ++ stmtsSay locals.2 d.body.stmts))
      (params.1 ++ (locals.1 ++ stmtsDecls (stmtsIn locals.2 d.body.stmts)))
      (fun τ => VisitedStmts τ (stmtsIn locals.2 d.body.stmts))
      fun τ => Formals τ params.1 (d.formals.map paramTy) ∧ (∀ t ∈ d.formals.map paramTy, IsScalar t) ∧
        ∃ scope, Declares τ (params.1 ++ locals.1) scope ∧ (scope.map Prod.fst).Nodup ∧
          BoundStmts lit τ (scope :: s.table.scopes) (stmtsIn locals.2 d.body.stmts) := by
  subst hparams hlocals
  obtain ⟨_, _, _, _, ⟨_, rawDecls, rawStmts⟩⟩ := d
  obtain ⟨hgives, hfirst⟩ := declared_all (fun d hd _ h hdepth =>
    ⟨gives_formal h (hformals d hd), declared_formal h (hformals d hd) hdepth⟩) h.push (depth_push h)
  have hgood := hfirst.walked.advances.good
  have hdepth := depth_eq h.push hgood hfirst.outer ▸ depth_push h
  obtain ⟨hgives', hsecond⟩ := declared_vars hbody.1 hgood hdepth
  have hthird := goes_stmts rawStmts hbody.2 hsecond.walked.advances.good
  have hgives'' := hthird.gives
  rw [moved_moved] at hsecond hthird
  rw [← List.append_assoc, ← List.append_assoc]
  refine (Goes.closes h (hfirst.walked.append hsecond.walked) (hsecond.outer.trans hfirst.outer) hthird ?_).imp ?_
  · rw [List.append_assoc]
    exact .opens (hgives.seq (hgives'.seq (hgives''.closes _)))
  rintro τ ⟨hends, hbound⟩
  obtain ⟨rest, hscopes₂, hrest, -, hnodup₂⟩ := hsecond.entered hends
  obtain ⟨first, hscopes₁, hfirst', heach, hnodup₁⟩ := hfirst.entered (hends.earlier hsecond.walked.advances)
  obtain ⟨hparams, hscalar⟩ := formals_of_each heach
  rw [SymbolTable.inner, hscopes₁] at hscopes₂ hnodup₂
  rw [hscopes₂] at hbound
  exact ⟨hparams, hscalar, first ++ rest, declares_concat hfirst' hrest, hnodup₂ (hnodup₁ .nil), hbound⟩

theorem gives_fnName (h : Good s) (d : FnDecl) :
    Gives s (declare d.name (.func (functionOf d))) (fnName (sightOf s) d) (fnNamed (sightOf s) d)
      (if (sightOf s).isTaken d.name.name then [objection (.declaredTwice d.name.name) d.name.note.span] else []) := by
  unfold fnName fnNamed
  cases htaken : (sightOf s).isTaken d.name.name with
  | true =>
    have htaken : (s.table.findInner? d.name.name).isSome = true := htaken
    refine .get ?_
    rw [if_neg (by simp [stopped_eq h]), if_pos htaken]
    exact (gives_report h _ _).last _
  | false => exact gives_declare h htaken _

/-- A function is declared. -/
theorem tops_fn (h : Good s) {d : FnDecl} (hraw : RawDecl lit (.fn d)) :
    Gives s (Names.fnDecl d) (fnIn (sightOf s) d).1 (fnIn (sightOf s) d).2 (fnSays (sightOf s) d) ∧
    Tops lit s (moved s (fnIn (sightOf s) d).2 (fnSays (sightOf s) d)) (.fn (fnIn (sightOf s) d).1) := by
  obtain ⟨hname, hresult, hformals, hbody⟩ := hraw
  obtain ⟨result, hsignature, hsome, -⟩ := signature_ok hresult.word hformals
  have hfunction : functionOf d = ⟨d.name.name, d.formals.map paramTy, result⟩ := by simp [functionOf, hsome]
  rw [← hfunction] at hsignature
  have hfirst := gives_fnName h d
  have hannounced := announced_fn h hname hresult.word
    (if (sightOf s).isTaken d.name.name then [objection (.declaredTwice d.name.name) d.name.note.span] else [])
  have hgoes := goes_body hannounced.good hformals hbody (fun formals decls body =>
    { d with name := fnName (sightOf s) d, formals, body := .mk d.body.span decls body }) rfl rfl
  refine ⟨?_, ?_⟩
  · unfold Names.fnDecl
    refine (gives_stopped h).first ?_
    simp only [Bool.false_eq_true, if_false, hsignature]
    exact hfirst.seq hgoes.gives
  unfold fnSays
  rw [← moved_moved]
  refine ⟨hannounced.adds h hgoes.walked.advances hgoes.walked.slots fun hquiet => ?_, fun hwithin => ?_,
    fun {τ globals} hglobals hends => ?_⟩
  · exact (hgoes.bound ⟨hquiet, fun _ _ h => h⟩).2.1
  · exact ⟨hresult.word, hgoes.walked.locals hwithin, hgoes.visited hwithin⟩
  · have hfree : (sightOf s).isTaken d.name.name = false := by
      simpa using quiet_if.mp (quiet_moved.mp (quiet_moved.mp hends.quiet).1).2
    have hinner : s.table.inner = globals := by simp [SymbolTable.inner, hglobals]
    have hname' : (fnIn (sightOf s) d).1.name = { d.name with binding := .symbol s.arena.size } :=
      if_neg (by simp [hfree])
    have hnamed : fnNamed (sightOf s) d = (sightOf s).enter d.name.name (.func (functionOf d)) := by simp [fnNamed, hfree]
    have hscopes := entered_scopes h d.name.name (.func (functionOf d))
    rw [hinner, hglobals] at hscopes
    have hscopes : (fnNamed (sightOf s) d).table.scopes = _ := (congrArg (·.table.scopes) hnamed).trans hscopes
    have hnew := not_mem_of_free hfree
    have hget : (fnNamed (sightOf s) d).arena.get? s.arena.size = some (.func (functionOf d)) := by
      rw [hnamed]
      exact get?_push_self
    have hget := (hends.within.earlier hgoes.walked.advances.grows).get hget
    obtain ⟨hparams, -, scope, hdeclares, hnodup, hbound⟩ := hgoes.bound hends
    rw [hinner] at hnew
    rw [moved_table, hscopes] at hbound
    simp only [declName, hname']
    exact ⟨s.arena.size, hgoes.scopes.trans hscopes, hnew, congrArg Ident.binding hname', functionOf d, hget,
      (congrArg Ident.name hname').symm, hfunction ▸ hsome, hparams, scope, hdeclares, hnodup, hbound⟩

/-- A declaration at the top of the program is visited. -/
theorem tops_decl (h : Good s) {d : Decl} (hraw : RawDecl lit d) :
    Gives s (Names.decl d) (declIn (sightOf s) d).1 (declIn (sightOf s) d).2 (declSays (sightOf s) d) ∧
    Tops lit s (moved s (declIn (sightOf s) d).2 (declSays (sightOf s) d)) (declIn (sightOf s) d).1 := by
  cases d with
  | var d => exact ⟨(gives_varDecl h hraw).last _, tops_var h hraw⟩
  | struct d => exact (tops_struct h hraw.1 hraw.2.1 hraw.2.2).imp_left fun hgives => hgives.last _
  | fn d => exact (tops_fn h hraw).imp_left fun hgives => hgives.last _
  | misfit span kind => exact hraw.elim

/-- The declarations of a program are visited. -/
theorem tops_decls {ds : List Decl} (hraw : ∀ d ∈ ds, RawDecl lit d) : ∀ {s : State}, Good s →
    Gives s (ds.mapM Names.decl) (declsIn (sightOf s) ds).1 (declsIn (sightOf s) ds).2 (declsSay (sightOf s) ds) ∧
    Adds s (moved s (declsIn (sightOf s) ds).2 (declsSay (sightOf s) ds))
      (declSlots ((declsIn (sightOf s) ds).1.flatMap localsOf)) ∧
    ∀ {τ}, (Within τ (moved s (declsIn (sightOf s) ds).2 (declsSay (sightOf s) ds)) →
        ∀ d ∈ (declsIn (sightOf s) ds).1, VisitedDecl τ d) ∧
      ∀ {scope}, s.table.scopes = [scope] → Ends τ (moved s (declsIn (sightOf s) ds).2 (declsSay (sightOf s) ds)) →
        ∃ after, (declsIn (sightOf s) ds).2.table.scopes = [after] ∧
          DeclsShape τ (fun Γ _ ss => BoundStmts lit τ Γ ss) scope (declsIn (sightOf s) ds).1 after := by
  induction ds with
  | nil =>
    intro s h
    have hadvances := advances_saying h []
    exact ⟨.pure _, hadvances.adds h (.nil hadvances.size), by simp [declsIn], fun hscope _ => ⟨_, hscope, rfl⟩⟩
  | cons d ds ih =>
    intro s h
    obtain ⟨hgives, hd⟩ := tops_decl h (hraw d (by simp))
    obtain ⟨hgives', hadds, hrest⟩ := ih (fun e he => hraw e (by simp [he])) hd.adds.good
    rw [moved_moved] at hadds
    rw [List.mapM_cons]
    refine ⟨hgives.seq (hgives'.last _), ?_, fun {τ} => ⟨fun hwithin => ?_, fun {scope} hscope hends => ?_⟩⟩
    · rw [declsIn, List.flatMap_cons, declSlots_append]
      exact hd.adds.append hadds
    · exact List.forall_mem_cons.mpr ⟨hd.visited (hwithin.earlier hadds.grows), hrest.1 hwithin⟩
    · obtain ⟨i, hscopes, hnew, hshape⟩ := hd.shaped hscope (hends.before hadds)
      obtain ⟨after, hafter, hrest⟩ := hrest.2 hscopes (moved_moved ▸ hends)
      exact ⟨after, hafter, i, hnew, hshape, hrest⟩

end Programs

end CMinusMinus.Proofs.Naming
