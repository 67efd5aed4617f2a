import CMinusMinus.Proofs.Lookup

/-!
Declarations of variables under name analysis. A declaration enters a new symbol into the innermost
scope, or an error is taken down; the symbols of declarations come in the order of the text, so that
no two declarations have one.
-/
namespace CMinusMinus.Proofs.Naming

open Names WellFormed Grammar Resolution

section Variables

variable {τ : Symbols} {s s' : State} {d : VarDecl} {v : Variable}

theorem ofWord_of_typeWord {word : String} (h : IsTypeWord word) :
    ∃ t, Ty.ofWord word = .ok t ∧ Ty.ofWord? word = some t ∧
      (word ≠ "void" → IsScalar t) ∧ (IsScalar t ∨ t = .void) := by
  rcases h with rfl | rfl | rfl
  · exact ⟨.int, rfl, rfl, fun _ => .inl rfl, .inl (.inl rfl)⟩
  · exact ⟨.bool, rfl, rfl, fun _ => .inr rfl, .inl (.inr rfl)⟩
  · exact ⟨.void, rfl, rfl, fun h => absurd rfl h, .inr rfl⟩

/-- The variable that a declaration introduces is in order. -/
theorem newIn_sane (h : Good s) (hraw : RawVar d) {isTaken : Bool} (hv : newIn (sightOf s) d isTaken = some v) :
    VarSane s.arena v := by
  unfold newIn at hv
  split at hv
  · cases hv
  rename_i hfine
  simp only [Bool.or_eq_true, beq_iff_eq, not_or] at hfine
  unfold typedIn at hv
  split at hv
  · obtain ⟨⟨k, e⟩, hfound, rfl⟩ := Option.map_eq_some_iff.mp hv
    obtain ⟨i, -, hget⟩ := Option.bind_eq_some_iff.mp hfound
    split at hget
    · rename_i hk
      cases hget
      obtain ⟨-, hsize, hdvd, -⟩ := h.arena hk
      exact ⟨hraw.name.word, hsize, hdvd, .inr ⟨_, k, e, rfl, rfl, hk, rfl⟩⟩
    · cases hget
  · rename_i hword
    obtain ⟨t, -, hsome, hscalar, -⟩ := ofWord_of_typeWord (hraw.type (by simpa using hword))
    rw [hsome] at hv
    cases hv
    exact ⟨hraw.name.word, by simp [wordSize], by simp [wordSize], .inl ⟨hscalar hfine.1, rfl, rfl⟩⟩

/-- A declaration that is refused is an error. -/
theorem newSays_not_quiet (hraw : RawVar d) {w : Sight} {isTaken : Bool} {twice : NameFinding} (h : newIn w d isTaken = none) :
    ¬Quiet (newSays w d isTaken twice) := by
  intro hquiet
  rw [newSays, quiet_append, quiet_append, quiet_if, quiet_if, quiet_if] at hquiet
  obtain ⟨hvoid, hstruct, htaken⟩ := hquiet
  rw [Bool.not_eq_true] at hvoid hstruct htaken
  rw [newIn, hvoid, htaken] at h
  cases hs : d.type.isStruct with
  | true => simp_all [typedIn]
  | false =>
    obtain ⟨t, -, hsome, -⟩ := ofWord_of_typeWord (hraw.type hs)
    simp [typedIn, hs, hsome] at h

theorem structNamed?_eq (s : State) (name : String) : structNamed? s name = structIn (sightOf s) name := by
  unfold structNamed? structIn sightOf
  cases s.table.find? name <;> rfl

theorem gives_typedVariable (h : Good s) (hraw : RawVar d) :
    Gives s (typedVariable d.name.name d.type) (typedIn (sightOf s) d) (sightOf s)
      (if d.type.isStruct && (structIn (sightOf s) d.type.name).isNone then
        [objection (.notAStruct d.type.name) d.type.span] else []) := by
  unfold typedVariable typedIn
  cases hstruct : d.type.isStruct with
  | true =>
    refine .get ?_
    rw [structNamed?_eq]
    cases structIn (sightOf s) d.type.name with
    | none => exact (gives_report h _ _).last _
    | some p => exact .pure _
  | false =>
    obtain ⟨t, hok, hsome, -⟩ := ofWord_of_typeWord (hraw.type hstruct)
    rw [hok, hsome]
    exact .pure _

theorem gives_newVariable (h : Good s) (hraw : RawVar d) (isTaken : Bool) (twice : NameFinding) :
    Gives s (newVariable d isTaken twice) (newIn (sightOf s) d isTaken) (sightOf s)
      (newSays (sightOf s) d isTaken twice) := by
  unfold newVariable newIn newSays
  refine gives_report_if h ((gives_typedVariable (good_saying h _) hraw).seq ?_)
  rw [← List.append_nil (if isTaken = true then _ else _)]
  refine gives_report_if (good_saying (good_saying h _) _) ?_
  refine (gives_stopped (good_saying (good_saying (good_saying h _) _) _)).first ?_
  rw [Bool.false_or]
  by_cases hrefused : (d.type.name == "void" || isTaken) = true
  · simp only [if_pos hrefused]
    exact .pure _
  · simp only [if_neg hrefused]
    exact .pure _

theorem gives_declare (h : Good s) {x : Ident} (hfree : (sightOf s).isTaken x.name = false) (symbol : Symbol) :
    Gives s (declare x symbol) { x with binding := .symbol s.arena.size } ((sightOf s).enter x.name symbol) [] := by
  unfold declare
  refine .get ?_
  have hfree : (s.table.findInner? x.name).isSome = false := hfree
  rw [if_neg (by simp [stopped_eq h]), if_neg (by simp [hfree])]
  change (_, _) = (_, _)
  simp [moved, Sight.enter, sightOf]

/-- The state with one symbol more, under a name in the innermost scope. -/
def entered (s : State) (name : String) (symbol : Symbol) : State :=
  { s with arena := s.arena.push symbol, table := s.table.insert name s.arena.size }

theorem insert_scopes {table : SymbolTable} (h : table.scopes ≠ []) (name : String) (i : Int) :
    (table.insert name i).scopes = (table.inner ++ [(name, i)]) :: table.scopes.tail := by
  obtain ⟨scopes, frozen⟩ := table
  cases scopes with
  | nil => exact absurd rfl h
  | cons scope outer => rfl

theorem entered_scopes (h : Good s) (name : String) (symbol : Symbol) :
    (entered s name symbol).table.scopes =
      (s.table.inner ++ [(name, (s.arena.size : Int))]) :: s.table.scopes.tail :=
  insert_scopes h.nonempty name _

theorem get?_push_self {arena : Arena} {symbol : Symbol} : (arena.push symbol).get? arena.size = some symbol := by
  simp [get?_push]

theorem size_push {arena : Arena} {symbol : Symbol} : (arena.push symbol).size = arena.size + 1 := by
  simp [Arena.size, Arena.push]

theorem size_le_push {arena : Arena} {symbol : Symbol} : arena.size ≤ (arena.push symbol).size :=
  size_push ▸ Nat.le_succ _

/-- A symbol in order can be entered. -/
theorem Good.enter (h : Good s) {name : String} {symbol : Symbol} (hsane : Sane s.arena symbol)
    (hstruct : ∀ d, symbol = .struct d → d.fields.frozen ∧ (Quiet s.diagnostics → 0 < d.size)) :
    Good (entered s name symbol) where
  fault := h.fault
  arena := ArenaSane.push h.arena hsane
  founded := Founded.push h.founded hsane fun d hd => (hstruct d hd).1
  table := by
    rw [entered_scopes h]
    have htable : TableSane (s.arena.push symbol) s.table.scopes := h.table.grows grows_push
    have hinner : ∀ p ∈ s.table.inner, ∃ t, (s.arena.push symbol).get? p.2 = some t := by
      cases hscopes : s.table.scopes with
      | nil => exact absurd hscopes h.nonempty
      | cons scope outer =>
        simp only [SymbolTable.inner, hscopes, List.headD_cons]
        exact htable scope (by simp [hscopes])
    intro scope hscope p hp
    rcases List.mem_cons.mp hscope with rfl | hscope
    · rcases List.mem_append.mp hp with hp | hp
      · exact hinner p hp
      · obtain rfl := List.mem_singleton.mp hp
        exact ⟨symbol, get?_push_self⟩
    · exact htable scope (List.mem_of_mem_tail hscope) p hp
  nonempty := by simp [entered_scopes h]
  positive hquiet i d hd := by
    rcases get?_push_cases hd with hd | ⟨-, rfl⟩
    · exact h.positive hquiet hd
    · exact (hstruct d rfl).2 hquiet

theorem not_mem_of_free {name : String} (h : (s.table.findInner? name).isSome = false) :
    name ∉ s.table.inner.map Prod.fst := by
  intro hmem
  obtain ⟨p, hp, rfl⟩ := List.mem_map.mp hmem
  have := List.lookup_eq_none_iff.mp (Option.not_isSome_iff_eq_none.mp (Bool.not_eq_true _ ▸ h)) p hp
  simp at this

/-- A variable in order can be entered. -/
theorem Good.enter_var (h : Good s) {name : String} {v : Variable} (hsane : VarSane s.arena v) :
    Advances s (entered s name (.var v)) where
  good := h.enter hsane fun _ h => (by cases h)
  diagnostics := List.prefix_refl _
  grows := grows_push
  vars ht := (get?_push_cases ht).imp_right fun h => ⟨by omega, v, h.2⟩

/-- A declaration is visited: it is bound to a new variable with a property, or an error is taken
down. -/
structure Declared (P : Variable → Prop) (s s' : State) (d d' : VarDecl) : Prop where
  advances : Advances s s'
  outer : s'.table.scopes.tail = s.table.scopes.tail
  name : d'.name.name = d.name.name
  bound : (d'.name.binding = .unvisited ∧ ¬ Quiet s'.diagnostics) ∨
    (d'.name.binding = .symbol s.arena.size ∧ s'.arena.size = s.arena.size + 1 ∧
      (∃ v, s'.arena.get? s.arena.size = some (.var v) ∧ v.name = d.name.name ∧
        v.isGlobal = (s.table.depth == 1) ∧ P v) ∧
      d.name.name ∉ s.table.inner.map Prod.fst ∧
      s'.table.scopes = (s.table.inner ++ [(d.name.name, (s.arena.size : Int))]) :: s.table.scopes.tail)

theorem quiet_moved {w : Sight} {ds : List Diagnostic} :
    Quiet (moved s w ds).diagnostics ↔ Quiet s.diagnostics ∧ Quiet ds := by simp [moved]

theorem declared_refused (h : Good s) (hname : RawIdent d.name) {ds : List Diagnostic} (hloud : ¬ Quiet ds)
    (P : Variable → Prop) : Declared P s (moved s (sightOf s) ds) d d :=
  ⟨advances_saying h ds, rfl, rfl, .inl ⟨hname.binding, fun hquiet => hloud (quiet_moved.mp hquiet).2⟩⟩

theorem declared_entered (h : Good s) (ds : List Diagnostic) (hfree : (sightOf s).isTaken d.name.name = false)
    (hsane : VarSane s.arena v) (hname : v.name = d.name.name) (hglobal : v.isGlobal = (s.table.depth == 1))
    {P : Variable → Prop} (hP : P v) :
    Declared P s (moved s ((sightOf s).enter d.name.name (.var v)) ds) d (boundVar (sightOf s) d) := by
  have hscopes := entered_scopes h d.name.name (.var v)
  have houter := congrArg List.tail hscopes
  exact ⟨(advances_saying h ds).trans ((good_saying h ds).enter_var hsane), houter, rfl, .inr ⟨rfl, size_push,
    ⟨v, get?_push_self, hname, hglobal, hP⟩, not_mem_of_free hfree, hscopes⟩⟩

/-- A variable is declared. -/
theorem declared_var (h : Good s) (hraw : RawVar d) : Declared (fun _ => True) s
    (moved s (varIn (sightOf s) d).2 (varSays (sightOf s) d)) d (varIn (sightOf s) d).1 := by
  unfold varIn
  cases hnew : newIn (sightOf s) d ((sightOf s).isTaken d.name.name) with
  | none => exact declared_refused h hraw.name (newSays_not_quiet hraw hnew) _
  | some u =>
    have hsane := newIn_sane h hraw hnew
    exact declared_entered h _ (free_of_newIn hnew) (v := { u with isGlobal := s.table.depth == 1 }) hsane
      (newIn_name hnew).1 rfl trivial

/-- A variable is declared. -/
theorem gives_varDecl (h : Good s) (hraw : RawVar d) :
    Gives s (Names.varDecl d) (varIn (sightOf s) d).1 (varIn (sightOf s) d).2 (varSays (sightOf s) d) := by
  unfold Names.varDecl varIn varSays
  refine .get ?_
  rw [← List.append_nil (newSays _ _ _ _)]
  refine (gives_newVariable h hraw _ _).seq ?_
  simp only [Sight.isTaken, sightOf_table]
  cases hnew : newIn (sightOf s) d (s.table.findInner? d.name.name).isSome with
  | none => exact .pure _
  | some u => exact (gives_declare (good_saying h _) (free_of_newIn hnew) _).last _

/-- A parameter is declared. -/
theorem declared_formal (h : Good s) (hraw : RawFormal d) (hdepth : s.table.depth ≠ 1) :
    Declared (fun v => v.ty = paramTy d ∧ IsScalar v.ty) s
      (moved s (formalIn (sightOf s) d).2 (formalSays (sightOf s) d)) d (formalIn (sightOf s) d).1 := by
  obtain ⟨t, -, hsome, hscalar, -⟩ := ofWord_of_typeWord hraw.type.word
  unfold formalIn
  split
  · rename_i hrefused
    refine declared_refused h hraw.name (fun hquiet => ?_) _
    rw [formalSays, quiet_append, quiet_if, quiet_if] at hquiet
    simp_all
  · rename_i hfine
    simp only [Bool.or_eq_true, not_or, Bool.not_eq_true, beq_eq_false_iff_ne] at hfine
    rw [hsome]
    refine declared_entered h _ hfine.2 ⟨hraw.name.word, ?_, ?_, .inl ⟨hscalar hfine.1, rfl, rfl⟩⟩ rfl
      (by simp [hdepth]) ⟨by simp [paramTy, hfine.1, hsome], hscalar hfine.1⟩
    · simp [wordSize]
    · simp [wordSize]

theorem gives_formal (h : Good s) (hraw : RawFormal d) :
    Gives s (Names.formal d) (formalIn (sightOf s) d).1 (formalIn (sightOf s) d).2 (formalSays (sightOf s) d) := by
  obtain ⟨t, hok, hsome, -⟩ := ofWord_of_typeWord hraw.type.word
  unfold Names.formal formalIn formalSays
  refine .get ?_
  rw [hok, hsome]
  refine gives_report_if h ?_
  rw [← List.append_nil (if (sightOf s).isTaken d.name.name = true then _ else _)]
  refine gives_report_if (good_saying h _) ?_
  change Gives _ (if (d.type.name == "void" || (sightOf s).isTaken d.name.name) = true then _ else _) _ _ _
  by_cases hrefused : (d.type.name == "void" || (sightOf s).isTaken d.name.name) = true
  · simp only [if_pos hrefused]
    exact .pure _
  · simp only [if_neg hrefused]
    simp only [Bool.or_eq_true, not_or, Bool.not_eq_true] at hrefused
    exact (gives_declare (good_saying (good_saying h _) _) hrefused.2 _).last _

/-- Indices in increasing order, from one size of the arena to another. -/
def Ranged (low high : Nat) (slots : List Int) : Prop :=
  low ≤ high ∧ slots.Pairwise (· < ·) ∧ ∀ i ∈ slots, low ≤ i ∧ i < high

theorem Ranged.append {low mid high : Nat} {xs ys : List Int} (hx : Ranged low mid xs)
    (hy : Ranged mid high ys) : Ranged low high (xs ++ ys) := by
  refine ⟨Nat.le_trans hx.1 hy.1, List.pairwise_append.mpr ⟨hx.2.1, hy.2.1, fun i hi j hj => ?_⟩,
    fun i hi => ?_⟩
  · have := hx.2.2 i hi
    have := hy.2.2 j hj
    omega
  · have := hx.1
    have := hy.1
    rcases List.mem_append.mp hi with hi | hi
    · have := hx.2.2 i hi
      omega
    · have := hy.2.2 i hi
      omega

theorem Ranged.nil {low high : Nat} (h : low ≤ high) : Ranged low high [] := ⟨h, .nil, by simp⟩

/-- A declaration has a local variable, or nothing after an error. -/
def SlotOk (τ : Symbols) (d : VarDecl) : Prop :=
  d.name.binding = .unvisited ∨
    ∃ i v, d.name.binding = .symbol i ∧ τ i = some (.var v) ∧ v.isGlobal = false

/-- A piece of a function has been visited, with some declarations of variables in it. -/
structure Walked (s s' : State) (decls : List VarDecl) : Prop where
  advances : Advances s s'
  slots : Ranged s.arena.size s'.arena.size (declSlots decls)
  locals : ∀ {τ}, Within τ s' → ∀ d ∈ decls, SlotOk τ d

theorem Walked.append {s'' : State} {ds es : List VarDecl} (h : Walked s s' ds)
    (h' : Walked s' s'' es) : Walked s s'' (ds ++ es) where
  advances := h.advances.trans h'.advances
  slots := by
    rw [declSlots_append]
    exact h.slots.append h'.slots
  locals {τ} hwithin d hd := by
    rcases List.mem_append.mp hd with hd | hd
    · exact h.locals (hwithin.earlier h'.advances.grows) d hd
    · exact h'.locals hwithin d hd

theorem Advances.walked (h : Advances s s') : Walked s s' [] :=
  ⟨h, .nil h.size, by simp⟩

theorem Declared.walked {P : Variable → Prop} {d' : VarDecl} (h : Declared P s s' d d')
    (hdepth : s.table.depth ≠ 1) : Walked s s' [d'] where
  advances := h.advances
  slots := by
    rcases h.bound with ⟨hnone, -⟩ | ⟨hbinding, hsize, -⟩
    · simpa [declSlots, hnone] using Ranged.nil h.advances.size
    · simp only [declSlots, List.filterMap_cons, hbinding, List.filterMap_nil]
      refine ⟨h.advances.size, List.pairwise_singleton _ _, fun i hi => ?_⟩
      obtain rfl := List.mem_singleton.mp hi
      omega
  locals {τ} hwithin := by
    simp only [List.mem_singleton, forall_eq]
    rcases h.bound with ⟨hnone, -⟩ | ⟨hbinding, -, ⟨v, hv, -, hglobal, -⟩, -⟩
    · exact .inl hnone
    · exact .inr ⟨_, _, hbinding, hwithin.get hv, by simp [hglobal, hdepth]⟩

theorem depth_eq (h : Good s) (h' : Good s') (houter : s'.table.scopes.tail = s.table.scopes.tail) :
    s'.table.depth = s.table.depth := by
  have := congrArg List.length houter
  have := List.length_pos_iff.mpr h.nonempty
  have := List.length_pos_iff.mpr h'.nonempty
  simp only [List.length_tail] at *
  simp only [SymbolTable.depth]
  omega

/-- Each of some declarations is bound to a variable with a property. -/
def Each (τ : Symbols) (P : VarDecl → Variable → Prop) : List VarDecl → List VarDecl → Prop
  | [], ds' => ds' = []
  | d :: ds, ds' => ∃ d' rest i v, ds' = d' :: rest ∧ d'.name.name = d.name.name ∧
      d'.name.binding = .symbol i ∧ τ i = some (unplaced (.var v)) ∧ v.name = d.name.name ∧ P d v ∧
      Each τ P ds rest

/-- Declarations are visited one after the other. -/
structure DeclaredAll (P : VarDecl → Variable → Prop) (s s' : State) (ds ds' : List VarDecl) : Prop where
  walked : Walked s s' ds'
  outer : s'.table.scopes.tail = s.table.scopes.tail
  entered : ∀ {τ}, Ends τ s' → ∃ scope, s'.table.scopes = (s.table.inner ++ scope) :: s.table.scopes.tail ∧
    Declares τ ds' scope ∧ Each τ P ds ds' ∧
    ((s.table.inner.map Prod.fst).Nodup → ((s.table.inner ++ scope).map Prod.fst).Nodup)

/-- Declarations of one kind are visited in order. -/
theorem declared_all {P : VarDecl → Variable → Prop} {f : VarDecl → NamesM VarDecl}
    {g : Sight → VarDecl → VarDecl × Sight} {said : Sight → VarDecl → List Diagnostic} {ds : List VarDecl}
    (hf : ∀ d ∈ ds, ∀ {s : State}, Good s → s.table.depth ≠ 1 →
      Gives s (f d) (g (sightOf s) d).1 (g (sightOf s) d).2 (said (sightOf s) d) ∧
        Declared (P d) s (moved s (g (sightOf s) d).2 (said (sightOf s) d)) d (g (sightOf s) d).1) :
    ∀ {s : State}, Good s → s.table.depth ≠ 1 →
      Gives s (ds.mapM f) (allIn g (sightOf s) ds).1 (allIn g (sightOf s) ds).2 (allSay g said (sightOf s) ds) ∧
        DeclaredAll P s (moved s (allIn g (sightOf s) ds).2 (allSay g said (sightOf s) ds)) ds
          (allIn g (sightOf s) ds).1 := by
  induction ds with
  | nil =>
    refine fun {s} h _ => ⟨.pure _, (advances_saying h []).walked, rfl, fun _ => ⟨[], ?_, rfl, rfl, by simp⟩⟩
    change s.table.scopes = _
    cases hscopes : s.table.scopes with
    | nil => exact absurd hscopes h.nonempty
    | cons scope outer => simp [SymbolTable.inner, hscopes]
  | cons d ds ih =>
    intro s h hdepth
    obtain ⟨hgives, hd⟩ := hf d (by simp) h hdepth
    have hgood := hd.advances.good
    obtain ⟨hgives', hds⟩ := ih (fun e he => hf e (by simp [he])) hgood (by rwa [depth_eq h hgood hd.outer])
    rw [moved_moved] at hds
    rw [List.mapM_cons]
    refine ⟨hgives.seq (hgives'.last _), (hd.walked hdepth).append hds.walked, hds.outer.trans hd.outer,
      fun {τ} hends => ?_⟩
    obtain ⟨scope, hscopes, hdeclares, heach, hnodup⟩ := hds.entered hends
    have hends₁ := hends.earlier hds.walked.advances
    rcases hd.bound with ⟨-, hloud⟩ | ⟨hbinding, -, ⟨v, hv, hname, hglobal, hP⟩, hnew, hscopes₁⟩
    · exact absurd hends₁.quiet hloud
    have hv := hends₁.within.get hv
    have hinner : (moved s (g (sightOf s) d).2 (said (sightOf s) d)).table.inner =
        s.table.inner ++ [(d.name.name, (s.arena.size : Int))] := by
      rw [SymbolTable.inner, hscopes₁, List.headD_cons]
    rw [hinner] at hscopes hnodup
    refine ⟨(d.name.name, (s.arena.size : Int)) :: scope, ?_, ?_, ?_, fun hfirst => ?_⟩
    · refine hscopes.trans ?_
      rw [hd.outer, List.append_assoc, List.singleton_append]
    · exact ⟨_, scope, by rw [hd.name], hbinding, ⟨_, hv, by simp [hglobal, hdepth]⟩, hdeclares⟩
    · exact ⟨_, _, _, v, rfl, hd.name, hbinding, hv, hname, hP, heach⟩
    · have hfresh : ((s.table.inner ++ [(d.name.name, (s.arena.size : Int))]).map Prod.fst).Nodup := by
        rw [List.map_append, List.nodup_append]
        refine ⟨hfirst, by simp, fun a ha b hb hab => ?_⟩
        obtain rfl : b = d.name.name := by simpa using hb
        exact hnew (hab ▸ ha)
      simpa using hnodup hfresh

/-- Parameters get the types that the function has them with. -/
theorem formals_of_each {ds : List VarDecl} : ∀ {ds' : List VarDecl},
    Each τ (fun d v => v.ty = paramTy d ∧ IsScalar v.ty) ds ds' →
    Formals τ ds' (ds.map paramTy) ∧ ∀ t ∈ ds.map paramTy, IsScalar t := by
  induction ds with
  | nil =>
    rintro _ rfl
    exact ⟨rfl, by simp⟩
  | cons d ds ih =>
    rintro _ ⟨d', rest, i, v, rfl, hname, hbinding, hv, hvname, ⟨hty, hscalar⟩, heach⟩
    obtain ⟨hformals, hparams⟩ := ih heach
    rw [hty] at hscalar
    refine ⟨⟨_, _, i, _, rfl, hbinding, hv, hty, by rw [hname, hvname], hformals⟩, ?_⟩
    simpa using ⟨hscalar, by simpa using hparams⟩

end Variables

end CMinusMinus.Proofs.Naming
