import CMinusMinus.Proofs.RoundTrip

/-!
The parser on two lists of tokens that differ in nothing but places. It takes the same steps on both: it
gives trees that are the same without places, or gives up for the same reason at the same token.
-/
namespace CMinusMinus.Proofs.Tandem

open Token Parser Printing Phrases

section Phrases

variable {ι : Type} {ts us : List (Common ι)} (i j : ι)

/-- What is read as an expression is the same in all texts without places. -/
theorem same_phrase {es : List (ι → Expr)} (h : Phrase ts es) :
    unspannedAll (es.map (· i)) = unspannedAll (es.map (· j)) := by
  have hone : ∀ {e : ι → Expr}, unspannedAll ([e].map (· i)) = unspannedAll ([e].map (· j)) ↔
      unspanned (e i) = unspanned (e j) := by simp [unspannedAll]
  induction h with
  | none | int | string | bool | ident => rfl
  | dot _ _ _ _ ih =>
    rw [hone] at ih ⊢
    rw [unspanned, unspanned, ih]
    rfl
  | assign _ _ _ _ ih ih' =>
    rw [hone] at ih ih' ⊢
    rw [unspanned, unspanned, ih, ih']
    rfl
  | call _ _ _ _ ih =>
    rw [hone, unspanned, unspanned, ih]
    rfl
  | unary _ _ ih =>
    rw [hone] at ih ⊢
    rw [unspanned, unspanned, ih]
    rfl
  | binary _ _ _ ih ih' =>
    rw [hone] at ih ih' ⊢
    rw [unspanned, unspanned, ih, ih']
    rfl
  | group _ _ _ ih => exact ih
  | more _ _ _ _ ih ih' =>
    rw [hone] at ih
    rw [List.map_cons, List.map_cons, unspannedAll, unspannedAll, ih, ih']

theorem same_one {e : ι → Expr} (h : Phrase ts [e]) : unspanned (e i) = unspanned (e j) := by
  simpa [unspannedAll] using same_phrase i j h

theorem same_var {d : ι → VarDecl} (h : VarPhrase ts d) : unspannedVar (d i) = unspannedVar (d j) := by
  cases h <;> rfl

theorem same_each {α : Type} {P : List (Common ι) → (ι → α) → Prop} {unplace : α → α}
    (hP : ∀ {ts a}, P ts a → unplace (a i) = unplace (a j)) {as : List (ι → α)} (h : Each P ts as) :
    (as.map (· i)).map unplace = (as.map (· j)).map unplace := by
  induction h with
  | nil => rfl
  | cons hfirst _ ih => simp only [List.map_cons, hP hfirst, ih]

theorem same_formals {ds : List (ι → VarDecl)} (h : Formals ts ds) :
    (ds.map (· i)).map unspannedVar = (ds.map (· j)).map unspannedVar := by
  induction h with
  | none | one => rfl
  | more _ _ _ _ ih ih' =>
    simp only [List.map_cons, List.map_nil, List.cons.injEq, and_true] at ih ⊢
    exact ⟨ih, ih'⟩

theorem same_simple {st : ι → Option Span → Stmt} (h : Simple ts st) (span span' : Option Span) :
    unspannedStmt (st i span) = unspannedStmt (st j span') := by
  cases h with
  | done => rfl
  | ret _ he => simp only [unspannedStmt, Option.map_some, same_one i j he]
  | read _ _ he | write _ _ he | increment he | decrement he | assign he | call he =>
    rw [unspannedStmt, unspannedStmt, same_one i j he]

theorem same_guard {kind : Kind} {e : ι → Expr} (h : Guard kind ts e) : unspanned (e i) = unspanned (e j) := by
  obtain ⟨-, -, he, -⟩ := h
  exact same_one i j he

theorem same_braced {b : ι → Block} {ss : List (ι → Stmt)} (h : Braced ts b us ss)
    (hss : unspannedStmts (ss.map (· i)) = unspannedStmts (ss.map (· j))) :
    unspannedBlock (b i) = unspannedBlock (b j) := by
  obtain ⟨-, hds, -⟩ := h
  rw [unspannedBlock, unspannedBlock, hss, same_each i j (same_var i j) hds]

theorem same_stmts {ss : List (ι → Stmt)} (h : Stmts ts ss) :
    unspannedStmts (ss.map (· i)) = unspannedStmts (ss.map (· j)) := by
  have hone : ∀ {st : ι → Stmt}, unspannedStmts ([st].map (· i)) = unspannedStmts ([st].map (· j)) ↔
      unspannedStmt (st i) = unspannedStmt (st j) := by simp [unspannedStmts]
  induction h with
  | nil => rfl
  | cons _ _ ih ih' =>
    rw [hone] at ih
    rw [List.map_cons, List.map_cons, unspannedStmts, unspannedStmts, ih, ih']
  | simple hst =>
    rw [hone]
    exact same_simple i j hst _ _
  | ifThen hcond hbody _ ih | loop hcond hbody _ ih =>
    rw [hone, unspannedStmt, unspannedStmt, same_guard i j hcond, same_braced i j hbody ih]
  | ifElse hcond hbody _ _ hother _ ih ih' =>
    rw [hone, unspannedStmt, unspannedStmt, same_guard i j hcond, same_braced i j hbody ih,
      same_braced i j hother ih']

theorem same_decl {d : ι → Decl} (h : DeclPhrase ts d) : unspannedDecl (d i) = unspannedDecl (d j) := by
  cases h with
  | var hd => rw [unspannedDecl, unspannedDecl, same_var i j hd]
  | struct _ _ _ hds =>
    rw [unspannedDecl, unspannedDecl, same_each i j (same_var i j) hds]
    rfl
  | fn _ _ _ hformals _ hbody hstmts =>
    rw [unspannedDecl, unspannedDecl, same_formals i j hformals, same_braced i j hbody (same_stmts i j hstmts)]
    rfl

end Phrases

section Programs

variable {text text' : String} {tokens tokens' : List Token}

/-- Tokens that differ in nothing but places stand in both texts. -/
theorem exists_common (h : tokens'.map exactly = tokens.map exactly) : ∃ us : List (Common Bool),
    us.map (·.token false) = tokens ∧ us.map (·.token true) = tokens' := by
  induction tokens generalizing tokens' with
  | nil => exact ⟨[], rfl, (List.map_eq_nil_iff.mp h).symm⟩
  | cons t ts ih =>
    obtain ⟨t', ts', rfl, ht, hts⟩ := List.map_eq_cons_iff.mp h
    obtain ⟨us, hus, hus'⟩ := ih hts
    obtain ⟨kind, text, start⟩ := t
    obtain ⟨_, _, start'⟩ := t'
    obtain ⟨rfl, rfl⟩ := Piece.mk.inj ht
    exact ⟨⟨_, _, fun b => if b then start' else start⟩ :: us, by rw [List.map_cons, hus]; rfl,
      by rw [List.map_cons, hus']; rfl⟩

/-- Texts whose tokens differ in nothing but places are read as programs that differ in nothing but places, or
are no programs for the same reason. -/
theorem ofTokens_together (hlex : Token.lex text = .ok tokens) (h : tokens'.map exactly = tokens.map exactly) :
    match Program.ofTokens tokens, Program.ofTokens tokens' with
    | .ok p, .ok p' => p'.decls.map unspannedDecl = p.decls.map unspannedDecl
    | .error e, .error e' => e'.cause = e.cause ∧ exactly e'.token = exactly e.token
    | _, _ => False := by
  obtain ⟨ts, eof, hmarked, heof, hinside⟩ := (Grammar.tokens_ok hlex).marked
  obtain ⟨us, rfl, rfl⟩ := exists_common h
  obtain ⟨vs, _, rfl, rfl, hlast⟩ := List.map_eq_append_iff.mp hmarked
  obtain ⟨last, rfl, rfl⟩ := List.map_eq_singleton_iff.mp hlast
  have hfit : Fit (Front.ofTokens vs last) := ⟨fun t ht => hinside _ (List.mem_map_of_mem ht), heof⟩
  have hrun : ∀ b, Program.ofTokens ((vs ++ [last]).map (·.token b)) =
      (program (fuelFor (vs.map (·.token false) ++ [last.token false]))
        ((Front.ofTokens vs last).cursor b)).map Prod.fst := fun b => by
    rw [cursor_ofTokens, List.map_append, Program.ofTokens]
    have hfuel : fuelFor (vs.map (·.token b) ++ [last].map (·.token b)) =
        fuelFor (vs.map (·.token false) ++ [last.token false]) := by simp [fuelFor]
    rw [hfuel]
    rfl
  rw [hrun, hrun]
  rcases reads_program (fuelFor (vs.map (·.token false) ++ [last.token false])) hfit rfl with
    ⟨p, c, hp, -, ds, hds, hdecls⟩ | ⟨cause, t, hp⟩
  · dsimp only at hp
    rw [hp, hp]
    show (p true).decls.map unspannedDecl = (p false).decls.map unspannedDecl
    rw [(hdecls _).1, (hdecls _).1]
    exact same_each true false (same_decl true false) hds
  · dsimp only at hp
    rw [hp, hp]
    exact ⟨rfl, rfl⟩

end Programs

end CMinusMinus.Proofs.Tandem
