import CMinusMinus.Proofs.Places

/-!
Local names do not reach the code. The parameters, local variables and fields of a program get other names,
each with all its uses. The program can still be written, it is accepted like before, and its code differs
in nothing but comments.
-/
namespace CMinusMinus.Proofs.Renaming

open Views Places Printing Grammar Naming WellFormed
open Lexical (unboundIdent unboundVar unboundExpr unboundExprs unboundStmt unboundStmts unboundBlock
  unboundDecl)

section Sight

/-- Programs in which symbols have other names. What is said in findings, faults and comments does not
show, as names are said there. -/
def renamed (ρ : Int → Option String) : View where
  name
    | .symbol i, n => (ρ i).getD n
    | _, n => n
  finding _ := .other ""
  fault _ := .numeralTooLong
  comment _ := ""
  finding_name _ _ _ := rfl
  fault_name _ _ _ _ _ := rfl
  comment_name _ _ _ := rfl

/-- New names for some parameters, local variables and fields among the symbols of a program: names that can
be written, different from one another and from all that is declared in the program. -/
structure Renames (arena : Arena) (ρ : Int → Option String) : Prop where
  symbols : ∀ {i n}, ρ i = some n → ∃ u, arena.get? i = some (.var u) ∧ u.isGlobal = false
  names : ∀ {i n}, ρ i = some n → IsName n
  distinct : ∀ {i j n}, ρ i = some n → ρ j = some n → i = j
  fresh : ∀ {i n}, ρ i = some n → ∀ {j s}, arena.get? j = some s → s.name ≠ n

variable {arena : Arena} {ρ : Int → Option String}

theorem get?_of_shape {i : Int} {s : Symbol} (h : shape arena i = some s) :
    ∃ s₀, arena.get? i = some s₀ ∧ unplaced s₀ = s := Option.map_eq_some_iff.mp h

/-- Names that are new and different lead to no confusion. -/
theorem Renames.faithful (h : Renames arena ρ) : (renamed ρ).Faithful (shape arena) where
  apart {i j s t} hs ht hname := by
    have hname : (ρ i).getD s.name = (ρ j).getD t.name := hname
    obtain ⟨s₀, hs₀, rfl⟩ := get?_of_shape hs
    obtain ⟨t₀, ht₀, rfl⟩ := get?_of_shape ht
    rw [name_unplaced, name_unplaced] at hname ⊢
    cases hi : ρ i with
    | none =>
      cases hj : ρ j with
      | none =>
        rw [hi, hj] at hname
        exact .inr hname
      | some m =>
        rw [hi, hj] at hname
        exact absurd hname (h.fresh hj hs₀)
    | some n =>
      cases hj : ρ j with
      | none =>
        rw [hi, hj] at hname
        exact absurd hname.symm (h.fresh hi ht₀)
      | some m =>
        rw [hi, hj] at hname
        have hsame : n = m := hname
        exact .inl (h.distinct hi (hsame ▸ hj))
  kept {i s} hs hglobal := by
    show (ρ i).getD s.name = s.name
    obtain ⟨s₀, hs₀, rfl⟩ := get?_of_shape hs
    cases hi : ρ i with
    | none => rfl
    | some n =>
      obtain ⟨u, hu, hlocal⟩ := h.symbols hi
      obtain rfl : s₀ = .var u := Option.some.inj (hs₀.symm.trans hu)
      have hflag := hglobal _ rfl
      have hflag : u.isGlobal = true := hflag
      rw [hlocal] at hflag
      cases hflag
  unresolved _ := rfl
  unvisited _ := rfl

theorem Renames.nameable (h : Renames arena ρ) : Nameable (renamed ρ) := by
  intro b n hn
  cases b with
  | unvisited => exact hn
  | unresolved => exact hn
  | symbol i =>
    show IsName ((ρ i).getD n)
    cases hi : ρ i with
    | none => exact hn
    | some m => exact h.names hi

end Sight

section Seen

variable {v : View}

mutual

theorem unspanned_seen : ∀ e : Expr, unspanned (v.expr e) = v.expr e
  | .int .. | .string .. | .bool .. | .ident _ | .misfit .. => rfl
  | .dot _ obj _ _ _ => by rw [View.expr, unspanned, unspanned_seen obj]; rfl
  | .assign _ target value => by rw [View.expr, unspanned, unspanned_seen target, unspanned_seen value]; rfl
  | .call _ _ args => by rw [View.expr, unspanned, unspannedAll_seen args]; rfl
  | .unary _ _ operand => by rw [View.expr, unspanned, unspanned_seen operand]; rfl
  | .binary _ _ left right => by rw [View.expr, unspanned, unspanned_seen left, unspanned_seen right]; rfl

theorem unspannedAll_seen : ∀ es : List Expr, unspannedAll (v.exprs es) = v.exprs es
  | [] => rfl
  | e :: es => by rw [View.exprs, unspannedAll, unspanned_seen e, unspannedAll_seen es]

end

theorem unspannedVars_seen (ds : List VarDecl) : (ds.map v.var).map unspannedVar = ds.map v.var := by
  rw [List.map_map]
  rfl

mutual

theorem unspannedStmt_seen : ∀ st : Stmt, unspannedStmt (v.stmt st) = v.stmt st
  | .assign _ e | .increment _ e | .decrement _ e | .read _ e | .write _ e | .call _ e => by
    rw [View.stmt, unspannedStmt, unspanned_seen e]
  | .ret _ (some e) => by rw [View.stmt, unspannedStmt, Option.map_some, unspanned_seen e]
  | .ifThen _ cond body | .loop _ cond body => by
    rw [View.stmt, unspannedStmt, unspanned_seen cond, unspannedBlock_seen body]
  | .ifElse _ cond body other => by
    rw [View.stmt, unspannedStmt, unspanned_seen cond, unspannedBlock_seen body, unspannedBlock_seen other]
  | .ret _ none | .misfit .. => rfl

theorem unspannedStmts_seen : ∀ ss : List Stmt, unspannedStmts (v.stmts ss) = v.stmts ss
  | [] => rfl
  | st :: ss => by rw [View.stmts, unspannedStmts, unspannedStmt_seen st, unspannedStmts_seen ss]

theorem unspannedBlock_seen : ∀ b : Block, unspannedBlock (v.block b) = v.block b
  | .mk _ decls body => by rw [View.block, unspannedBlock, unspannedVars_seen, unspannedStmts_seen body]

end

/-- What is seen of a program has no places. -/
theorem unspannedDecl_seen (d : Decl) : unspannedDecl (v.decl d) = v.decl d := by
  cases d with
  | var d => rfl
  | struct d =>
    rw [View.decl, unspannedDecl, unspannedVars_seen]
    rfl
  | fn d =>
    rw [View.decl, unspannedDecl, unspannedVars_seen, unspannedBlock_seen]
    rfl
  | misfit span kind => rfl

end Seen

section Programs

variable {text file : String} {tokens : List Token} {a b m : Analysis} {p q : Program}
  {ρ : Int → Option String}

/-- A program with other names, as it is written: without places and bindings. -/
def rewritten (ρ : Int → Option String) (q : Program) : Program where
  decls := (q.decls.map (renamed ρ).decl).map unboundDecl

/-- A text is read as a program, places apart. -/
def ReadAs (text : String) (r : Program) : Prop :=
  ∃ tokens p, Token.lex text = .ok tokens ∧ Program.ofTokens tokens = .ok p ∧
    p.decls.map unspannedDecl = r.decls

theorem rewritten_unspanned (ρ : Int → Option String) (q : Program) :
    (rewritten ρ q).decls.map unspannedDecl = (rewritten ρ q).decls := by
  have hdecl : ∀ d, unspannedDecl (unboundDecl ((renamed ρ).decl d)) = unboundDecl ((renamed ρ).decl d) := by
    intro d
    rw [unspanned_unboundDecl, unspannedDecl_seen]
  simp only [rewritten, List.map_map]
  exact List.map_congr_left fun d _ => hdecl d

/-- The program with other names is read from the text that it is written as. -/
theorem readAs_written (σ : Style) (hraw : ∀ d ∈ (rewritten ρ q).decls, RawDecl quoted d) :
    ReadAs (textOf (programPieces σ (rewritten ρ q))) (rewritten ρ q) := by
  obtain ⟨ts, eof, hlex, heof, hts⟩ := lex_textOf (writable_program (σ := σ) hraw) .start
  obtain ⟨p', hparse, hdecls⟩ := ofTokens_printed hraw heof hts
  exact ⟨ts ++ [eof], p', hlex, hparse, hdecls.trans (rewritten_unspanned ρ q)⟩

/-- Comments apart, what is seen of code is written like the code. -/
theorem render_items (v : View) (items : List Code.Item) :
    Assembly.render false (Code.linesOf (items.map v.item)) = Assembly.render false (Code.linesOf items) := by
  have hitem : ∀ i : Code.Item, Assembly.written false (v.item i).lines = Assembly.written false i.lines := by
    intro i
    cases i <;> rfl
  have hwritten : Assembly.written false (Code.linesOf (items.map v.item)) =
      Assembly.written false (Code.linesOf items) := by
    simp only [Assembly.written, Code.linesOf, List.filterMap_flatMap, List.flatMap_map]
    exact List.flatMap_congr fun i _ => hitem i
  rw [Assembly.render, Assembly.render, hwritten]

/-- The variables at the top of a program are seen as they are. -/
theorem kept_globals {lit : String → Prop} {globals : Scope} (h : Analysed lit a p globals) (v : View) :
    ∀ x, .var x ∈ p.decls → v.Kept a.arena x.name := by
  intro x hx i u hbinding hu
  obtain ⟨pre, post, hdecls⟩ := List.append_of_mem hx
  obtain ⟨-, j, -, -, hbinding', u', hu', -, hglobal⟩ := decl_of_mem (hdecls ▸ h.decls)
  obtain rfl : i = j := Binding.symbol.inj (hbinding.symm.trans hbinding')
  obtain ⟨s₀, hs₀, hplace⟩ := get?_of_shape hu'
  obtain rfl : s₀ = .var u := Option.some.inj (hs₀.symm.trans hu)
  have hflag : u.isGlobal = true := by
    obtain rfl := Symbol.var.inj hplace
    exact hglobal
  rw [View.symbol, if_pos hflag]

/-- A program that is accepted has no errors in its names. -/
theorem quiet_names {lit : String → Prop} (hraw : ∀ d ∈ p.decls, RawDecl lit d)
    (hnames : (readFrom file p).resolveNames = (b, none))
    (hquiet : (readFrom file p).complete.result.hasErrors = false) : Quiet b.diagnostics := by
  have hpassed := passes (a := readFrom file p) rfl hraw rfl
  obtain rfl : b = _ := congrArg Prod.fst (hnames.symm.trans hpassed.names)
  rw [hpassed.result, ← quiet_iff] at hquiet
  exact hquiet.earlier (List.prefix_append _ _)

/-- Local names do not reach the code. The parameters, local variables and fields of an accepted program get
new names, different from one another and from all others. The program can be written with these names, and
every text that is read as it is accepted too, and has the same code without comments. -/
theorem local_names_do_not_reach_code (haccepts : Accepts text file a) (hlex : Token.lex text = .ok tokens)
    (hparse : Program.ofTokens tokens = .ok p) (hnames : (readFrom file p).resolveNames = (b, none))
    (hq : b.program = some q) (hρ : Renames b.arena ρ) :
    (∀ σ, ReadAs (textOf (programPieces σ (rewritten ρ q))) (rewritten ρ q)) ∧
    ∀ text', ReadAs text' (rewritten ρ q) → ∃ a', Accepts text' file a' ∧
      (a'.assembly false).result = (a.assembly false).result := by
  have hraw := raw_of_tokens (tokens_ok hlex) hparse
  obtain ⟨b', q', hnames', hq', hsame⟩ := names_resolve file hlex hparse
  obtain rfl : b' = b := congrArg Prod.fst (hnames'.symm.trans hnames)
  obtain rfl : q' = q := Option.some.inj (hq'.symm.trans hq)
  have hrewritten : ∀ d ∈ (rewritten ρ q').decls, RawDecl quoted d := raw_of_seen hρ.nameable hraw hsame
  refine ⟨fun σ => readAs_written σ hrewritten, ?_⟩
  rintro text' ⟨tokens', p', hlex', hparse', hdecls⟩
  obtain ⟨hresult, hfault⟩ := ofSource_program file hlex hparse
  have ha : (readFrom file p).complete.result = a := hresult.symm.trans haccepts.result
  have hquiet := quiet_names hraw hnames (ha ▸ haccepts.quiet)
  have hdecls' : (rewritten ρ q').decls = (q'.decls.map (renamed ρ).decl).map unboundDecl := rfl
  obtain ⟨hsees, hreturns⟩ := sees_complete hraw hrewritten hnames hq hρ.faithful (.inr hquiet) hdecls'
  obtain ⟨hsees', hreturns'⟩ := bare_sees (r := rewritten ρ q') file hlex' hparse'
    (by rw [hdecls, unboundDecls_of_raw hrewritten])
  rw [ha] at hsees
  have haccepted : (Analysis.ofSource text' file).result.hasErrors = false := by
    rw [← hsees'.hasErrors, hsees.hasErrors]
    exact haccepts.quiet
  refine ⟨_, ⟨?_, rfl, haccepted⟩, ?_⟩
  · rw [← hreturns', hreturns, ← hfault]
    exact haccepts.returns
  · obtain ⟨p₁, globals, hanalysed⟩ := haccepts.analysed fun tokens hlex => tokens_ok hlex
    obtain ⟨p₂, globals', hanalysed'⟩ := source_analysed file hlex' hparse' haccepted
    obtain ⟨r, hr, -⟩ := hsees.program hanalysed.program
    refine assembly_of_code hanalysed hanalysed' haccepts.quiet haccepted ?_ (render_items (renamed ρ))
    rw [← bare_code hsees' hanalysed'.program hr]
    exact sees_code hsees hanalysed.program hr (kept_globals hanalysed _)

/-- Whether a symbol is a parameter, a local variable or a field. -/
def isLocal : Option Symbol → Bool
  | some (.var u) => !u.isGlobal
  | _ => false

/-- Whether new names for symbols go together with the symbols of a program. -/
def goTogether (arena : Arena) (names : List (Int × String)) : Bool :=
  names.all fun (i, n) => isLocal (arena.get? i) && arena.symbols.toList.all fun s => s.name != n

theorem renames_lookup {arena : Arena} {names : List (Int × String)} (hwords : ∀ pair ∈ names, IsName pair.2)
    (hdistinct : (names.map Prod.snd).Nodup) (h : goTogether arena names) :
    Renames arena (names.lookup ·) := by
  have hmem : ∀ {i n}, names.lookup i = some n → (i, n) ∈ names := by
    intro i n hn
    obtain ⟨front, back, hnames, -⟩ := List.lookup_eq_some_iff.mp hn
    rw [hnames]
    exact List.mem_append_right _ (List.mem_cons_self ..)
  have hpair : ∀ {i n}, names.lookup i = some n →
      isLocal (arena.get? i) = true ∧ ∀ s ∈ arena.symbols.toList, s.name ≠ n := by
    intro i n hn
    have hboth := List.all_eq_true.mp h (i, n) (hmem hn)
    rw [Bool.and_eq_true, List.all_eq_true] at hboth
    exact ⟨hboth.1, fun s hs => by simpa using hboth.2 s hs⟩
  refine ⟨?_, fun hn => hwords _ (hmem hn), ?_, ?_⟩
  · intro i n hn
    have hlocal := (hpair hn).1
    cases hs : arena.get? i with
    | none => simp [hs, isLocal] at hlocal
    | some s =>
      cases s with
      | var u => exact ⟨u, rfl, by simpa [hs, isLocal] using hlocal⟩
      | func f => simp [hs, isLocal] at hlocal
      | struct d => simp [hs, isLocal] at hlocal
  · intro i j n hi hj
    have hsame := List.inj_on_of_nodup_map hdistinct (hmem hi) (hmem hj) rfl
    exact congrArg Prod.fst hsame
  · intro i n hn j s hs
    obtain ⟨k, rfl⟩ : ∃ k : Nat, j = k := by
      cases j with
      | ofNat k => exact ⟨k, rfl⟩
      | negSucc k => cases hs
    exact (hpair hn).2 s (Array.mem_def.mp (Array.mem_of_getElem? hs))

/-- A text with a variable at the top, a field of the same name, a parameter, a local variable, and a
variable of a block that hides the parameter. -/
def shadowed : String :=
  "int x;struct P\x7bint x;\x7d;void f(int a)\x7bstruct P p;p.x=a;if(true)\x7bint a;x=a;\x7d\x7dvoid main()\x7b\x7d"

/-- New names for the field, the parameter, and the two variables of the function. -/
def newNames : List (Int × String) := [(1, "k"), (4, "n"), (5, "q"), (6, "m")]

/-- The text with the new names. -/
def unshadowed : String :=
  "int x ; struct P \x7b int k ; \x7d ; void f ( int n ) \x7b struct P q ; q . k = n ; " ++
    "if ( true ) \x7b int m ; x = m ; \x7d \x7d void main ( ) \x7b \x7d"

theorem unshadowed_has_same_code : ∃ a a', Accepts shadowed "main.cmm" a ∧ Accepts unshadowed "main.cmm" a' ∧
    (a.assembly false).result.isSome ∧ (a'.assembly false).result = (a.assembly false).result := by
  have hnames : ∃ b, TypeRules.namesOf shadowed = some b ∧ (goTogether b.arena newNames && b.program.any fun q =>
      textOf (programPieces .sparse (rewritten (newNames.lookup ·) q)) == unshadowed) := by
    rw [← Option.any_eq_true]
    decide +kernel
  obtain ⟨b, hb, hchecks⟩ := hnames
  rw [Bool.and_eq_true, Option.any_eq_true] at hchecks
  obtain ⟨hgo, q, hq, htext⟩ := hchecks
  obtain ⟨tokens, p, hlex, hparse, rfl⟩ := TypeRules.read_of_namesOf hb
  obtain ⟨b, _, hresolve, -, -⟩ := names_resolve "main.cmm" hlex hparse
  have hwords : ∀ pair ∈ newNames, IsName pair.2 := by
    simp [newNames, IsName, IsWord, Token.isWordStart, Token.isWordPart]
    decide
  have hfine : (fun w : Worked Analysis => w.fault.isNone && !w.result.hasErrors &&
      (w.result.assembly false).result.isSome) (Analysis.ofSource shadowed "main.cmm") = true := by
    decide +kernel
  simp only [Bool.and_eq_true, Option.isNone_iff_eq_none, Bool.not_eq_true'] at hfine
  have haccepts : Accepts shadowed "main.cmm" (Analysis.ofSource shadowed "main.cmm").result :=
    ⟨hfine.1.1, rfl, hfine.1.2⟩
  obtain ⟨hwritten, hsame⟩ := local_names_do_not_reach_code haccepts hlex hparse
    (show (readFrom "main.cmm" p).resolveNames = (_, none) by rw [hresolve]) hq
    (renames_lookup hwords (by decide) hgo)
  obtain ⟨a', haccepts', hcode⟩ := hsame unshadowed (beq_iff_eq.mp htext ▸ hwritten .sparse)
  exact ⟨_, a', haccepts, haccepts', hfine.2, hcode⟩

end Programs

end CMinusMinus.Proofs.Renaming
