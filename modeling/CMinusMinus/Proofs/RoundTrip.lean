import CMinusMinus.Proofs.Fidelity
import CMinusMinus.Proofs.Reading

/-!
Programs that are written are read: parsing undoes printing. Declarations, statements and blocks are
followed like expressions. A statement is told by its first token from the end of a block and from a
declaration, and the declaration of a struct by its third token from that of a variable.
-/
namespace CMinusMinus.Proofs.Printing

open Token Parser Grammar WellFormed

section Unspanned

def unspannedType (t : TypeName) : TypeName := { t with span := none }

def unspannedVar (d : VarDecl) : VarDecl := ⟨none, unspannedType d.type, unspannedIdent d.name⟩

mutual

def unspannedStmt : Stmt → Stmt
  | .assign _ e => .assign none (unspanned e)
  | .increment _ e => .increment none (unspanned e)
  | .decrement _ e => .decrement none (unspanned e)
  | .read _ e => .read none (unspanned e)
  | .write _ e => .write none (unspanned e)
  | .ifThen _ cond body => .ifThen none (unspanned cond) (unspannedBlock body)
  | .ifElse _ cond body other => .ifElse none (unspanned cond) (unspannedBlock body) (unspannedBlock other)
  | .loop _ cond body => .loop none (unspanned cond) (unspannedBlock body)
  | .call _ e => .call none (unspanned e)
  | .ret _ value => .ret none (value.map unspanned)
  | .misfit _ kind => .misfit none kind

def unspannedStmts : List Stmt → List Stmt
  | [] => []
  | st :: ss => unspannedStmt st :: unspannedStmts ss

def unspannedBlock : Block → Block
  | .mk _ decls stmts => .mk none (decls.map unspannedVar) (unspannedStmts stmts)

end

/-- A declaration at the top of a program without places. -/
def unspannedDecl : Decl → Decl
  | .var d => .var (unspannedVar d)
  | .struct d => .struct ⟨none, unspannedIdent d.name, d.fields.map unspannedVar⟩
  | .fn d => .fn ⟨none, unspannedType d.result, unspannedIdent d.name, d.formals.map unspannedVar,
      unspannedBlock d.body⟩
  | .misfit _ kind => .misfit none kind

end Unspanned

section Variables

variable {next : List Piece}

theorem typePieces_word {t : TypeName} (h : RawWord t) :
    typePieces t = [⟨.ofWord t.name, t.name⟩] ∧ (Kind.ofWord t.name).isTypeWord := by
  refine ⟨by rw [typePieces, h.plain]; rfl, ?_⟩
  rcases h.word with hname | hname | hname
  all_goals
    rw [hname]
    decide

theorem reads_typeWord {t : TypeName} (h : RawWord t) :
    Reads typeWord (typePieces t ++ next) next fun t' => unspannedType t' = unspannedType t := by
  obtain ⟨hpieces, hword⟩ := typePieces_word h
  rw [hpieces]
  refine Reads.look fun u hu => ?_
  have hkind : u.kind = .ofWord t.name := congrArg Piece.kind hu
  have htext : u.text = t.name := congrArg Piece.text hu
  refine .ite_pos (by rw [hkind]; exact hword) (Reads.advance fun _ _ => .pure ?_)
  rw [unspannedType, unspannedType, h.plain, htext]

/-- The tokens of a variable's declaration show that it is one. -/
theorem varPieces_front {d : VarDecl} (h : RawVar d) (next : List Piece) :
    (kindAt 0 (varPieces d ++ next)).isTypeWord ∨
      kindAt 0 (varPieces d ++ next) = .structKw ∧ kindAt 2 (varPieces d ++ next) = .ident := by
  cases hstruct : d.type.isStruct with
  | true =>
    right
    rw [varPieces, formalPieces, typePieces, hstruct]
    exact ⟨rfl, rfl⟩
  | false =>
    left
    obtain ⟨hpieces, hword⟩ := typePieces_word ⟨h.type hstruct, hstruct⟩
    rw [varPieces, formalPieces, hpieces]
    exact hword

theorem reads_varDecl {d : VarDecl} (h : RawVar d) :
    Reads varDecl (varPieces d ++ next) next fun d' => unspannedVar d' = unspannedVar d := by
  refine Reads.peek fun first _ => ?_
  have hrest : ∀ type, unspannedType type = unspannedType d.type → Reads (do
      let name ← expect .ident .variableName
      let _ ← expect .semi .variableEnd
      return { span := ← spanFrom first, type, name := identOf name })
      (word d.name.name :: fixed .semi :: next) next fun d' => unspannedVar d' = unspannedVar d := by
    intro type htype
    refine Reads.expect (p := word d.name.name) fun name hname => ?_
    refine Reads.expect (p := fixed .semi) fun _ _ => Reads.spanFrom fun span => .pure ?_
    rw [unspannedVar, unspannedVar, htype, unspannedIdent_identOf h.name hname]
  rw [varPieces, formalPieces, List.append_assoc, List.append_assoc]
  cases hstruct : d.type.isStruct with
  | true =>
    rw [typePieces, hstruct]
    refine Reads.accept_pos (p := fixed .structKw) (.ite_pos rfl ?_)
    refine Reads.expect (p := word d.type.name) fun t ht => hrest _ ?_
    have htext : t.text = d.type.name := congrArg Piece.text ht
    rw [unspannedType, unspannedType, hstruct, htext]
  | false =>
    have hword : RawWord d.type := ⟨h.type hstruct, hstruct⟩
    have hfront : kindAt 0 (typePieces d.type ++ ([word d.name.name] ++ ([fixed .semi] ++ next))) ≠
        .structKw := by
      obtain ⟨hpieces, htype⟩ := typePieces_word hword
      rw [hpieces]
      intro hkind
      have hkind : Kind.ofWord d.type.name = .structKw := hkind
      rw [hkind] at htype
      exact absurd htype (by decide)
    exact Reads.accept_neg hfront (.ite_neg (by decide) ((reads_typeWord hword).seq hrest))

theorem reads_formal {d : VarDecl} (h : RawFormal d) :
    Reads formal (formalPieces d ++ next) next fun d' => unspannedVar d' = unspannedVar d := by
  rw [formalPieces, List.append_assoc]
  refine Reads.peek fun first _ => (reads_typeWord h.type).seq fun type htype => ?_
  refine Reads.expect (p := word d.name.name) fun name hname => Reads.spanFrom fun span => .pure ?_
  rw [unspannedVar, unspannedVar, htype, unspannedIdent_identOf h.name hname]

theorem reads_formals {ds : List VarDecl} (h : ∀ d ∈ ds, RawFormal d) (hne : ds ≠ []) {fuel : Nat}
    (hfuel : ds.length ≤ fuel) (hnext : kindAt 0 next ≠ .comma) :
    Reads (formals fuel) (listed (ds.map formalPieces) ++ next) next
      fun ds' => ds'.map unspannedVar = ds.map unspannedVar := by
  induction ds generalizing fuel with
  | nil => exact absurd rfl hne
  | cons d ds ih =>
    obtain ⟨hd, hds⟩ := List.forall_mem_cons.mp h
    rw [List.length_cons] at hfuel
    obtain ⟨f, rfl⟩ : ∃ f, fuel = f + 1 := ⟨fuel - 1, by omega⟩
    rw [formals]
    by_cases hlast : ds = []
    · subst hlast
      refine (reads_formal hd).seq fun d' hd' => Reads.accept_neg hnext (.pure ?_)
      simp [hd']
    · rw [List.map_cons, listed_cons (by simpa using hlast), List.append_assoc]
      refine (reads_formal hd).seq fun d' hd' => Reads.accept_pos (p := fixed .comma) ?_
      refine (ih hds hlast (by omega)).seq fun ds' hds' => .pure ?_
      simp [hd', hds']

variable {β : Type} {before after : List Piece} {Q : β → Prop} {f : Bool → ParseM β}

theorem Reads.atVarDecl_pos (h : (kindAt 0 before).isTypeWord ∨
    kindAt 0 before = .structKw ∧ kindAt 2 before = .ident) (hf : Reads (f true) before after Q) :
    Reads (atVarDecl >>= f) before after Q := by
  have hat : Reads atVarDecl before before fun b => b = true := by
    refine Reads.kindAhead ?_
    rcases h with hword | ⟨hstruct, hident⟩
    · exact .ite_pos hword (.pure rfl)
    · refine .ite_neg (by rw [hstruct]; decide) (Reads.kindAhead (.pure ?_))
      simp [hstruct, hident]
  refine hat.seq fun b hb => ?_
  rw [hb]
  exact hf

theorem Reads.atVarDecl_neg (hword : (kindAt 0 before).isTypeWord = false)
    (hstruct : kindAt 0 before ≠ .structKw) (hf : Reads (f false) before after Q) :
    Reads (atVarDecl >>= f) before after Q := by
  have hat : Reads atVarDecl before before fun b => b = false := by
    refine Reads.kindAhead (.ite_neg (by simp [hword]) (Reads.kindAhead (.pure ?_)))
    simp [hstruct]
  refine hat.seq fun b hb => ?_
  rw [hb]
  exact hf

theorem reads_varDecls {ds : List VarDecl} (h : ∀ d ∈ ds, RawVar d) {fuel : Nat} (hfuel : ds.length < fuel)
    (hword : (kindAt 0 next).isTypeWord = false) (hstruct : kindAt 0 next ≠ .structKw) :
    Reads (varDecls fuel) (ds.flatMap varPieces ++ next) next
      fun ds' => ds'.map unspannedVar = ds.map unspannedVar := by
  induction ds generalizing fuel with
  | nil =>
    obtain ⟨f, rfl⟩ : ∃ f, fuel = f + 1 := ⟨fuel - 1, by omega⟩
    rw [varDecls]
    exact Reads.atVarDecl_neg hword hstruct (.pure rfl)
  | cons d ds ih =>
    obtain ⟨hd, hds⟩ := List.forall_mem_cons.mp h
    rw [List.length_cons] at hfuel
    obtain ⟨f, rfl⟩ : ∃ f, fuel = f + 1 := ⟨fuel - 1, by omega⟩
    rw [varDecls, List.flatMap_cons, List.append_assoc]
    refine Reads.atVarDecl_pos (varPieces_front hd _) ((reads_varDecl hd).seq fun d' hd' => ?_)
    refine (ih hds (by omega)).seq fun ds' hds' => .pure ?_
    simp [hd', hds']

theorem reads_fields {ds : List VarDecl} (h : ∀ d ∈ ds, RawVar d) {fuel : Nat} (hfuel : ds.length < fuel)
    (hnext : kindAt 0 next = .rbrace) :
    Reads (fields fuel) (ds.flatMap varPieces ++ next) next
      fun ds' => ds'.map unspannedVar = ds.map unspannedVar := by
  induction ds generalizing fuel with
  | nil =>
    obtain ⟨f, rfl⟩ : ∃ f, fuel = f + 1 := ⟨fuel - 1, by omega⟩
    rw [fields]
    exact Reads.peek fun t ht => .ite_pos (ht.trans hnext) (.pure rfl)
  | cons d ds ih =>
    obtain ⟨hd, hds⟩ := List.forall_mem_cons.mp h
    rw [List.length_cons] at hfuel
    obtain ⟨f, rfl⟩ : ∃ f, fuel = f + 1 := ⟨fuel - 1, by omega⟩
    rw [fields, List.flatMap_cons, List.append_assoc]
    have hfront := varPieces_front hd (ds.flatMap varPieces ++ next)
    refine Reads.peek fun t ht => .ite_neg ?_ ?_
    · intro hbrace
      rw [← ht, hbrace] at hfront
      rcases hfront with hword | ⟨hstruct, -⟩
      · cases hword
      · cases hstruct
    · refine Reads.atVarDecl_pos hfront ((reads_varDecl hd).seq fun d' hd' => ?_)
      refine (ih hds (by omega)).seq fun ds' hds' => .pure ?_
      simp [hd', hds']

theorem length_varPieces (ds : List VarDecl) : ds.length ≤ (ds.flatMap varPieces).length := by
  induction ds with
  | nil => exact Nat.le_refl 0
  | cons d ds ih =>
    simp only [List.flatMap_cons, List.length_append, List.length_cons, varPieces, formalPieces]
    omega

end Variables

section Statements

variable {lit : String → Prop} {σ : Style} {e cond : Expr} {st : Stmt} {body other : Block}
  {next after : List Piece}

/-- A statement is read from its tokens, where no other branch follows it. -/
def StmtRead (σ : Style) (st : Stmt) : Prop :=
  ∀ fuel next, 16 * (stmtPieces σ st).length ≤ fuel → kindAt 0 next ≠ .elseKw →
    Reads (statement fuel) (stmtPieces σ st ++ next) next fun st' => unspannedStmt st' = unspannedStmt st

/-- Statements are read from their tokens up to the brace behind them. -/
def StmtsRead (σ : Style) (ss : List Stmt) : Prop :=
  ∀ fuel next, 16 * (stmtsPieces σ ss).length + 8 ≤ fuel → kindAt 0 next = .rbrace →
    Reads (statements fuel) (stmtsPieces σ ss ++ next) next fun ss' => unspannedStmts ss' = unspannedStmts ss

def BlockRead (σ : Style) (b : Block) : Prop :=
  ∀ fuel next, 16 * (blockPieces σ b).length ≤ fuel →
    Reads (block fuel) (blockPieces σ b ++ next) next fun b' => unspannedBlock b' = unspannedBlock b

def starters : List Kind := [.ident, .cin, .cout, .ifKw, .whileKw, .returnKw]

theorem of_starters : ∀ kind ∈ starters, kind ≠ .rbrace ∧ kind ≠ .eof ∧ kind ≠ .elseKw ∧
    kind ≠ .structKw ∧ kind.isTypeWord = false := by
  decide

theorem kindAt_location (hlocation : e.isLocation) (hraw : Raw lit e) : kindAt 0 (exprPieces σ e) = .ident := by
  obtain ⟨name, rest, heq, -⟩ := location_pieces σ e hlocation hraw
  rw [heq]
  rfl

/-- The statements that start with an expression, and the sign that may stand behind it. -/
inductive Led : Stmt → Expr → List Piece → Prop where
  | assign (span : Option Span) (note : Note) (target value : Expr) :
    Led (.assign span (.assign note target value)) (.assign note target value) []
  | call (span : Option Span) (note : Note) (callee : Ident) (args : List Expr) :
    Led (.call span (.call note callee args)) (.call note callee args) []
  | increment (span : Option Span) {e : Expr} (h : e.isLocation) :
    Led (.increment span e) e [fixed .plusPlus]
  | decrement (span : Option Span) {e : Expr} (h : e.isLocation) :
    Led (.decrement span e) e [fixed .minusMinus]

theorem Led.pieces {sign : List Piece} (h : Led st e sign) :
    stmtPieces σ st = (exprPieces σ e ++ sign) ++ [fixed .semi] := by
  cases h <;> simp [stmtPieces]

/-- The expression that a statement starts with starts with a name. -/
theorem Led.front {sign : List Piece} (h : Led st e sign) (hraw : Raw lit e) :
    kindAt 0 (exprPieces σ e) = .ident := by
  cases h with
  | assign span note target value =>
    have hne : exprPieces σ target ≠ [] := (exprRead_location hraw.2.1 hraw.2.2.1).nonempty
    rw [exprPieces, kindAt_append hne]
    exact kindAt_location hraw.2.1 hraw.2.2.1
  | call span note callee args =>
    rw [exprPieces]
    rfl
  | increment span hlocation => exact kindAt_location hlocation hraw
  | decrement span hlocation => exact kindAt_location hlocation hraw

theorem Led.reads {sign : List Piece} (h : Led st e sign) (hraw : Raw lit e) {fuel : Nat}
    (hfuel : 16 * (exprPieces σ e).length ≤ fuel) :
    Reads (simpleStmt fuel) ((exprPieces σ e ++ sign) ++ fixed .semi :: next) (fixed .semi :: next)
      fun make => ∀ span, unspannedStmt (make span) = unspannedStmt st := by
  have hread := exprRead σ e hraw
  have hfront : kindAt 0 (exprPieces σ e ++ (sign ++ fixed .semi :: next)) = .ident := by
    rw [kindAt_append hread.nonempty]
    exact h.front hraw
  have hends : Stops 0 (sign ++ fixed .semi :: next) := by
    cases h <;> exact stops_of_ends rfl
  rw [List.append_assoc]
  refine Reads.accept_neg (by rw [hfront]; decide) (.ite_neg (by decide) ?_)
  refine Reads.accept_neg (by rw [hfront]; decide) (.ite_neg (by decide) ?_)
  refine Reads.accept_neg (by rw [hfront]; decide) (.ite_neg (by decide) ?_)
  refine (hread.at (Nat.zero_le _) (Nat.zero_le 6) fuel _ hfuel hends).seq fun e' he' => ?_
  refine Reads.peek fun t ht => ?_
  cases h with
  | assign span note target value =>
    have ht : t.kind = .semi := ht
    refine .ite_neg (by rw [ht]; decide) ?_
    cases e' with
    | assign => exact .pure fun span => by rw [unspannedStmt, unspannedStmt, he']
    | _ => simp [unspanned] at he'
  | call span note callee args =>
    have ht : t.kind = .semi := ht
    refine .ite_neg (by rw [ht]; decide) ?_
    cases e' with
    | call => exact .pure fun span => by rw [unspannedStmt, unspannedStmt, he']
    | _ => simp [unspanned] at he'
  | increment span hlocation =>
    have ht : t.kind = .plusPlus := ht
    refine .ite_pos (by rw [ht]; decide) (Reads.advance fun _ _ => .ite_neg ?_ (.ite_pos ht ?_))
    · rw [isLocation_of_same he', hlocation]
      decide
    · exact .pure fun span => by rw [unspannedStmt, unspannedStmt, he']
  | decrement span hlocation =>
    have ht : t.kind = .minusMinus := ht
    refine .ite_pos (by rw [ht]; decide) (Reads.advance fun _ _ => .ite_neg ?_ (.ite_neg ?_ ?_))
    · rw [isLocation_of_same he', hlocation]
      decide
    · rw [ht]
      decide
    · exact .pure fun span => by rw [unspannedStmt, unspannedStmt, he']

/-- What is read up to the semicolon is read as a statement. -/
theorem stmtRead_simple (ps : List Piece) (hpieces : stmtPieces σ st = ps ++ [fixed .semi])
    (hne : ps ≠ []) (hif : kindAt 0 ps ≠ .ifKw) (hwhile : kindAt 0 ps ≠ .whileKw)
    (h : ∀ fuel next, 16 * ps.length ≤ fuel → Reads (simpleStmt fuel) (ps ++ fixed .semi :: next)
      (fixed .semi :: next) fun make => ∀ span, unspannedStmt (make span) = unspannedStmt st) :
    StmtRead σ st := by
  intro fuel next hfuel _
  rw [hpieces] at hfuel ⊢
  simp only [List.length_append, List.length_cons, List.length_nil] at hfuel
  obtain ⟨f, rfl⟩ : ∃ f, fuel = f + 1 := ⟨fuel - 1, by omega⟩
  rw [statement, List.append_assoc]
  refine Reads.peek fun first hfirst => ?_
  rw [kindAt_append hne] at hfirst
  split
  · exact absurd (hfirst.symm.trans (by assumption)) hif
  · exact absurd (hfirst.symm.trans (by assumption)) hwhile
  · refine (h f next (by omega)).seq fun make hmake => ?_
    exact Reads.expect (p := fixed .semi) fun _ _ => Reads.spanFrom fun span => .pure (hmake span)

theorem stmtRead_led {sign : List Piece} (h : Led st e sign) (hraw : Raw lit e) : StmtRead σ st := by
  have hne := (exprRead σ e hraw).nonempty
  have hfront : kindAt 0 (exprPieces σ e ++ sign) = .ident := by
    rw [kindAt_append hne]
    exact h.front hraw
  refine stmtRead_simple _ h.pieces (by simp [hne]) (by rw [hfront]; decide) (by rw [hfront]; decide) ?_
  intro fuel next hfuel
  rw [List.length_append] at hfuel
  exact h.reads hraw (by omega)

theorem stmtRead_read {span : Option Span} (hlocation : e.isLocation) (hraw : Raw lit e) :
    StmtRead σ (.read span e) := by
  refine stmtRead_simple (fixed .cin :: fixed .read :: exprPieces σ e) (by rw [stmtPieces])
    (by simp) (by simp) (by simp) fun fuel next hfuel => ?_
  simp only [List.length_cons] at hfuel
  refine Reads.accept_neg (by simp) (.ite_neg (by decide) ?_)
  refine Reads.accept_pos (p := fixed .cin) (.ite_pos rfl ?_)
  refine Reads.expect (p := fixed .read) fun _ _ => ?_
  refine (reads_place hlocation hraw (by omega) (by simp)).seq fun e' he' => .pure fun span' => ?_
  rw [unspannedStmt, unspannedStmt, he']

theorem reads_operand (hread : ExprRead e (exprPieces σ e)) {fuel : Nat}
    (hfuel : 16 * (operandPieces σ e).length ≤ fuel) (hnext : joins (kindAt 0 next) = none) :
    Reads (Parser.expr fuel) (operandPieces σ e ++ next) next fun e' => unspanned e' = unspanned e :=
  hread.grouped (Nat.zero_le 6) fuel next hfuel (stops_of_ends hnext)

theorem stmtRead_write {span : Option Span} (hread : ExprRead e (exprPieces σ e)) :
    StmtRead σ (.write span e) := by
  refine stmtRead_simple (fixed .cout :: fixed .write :: operandPieces σ e) (by rw [stmtPieces])
    (by simp) (by simp) (by simp) fun fuel next hfuel => ?_
  simp only [List.length_cons] at hfuel
  refine Reads.accept_neg (by simp) (.ite_neg (by decide) ?_)
  refine Reads.accept_neg (by simp) (.ite_neg (by decide) ?_)
  refine Reads.accept_pos (p := fixed .cout) (.ite_pos rfl ?_)
  refine Reads.expect (p := fixed .write) fun _ _ => ?_
  refine (reads_operand hread (by omega) rfl).seq fun e' he' => .pure fun span' => ?_
  rw [unspannedStmt, unspannedStmt, he']

theorem stmtRead_ret_none {span : Option Span} : StmtRead σ (.ret span none) := by
  refine stmtRead_simple [fixed .returnKw] (by rw [stmtPieces]; rfl) (by simp) (by decide) (by decide)
    fun fuel next _ => ?_
  refine Reads.accept_pos (p := fixed .returnKw) (.ite_pos rfl ?_)
  exact Reads.peek fun t ht => .ite_pos ht (.pure fun span' => by rw [unspannedStmt, unspannedStmt])

theorem stmtRead_ret_some {span : Option Span} (hread : ExprRead e (exprPieces σ e)) :
    StmtRead σ (.ret span (some e)) := by
  refine stmtRead_simple (fixed .returnKw :: operandPieces σ e) (by rw [stmtPieces])
    (by simp) (by simp) (by simp) fun fuel next hfuel => ?_
  rw [List.length_cons] at hfuel
  have hopens : kindAt 0 (operandPieces σ e ++ fixed .semi :: next) ∈ openers := by
    rw [operandPieces, kindAt_append (grouped_ne_nil hread.nonempty 0)]
    exact hread.groupedOpens 0
  refine Reads.accept_pos (p := fixed .returnKw) (.ite_pos rfl (Reads.peek fun t ht => .ite_neg ?_ ?_))
  · intro hsemi
    have ht : t.kind = kindAt 0 (operandPieces σ e ++ fixed .semi :: next) := ht
    rw [← ht, hsemi] at hopens
    exact absurd hopens (by decide)
  · refine (reads_operand hread (by omega) rfl).seq fun e' he' => .pure fun span' => ?_
    rw [unspannedStmt, unspannedStmt, Option.map_some, Option.map_some, he']

/-- A condition in its parentheses is read. -/
theorem reads_condition {β : Type} {Q : β → Prop} {f : Expr → ParseM β} {what what' : ParseError.Expectation}
    (hread : ExprRead cond (exprPieces σ cond)) {fuel : Nat}
    (hfuel : 16 * (operandPieces σ cond).length ≤ fuel)
    (hf : ∀ cond', unspanned cond' = unspanned cond → Reads (f cond') next after Q) :
    Reads (do
      let _ ← expect .lparen what
      let cond ← Parser.expr fuel
      let _ ← expect .rparen what'
      f cond) (fixed .lparen :: operandPieces σ cond ++ fixed .rparen :: next) after Q := by
  refine Reads.expect (p := fixed .lparen) fun _ _ => ?_
  refine (reads_operand hread hfuel rfl).seq fun cond' hcond' => ?_
  exact Reads.expect (p := fixed .rparen) fun _ _ => hf cond' hcond'

theorem stmtRead_ifThen {span : Option Span} (hcond : ExprRead cond (exprPieces σ cond))
    (hbody : BlockRead σ body) : StmtRead σ (.ifThen span cond body) := by
  intro fuel next hfuel hnext
  rw [stmtPieces] at hfuel ⊢
  simp only [List.length_append, List.length_cons] at hfuel
  obtain ⟨f, rfl⟩ : ∃ f, fuel = f + 1 := ⟨fuel - 1, by omega⟩
  rw [statement, List.append_assoc]
  refine Reads.look (p := fixed .ifKw) fun first hfirst => ?_
  have hkind : first.kind = .ifKw := congrArg Piece.kind hfirst
  rw [hkind]
  refine Reads.advance fun _ _ => reads_condition hcond (by omega) fun cond' hcond' => ?_
  refine (hbody f next (by omega)).seq fun body' hbody' => ?_
  refine Reads.accept_neg hnext (.ite_neg (by decide) (Reads.spanFrom fun span' => .pure ?_))
  rw [unspannedStmt, unspannedStmt, hcond', hbody']

theorem stmtRead_ifElse {span : Option Span} (hcond : ExprRead cond (exprPieces σ cond))
    (hbody : BlockRead σ body) (hother : BlockRead σ other) : StmtRead σ (.ifElse span cond body other) := by
  intro fuel next hfuel _
  rw [stmtPieces] at hfuel ⊢
  simp only [List.length_append, List.length_cons] at hfuel
  obtain ⟨f, rfl⟩ : ∃ f, fuel = f + 1 := ⟨fuel - 1, by omega⟩
  rw [statement]
  simp only [List.cons_append, List.append_assoc]
  refine Reads.look (p := fixed .ifKw) fun first hfirst => ?_
  have hkind : first.kind = .ifKw := congrArg Piece.kind hfirst
  rw [hkind]
  refine Reads.advance fun _ _ => reads_condition hcond (by omega) fun cond' hcond' => ?_
  refine (hbody f _ (by omega)).seq fun body' hbody' => ?_
  refine Reads.accept_pos (p := fixed .elseKw) (.ite_pos rfl ?_)
  refine (hother f next (by omega)).seq fun other' hother' => Reads.spanFrom fun span' => .pure ?_
  rw [unspannedStmt, unspannedStmt, hcond', hbody', hother']

theorem stmtRead_loop {span : Option Span} (hcond : ExprRead cond (exprPieces σ cond))
    (hbody : BlockRead σ body) : StmtRead σ (.loop span cond body) := by
  intro fuel next hfuel _
  rw [stmtPieces] at hfuel ⊢
  simp only [List.length_append, List.length_cons] at hfuel
  obtain ⟨f, rfl⟩ : ∃ f, fuel = f + 1 := ⟨fuel - 1, by omega⟩
  rw [statement, List.append_assoc]
  refine Reads.look (p := fixed .whileKw) fun first hfirst => ?_
  have hkind : first.kind = .whileKw := congrArg Piece.kind hfirst
  rw [hkind]
  refine Reads.advance fun _ _ => reads_condition hcond (by omega) fun cond' hcond' => ?_
  refine (hbody f next (by omega)).seq fun body' hbody' => Reads.spanFrom fun span' => .pure ?_
  rw [unspannedStmt, unspannedStmt, hcond', hbody']

theorem stmtPieces_front (hraw : RawStmt lit st) : kindAt 0 (stmtPieces σ st) ∈ starters := by
  have hled : ∀ {e sign}, Led st e sign → Raw lit e → kindAt 0 (stmtPieces σ st) ∈ starters := by
    intro e sign h hraw
    have hne := (exprRead σ e hraw).nonempty
    rw [h.pieces, List.append_assoc, kindAt_append hne, h.front hraw]
    decide
  cases st with
  | assign span e =>
    obtain ⟨⟨note, target, value, rfl⟩, hraw⟩ := hraw
    exact hled (.assign ..) hraw
  | call span e =>
    obtain ⟨⟨note, callee, args, rfl⟩, hraw⟩ := hraw
    exact hled (.call ..) hraw
  | increment span e => exact hled (.increment span hraw.1) hraw.2
  | decrement span e => exact hled (.decrement span hraw.1) hraw.2
  | read | write | ifThen | ifElse | loop => simp [stmtPieces, starters]
  | ret span value => cases value <;> simp [stmtPieces, starters]
  | misfit => exact hraw.elim

theorem stmtPieces_ne (hraw : RawStmt lit st) : stmtPieces σ st ≠ [] := by
  intro hnil
  have hfront : kindAt 0 (stmtPieces σ st) ∈ starters := stmtPieces_front hraw
  rw [hnil] at hfront
  exact absurd hfront (by decide)

/-- The first token after a statement, or after the declarations of a block. -/
theorem stmtsPieces_front {ss : List Stmt} (hraw : RawStmts lit ss) (hnext : kindAt 0 next = .rbrace) :
    kindAt 0 (stmtsPieces σ ss ++ next) = .rbrace ∨ kindAt 0 (stmtsPieces σ ss ++ next) ∈ starters := by
  cases ss with
  | nil =>
    rw [stmtsPieces]
    exact .inl hnext
  | cons st ss =>
    rw [stmtsPieces, List.append_assoc, kindAt_append (stmtPieces_ne hraw.1)]
    exact .inr (stmtPieces_front hraw.1)

theorem stmtsRead_nil : StmtsRead σ [] := by
  intro fuel next hfuel hnext
  obtain ⟨f, rfl⟩ : ∃ f, fuel = f + 1 := ⟨fuel - 1, by omega⟩
  rw [statements, stmtsPieces]
  exact Reads.kindAhead (.ite_pos hnext (.pure rfl))

theorem stmtsRead_cons {ss : List Stmt} (hraw : RawStmt lit st) (hraws : RawStmts lit ss)
    (hst : StmtRead σ st) (hss : StmtsRead σ ss) : StmtsRead σ (st :: ss) := by
  intro fuel next hfuel hnext
  have hfront : kindAt 0 (stmtPieces σ st) ∈ starters := stmtPieces_front hraw
  have hne : stmtPieces σ st ≠ [] := stmtPieces_ne hraw
  have hlength := List.length_pos_iff.mpr hne
  rw [stmtsPieces, List.length_append] at hfuel
  obtain ⟨f, rfl⟩ : ∃ f, fuel = f + 1 := ⟨fuel - 1, by omega⟩
  have helse : kindAt 0 (stmtsPieces σ ss ++ next) ≠ .elseKw := by
    rcases stmtsPieces_front (σ := σ) hraws hnext with hbrace | hmem
    · rw [hbrace]
      decide
    · exact (of_starters _ hmem).2.2.1
  obtain ⟨hbrace, heof, -, hstruct, hword⟩ := of_starters _ hfront
  rw [statements, stmtsPieces, List.append_assoc]
  rw [← kindAt_append hne (stmtsPieces σ ss ++ next)] at hbrace heof hstruct hword
  refine Reads.kindAhead (.ite_neg hbrace (.ite_neg heof ?_))
  refine Reads.atVarDecl_neg hword hstruct (.ite_neg (by decide) ?_)
  refine (hst f _ (by omega) helse).seq fun st' hst' => ?_
  refine (hss f next (by omega) hnext).seq fun ss' hss' => .pure ?_
  rw [unspannedStmts, unspannedStmts, hst', hss']

theorem blockRead_mk {span : Option Span} {decls : List VarDecl} {ss : List Stmt}
    (hdecls : ∀ d ∈ decls, RawVar d) (hraws : RawStmts lit ss) (hss : StmtsRead σ ss) :
    BlockRead σ (.mk span decls ss) := by
  intro fuel next hfuel
  have hcount := length_varPieces decls
  rw [blockPieces] at hfuel ⊢
  simp only [List.length_append, List.length_cons, List.length_nil] at hfuel
  obtain ⟨f, rfl⟩ : ∃ f, fuel = f + 1 := ⟨fuel - 1, by omega⟩
  have hfront : (kindAt 0 (stmtsPieces σ ss ++ fixed .rbrace :: next)).isTypeWord = false ∧
      kindAt 0 (stmtsPieces σ ss ++ fixed .rbrace :: next) ≠ .structKw := by
    have hend : kindAt 0 (fixed .rbrace :: next) = .rbrace := rfl
    rcases stmtsPieces_front (σ := σ) hraws hend with hbrace | hmem
    · rw [hbrace]
      decide
    · exact ⟨(of_starters _ hmem).2.2.2.2, (of_starters _ hmem).2.2.2.1⟩
  rw [block]
  simp only [List.cons_append, List.append_assoc]
  refine Reads.peek fun first _ => Reads.expect (p := fixed .lbrace) fun _ _ => ?_
  refine (reads_varDecls hdecls (by omega) hfront.1 hfront.2).seq fun decls' hdecls' => ?_
  refine (hss f _ (by omega) rfl).seq fun ss' hss' => ?_
  refine Reads.expect (p := fixed .rbrace) fun _ _ => Reads.spanFrom fun span' => .pure ?_
  rw [unspannedBlock, unspannedBlock, hdecls', hss']

mutual

/-- Statements that the grammar makes are read from the tokens that they are written by. -/
theorem stmtRead (σ : Style) : (st : Stmt) → RawStmt lit st → StmtRead σ st
  | .assign span e, hraw => by
    obtain ⟨⟨note, target, value, rfl⟩, hraw⟩ := hraw
    exact stmtRead_led (.assign ..) hraw
  | .call span e, hraw => by
    obtain ⟨⟨note, callee, args, rfl⟩, hraw⟩ := hraw
    exact stmtRead_led (.call ..) hraw
  | .increment span e, hraw => stmtRead_led (.increment span hraw.1) hraw.2
  | .decrement span e, hraw => stmtRead_led (.decrement span hraw.1) hraw.2
  | .read span e, hraw => stmtRead_read hraw.1 hraw.2
  | .write span e, hraw => stmtRead_write (exprRead σ e hraw)
  | .ifThen span cond body, hraw => stmtRead_ifThen (exprRead σ cond hraw.1) (blockRead σ body hraw.2)
  | .ifElse span cond body other, hraw =>
    stmtRead_ifElse (exprRead σ cond hraw.1) (blockRead σ body hraw.2.1) (blockRead σ other hraw.2.2)
  | .loop span cond body, hraw => stmtRead_loop (exprRead σ cond hraw.1) (blockRead σ body hraw.2)
  | .ret span none, _ => stmtRead_ret_none
  | .ret span (some e), hraw => stmtRead_ret_some (exprRead σ e hraw)
  | .misfit span kind, hraw => hraw.elim

/-- Runs of statements that the grammar makes are read from the tokens that they are written by. -/
theorem stmtsRead (σ : Style) : (ss : List Stmt) → RawStmts lit ss → StmtsRead σ ss
  | [], _ => stmtsRead_nil
  | st :: ss, hraw => stmtsRead_cons hraw.1 hraw.2 (stmtRead σ st hraw.1) (stmtsRead σ ss hraw.2)

/-- Blocks that the grammar makes are read from the tokens that they are written by. -/
theorem blockRead (σ : Style) : (b : Block) → RawBlock lit b → BlockRead σ b
  | .mk _ _ ss, hraw => blockRead_mk hraw.1 hraw.2 (stmtsRead σ ss hraw.2)

end

end Statements

section Programs

variable {lit : String → Prop} {σ : Style} {next : List Piece}

theorem length_formals (ds : List VarDecl) : ds.length ≤ (listed (ds.map formalPieces)).length := by
  induction ds with
  | nil => exact Nat.le_refl 0
  | cons d ds ih =>
    by_cases hlast : ds = []
    · subst hlast
      simp [listed, formalPieces]
    · rw [List.map_cons, listed_cons (by simpa using hlast)]
      simp only [List.length_append, List.length_cons]
      omega

theorem formals_front {d : VarDecl} (h : RawFormal d) (ds : List VarDecl) (next : List Piece) :
    (kindAt 0 (listed ((d :: ds).map formalPieces) ++ next)).isTypeWord := by
  obtain ⟨hpieces, hword⟩ := typePieces_word h.type
  have hfront : ∃ rest, listed ((d :: ds).map formalPieces) = ⟨.ofWord d.type.name, d.type.name⟩ :: rest := by
    by_cases hlast : ds = []
    · subst hlast
      exact ⟨[word d.name.name], by simp [listed, formalPieces, hpieces]⟩
    · rw [List.map_cons, listed_cons (by simpa using hlast), formalPieces, hpieces]
      exact ⟨_, rfl⟩
  obtain ⟨rest, heq⟩ := hfront
  rw [heq]
  exact hword

/-- A function is read from the parenthesis behind its name on. -/
theorem reads_function {d : FnDecl} (hraw : RawDecl lit (.fn d)) {first name : Token} {result : TypeName}
    (hresult : unspannedType result = unspannedType d.result) (hname : exactly name = word d.name.name)
    {fuel : Nat} (hfuel : 16 * (declPieces σ (.fn d)).length ≤ fuel) :
    Reads (function fuel first result name) (fixed .lparen :: (listed (d.formals.map formalPieces) ++
        fixed .rparen :: (blockPieces σ d.body ++ next))) next
      fun d' => unspannedDecl (.fn d') = unspannedDecl (.fn d) := by
  obtain ⟨hident, -, hformals, hbody⟩ := hraw
  have hcount := length_formals d.formals
  simp only [declPieces, List.length_append, List.length_cons] at hfuel
  have hrest : ∀ params, params.map unspannedVar = d.formals.map unspannedVar → Reads (do
      let _ ← expect .rparen .parametersEnd
      let body ← block fuel
      return { span := ← spanFrom first, result, name := identOf name, formals := params, body })
      (fixed .rparen :: (blockPieces σ d.body ++ next)) next
      fun d' => unspannedDecl (.fn d') = unspannedDecl (.fn d) := by
    intro params hparams
    refine Reads.expect (p := fixed .rparen) fun _ _ => ?_
    refine (blockRead σ d.body hbody fuel next (by omega)).seq fun body hsame => ?_
    refine Reads.spanFrom fun span => .pure ?_
    simp only [unspannedDecl, hresult, hparams, hsame, unspannedIdent_identOf hident hname]
  refine Reads.advance fun _ _ => Reads.peek fun t ht => ?_
  cases hcases : d.formals with
  | nil =>
    rw [hcases] at ht hrest
    exact .ite_pos ht (hrest [] rfl)
  | cons f fs =>
    rw [hcases] at hformals hcount ht hrest hfuel
    have hfront := formals_front (List.forall_mem_cons.mp hformals).1 fs
      (fixed .rparen :: (blockPieces σ d.body ++ next))
    refine .ite_neg ?_ ((reads_formals hformals (by simp) (by omega) (by simp)).seq hrest)
    intro hparen
    rw [← ht, hparen] at hfront
    cases hfront

/-- A struct is read from its tokens. -/
theorem reads_structDecl {d : StructDecl} (hraw : RawDecl lit (.struct d)) {fuel : Nat}
    (hfuel : 16 * (declPieces σ (.struct d)).length ≤ fuel) :
    Reads (structDecl fuel) (declPieces σ (.struct d) ++ next) next
      fun d' => unspannedDecl (.struct d') = unspannedDecl (.struct d) := by
  obtain ⟨hident, hne, hfields⟩ := hraw
  have hcount := length_varPieces d.fields
  rw [declPieces] at hfuel ⊢
  simp only [List.length_append, List.length_cons] at hfuel
  simp only [List.cons_append, List.append_assoc]
  refine Reads.peek fun first _ => Reads.advance fun _ _ => ?_
  refine Reads.expect (p := word d.name.name) fun name hname => Reads.advance fun _ _ => ?_
  refine (reads_fields hfields (by omega) (by rfl)).seq fun members hmembers => .ite_neg ?_ ?_
  · intro hempty
    rw [List.isEmpty_iff.mp hempty] at hmembers
    exact hne (List.map_eq_nil_iff.mp hmembers.symm)
  · refine Reads.advance fun _ _ => Reads.expect (p := fixed .semi) fun _ _ => ?_
    refine Reads.spanFrom fun span => .pure ?_
    simp only [unspannedDecl, hmembers, unspannedIdent_identOf hident hname]

/-- A global variable is read from its tokens. -/
theorem reads_global {d : VarDecl} (hraw : RawVar d) (fuel : Nat) :
    Reads (decl fuel) (varPieces d ++ next) next
      fun d' => unspannedDecl d' = unspannedDecl (.var d) := by
  refine Reads.peek fun first hfirst => ?_
  cases hstruct : d.type.isStruct with
  | true =>
    have hpieces : varPieces d = [fixed .structKw, word d.type.name, word d.name.name, fixed .semi] := by
      simp [varPieces, formalPieces, typePieces, hstruct]
    have hkind : first.kind = .structKw := by
      rw [hfirst, hpieces]
      rfl
    refine .ite_pos hkind (Reads.kindAhead (.ite_neg ?_ ((reads_varDecl hraw).seq fun d' hd' => .pure ?_)))
    · rw [hpieces]
      exact (by decide : Kind.ident ≠ Kind.lbrace)
    · rw [unspannedDecl, unspannedDecl, hd']
  | false =>
    have hword : RawWord d.type := ⟨hraw.type hstruct, hstruct⟩
    obtain ⟨hpieces, htype⟩ := typePieces_word hword
    have hkind : first.kind = .ofWord d.type.name := by
      rw [hfirst, varPieces, formalPieces, hpieces]
      rfl
    rw [← hkind] at htype
    refine .ite_neg (fun hk => ?_) (.ite_pos htype ?_)
    · rw [hk] at htype
      cases htype
    rw [varPieces, formalPieces, List.append_assoc, List.append_assoc]
    refine (reads_typeWord hword).seq fun type hsame => ?_
    refine Reads.expect (p := word d.name.name) fun name hname => Reads.peek fun t ht => ?_
    refine .ite_neg (by rw [ht]; exact (by decide : Kind.semi ≠ Kind.lparen)) ?_
    refine Reads.expect (p := fixed .semi) fun _ _ => Reads.spanFrom fun span => .pure ?_
    simp only [unspannedDecl, unspannedVar, hsame, unspannedIdent_identOf hraw.name hname]

/-- Declarations that the grammar makes are read from the tokens that they are written by. -/
theorem reads_decl {d : Decl} (hraw : RawDecl lit d) {fuel : Nat}
    (hfuel : 16 * (declPieces σ d).length ≤ fuel) :
    Reads (decl fuel) (declPieces σ d ++ next) next fun d' => unspannedDecl d' = unspannedDecl d := by
  cases d with
  | var d => exact reads_global hraw fuel
  | struct d =>
    have hread : Reads (structDecl fuel) (declPieces σ (.struct d) ++ next) next
        fun d' => unspannedDecl (.struct d') = unspannedDecl (.struct d) := reads_structDecl hraw hfuel
    refine Reads.peek fun first hfirst => .ite_pos hfirst (Reads.kindAhead (.ite_pos ?_ ?_))
    · rw [declPieces]
      rfl
    · exact hread.seq fun d' hd' => .pure hd'
  | fn d =>
    obtain ⟨hpieces, hword⟩ := typePieces_word hraw.2.1
    refine Reads.peek fun first hfirst => ?_
    have hkind : first.kind = .ofWord d.result.name := by
      rw [hfirst, declPieces, hpieces]
      rfl
    rw [← hkind] at hword
    refine .ite_neg (fun hk => ?_) (.ite_pos hword ?_)
    · rw [hk] at hword
      cases hword
    have hread := @reads_function lit σ next d hraw
    simp only [declPieces, List.cons_append, List.append_assoc]
    refine (reads_typeWord hraw.2.1).seq fun result hresult => ?_
    refine Reads.expect (p := word d.name.name) fun name hname => Reads.peek fun t ht => .ite_pos ht ?_
    exact (hread hresult hname hfuel).seq fun d' hd' => .pure hd'
  | misfit span kind => exact hraw.elim

theorem declPieces_front {d : Decl} (hraw : RawDecl lit d) (next : List Piece) :
    declPieces σ d ≠ [] ∧ kindAt 0 (declPieces σ d ++ next) ≠ .eof := by
  cases d with
  | var d =>
    refine ⟨by simp [declPieces, varPieces], fun heof => ?_⟩
    rcases varPieces_front hraw next with hword | ⟨hstruct, -⟩
    · rw [declPieces] at heof
      rw [heof] at hword
      cases hword
    · rw [declPieces, hstruct] at heof
      cases heof
  | struct d => exact ⟨by simp [declPieces], by simp [declPieces]⟩
  | fn d =>
    obtain ⟨hpieces, hword⟩ := typePieces_word hraw.2.1
    refine ⟨by simp [declPieces], fun heof => ?_⟩
    rw [declPieces, hpieces] at heof
    have heof : Kind.ofWord d.result.name = .eof := heof
    rw [heof] at hword
    cases hword
  | misfit span kind => exact hraw.elim

theorem reads_declarations {ds : List Decl} (hraw : ∀ d ∈ ds, RawDecl lit d) {depth fuel : Nat}
    (hdepth : 16 * (ds.flatMap (declPieces σ)).length ≤ depth) (hfuel : ds.length < fuel) :
    Reads (declarations depth fuel) (ds.flatMap (declPieces σ)) []
      fun ds' => ds'.map unspannedDecl = ds.map unspannedDecl := by
  induction ds generalizing fuel with
  | nil =>
    obtain ⟨f, rfl⟩ : ∃ f, fuel = f + 1 := ⟨fuel - 1, by omega⟩
    rw [declarations]
    exact Reads.peek fun t ht => .ite_pos ht (.pure rfl)
  | cons d ds ih =>
    obtain ⟨hd, hds⟩ := List.forall_mem_cons.mp hraw
    rw [List.length_cons] at hfuel
    obtain ⟨f, rfl⟩ : ∃ f, fuel = f + 1 := ⟨fuel - 1, by omega⟩
    rw [List.flatMap_cons, List.length_append] at hdepth
    rw [declarations, List.flatMap_cons]
    refine Reads.peek fun t ht => .ite_neg (ht ▸ (declPieces_front hd _).2) ?_
    refine (reads_decl hd (by omega)).seq fun d' hd' => ?_
    refine (ih hds (by omega) (by omega)).seq fun ds' hds' => .pure ?_
    simp [hd', hds']

theorem length_declPieces {ds : List Decl} (hraw : ∀ d ∈ ds, RawDecl lit d) :
    ds.length ≤ (ds.flatMap (declPieces σ)).length := by
  induction ds with
  | nil => exact Nat.le_refl 0
  | cons d ds ih =>
    obtain ⟨hd, hds⟩ := List.forall_mem_cons.mp hraw
    have hpos := List.length_pos_iff.mpr (declPieces_front (σ := σ) hd []).1
    have hmore := ih hds
    rw [List.flatMap_cons, List.length_append, List.length_cons]
    omega

end Programs

section Written

def AllWritable (ps : List Piece) : Prop := ∀ p ∈ ps, Writable p

/-- What stands between the quotes of a string literal. -/
abbrev quoted (text : String) : Prop := Literal text.toList

@[simp] theorem allWritable_nil : AllWritable [] := by simp [AllWritable]

@[simp] theorem allWritable_cons {p : Piece} {ps : List Piece} :
    AllWritable (p :: ps) ↔ Writable p ∧ AllWritable ps := List.forall_mem_cons

@[simp] theorem allWritable_append {ps qs : List Piece} :
    AllWritable (ps ++ qs) ↔ AllWritable ps ∧ AllWritable qs := List.forall_mem_append

@[simp] theorem writable_word {name : String} : Writable (word name) ↔ IsName name := Iff.rfl

theorem writable_fixed {kind : Kind} (h : kind ∉ [.ident, .int, .string, .eof]) : Writable (fixed kind) := by
  cases kind <;> first | rfl | exact absurd (by decide) h

theorem writable_numeral {v : Int} (hlow : 0 ≤ v) (hhigh : v ≤ maxLiteral) : Writable (numeral v) := by
  refine ⟨v.toNat, by omega, ?_⟩
  rw [Int.toNat_of_nonneg hlow]
  rfl

theorem writable_unarySign {op : UnaryOp} (h : op = .neg ∨ op = .not) : Writable (unarySign op) := by
  rcases h with rfl | rfl
  · exact writable_fixed (by decide)
  · exact writable_fixed (by decide)

theorem writable_binarySign {op : BinaryOp} (h : ∀ sign, op ≠ .other sign) : Writable (binarySign op) := by
  cases op with
  | other sign => exact absurd rfl (h sign)
  | _ => exact writable_fixed (by decide)

theorem writable_listed {parts : List (List Piece)} (h : ∀ part ∈ parts, AllWritable part) :
    AllWritable (listed parts) := by
  induction parts with
  | nil => exact allWritable_nil
  | cons part parts ih =>
    obtain ⟨hpart, hparts⟩ := List.forall_mem_cons.mp h
    by_cases hlast : parts = []
    · subst hlast
      exact hpart
    · rw [listed_cons hlast]
      exact allWritable_append.mpr ⟨hpart, allWritable_cons.mpr ⟨writable_fixed (by decide), ih hparts⟩⟩

variable {σ : Style}

theorem writable_grouped {place : Nat} {e : Expr} {ps : List Piece} (h : AllWritable ps) :
    AllWritable (grouped σ place e ps) := by
  have hparen : Writable (fixed .lparen) ∧ Writable (fixed .rparen) :=
    ⟨writable_fixed (by decide), writable_fixed (by decide)⟩
  rw [grouped]
  split
  · simp [h, hparen]
  · exact h

mutual

theorem writable_expr (e : Expr) (h : Raw quoted e) : AllWritable (exprPieces σ e) := by
  match e, h with
  | .int _ v, h => exact allWritable_cons.mpr ⟨writable_numeral h.2.1 h.2.2, allWritable_nil⟩
  | .string _ text, h => exact allWritable_cons.mpr ⟨h.2, allWritable_nil⟩
  | .bool _ true, _ => exact allWritable_cons.mpr ⟨writable_fixed (by decide), allWritable_nil⟩
  | .bool _ false, _ => exact allWritable_cons.mpr ⟨writable_fixed (by decide), allWritable_nil⟩
  | .ident x, h => exact allWritable_cons.mpr ⟨h.name, allWritable_nil⟩
  | .dot _ obj field _ _, h =>
    have hobj := writable_expr obj h.2.2.1
    rw [exprPieces]
    simp [hobj, h.2.2.2.1.name, writable_fixed]
  | .assign _ target value, h =>
    have htarget := writable_expr target h.2.2.1
    have hvalue := writable_expr value h.2.2.2
    rw [exprPieces]
    simp [htarget, writable_grouped hvalue, writable_fixed]
  | .call _ callee args, h =>
    have hargs := writable_listed (writable_args args h.2.2)
    rw [exprPieces]
    simp [h.2.1.name, hargs, writable_fixed]
  | .unary _ op operand, h =>
    have hoperand := writable_expr operand h.2.2
    rw [exprPieces]
    exact allWritable_cons.mpr ⟨writable_unarySign h.2.1, writable_grouped hoperand⟩
  | .binary _ op left right, h =>
    have hleft := writable_expr left h.2.2.1
    have hright := writable_expr right h.2.2.2
    rw [exprPieces]
    simp [writable_grouped hleft, writable_grouped hright, writable_binarySign h.2.1]

theorem writable_args (es : List Expr) (h : RawAll quoted es) :
    ∀ part ∈ argPieces σ es, AllWritable part := by
  match es, h with
  | [], _ => simp [argPieces]
  | e :: es, h =>
    rw [argPieces]
    exact List.forall_mem_cons.mpr ⟨writable_grouped (writable_expr e h.1), writable_args es h.2⟩

end

theorem writable_type {t : TypeName} (hword : t.isStruct = false → IsTypeWord t.name)
    (hstruct : t.isStruct = true → IsName t.name) : AllWritable (typePieces t) := by
  rw [typePieces]
  cases hkind : t.isStruct with
  | true => simp [hstruct hkind, writable_fixed]
  | false =>
    have hfixed : ∃ kind, (⟨.ofWord t.name, t.name⟩ : Piece) = fixed kind ∧
        kind ∉ [.ident, .int, .string, .eof] := by
      rcases hword hkind with hname | hname | hname
      · exact ⟨.intKw, by rw [hname]; decide, by decide⟩
      · exact ⟨.boolKw, by rw [hname]; decide, by decide⟩
      · exact ⟨.voidKw, by rw [hname]; decide, by decide⟩
    obtain ⟨kind, heq, hplain⟩ := hfixed
    simp [heq, writable_fixed hplain]

theorem writable_formal {d : VarDecl} (h : RawFormal d) : AllWritable (formalPieces d) := by
  have htype := writable_type (fun _ => h.type.word) fun hstruct => absurd hstruct (by simp [h.type.plain])
  simp [formalPieces, htype, h.name.name]

theorem writable_var {d : VarDecl} (h : RawVar d) : AllWritable (varPieces d) := by
  simp [varPieces, formalPieces, writable_type h.type h.struct, h.name.name, writable_fixed]

theorem writable_vars {ds : List VarDecl} (h : ∀ d ∈ ds, RawVar d) : AllWritable (ds.flatMap varPieces) := by
  intro p hp
  obtain ⟨d, hd, hmem⟩ := List.mem_flatMap.mp hp
  exact writable_var (h d hd) p hmem

theorem writable_operand {e : Expr} (h : Raw quoted e) : AllWritable (operandPieces σ e) :=
  writable_grouped (writable_expr e h)

mutual

theorem writable_stmt (st : Stmt) (h : RawStmt quoted st) : AllWritable (stmtPieces σ st) := by
  match st, h with
  | .assign _ e, h | .call _ e, h | .increment _ e, h | .decrement _ e, h | .read _ e, h =>
    rw [stmtPieces]
    simp [writable_expr e h.2, writable_fixed]
  | .write _ e, h | .ret _ (some e), h =>
    rw [stmtPieces]
    simp [writable_operand (e := e) h, writable_fixed]
  | .ifThen _ cond body, h | .loop _ cond body, h =>
    rw [stmtPieces]
    simp [writable_operand h.1, writable_block body h.2, writable_fixed]
  | .ifElse _ cond body other, h =>
    rw [stmtPieces]
    simp [writable_operand h.1, writable_block body h.2.1, writable_block other h.2.2, writable_fixed]
  | .ret _ none, _ =>
    rw [stmtPieces]
    simp [writable_fixed]

theorem writable_stmts (ss : List Stmt) (h : RawStmts quoted ss) : AllWritable (stmtsPieces σ ss) := by
  match ss, h with
  | [], _ => exact allWritable_nil
  | st :: ss, h => exact allWritable_append.mpr ⟨writable_stmt st h.1, writable_stmts ss h.2⟩

theorem writable_block (b : Block) (h : RawBlock quoted b) : AllWritable (blockPieces σ b) := by
  match b, h with
  | .mk _ decls stmts, h =>
    rw [blockPieces]
    simp [writable_vars h.1, writable_stmts stmts h.2, writable_fixed]

end

theorem writable_decl {d : Decl} (h : RawDecl quoted d) : AllWritable (declPieces σ d) := by
  cases d with
  | var d => exact writable_var h
  | struct d =>
    rw [declPieces]
    simp [h.1.name, writable_vars h.2.2, writable_fixed]
  | fn d =>
    obtain ⟨hname, hresult, hformals, hbody⟩ := h
    have htype := writable_type (fun _ => hresult.word) fun hstruct =>
      absurd hstruct (by simp [hresult.plain])
    have hlisted : AllWritable (listed (d.formals.map formalPieces)) :=
      writable_listed (List.forall_mem_map.mpr fun f hf => writable_formal (hformals f hf))
    rw [declPieces]
    simp [htype, hname.name, hlisted, writable_block d.body hbody, writable_fixed]
  | misfit span kind => exact h.elim

theorem writable_program {p : Program} (h : ∀ d ∈ p.decls, RawDecl quoted d) :
    AllWritable (programPieces σ p) := by
  intro q hq
  obtain ⟨d, hd, hmem⟩ := List.mem_flatMap.mp hq
  exact writable_decl (h d hd) q hmem

end Written

section Whole

/-- A program is read from the tokens that it is written by. -/
theorem ofTokens_printed {lit : String → Prop} {σ : Style} {p : Program} (h : ∀ d ∈ p.decls, RawDecl lit d)
    {ts : List Token} {eof : Token} (heof : eof.kind = .eof) (hts : ts.map exactly = programPieces σ p) :
    ∃ q, Program.ofTokens (ts ++ [eof]) = .ok q ∧ q.decls.map unspannedDecl = p.decls.map unspannedDecl := by
  have hlength : ts.length = (programPieces σ p).length := by rw [← hts, List.length_map]
  have hcount := length_declPieces (σ := σ) h
  have hfuel : fuelFor (ts ++ [eof]) = 16 * ((programPieces σ p).length + 2) := by
    simp [fuelFor, hlength]
  have hread : Reads (program (fuelFor (ts ++ [eof]))) (programPieces σ p) []
      fun q => q.decls.map unspannedDecl = p.decls.map unspannedDecl := by
    rw [hfuel]
    refine Reads.peek fun first _ => (reads_declarations h ?_ ?_).seq fun ds hds => ?_
    · rw [programPieces]
      omega
    · rw [programPieces]
      omega
    · exact Reads.spanFrom fun span => .pure hds
  have hstart : (Cursor.ofTokens (ts ++ [eof])).eof = eof ∧ (Cursor.ofTokens (ts ++ [eof])).rest = ts := by
    simp [Cursor.ofTokens]
  obtain ⟨q, c, hrun, -, -, hq⟩ := hread (Cursor.ofTokens (ts ++ [eof])) (by rw [hstart.1]; exact heof)
    (by rw [ahead, hstart.2]; exact hts)
  refine ⟨q, ?_, hq⟩
  have hmap : Program.ofTokens (ts ++ [eof]) =
      (program (fuelFor (ts ++ [eof])) (Cursor.ofTokens (ts ++ [eof]))).map Prod.fst := rfl
  rw [hmap, hrun]
  rfl

/-- Parsing undoes printing. A program of the grammar's shape that is written with spaces between its tokens
is read as the same program up to places, whichever operands stand in parentheses that need none. -/
theorem parsing_undoes_printing {p : Program} (h : ∀ d ∈ p.decls, RawDecl quoted d) (σ : Style) :
    ∃ tokens q, lex (textOf (programPieces σ p)) = .ok tokens ∧ Program.ofTokens tokens = .ok q ∧
      q.decls.map unspannedDecl = p.decls.map unspannedDecl := by
  obtain ⟨ts, eof, hlex, heof, hts⟩ := lex_textOf (writable_program (σ := σ) h) .start
  obtain ⟨q, hparse, hsame⟩ := ofTokens_printed h heof hts
  exact ⟨ts ++ [eof], q, hlex, hparse, hsame⟩

/-- A program with signs, comparisons and assignments within each other. -/
def nested : String :=
  "int g;struct P\x7bint x;bool y;\x7d;int f(int a)\x7bstruct P p;p.x=g=a-(a-1)*-(-a);" ++
    "if((a<g)==p.y||!p.y&&a==g)\x7bcout<<\"\\n\";\x7dreturn f((a));\x7d"

/-- How it is written with few parentheses. -/
def nestedSparse : String :=
  "int g ; struct P \x7b int x ; bool y ; \x7d ; int f ( int a ) \x7b struct P p ; " ++
    "p . x = g = a - ( a - 1 ) * - - a ; if ( ( a < g ) == p . y || ! p . y && a == g ) \x7b " ++
    "cout << \"\\n\" ; \x7d return f ( a ) ; \x7d"

/-- How it is written with all parentheses. -/
def nestedFull : String :=
  "int g ; struct P \x7b int x ; bool y ; \x7d ; int f ( int a ) \x7b struct P p ; " ++
    "p . x = ( g = ( a - ( ( a - 1 ) * ( - ( - a ) ) ) ) ) ; " ++
    "if ( ( ( ( a < g ) == p . y ) || ( ( ! p . y ) && ( a == g ) ) ) ) \x7b " ++
    "cout << \"\\n\" ; \x7d return f ( a ) ; \x7d"

theorem nested_is_read_back : ∃ p : Program, (∀ d ∈ p.decls, RawDecl quoted d) ∧
    textOf (programPieces .sparse p) = nestedSparse ∧ textOf (programPieces .full p) = nestedFull ∧
    ∀ text ∈ [nestedSparse, nestedFull], ∃ tokens q, lex text = .ok tokens ∧
      Program.ofTokens tokens = .ok q ∧ q.decls.map unspannedDecl = p.decls.map unspannedDecl := by
  have hread : Fidelity.readsAs nested fun p =>
      textOf (programPieces .sparse p) = nestedSparse ∧ textOf (programPieces .full p) = nestedFull := by
    decide +kernel
  obtain ⟨tokens, p, hlex, hparse, htexts⟩ := Fidelity.read_of_readsAs hread
  obtain ⟨hsparse, hfull⟩ := of_decide_eq_true htexts
  have hraw := raw_of_tokens (tokens_ok hlex) hparse
  refine ⟨p, hraw, hsparse, hfull, List.forall_mem_cons.mpr ⟨?_, List.forall_mem_singleton.mpr ?_⟩⟩
  · exact hsparse ▸ parsing_undoes_printing hraw .sparse
  · exact hfull ▸ parsing_undoes_printing hraw .full

end Whole

end CMinusMinus.Proofs.Printing
