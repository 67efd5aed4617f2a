import CMinusMinus.Proofs.Grammar
import CMinusMinus.Proofs.Printing

/-!
What is read is what was written. The parser takes all tokens of a text in order, and the tree that it
makes is written by the same tokens up to parentheses. Where a token is taken without a look at it, its
kind is known from an earlier look ahead.
-/
namespace CMinusMinus.Proofs.Fidelity

open Token Printing

/-- A token without its place. Numbers count by their values. -/
def pieceOf (t : Token) : Piece :=
  if t.kind = .int then numeral (Parser.literalValue t.text) else ⟨t.kind, t.text⟩

/-- The tokens that are no parentheses. -/
def plain (ps : List Piece) : List Piece := ps.filter fun p => p.kind != .lparen && p.kind != .rparen

section Plain

@[simp] theorem plain_nil : plain [] = [] := rfl

@[simp] theorem plain_append (ps qs : List Piece) : plain (ps ++ qs) = plain ps ++ plain qs :=
  List.filter_append ..

@[simp] theorem plain_cons (p : Piece) (ps : List Piece) : plain (p :: ps) =
    if p.kind != .lparen && p.kind != .rparen then p :: plain ps else plain ps := List.filter_cons

@[simp] theorem fixed_kind (kind : Kind) : (fixed kind).kind = kind := rfl

@[simp] theorem word_kind (name : String) : (word name).kind = .ident := rfl

@[simp] theorem plain_grouped (σ : Style) (place : Nat) (e : Expr) (ps : List Piece) :
    plain (grouped σ place e ps) = plain ps := by
  unfold grouped
  split
  · simp
  · rfl

end Plain

section Phrases

open Grammar Parser Phrases

variable {lit : String → Prop} {ι : Type} {i : ι} {t : Common ι} {ts us : List (Common ι)} {σ : Style}

theorem pieceOf_fixed {kind : Kind} (h : TokenOk lit (t.token i)) (hkind : t.kind = kind)
    (hfixed : kind ∉ [.ident, .int, .string]) : pieceOf (t.token i) = fixed kind := by
  rw [TokenOk, Common.token_kind, hkind] at h
  rw [pieceOf, Common.token_kind, hkind]
  cases kind <;> simp_all [fixed]

theorem pieceOf_word (hkind : t.kind = .ident) : pieceOf (t.token i) = word t.text := by
  rw [pieceOf, Common.token_kind, hkind]
  rfl

theorem pieceOf_type (h : TokenOk lit (t.token i)) (hkind : t.kind.isTypeWord) :
    pieceOf (t.token i) = ⟨.ofWord t.text, t.text⟩ := by
  unfold TokenOk at h
  rw [Common.token_kind, Common.token_text] at h
  cases hk : t.kind <;> simp only [hk, Kind.isTypeWord, Bool.false_eq_true] at h hkind
  all_goals
    rw [pieceOf, Common.token_kind, Common.token_text, hk, h]
    rfl

theorem pieceOf_binary {op : BinaryOp} (h : TokenOk lit (t.token i))
    (hop : (∃ level : Level, level.op? t.kind = some op) ∨ comparisonOp? t.kind = some op) :
    pieceOf (t.token i) = binarySign op := by
  have hsign : binarySign op = fixed t.kind ∧ t.kind ∉ [.ident, .int, .string] := by
    generalize t.kind = kind at hop ⊢
    rcases hop with ⟨level, hop⟩ | hop
    · unfold Level.op? at hop
      split at hop <;> simp at hop <;> subst hop <;> exact ⟨rfl, by decide⟩
    · unfold comparisonOp? at hop
      split at hop <;> simp at hop <;> subst hop <;> exact ⟨rfl, by decide⟩
  rw [hsign.1, pieceOf_fixed h rfl hsign.2]

theorem pieceOf_unary {op : UnaryOp} (h : TokenOk lit (t.token i)) (hop : unaryOp? t.kind = some op) :
    pieceOf (t.token i) = unarySign op := by
  have hsign : unarySign op = fixed t.kind ∧ t.kind ∉ [.ident, .int, .string] := by
    generalize t.kind = kind at hop ⊢
    unfold unaryOp? at hop
    split at hop <;> simp at hop <;> subst hop <;> exact ⟨rfl, by decide⟩
  rw [hsign.1, pieceOf_fixed h rfl hsign.2]

/-- Tokens are the same as others up to parentheses. -/
def Spells (i : ι) (ts : List (Common ι)) (ps : List Piece) : Prop :=
  plain (ts.map fun t => pieceOf (t.token i)) = plain ps

theorem Spells.nil : Spells i [] [] := rfl

theorem Spells.append {ps qs : List Piece} (h : Spells i ts ps) (h' : Spells i us qs) :
    Spells i (ts ++ us) (ps ++ qs) := by
  unfold Spells at h h' ⊢
  rw [List.map_append, plain_append, plain_append, h, h']

theorem Spells.cons {p : Piece} {ps : List Piece} (h : pieceOf (t.token i) = p) (h' : Spells i ts ps) :
    Spells i (t :: ts) (p :: ps) := by
  unfold Spells at h' ⊢
  rw [List.map_cons, plain_cons, plain_cons, h, h']

theorem Spells.one {p : Piece} (h : pieceOf (t.token i) = p) : Spells i [t] [p] := .cons h .nil

theorem Spells.congr {ps qs : List Piece} (h : Spells i ts ps) (heq : plain ps = plain qs) : Spells i ts qs :=
  h.trans heq

/-- What is read as an expression spells it. -/
theorem spells_phrase {es : List (ι → Expr)} (h : Phrase ts es) (hok : AllOk lit i ts) :
    Spells i ts (listed (argPieces σ (es.map (· i)))) := by
  have hone : ∀ {ts} {e : ι → Expr}, Spells i ts (listed (argPieces σ ([e].map (· i)))) ↔
      Spells i ts (exprPieces σ (e i)) := by simp [Spells, argPieces, listed]
  induction h with
  | none => exact .nil
  | int hkind =>
    rw [hone, exprPieces]
    exact .one (by rw [pieceOf, Common.token_kind, if_pos hkind, Common.token_text])
  | string hkind =>
    rw [hone, exprPieces]
    exact .one (by rw [pieceOf, Common.token_kind, hkind]; rfl)
  | @bool _ b hkind =>
    rw [hone, exprPieces]
    exact .one (pieceOf_fixed (allOk_cons.mp hok).1 hkind (by cases b <;> decide))
  | ident hkind =>
    rw [hone, exprPieces]
    exact .one (pieceOf_word hkind)
  | dot _ _ hsign hfield ih =>
    rw [allOk_append, allOk_cons] at hok
    rw [hone, exprPieces]
    exact (hone.mp (ih hok.1)).append (.cons (pieceOf_fixed hok.2.1 hsign (by decide)) (.one (pieceOf_word hfield)))
  | assign _ _ hsign _ ih ih' =>
    rw [allOk_append, allOk_cons] at hok
    rw [hone]
    refine ((hone.mp (ih hok.1)).append (.cons (pieceOf_fixed hok.2.1 hsign (by decide))
      (hone.mp (ih' hok.2.2)))).congr ?_
    simp [exprPieces]
  | call hcallee hleft _ hright ih =>
    rw [allOk_cons, allOk_cons, allOk_append, allOk_cons] at hok
    rw [hone, exprPieces]
    exact .cons (pieceOf_word hcallee) (.cons (pieceOf_fixed hok.2.1 hleft (by decide))
      ((ih hok.2.2.1).append (.one (pieceOf_fixed hok.2.2.2.1 hright (by decide)))))
  | unary hsign _ ih =>
    rw [allOk_cons] at hok
    rw [hone]
    refine (Spells.cons (pieceOf_unary hok.1 hsign) (hone.mp (ih hok.2))).congr ?_
    simp [exprPieces]
  | binary _ hsign _ ih ih' =>
    rw [allOk_append, allOk_cons] at hok
    rw [hone]
    refine ((hone.mp (ih hok.1)).append (.cons (pieceOf_binary hok.2.1 hsign) (hone.mp (ih' hok.2.2)))).congr ?_
    simp [exprPieces]
  | group hleft _ hright ih =>
    rw [allOk_cons, allOk_append, allOk_cons] at hok
    refine (Spells.cons (pieceOf_fixed hok.1 hleft (by decide)) ((ih hok.2.1).append
      (.one (pieceOf_fixed hok.2.2.1 hright (by decide))))).congr ?_
    simp
  | @more _ _ _ _ es _ hcomma _ hne ih ih' =>
    rw [allOk_append, allOk_cons] at hok
    obtain ⟨e', es, rfl⟩ := List.exists_cons_of_ne_nil hne
    refine ((ih hok.1).append (.cons (pieceOf_fixed hok.2.1 hcomma (by decide)) (ih' hok.2.2))).congr ?_
    simp [argPieces, listed]

theorem spells_one {e : ι → Expr} (h : Phrase ts [e]) (hok : AllOk lit i ts) : Spells i ts (exprPieces σ (e i)) := by
  refine (spells_phrase (σ := σ) h hok).congr ?_
  simp [argPieces, listed]

theorem spells_var {d : ι → VarDecl} (h : VarPhrase ts d) (hok : AllOk lit i ts) : Spells i ts (varPieces (d i)) := by
  cases h with
  | word htype hname hsemi =>
    rw [allOk_cons, allOk_cons, allOk_cons] at hok
    exact .cons (pieceOf_type hok.1 htype) (.cons (pieceOf_word hname)
      (.one (pieceOf_fixed hok.2.2.1 hsemi (by decide))))
  | struct hkeyword htype hname hsemi =>
    rw [allOk_cons, allOk_cons, allOk_cons, allOk_cons] at hok
    exact .cons (pieceOf_fixed hok.1 hkeyword (by decide)) (.cons (pieceOf_word htype)
      (.cons (pieceOf_word hname) (.one (pieceOf_fixed hok.2.2.2.1 hsemi (by decide)))))

theorem spells_each {α : Type} {P : List (Common ι) → (ι → α) → Prop} {pieces : α → List Piece}
    (hP : ∀ {ts a}, P ts a → AllOk lit i ts → Spells i ts (pieces (a i))) {as : List (ι → α)} (h : Each P ts as)
    (hok : AllOk lit i ts) : Spells i ts ((as.map (· i)).flatMap pieces) := by
  induction h with
  | nil => exact .nil
  | cons hfirst _ ih =>
    rw [allOk_append] at hok
    exact (hP hfirst hok.1).append (ih hok.2)

theorem spells_formals {ds : List (ι → VarDecl)} (h : Formals ts ds) (hok : AllOk lit i ts) :
    Spells i ts (listed ((ds.map (· i)).map formalPieces)) := by
  induction h with
  | none => exact .nil
  | one htype hname =>
    rw [allOk_cons] at hok
    exact .cons (pieceOf_type hok.1 htype) (.one (pieceOf_word hname))
  | more _ hcomma _ hne ih ih' =>
    rw [allOk_append, allOk_cons] at hok
    rw [List.map_cons, List.map_cons, listed_cons (by simpa using hne)]
    exact (ih hok.1).append (.cons (pieceOf_fixed hok.2.1 hcomma (by decide)) (ih' hok.2.2))

/-- A statement is spelled with the semicolon that ends it. -/
theorem spells_simple {st : ι → Option Span → Stmt} (h : Simple ts st) (hok : AllOk lit i ts) (span : Option Span) :
    ∃ ps, Spells i ts ps ∧ plain (stmtPieces σ (st i span)) = plain (ps ++ [fixed .semi]) := by
  cases h with
  | done hkeyword =>
    exact ⟨_, .one (pieceOf_fixed (allOk_cons.mp hok).1 hkeyword (by decide)), by rw [stmtPieces]; rfl⟩
  | ret hkeyword hvalue =>
    rw [allOk_cons] at hok
    exact ⟨_, .cons (pieceOf_fixed hok.1 hkeyword (by decide)) (spells_one (σ := σ) hvalue hok.2),
      by simp [stmtPieces, operandPieces]⟩
  | read hkeyword hsign hvalue | write hkeyword hsign hvalue =>
    rw [allOk_cons, allOk_cons] at hok
    exact ⟨_, .cons (pieceOf_fixed hok.1 hkeyword (by decide)) (.cons (pieceOf_fixed hok.2.1 hsign (by decide))
      (spells_one (σ := σ) hvalue hok.2.2)), by simp [stmtPieces, operandPieces]⟩
  | increment htarget _ hsign | decrement htarget _ hsign =>
    rw [allOk_append, allOk_cons] at hok
    exact ⟨_, (spells_one (σ := σ) htarget hok.1).append (.one (pieceOf_fixed hok.2.1 hsign (by decide))),
      by simp [stmtPieces]⟩
  | assign he | call he => exact ⟨_, spells_one (σ := σ) he hok, by rw [stmtPieces]⟩

theorem spells_guard {kind : Kind} {e : ι → Expr} (h : Guard kind ts e) (hkind : kind ∉ [.ident, .int, .string])
    (hok : AllOk lit i ts) :
    Spells i ts (fixed kind :: fixed .lparen :: operandPieces σ (e i) ++ [fixed .rparen]) := by
  obtain ⟨hkeyword, hleft, hcond, hright⟩ := h
  rw [allOk_cons, allOk_cons, allOk_append, allOk_cons] at hok
  refine (Spells.cons (pieceOf_fixed hok.1 hkeyword hkind) (.cons (pieceOf_fixed hok.2.1 hleft (by decide))
    ((spells_one (σ := σ) hcond hok.2.2.1).append (.one (pieceOf_fixed hok.2.2.2.1 hright (by decide)))))).congr ?_
  simp [operandPieces]

theorem spells_braced {b : ι → Block} {ss : List (ι → Stmt)} (h : Braced ts b us ss)
    (hss : AllOk lit i us → Spells i us (stmtsPieces σ (ss.map (· i)))) (hok : AllOk lit i ts) :
    Spells i ts (blockPieces σ (b i)) := by
  obtain ⟨hleft, hds, hright⟩ := h
  rw [allOk_cons, allOk_append, allOk_append, allOk_cons] at hok
  rw [blockPieces]
  exact .cons (pieceOf_fixed hok.1 hleft (by decide)) (((spells_each spells_var hds hok.2.1.1).append
    (hss hok.2.1.2)).append (.one (pieceOf_fixed hok.2.2.1 hright (by decide))))

theorem spells_stmts {ss : List (ι → Stmt)} (h : Stmts ts ss) (hok : AllOk lit i ts) :
    Spells i ts (stmtsPieces σ (ss.map (· i))) := by
  have hone : ∀ {ts} {st : ι → Stmt}, Spells i ts (stmtsPieces σ ([st].map (· i))) ↔
      Spells i ts (stmtPieces σ (st i)) := by simp [stmtsPieces]
  induction h with
  | nil => exact .nil
  | cons _ _ ih ih' =>
    rw [allOk_append] at hok
    rw [List.map_cons, stmtsPieces]
    exact (hone.mp (ih hok.1)).append (ih' hok.2)
  | simple hst hsemi =>
    rw [allOk_append, allOk_cons] at hok
    obtain ⟨ps, hps, heq⟩ := spells_simple (σ := σ) hst hok.1 _
    rw [hone]
    exact (hps.append (.one (pieceOf_fixed hok.2.1 hsemi (by decide)))).congr heq.symm
  | ifThen hcond hbody _ ih | loop hcond hbody _ ih =>
    rw [allOk_append] at hok
    rw [hone]
    refine ((spells_guard (σ := σ) hcond (by decide) hok.1).append (spells_braced hbody ih hok.2)).congr ?_
    simp [stmtPieces]
  | ifElse hcond hbody _ helse hother _ ih ih' =>
    rw [allOk_append, allOk_append, allOk_cons] at hok
    rw [hone]
    refine (((spells_guard (σ := σ) hcond (by decide) hok.1.1).append (spells_braced hbody ih hok.1.2)).append
      (.cons (pieceOf_fixed hok.2.1 helse (by decide)) (spells_braced hother ih' hok.2.2))).congr ?_
    simp [stmtPieces]

theorem spells_decl {d : ι → Decl} (h : DeclPhrase ts d) (hok : AllOk lit i ts) : Spells i ts (declPieces σ (d i)) := by
  cases h with
  | var hd => exact spells_var hd hok
  | struct hkeyword hname hleft hds _ hright hsemi =>
    simp only [allOk_cons, allOk_append] at hok
    exact .cons (pieceOf_fixed hok.1 hkeyword (by decide)) (.cons (pieceOf_word hname)
      (.cons (pieceOf_fixed hok.2.2.1 hleft (by decide)) ((spells_each spells_var hds hok.2.2.2.1).append
        (.cons (pieceOf_fixed hok.2.2.2.2.1 hright (by decide))
          (.one (pieceOf_fixed hok.2.2.2.2.2.1 hsemi (by decide)))))))
  | fn htype hname hleft hformals hright hbody hstmts =>
    simp only [allOk_cons, allOk_append] at hok
    exact .cons (pieceOf_type hok.1 htype) (.cons (pieceOf_word hname)
      (.cons (pieceOf_fixed hok.2.2.1 hleft (by decide)) ((spells_formals hformals hok.2.2.2.1).append
        (.cons (pieceOf_fixed hok.2.2.2.2.1 hright (by decide))
          (spells_braced (i := i) hbody (spells_stmts hstmts) hok.2.2.2.2.2)))))

end Phrases

/-- The tokens of a text, but for the mark of the end, are taken for the pieces of the program. -/
theorem tokens_taken {text : String} {tokens : List Token} {p : Program} (σ : Style)
    (hlex : Token.lex text = .ok tokens) (hparse : Program.ofTokens tokens = .ok p) :
    ∃ ts eof c, tokens = ts ++ [eof] ∧ eof.kind = .eof ∧ plain (ts.map pieceOf) = plain (programPieces σ p) ∧
      (Parser.program (Parser.fuelFor tokens)).run (.ofTokens tokens) = .ok (p, c) ∧ c.rest = [] := by
  have htokens := Grammar.tokens_ok hlex
  obtain ⟨ts, eof, rfl, heof, hinside⟩ := htokens.marked
  obtain ⟨us, ds, c, rfl, hds, hrun, hend, hdecls, -⟩ := Phrases.of_tokens heof hinside hparse
  have hspells := spells_each (spells_decl (σ := σ)) hds fun t ht =>
    htokens.each _ (List.mem_append_left _ (List.mem_map_of_mem ht))
  refine ⟨_, eof, c, rfl, heof, ?_, hrun, hend⟩
  rw [programPieces, hdecls, List.map_map]
  exact hspells

/-- The parser neither drops, invents nor reorders tokens. A program that is read from the tokens of a text is
written, in every style, by these tokens, up to parentheses and the mark of the end; and all of them
have been taken. -/
theorem parser_keeps_tokens {text : String} {tokens : List Token} {p : Program} (σ : Style)
    (hlex : Token.lex text = .ok tokens) (hparse : Program.ofTokens tokens = .ok p) :
    (∃ eof, tokens.getLast? = some eof ∧ eof.kind = .eof) ∧
      plain (tokens.dropLast.map pieceOf) = plain (programPieces σ p) ∧
      ∃ c, (Parser.program (Parser.fuelFor tokens)).run (.ofTokens tokens) = .ok (p, c) ∧ c.rest = [] := by
  obtain ⟨ts, eof, c, rfl, heof, hplain, hrun, hend⟩ := tokens_taken σ hlex hparse
  refine ⟨⟨eof, by simp, heof⟩, ?_, c, hrun, hend⟩
  rw [List.dropLast_concat]
  exact hplain

/-- A text with more parentheses and digits than it needs. -/
def wrapped : String := "int f(int a)\x7breturn((a+007));\x7d"

def readsAs (text : String) (good : Program → Bool) : Bool :=
  match Token.lex text with
  | .error _ => false
  | .ok tokens => (Program.ofTokens tokens).toOption.any good

theorem read_of_readsAs {text : String} {good : Program → Bool} (h : readsAs text good) :
    ∃ tokens p, Token.lex text = .ok tokens ∧ Program.ofTokens tokens = .ok p ∧ good p := by
  unfold readsAs at h
  split at h
  · cases h
  · rename_i tokens hlex
    cases hparse : Program.ofTokens tokens with
    | error e => simp [hparse, Except.toOption] at h
    | ok p => exact ⟨tokens, p, hlex, hparse, by simpa [hparse, Except.toOption] using h⟩

/-- The parentheses are gone, and the number counts by its value. -/
theorem wrapped_keeps_tokens : ∃ tokens p, Token.lex wrapped = .ok tokens ∧
    Program.ofTokens tokens = .ok p ∧
    plain (tokens.dropLast.map pieceOf) = plain (programPieces .sparse p) ∧
    (plain (tokens.dropLast.map pieceOf)).map Piece.text =
      ["int", "f", "int", "a", "\x7b", "return", "a", "+", "7", ";", "\x7d"] := by
  have hread : readsAs wrapped fun p => (plain (programPieces .sparse p)).map Piece.text =
      ["int", "f", "int", "a", "\x7b", "return", "a", "+", "7", ";", "\x7d"] := by
    decide +kernel
  obtain ⟨tokens, p, hlex, hparse, hpieces⟩ := read_of_readsAs hread
  have hkept := (parser_keeps_tokens .sparse hlex hparse).2.1
  exact ⟨tokens, p, hlex, hparse, hkept, by rw [hkept]; simpa using hpieces⟩

end CMinusMinus.Proofs.Fidelity
