import CMinusMinus.Syntax.Parser

/-!
The grammar as a relation between tokens and trees, and the parser on several texts at once. Texts that differ
in nothing but the places of their tokens are parsed in step: the parser gives up for the same reason at the
same token in all of them, or it takes the same tokens, which make the same phrase.
-/
namespace CMinusMinus.Proofs.Phrases

open Token Parser

/-- A token that stands in several texts, at a place of its own in each. -/
structure Common (ι : Type) where
  kind : Kind
  text : String
  start : ι → Position

variable {ι : Type}

def Common.token (t : Common ι) (i : ι) : Token := ⟨t.kind, t.text, t.start i⟩

@[simp] theorem Common.token_kind (t : Common ι) (i : ι) : (t.token i).kind = t.kind := rfl

@[simp] theorem Common.token_text (t : Common ι) (i : ι) : (t.token i).text = t.text := rfl

/-- The span of a phrase in one of the texts, from its first token to the end of its last one. -/
def spanOf (ts : List (Common ι)) (i : ι) : Option Span :=
  ts.head?.bind fun first => ts.getLast?.map fun last => ⟨first.start i, (last.token i).stop⟩

section Grammar

/-- What an expression is, as far as the grammar asks. -/
inductive Form where
  | place | assign | call | other
deriving DecidableEq

def formOf : Expr → Form
  | .ident .. | .dot .. => .place
  | .assign .. => .assign
  | .call .. => .call
  | _ => .other

theorem isLocation_iff {e : Expr} : e.isLocation = true ↔ formOf e = .place := by
  cases e <;> simp [Expr.isLocation, formOf]

/-- Tokens are read as expressions that are divided by commas; on its own, an expression is read as itself. -/
inductive Phrase : List (Common ι) → List (ι → Expr) → Prop
  | int {t : Common ι} (kind : t.kind = .int) :
      Phrase [t] [fun i => .int { span := spanOf [t] i } (literalValue t.text)]
  | string {t : Common ι} (kind : t.kind = .string) :
      Phrase [t] [fun i => .string { span := spanOf [t] i } t.text]
  | bool {t : Common ι} {b : Bool} (kind : t.kind = if b then .trueKw else .falseKw) :
      Phrase [t] [fun i => .bool { span := spanOf [t] i } b]
  | ident {t : Common ι} (kind : t.kind = .ident) : Phrase [t] [fun i => .ident (identOf (t.token i))]
  | dot {ts : List (Common ι)} {e : ι → Expr} {s t : Common ι} (obj : Phrase ts [e])
      (place : ∀ i, formOf (e i) = .place) (sign : s.kind = .dot) (field : t.kind = .ident) :
      Phrase (ts ++ [s, t]) [fun i =>
        .dot { span := spanOf (ts ++ [s, t]) i } (e i) (identOf (t.token i)) none false]
  | assign {ts us : List (Common ι)} {e e' : ι → Expr} {s : Common ι} (target : Phrase ts [e])
      (place : ∀ i, formOf (e i) = .place) (sign : s.kind = .eq) (value : Phrase us [e']) :
      Phrase (ts ++ s :: us) [fun i => .assign { span := spanOf (ts ++ s :: us) i } (e i) (e' i)]
  | call {t l r : Common ι} {ts : List (Common ι)} {es : List (ι → Expr)} (callee : t.kind = .ident)
      (left : l.kind = .lparen) (args : Phrase ts es) (right : r.kind = .rparen) :
      Phrase (t :: l :: (ts ++ [r])) [fun i =>
        .call { span := spanOf (t :: l :: (ts ++ [r])) i } (identOf (t.token i)) (es.map (· i))]
  | unary {s : Common ι} {ts : List (Common ι)} {op : UnaryOp} {e : ι → Expr}
      (sign : unaryOp? s.kind = some op) (operand : Phrase ts [e]) :
      Phrase (s :: ts) [fun i => .unary { span := spanOf (s :: ts) i } op (e i)]
  | binary {ts us : List (Common ι)} {s : Common ι} {op : BinaryOp} {e e' : ι → Expr} (left : Phrase ts [e])
      (sign : (∃ level : Level, level.op? s.kind = some op) ∨ comparisonOp? s.kind = some op)
      (right : Phrase us [e']) :
      Phrase (ts ++ s :: us) [fun i => .binary { span := spanOf (ts ++ s :: us) i } op (e i) (e' i)]
  | group {l r : Common ι} {ts : List (Common ι)} {e : ι → Expr} (left : l.kind = .lparen)
      (inner : Phrase ts [e]) (right : r.kind = .rparen) : Phrase (l :: (ts ++ [r])) [e]
  | none : Phrase [] []
  | more {ts us : List (Common ι)} {s : Common ι} {e : ι → Expr} {es : List (ι → Expr)} (first : Phrase ts [e])
      (comma : s.kind = .comma) (rest : Phrase us es) (nonempty : es ≠ []) : Phrase (ts ++ s :: us) (e :: es)

/-- A phrase is of one form in all texts. -/
theorem Phrase.form {ts : List (Common ι)} {es : List (ι → Expr)} (h : Phrase ts es) :
    ∀ e ∈ es, ∃ form, ∀ i, formOf (e i) = form := by
  induction h with
  | none => simp
  | group _ _ _ ih => exact ih
  | more _ _ _ _ ih ih' =>
    rw [List.forall_mem_cons] at ih ⊢
    exact ⟨ih.1, ih'⟩
  | _ =>
    rw [List.forall_mem_singleton]
    exact ⟨_, fun _ => rfl⟩

/-- Phrases of some kind one after the other. -/
inductive Each {α : Type} (P : List (Common ι) → (ι → α) → Prop) : List (Common ι) → List (ι → α) → Prop
  | nil : Each P [] []
  | cons {ts us : List (Common ι)} {a : ι → α} {as : List (ι → α)} (first : P ts a) (rest : Each P us as) :
      Each P (ts ++ us) (a :: as)

def typeOf (t : Token) (isStruct : Bool) : TypeName := { span := some t.span, name := t.text, isStruct }

/-- Tokens are read as the declaration of a variable. -/
inductive VarPhrase : List (Common ι) → (ι → VarDecl) → Prop
  | word {t x s : Common ι} (type : t.kind.isTypeWord) (name : x.kind = .ident) (semi : s.kind = .semi) :
      VarPhrase [t, x, s] fun i =>
        { span := spanOf [t, x, s] i, type := typeOf (t.token i) false, name := identOf (x.token i) }
  | struct {k t x s : Common ι} (keyword : k.kind = .structKw) (type : t.kind = .ident) (name : x.kind = .ident)
      (semi : s.kind = .semi) : VarPhrase [k, t, x, s] fun i =>
        { span := spanOf [k, t, x, s] i, type := typeOf (t.token i) true, name := identOf (x.token i) }

/-- Tokens are read as parameters that are divided by commas. -/
inductive Formals : List (Common ι) → List (ι → VarDecl) → Prop
  | none : Formals [] []
  | one {t x : Common ι} (type : t.kind.isTypeWord) (name : x.kind = .ident) : Formals [t, x] [fun i =>
      { span := spanOf [t, x] i, type := typeOf (t.token i) false, name := identOf (x.token i) }]
  | more {ts us : List (Common ι)} {s : Common ι} {d : ι → VarDecl} {ds : List (ι → VarDecl)}
      (first : Formals ts [d]) (comma : s.kind = .comma) (rest : Formals us ds) (nonempty : ds ≠ []) :
      Formals (ts ++ s :: us) (d :: ds)

/-- Tokens are read as a statement that ends with a semicolon, which is still to come. -/
inductive Simple : List (Common ι) → (ι → Option Span → Stmt) → Prop
  | done {k : Common ι} (keyword : k.kind = .returnKw) : Simple [k] fun _ span => .ret span none
  | ret {k : Common ι} {ts : List (Common ι)} {e : ι → Expr} (keyword : k.kind = .returnKw)
      (value : Phrase ts [e]) : Simple (k :: ts) fun i span => .ret span (some (e i))
  | read {k s : Common ι} {ts : List (Common ι)} {e : ι → Expr} (keyword : k.kind = .cin) (sign : s.kind = .read)
      (target : Phrase ts [e]) (place : ∀ i, formOf (e i) = .place) :
      Simple (k :: s :: ts) fun i span => .read span (e i)
  | write {k s : Common ι} {ts : List (Common ι)} {e : ι → Expr} (keyword : k.kind = .cout)
      (sign : s.kind = .write) (value : Phrase ts [e]) : Simple (k :: s :: ts) fun i span => .write span (e i)
  | increment {s : Common ι} {ts : List (Common ι)} {e : ι → Expr} (target : Phrase ts [e])
      (place : ∀ i, formOf (e i) = .place) (sign : s.kind = .plusPlus) :
      Simple (ts ++ [s]) fun i span => .increment span (e i)
  | decrement {s : Common ι} {ts : List (Common ι)} {e : ι → Expr} (target : Phrase ts [e])
      (place : ∀ i, formOf (e i) = .place) (sign : s.kind = .minusMinus) :
      Simple (ts ++ [s]) fun i span => .decrement span (e i)
  | assign {ts : List (Common ι)} {e : ι → Expr} (assignment : Phrase ts [e])
      (form : ∀ i, formOf (e i) = .assign) : Simple ts fun i span => .assign span (e i)
  | call {ts : List (Common ι)} {e : ι → Expr} (call : Phrase ts [e]) (form : ∀ i, formOf (e i) = .call) :
      Simple ts fun i span => .call span (e i)

/-- Tokens are read as a keyword and a condition in parentheses. -/
inductive Guard (kind : Kind) : List (Common ι) → (ι → Expr) → Prop
  | mk {k l r : Common ι} {ts : List (Common ι)} {e : ι → Expr} (keyword : k.kind = kind)
      (left : l.kind = .lparen) (cond : Phrase ts [e]) (right : r.kind = .rparen) :
      Guard kind (k :: l :: (ts ++ [r])) e

/-- Tokens are read as a block, with other tokens that are read as its statements. -/
inductive Braced : List (Common ι) → (ι → Block) → List (Common ι) → List (ι → Stmt) → Prop
  | mk {l r : Common ι} {ts us : List (Common ι)} {ds : List (ι → VarDecl)} {ss : List (ι → Stmt)}
      (left : l.kind = .lbrace) (decls : Each VarPhrase ts ds) (right : r.kind = .rbrace) :
      Braced (l :: (ts ++ us ++ [r]))
        (fun i => .mk (spanOf (l :: (ts ++ us ++ [r])) i) (ds.map (· i)) (ss.map (· i))) us ss

/-- Tokens are read as statements. -/
inductive Stmts : List (Common ι) → List (ι → Stmt) → Prop
  | nil : Stmts [] []
  | cons {ts us : List (Common ι)} {st : ι → Stmt} {ss : List (ι → Stmt)} (first : Stmts ts [st])
      (rest : Stmts us ss) : Stmts (ts ++ us) (st :: ss)
  | simple {ts : List (Common ι)} {s : Common ι} {st : ι → Option Span → Stmt} (open_ : Simple ts st)
      (semi : s.kind = .semi) : Stmts (ts ++ [s]) [fun i => st i (spanOf (ts ++ [s]) i)]
  | ifThen {ts us vs : List (Common ι)} {e : ι → Expr} {b : ι → Block} {ss : List (ι → Stmt)}
      (cond : Guard .ifKw ts e) (body : Braced us b vs ss) (stmts : Stmts vs ss) :
      Stmts (ts ++ us) [fun i => .ifThen (spanOf (ts ++ us) i) (e i) (b i)]
  | ifElse {ts us vs us' vs' : List (Common ι)} {k : Common ι} {e : ι → Expr} {b b' : ι → Block}
      {ss ss' : List (ι → Stmt)} (cond : Guard .ifKw ts e) (body : Braced us b vs ss) (stmts : Stmts vs ss)
      (keyword : k.kind = .elseKw) (other : Braced us' b' vs' ss') (stmts' : Stmts vs' ss') :
      Stmts (ts ++ us ++ k :: us') [fun i => .ifElse (spanOf (ts ++ us ++ k :: us') i) (e i) (b i) (b' i)]
  | loop {ts us vs : List (Common ι)} {e : ι → Expr} {b : ι → Block} {ss : List (ι → Stmt)}
      (cond : Guard .whileKw ts e) (body : Braced us b vs ss) (stmts : Stmts vs ss) :
      Stmts (ts ++ us) [fun i => .loop (spanOf (ts ++ us) i) (e i) (b i)]

/-- Tokens are read as a declaration at the top of a program. -/
inductive DeclPhrase : List (Common ι) → (ι → Decl) → Prop
  | var {ts : List (Common ι)} {d : ι → VarDecl} (var : VarPhrase ts d) : DeclPhrase ts fun i => .var (d i)
  | struct {k x l r s : Common ι} {ts : List (Common ι)} {ds : List (ι → VarDecl)} (keyword : k.kind = .structKw)
      (name : x.kind = .ident) (left : l.kind = .lbrace) (fields : Each VarPhrase ts ds) (nonempty : ds ≠ [])
      (right : r.kind = .rbrace) (semi : s.kind = .semi) :
      DeclPhrase (k :: x :: l :: (ts ++ [r, s])) fun i => .struct
        { span := spanOf (k :: x :: l :: (ts ++ [r, s])) i, name := identOf (x.token i), fields := ds.map (· i) }
  | fn {t x l r : Common ι} {ts us vs : List (Common ι)} {ds : List (ι → VarDecl)} {b : ι → Block}
      {ss : List (ι → Stmt)} (type : t.kind.isTypeWord) (name : x.kind = .ident) (left : l.kind = .lparen)
      (formals : Formals ts ds) (right : r.kind = .rparen) (body : Braced us b vs ss) (stmts : Stmts vs ss) :
      DeclPhrase (t :: x :: l :: (ts ++ r :: us)) fun i => .fn
        { span := spanOf (t :: x :: l :: (ts ++ r :: us)) i, result := typeOf (t.token i) false
          name := identOf (x.token i), formals := ds.map (· i), body := b i }

end Grammar

section Fronts

/-- Where the parses of all texts stand. -/
structure Front (ι : Type) where
  rest : List (Common ι)
  eof : Common ι
  last : Common ι

variable {c c' c'' : Front ι} {ts us : List (Common ι)} {kind : Kind}

def Front.cursor (c : Front ι) (i : ι) : Cursor := ⟨c.rest.map (·.token i), c.eof.token i, c.last.token i⟩

def Front.ahead (c : Front ι) (n : Nat) : Common ι := (c.rest.drop n).headD c.eof

def Front.advance (c : Front ι) : Front ι :=
  match c.rest with
  | [] => c
  | t :: rest => { c with rest, last := t }

theorem cursor_ahead (c : Front ι) (n : Nat) (i : ι) : (c.cursor i).ahead n = (c.ahead n).token i := by
  rw [Cursor.ahead, Front.ahead, Front.cursor, ← List.map_drop]
  cases c.rest.drop n with
  | nil => rfl
  | cons t rest => rfl

theorem cursor_advance (c : Front ι) (i : ι) : (c.cursor i).advance = c.advance.cursor i := by
  rw [Cursor.advance, Front.advance]
  cases hrest : c.rest with
  | nil => simp [Front.cursor, hrest]
  | cons t rest => simp [Front.cursor, hrest]

/-- The end is marked, and by the last token alone. -/
structure Fit (c : Front ι) : Prop where
  rest : ∀ t ∈ c.rest, t.kind ≠ .eof
  eof : c.eof.kind = .eof

/-- Tokens were taken between two fronts. -/
structure Taken (c c' : Front ι) (ts : List (Common ι)) : Prop where
  rest : c.rest = ts ++ c'.rest
  eof : c'.eof = c.eof
  last : c'.last = ts.getLastD c.last

theorem Taken.refl (c : Front ι) : Taken c c [] := ⟨rfl, rfl, rfl⟩

theorem Taken.trans (h : Taken c c' ts) (h' : Taken c' c'' us) : Taken c c'' (ts ++ us) where
  rest := by rw [h.rest, h'.rest, List.append_assoc]
  eof := h'.eof.trans h.eof
  last := by
    rw [h'.last, h.last]
    cases us with
    | nil => simp
    | cons u us => simp [List.getLastD_eq_getLast?]

theorem Taken.fit (h : Taken c c' ts) (hfit : Fit c) : Fit c' :=
  ⟨fun t ht => hfit.rest t (by rw [h.rest]; exact List.mem_append_right _ ht), by rw [h.eof]; exact hfit.eof⟩

/-- What is ahead and not the end is the next token. -/
theorem Fit.next (h : Fit c) (hinside : (c.ahead 0).kind ≠ .eof) :
    ∃ rest, c.rest = c.ahead 0 :: rest ∧ c.advance = { c with rest, last := c.ahead 0 } := by
  unfold Front.advance
  cases hrest : c.rest with
  | nil => exact absurd (by simp [Front.ahead, hrest, h.eof]) hinside
  | cons t rest => exact ⟨rest, by simp [Front.ahead, hrest], by simp [Front.ahead, hrest]⟩

theorem Fit.advance (h : Fit c) (hkind : (c.ahead 0).kind = kind) (hinside : kind ≠ .eof) :
    Taken c c.advance [c.ahead 0] := by
  obtain ⟨rest, hrest, hadvance⟩ := h.next (hkind ▸ hinside)
  rw [hadvance]
  exact ⟨hrest, rfl, rfl⟩

/-- One more token is taken. -/
theorem Taken.next (h : Taken c c' ts) (hfit : Fit c) (hkind : (c'.ahead 0).kind = kind) (hinside : kind ≠ .eof) :
    Taken c c'.advance (ts ++ [c'.ahead 0]) := h.trans ((h.fit hfit).advance hkind hinside)

theorem Taken.join {t : Common ι} (h : Taken c c' (ts ++ [t])) (h' : Taken c' c'' us) :
    Taken c c'' (ts ++ t :: us) := by simpa using h.trans h'

/-- What is further ahead comes nearer. -/
theorem Fit.ahead_advance (h : Fit c) (hkind : (c.ahead 0).kind = kind) (hinside : kind ≠ .eof) (n : Nat) :
    c.advance.ahead n = c.ahead (n + 1) := by
  obtain ⟨rest, hrest, hadvance⟩ := h.next (hkind ▸ hinside)
  rw [Front.ahead, Front.ahead, hadvance, hrest, List.drop_succ_cons]

/-- A node that is made of the tokens since a front spans them. -/
theorem Taken.span (h : Taken c c' ts) (hne : ts ≠ []) (i : ι) :
    some ⟨((c.ahead 0).token i).start, (c'.last.token i).stop⟩ = spanOf ts i := by
  obtain ⟨t, rest, rfl⟩ := List.exists_cons_of_ne_nil hne
  have hahead : c.ahead 0 = t := by simp [Front.ahead, h.rest]
  rw [hahead, h.last, List.getLastD_eq_getLast?, spanOf, List.getLast?_eq_some_getLast hne]
  rfl

end Fronts

/-- A piece of parsing in all texts at once. It gives things in all of them, which have a property, or it gives
up in all of them for the same reason and blames the same token. -/
def InStep {α : Type} (c : Front ι) (x : ι → ParseM α) (Q : (ι → α) → Front ι → Prop) : Prop :=
  (∃ a c', (∀ i, x i (c.cursor i) = .ok (a i, c'.cursor i)) ∧ Q a c') ∨
    ∃ cause t, ∀ i, x i (c.cursor i) = .error ⟨cause, Common.token t i⟩

namespace InStep

variable {α β : Type} {c : Front ι} {x y : ι → ParseM α} {f : ι → α → ParseM β}
  {P : (ι → α) → Front ι → Prop} {Q : (ι → β) → Front ι → Prop}

theorem pure {a : ι → α} (h : P a c) : InStep c (fun i => Pure.pure (a i)) P := .inl ⟨a, c, fun _ => rfl, h⟩

theorem seq (hx : InStep c x P) (hf : ∀ a c', P a c' → InStep c' (fun i => f i (a i)) Q) :
    InStep c (fun i => x i >>= f i) Q := by
  have hbind : ∀ i, (x i >>= f i) (c.cursor i) = (x i (c.cursor i)).bind fun p => f i p.1 p.2 := fun _ => rfl
  rcases hx with ⟨a, c', hx, ha⟩ | ⟨cause, t, hx⟩
  · rcases hf a c' ha with ⟨b, c'', hf, hb⟩ | ⟨cause, t, hf⟩
    · exact .inl ⟨b, c'', fun i => (hbind i).trans (by rw [hx]; exact hf i), hb⟩
    · exact .inr ⟨cause, t, fun i => (hbind i).trans (by rw [hx]; exact hf i)⟩
  · exact .inr ⟨cause, t, fun i => (hbind i).trans (by rw [hx]; rfl)⟩

theorem weaken {R : (ι → α) → Front ι → Prop} (hx : InStep c x P) (h : ∀ a c', P a c' → R a c') : InStep c x R :=
  hx.imp_left fun ⟨a, c', hx, ha⟩ => ⟨a, c', hx, h a c' ha⟩

theorem ite {p : Prop} [Decidable p] (hx : p → InStep c x P) (hy : ¬ p → InStep c y P) :
    InStep c (fun i => if p then x i else y i) P := by
  split
  · exact hx ‹_›
  · exact hy ‹_›

theorem blame (cause : ParseError.Cause) (t : Common ι) :
    InStep c (fun i => (Parser.blame cause (t.token i) : ParseM α)) P := .inr ⟨cause, t, fun _ => rfl⟩

/-- Pieces of parsing that do the same in every text. -/
theorem of_eq {c' : Front ι} (h : InStep c' y P) (heq : ∀ i, x i (c.cursor i) = y i (c'.cursor i)) :
    InStep c x P := by
  unfold InStep
  simp only [heq]
  exact h

theorem peek {f : ι → Token → ParseM β} (h : InStep c (fun i => f i ((c.ahead 0).token i)) Q) :
    InStep c (fun i => Parser.peek >>= f i) Q :=
  h.of_eq fun i => congrArg (f i · (c.cursor i)) (cursor_ahead c 0 i)

theorem kindAhead {n : Nat} {f : ι → Kind → ParseM β} (h : InStep c (fun i => f i (c.ahead n).kind) Q) :
    InStep c (fun i => Parser.kindAhead n >>= f i) Q :=
  h.of_eq fun i => congrArg (fun t : Token => f i t.kind (c.cursor i)) (cursor_ahead c n i)

theorem advance {f : ι → Token → ParseM β} (h : InStep c.advance (fun i => f i ((c.ahead 0).token i)) Q) :
    InStep c (fun i => Parser.advance >>= f i) Q :=
  h.of_eq fun i => by
    rw [← cursor_ahead, ← cursor_advance]
    rfl

theorem fail (cause : ParseError.Cause) : InStep c (fun _ => (Parser.fail cause : ParseM α)) P :=
  peek (blame cause _)

/-- The next token is looked at and decides. -/
theorem peekIf {kind : Kind} {x y : ι → Token → ParseM β}
    (hx : (c.ahead 0).kind = kind → InStep c (fun i => x i ((c.ahead 0).token i)) Q)
    (hy : (c.ahead 0).kind ≠ kind → InStep c (fun i => y i ((c.ahead 0).token i)) Q) :
    InStep c (fun i => Parser.peek >>= fun t => if t.kind = kind then x i t else y i t) Q :=
  peek (ite (p := (c.ahead 0).kind = kind) hx hy)

theorem expect {kind : Kind} {what : ParseError.Expectation} {f : ι → Token → ParseM β}
    (h : (c.ahead 0).kind = kind → InStep c.advance (fun i => f i ((c.ahead 0).token i)) Q) :
    InStep c (fun i => Parser.expect kind what >>= f i) Q := by
  have hexpect : InStep c (fun _ => Parser.expect kind what) fun t c' =>
      (c.ahead 0).kind = kind ∧ t = (c.ahead 0).token ∧ c' = c.advance :=
    peekIf (fun hkind => advance (f := fun _ => Pure.pure) (pure ⟨hkind, rfl, rfl⟩)) fun _ => fail _
  refine hexpect.seq ?_
  rintro _ _ ⟨hkind, rfl, rfl⟩
  exact h hkind

theorem accept {kind : Kind} {f : ι → Bool → ParseM β}
    (htrue : (c.ahead 0).kind = kind → InStep c.advance (fun i => f i true) Q)
    (hfalse : (c.ahead 0).kind ≠ kind → InStep c (fun i => f i false) Q) :
    InStep c (fun i => Parser.accept kind >>= f i) Q := by
  have haccept : InStep c (fun _ => Parser.accept kind) fun b c' =>
      (c.ahead 0).kind = kind ∧ b = (fun _ => true) ∧ c' = c.advance ∨
      (c.ahead 0).kind ≠ kind ∧ b = (fun _ => false) ∧ c' = c :=
    peekIf (fun hkind => advance (pure (.inl ⟨hkind, rfl, rfl⟩))) fun hkind => pure (.inr ⟨hkind, rfl, rfl⟩)
  refine haccept.seq ?_
  rintro _ _ (⟨hkind, rfl, rfl⟩ | ⟨hkind, rfl, rfl⟩)
  · exact htrue hkind
  · exact hfalse hkind

theorem spanFrom {c₀ : Front ι} {ts : List (Common ι)} {f : ι → Option Span → ParseM β} (htaken : Taken c₀ c ts)
    (hne : ts ≠ []) (h : InStep c (fun i => f i (spanOf ts i)) Q) :
    InStep c (fun i => Parser.spanFrom ((c₀.ahead 0).token i) >>= f i) Q :=
  h.of_eq fun i => congrArg (f i · (c.cursor i)) (htaken.span hne i)

end InStep

section Declarations

variable {c : Front ι}

/-- The tokens since a front make a phrase. -/
def Since {α : Type} (c : Front ι) (P : List (Common ι) → (ι → α) → Prop) (a : ι → α) (c' : Front ι) : Prop :=
  ∃ ts, Taken c c' ts ∧ P ts a

def Gathered {α : Type} (P : List (Common ι) → List (ι → α) → Prop) (ts : List (Common ι)) (a : ι → List α) : Prop :=
  ∃ as, P ts as ∧ a = fun i => as.map (· i)

theorem inside_of_typeWord {kind : Kind} (h : kind.isTypeWord) : kind ≠ .eof := by
  rintro rfl
  cases h

theorem InStep.typeWord {β : Type} {f : ι → TypeName → ParseM β} {Q : (ι → β) → Front ι → Prop}
    (h : (c.ahead 0).kind.isTypeWord → InStep c.advance (fun i => f i (typeOf ((c.ahead 0).token i) false)) Q) :
    InStep c (fun i => Parser.typeWord >>= f i) Q := by
  have htype : InStep c (fun _ => Parser.typeWord) fun t c' => (c.ahead 0).kind.isTypeWord ∧
      t = (fun i => typeOf ((c.ahead 0).token i) false) ∧ c' = c.advance :=
    .peek (.ite (p := (c.ahead 0).kind.isTypeWord) (fun hkind => .advance (.pure ⟨hkind, rfl, rfl⟩))
      fun _ => .fail _)
  refine htype.seq ?_
  rintro _ _ ⟨hkind, rfl, rfl⟩
  exact h hkind

/-- A look ahead takes nothing. -/
theorem InStep.atVarDecl {β : Type} {f : ι → Bool → ParseM β} {Q : (ι → β) → Front ι → Prop}
    (h : ∀ b, InStep c (fun i => f i b) Q) : InStep c (fun i => Parser.atVarDecl >>= f i) Q := by
  have hlook : InStep c (fun _ => Parser.atVarDecl) fun b c' => (∃ b', b = fun _ => b') ∧ c' = c :=
    .kindAhead (.ite (fun _ => .pure ⟨⟨_, rfl⟩, rfl⟩) fun _ => .kindAhead (.pure ⟨⟨_, rfl⟩, rfl⟩))
  refine hlook.seq ?_
  rintro _ _ ⟨⟨b, rfl⟩, rfl⟩
  exact h b

theorem reads_varDecl (h : Fit c) : InStep c (fun _ => varDecl) (Since c VarPhrase) := by
  have hrest : ∀ {c₁ ts} (type : ι → TypeName), Taken c c₁ ts → (∀ {x s : Common ι}, x.kind = .ident →
      s.kind = .semi → VarPhrase (ts ++ [x, s]) fun i =>
        { span := spanOf (ts ++ [x, s]) i, type := type i, name := identOf (x.token i) }) → InStep c₁ (fun i => do
      let name ← expect .ident .variableName
      let _ ← expect .semi .variableEnd
      return { span := ← spanFrom ((c.ahead 0).token i), type := type i, name := identOf name })
      (Since c VarPhrase) := by
    intro c₁ ts type htaken hphrase
    refine .expect fun hname => .expect fun hsemi => ?_
    have hnamed := htaken.next h hname (by decide)
    have hended := hnamed.join ((hnamed.fit h).advance hsemi (by decide))
    exact .spanFrom hended (by simp) (.pure ⟨_, hended, hphrase hname hsemi⟩)
  refine .peek (.accept (fun hstruct => ?_) fun _ => ?_)
  · have htaken := h.advance hstruct (by decide)
    exact .expect fun hname => hrest _ (htaken.next h hname (by decide)) (.struct hstruct hname)
  · exact .typeWord fun htype => hrest _ (h.advance rfl (inside_of_typeWord htype)) (.word htype)

theorem reads_formal (h : Fit c) : InStep c (fun _ => formal) (Since c fun ts d => Formals ts [d]) := by
  refine .peek (.typeWord fun htype => .expect fun hname => ?_)
  have htaken := (h.advance rfl (inside_of_typeWord htype)).next h hname (by decide)
  exact .spanFrom htaken (by simp) (.pure ⟨_, htaken, .one htype hname⟩)

theorem reads_formals (fuel : Nat) : ∀ {c : Front ι}, Fit c → InStep c (fun _ => formals fuel)
    (Since c (Gathered fun ts ds => Formals ts ds ∧ ds ≠ [])) := by
  induction fuel with
  | zero => exact fun _ => .fail _
  | succ fuel ih =>
    intro c h
    refine (reads_formal h).seq ?_
    rintro one c₁ ⟨ts, htaken, hone⟩
    refine .accept (fun hcomma => ?_) fun _ => .pure ⟨ts, htaken, [one], ⟨hone, by simp⟩, rfl⟩
    have hnext := htaken.next h hcomma (by decide)
    refine (ih (hnext.fit h)).seq ?_
    rintro _ c₂ ⟨us, htaken', ds, ⟨hds, hne⟩, rfl⟩
    exact .pure ⟨_, hnext.join htaken', one :: ds, ⟨.more hone hcomma hds hne, by simp⟩, rfl⟩

theorem reads_fields (fuel : Nat) : ∀ {c : Front ι}, Fit c → InStep c (fun _ => fields fuel) fun a c' =>
    (c'.ahead 0).kind = .rbrace ∧ Since c (Gathered (Each VarPhrase)) a c' := by
  induction fuel with
  | zero => exact fun _ => .fail _
  | succ fuel ih =>
    intro c h
    refine .peekIf (fun hend => .pure ⟨hend, [], .refl c, [], .nil, rfl⟩) fun _ => ?_
    refine .atVarDecl fun isVar => .ite (fun _ => (reads_varDecl h).seq ?_) fun _ => .fail _
    rintro one c₁ ⟨ts, htaken, hone⟩
    refine (ih (htaken.fit h)).seq ?_
    rintro _ c₂ ⟨hend, us, htaken', ds, hds, rfl⟩
    exact .pure ⟨hend, _, htaken.trans htaken', one :: ds, .cons hone hds, rfl⟩

theorem reads_varDecls (fuel : Nat) : ∀ {c : Front ι}, Fit c → InStep c (fun _ => varDecls fuel)
    (Since c (Gathered (Each VarPhrase))) := by
  induction fuel with
  | zero => exact fun _ => .fail _
  | succ fuel ih =>
    intro c h
    refine .atVarDecl fun isVar => .ite (fun _ => (reads_varDecl h).seq ?_) fun _ =>
      .pure ⟨[], .refl c, [], .nil, rfl⟩
    rintro one c₁ ⟨ts, htaken, hone⟩
    refine (ih (htaken.fit h)).seq ?_
    rintro _ c₂ ⟨us, htaken', ds, hds, rfl⟩
    exact .pure ⟨_, htaken.trans htaken', one :: ds, .cons hone hds, rfl⟩

end Declarations

section Expressions

variable {c c₀ : Front ι} {ts : List (Common ι)} {fuel : Nat}

def One (ts : List (Common ι)) (e : ι → Expr) : Prop := Phrase ts [e]

/-- A phrase that stands for a place. -/
def Place (ts : List (Common ι)) (e : ι → Expr) : Prop := Phrase ts [e] ∧ ∀ i, formOf (e i) = .place

theorem reads_dots (h : Fit c₀) (fuel : Nat) : ∀ {c : Front ι} {ts obj}, Taken c₀ c ts → Place ts obj →
    InStep c (fun i => dots ((c₀.ahead 0).token i) fuel (obj i)) (Since c₀ Place) := by
  induction fuel with
  | zero => exact fun _ _ => .fail _
  | succ fuel ih =>
    intro c ts obj htaken hobj
    refine .accept (fun hdot => .expect fun hname => ?_) fun _ => .pure ⟨ts, htaken, hobj⟩
    have hsign := htaken.next h hdot (by decide)
    have hfield := hsign.join ((hsign.fit h).advance hname (by decide))
    exact .spanFrom hfield (by simp) (ih hfield ⟨.dot hobj.1 hobj.2 hdot hname, fun _ => rfl⟩)

theorem reads_location (h : Fit c) (fuel : Nat) (what : ParseError.Expectation) :
    InStep c (fun _ => location fuel what) (Since c Place) :=
  .expect fun hname => reads_dots h fuel (h.advance hname (by decide)) ⟨.ident hname, fun _ => rfl⟩

/-- What the parsers of expressions read, with some fuel. -/
structure ExprsRead (ι : Type) (fuel : Nat) : Prop where
  expr : ∀ {c : Front ι}, Fit c → InStep c (fun _ => Parser.expr fuel) (Since c One)
  chain : ∀ level {c : Front ι}, Fit c → InStep c (fun _ => chain level fuel) (Since c One)
  links : ∀ level {c₀ c : Front ι} {ts left}, Fit c₀ → Taken c₀ c ts → One ts left →
    InStep c (fun i => links level ((c₀.ahead 0).token i) fuel (left i)) (Since c₀ One)
  operand : ∀ level {c : Front ι}, Fit c → InStep c (fun _ => operand level fuel) (Since c One)
  comparison : ∀ {c : Front ι}, Fit c → InStep c (fun _ => comparison fuel) (Since c One)
  unary : ∀ {c : Front ι}, Fit c → InStep c (fun _ => unary fuel) (Since c One)
  primary : ∀ {c : Front ι}, Fit c → InStep c (fun _ => primary fuel) (Since c One)
  arguments : ∀ {c : Front ι}, Fit c → InStep c (fun _ => arguments fuel)
    (Since c (Gathered fun ts es => Phrase ts es ∧ es ≠ []))

/-- Whether a phrase stands for a place is the same in all texts. -/
theorem One.isLocation {e : ι → Expr} (h : One ts e) :
    ∃ b, (∀ i, (e i).isLocation = b) ∧ (b = true → ∀ i, formOf (e i) = .place) := by
  obtain ⟨form, hform⟩ := h.form e (by simp)
  refine ⟨form = .place, fun i => ?_, fun hplace i => by rw [hform]; simpa using hplace⟩
  rw [Bool.eq_iff_iff, isLocation_iff, hform, decide_eq_true_iff]

theorem reads_expr (ih : ExprsRead ι fuel) (h : Fit c) :
    InStep c (fun _ => Parser.expr (fuel + 1)) (Since c One) := by
  rw [Parser.expr]
  refine .peek ((ih.chain .or h).seq ?_)
  rintro target c₁ ⟨ts, htaken, htarget⟩
  refine .peekIf (fun heq => .advance ?_) fun _ => .pure ⟨ts, htaken, htarget⟩
  obtain ⟨b, hb, hplace⟩ := htarget.isLocation
  simp only [hb]
  refine .ite (fun _ => (InStep.blame _ _).seq fun _ _ h => h) fun hlocation => ?_
  have hsign := htaken.next h heq (by decide)
  refine (ih.expr (hsign.fit h)).seq ?_
  rintro value c₂ ⟨us, htaken', hvalue⟩
  have hall := hsign.join htaken'
  exact .spanFrom hall (by simp) (.pure ⟨_, hall, .assign htarget (hplace (by simpa using hlocation)) heq hvalue⟩)

theorem op_inside {kind : Kind} {op : BinaryOp}
    (h : (∃ level : Level, level.op? kind = some op) ∨ comparisonOp? kind = some op) : kind ≠ .eof := by
  rintro rfl
  rcases h with ⟨level, h⟩ | h
  · cases level <;> cases h
  · cases h

theorem reads_links (ih : ExprsRead ι fuel) (level : Level) {left : ι → Expr} (h : Fit c₀) (htaken : Taken c₀ c ts)
    (hleft : One ts left) :
    InStep c (fun i => links level ((c₀.ahead 0).token i) (fuel + 1) (left i)) (Since c₀ One) := by
  simp only [links]
  refine .peek ?_
  simp only [Common.token_kind]
  cases hop : level.op? (c.ahead 0).kind with
  | none => exact .pure ⟨ts, htaken, hleft⟩
  | some op =>
    have hsign := htaken.next h rfl (op_inside (.inl ⟨level, hop⟩))
    refine .advance ((ih.operand level (hsign.fit h)).seq ?_)
    rintro right c₁ ⟨us, htaken', hright⟩
    have hall := hsign.join htaken'
    exact .spanFrom hall (by simp) (ih.links level h hall (.binary hleft (.inl ⟨level, hop⟩) hright))

theorem reads_chain (ih : ExprsRead ι fuel) (level : Level) (h : Fit c) :
    InStep c (fun _ => chain level (fuel + 1)) (Since c One) := by
  rw [chain]
  refine .peek ((ih.operand level h).seq ?_)
  rintro left c₁ ⟨ts, htaken, hleft⟩
  exact ih.links level h htaken hleft

theorem reads_operand (ih : ExprsRead ι fuel) (level : Level) (h : Fit c) :
    InStep c (fun _ => operand level (fuel + 1)) (Since c One) := by
  cases level with
  | or => exact ih.chain .and h
  | and => exact ih.comparison h
  | add => exact ih.chain .mul h
  | mul => exact ih.unary h

theorem reads_comparison (ih : ExprsRead ι fuel) (h : Fit c) :
    InStep c (fun _ => comparison (fuel + 1)) (Since c One) := by
  rw [comparison]
  refine .peek ((ih.chain .add h).seq ?_)
  rintro left c₁ ⟨ts, htaken, hleft⟩
  refine .peek ?_
  simp only [Common.token_kind]
  cases hop : comparisonOp? (c₁.ahead 0).kind with
  | none => exact .pure ⟨ts, htaken, hleft⟩
  | some op =>
    have hsign := htaken.next h rfl (op_inside (.inr hop))
    refine .advance ((ih.chain .add (hsign.fit h)).seq ?_)
    rintro right c₂ ⟨us, htaken', hright⟩
    have hall := hsign.join htaken'
    refine .spanFrom hall (by simp) (.peek (.ite (p := (c₂.ahead 0).kind.isComparison) (fun _ => ?_) fun _ => ?_))
    · exact (InStep.fail _).seq fun _ _ h => h
    · exact .pure ⟨_, hall, .binary hleft (.inr hop) hright⟩

theorem reads_unary (ih : ExprsRead ι fuel) (h : Fit c) :
    InStep c (fun _ => unary (fuel + 1)) (Since c One) := by
  rw [unary]
  refine .peek ?_
  simp only [Common.token_kind]
  cases hop : unaryOp? (c.ahead 0).kind with
  | none => exact ih.primary h
  | some op =>
    have hsign := h.advance rfl fun heof => by simp [heof, unaryOp?] at hop
    refine .advance ((ih.unary (hsign.fit h)).seq ?_)
    rintro e c₁ ⟨ts, htaken, he⟩
    have hall := hsign.trans htaken
    exact .spanFrom hall (by simp) (.pure ⟨_, hall, .unary hop he⟩)

theorem reads_primary (ih : ExprsRead ι fuel) (h : Fit c) :
    InStep c (fun _ => primary (fuel + 1)) (Since c One) := by
  rw [primary]
  refine .peek ?_
  simp only [Common.token_kind, Common.token_text]
  cases hkind : (c.ahead 0).kind with
  | int =>
    have htaken := h.advance hkind (by decide)
    exact .advance (.spanFrom htaken (by simp) (.pure ⟨_, htaken, .int hkind⟩))
  | string =>
    have htaken := h.advance hkind (by decide)
    exact .advance (.spanFrom htaken (by simp) (.pure ⟨_, htaken, .string hkind⟩))
  | trueKw =>
    have htaken := h.advance hkind (by decide)
    exact .advance (.spanFrom htaken (by simp) (.pure ⟨_, htaken, .bool (b := true) hkind⟩))
  | falseKw =>
    have htaken := h.advance hkind (by decide)
    exact .advance (.spanFrom htaken (by simp) (.pure ⟨_, htaken, .bool (b := false) hkind⟩))
  | ident =>
    refine .kindAhead (.ite (fun hparen => ?_) fun _ =>
      (reads_location h fuel .identifier).weaken fun _ _ h => h.imp fun _ h => ⟨h.1, h.2.1⟩)
    have hname := h.advance hkind (by decide)
    rw [← h.ahead_advance hkind (by decide)] at hparen
    have hopen := hname.next h hparen (by decide)
    have hrest : ∀ {c₁ us} (es : List (ι → Expr)), Taken c.advance.advance c₁ us → Phrase us es → InStep c₁ (fun i => do
        let _ ← expect .rparen .argumentsEnd
        return .call { span := ← spanFrom ((c.ahead 0).token i) } (identOf ((c.ahead 0).token i))
          (es.map (· i))) (Since c One) := by
      intro c₁ us es htaken hes
      refine .expect fun hclose => ?_
      have hall := (hopen.trans htaken).next h hclose (by decide)
      rw [List.append_assoc] at hall
      exact .spanFrom hall (by simp) (.pure ⟨_, hall, .call hkind hparen hes hclose⟩)
    refine .advance (.advance (.peekIf (fun _ => hrest [] (.refl _) .none) fun _ => ?_))
    refine (ih.arguments (hopen.fit h)).seq ?_
    rintro _ c₁ ⟨us, htaken, es, ⟨hes, -⟩, rfl⟩
    exact hrest es htaken hes
  | lparen =>
    have hopen := h.advance hkind (by decide)
    refine .advance ((ih.expr (hopen.fit h)).seq ?_)
    rintro e c₁ ⟨ts, htaken, he⟩
    refine .expect fun hclose => .pure ⟨_, (hopen.trans htaken).next h hclose (by decide), ?_⟩
    exact .group hkind he hclose
  | _ => exact .fail _

theorem reads_arguments (ih : ExprsRead ι fuel) (h : Fit c) : InStep c (fun _ => arguments (fuel + 1))
    (Since c (Gathered fun ts es => Phrase ts es ∧ es ≠ [])) := by
  rw [arguments]
  refine (ih.expr h).seq ?_
  rintro one c₁ ⟨ts, htaken, hone⟩
  refine .accept (fun hcomma => ?_) fun _ => .pure ⟨ts, htaken, [one], ⟨hone, by simp⟩, rfl⟩
  have hnext := htaken.next h hcomma (by decide)
  refine (ih.arguments (hnext.fit h)).seq ?_
  rintro _ c₂ ⟨us, htaken', es, ⟨hes, hne⟩, rfl⟩
  exact .pure ⟨_, hnext.join htaken', one :: es, ⟨.more hone hcomma hes hne, by simp⟩, rfl⟩

/-- What is parsed as an expression is one. -/
theorem exprsRead (fuel : Nat) : ExprsRead ι fuel := by
  induction fuel with
  | zero =>
    constructor
    · exact fun _ => .fail _
    · exact fun _ _ _ => .fail _
    · exact fun _ _ _ _ _ _ _ _ => .fail _
    · exact fun _ _ _ => .fail _
    · exact fun _ => .fail _
    · exact fun _ => .fail _
    · exact fun _ => .fail _
    · exact fun _ => .fail _
  | succ fuel ih =>
    exact ⟨reads_expr ih, fun level _ => reads_chain ih level, fun level _ _ _ _ => reads_links ih level,
      fun level _ => reads_operand ih level, reads_comparison ih, reads_unary ih, reads_primary ih,
      reads_arguments ih⟩

end Expressions

section Statements

variable {c : Front ι} {fuel : Nat}

/-- An expression is made a statement on its own if it is an assignment or a call. -/
theorem reads_exprStmt {c₀ : Front ι} {ts : List (Common ι)} {e : ι → Expr} (htaken : Taken c₀ c ts) (he : One ts e) :
    InStep c (fun i => match e i with
      | .assign .. => pure fun span => Stmt.assign span (e i)
      | .call .. => pure fun span => Stmt.call span (e i)
      | _ => Parser.fail .notAStatement) (Since c₀ Simple) := by
  obtain ⟨form, hform⟩ := he.form e (by simp)
  cases form with
  | assign =>
    refine (InStep.pure (a := fun i span => .assign span (e i)) ⟨ts, htaken, .assign he hform⟩).of_eq fun i => ?_
    have := hform i
    cases hi : e i <;> simp [formOf, hi] at this ⊢
  | call =>
    refine (InStep.pure (a := fun i span => .call span (e i)) ⟨ts, htaken, .call he hform⟩).of_eq fun i => ?_
    have := hform i
    cases hi : e i <;> simp [formOf, hi] at this ⊢
  | place | other =>
    refine (InStep.fail (c := c) .notAStatement).of_eq fun i => ?_
    have := hform i
    cases hi : e i <;> simp [formOf, hi] at this ⊢

theorem reads_simpleStmt (fuel : Nat) (h : Fit c) : InStep c (fun _ => simpleStmt fuel) (Since c Simple) := by
  have hexpr := @(exprsRead (ι := ι) fuel).expr
  refine .accept (fun hret => ?_) fun _ => .accept (fun hcin => .expect fun hsign => ?_) fun _ =>
    .accept (fun hcout => .expect fun hsign => ?_) fun _ => ?_
  · have htaken := h.advance hret (by decide)
    refine .peekIf (fun _ => .pure ⟨_, htaken, .done hret⟩) fun _ => (hexpr (htaken.fit h)).seq ?_
    rintro value c₁ ⟨ts, htaken', hvalue⟩
    exact .pure ⟨_, htaken.trans htaken', .ret hret hvalue⟩
  · have htaken := (h.advance hcin (by decide)).next h hsign (by decide)
    refine (reads_location (htaken.fit h) fuel .readTarget).seq ?_
    rintro target c₁ ⟨ts, htaken', htarget⟩
    exact .pure ⟨_, htaken.trans htaken', .read hcin hsign htarget.1 htarget.2⟩
  · have htaken := (h.advance hcout (by decide)).next h hsign (by decide)
    refine (hexpr (htaken.fit h)).seq ?_
    rintro value c₁ ⟨ts, htaken', hvalue⟩
    exact .pure ⟨_, htaken.trans htaken', .write hcout hsign hvalue⟩
  · refine (hexpr h).seq ?_
    rintro e c₁ ⟨ts, htaken, he⟩
    refine .peek (.ite (p := (decide ((c₁.ahead 0).kind = .plusPlus) || decide ((c₁.ahead 0).kind = .minusMinus)) = true)
      (fun hcount => .advance ?_) fun _ => reads_exprStmt htaken he)
    obtain ⟨b, hb, hplace⟩ := he.isLocation
    simp only [hb]
    refine .ite (fun _ => (InStep.blame _ _).seq fun _ _ h => h) fun hlocation => ?_
    have hplace := hplace (by simpa using hlocation)
    refine .ite (p := (c₁.ahead 0).kind = .plusPlus) (fun hplus => ?_) fun hplus => ?_
    · exact .pure ⟨_, htaken.next h hplus (by decide), .increment he hplace hplus⟩
    · have hminus : (c₁.ahead 0).kind = .minusMinus := by simpa [hplus] using hcount
      exact .pure ⟨_, htaken.next h hminus (by decide), .decrement he hplace hminus⟩

/-- Tokens are read as a block. -/
def BlockPhrase (ts : List (Common ι)) (b : ι → Block) : Prop := ∃ us ss, Braced ts b us ss ∧ Stmts us ss

/-- What the parsers of statements read, with some fuel. -/
structure StmtsRead (ι : Type) (fuel : Nat) : Prop where
  block : ∀ {c : Front ι}, Fit c → InStep c (fun _ => block fuel) (Since c BlockPhrase)
  statements : ∀ {c : Front ι}, Fit c → InStep c (fun _ => statements fuel) (Since c (Gathered Stmts))
  statement : ∀ {c : Front ι}, Fit c → InStep c (fun _ => statement fuel) (Since c fun ts st => Stmts ts [st])

theorem reads_block (ih : StmtsRead ι fuel) (h : Fit c) :
    InStep c (fun _ => block (fuel + 1)) (Since c BlockPhrase) := by
  rw [block]
  refine .peek (.expect fun hopen => ?_)
  have htaken := h.advance hopen (by decide)
  refine (reads_varDecls fuel (htaken.fit h)).seq ?_
  rintro _ c₁ ⟨ts, htaken₁, ds, hds, rfl⟩
  have hdecls := htaken.trans htaken₁
  refine (ih.statements (hdecls.fit h)).seq ?_
  rintro _ c₂ ⟨us, htaken₂, ss, hss, rfl⟩
  refine .expect fun hclose => ?_
  have hall := (hdecls.trans htaken₂).next h hclose (by decide)
  exact .spanFrom hall (by simp) (.pure ⟨_, hall, us, ss, .mk hopen hds hclose, hss⟩)

theorem reads_statements (ih : StmtsRead ι fuel) (h : Fit c) :
    InStep c (fun _ => statements (fuel + 1)) (Since c (Gathered Stmts)) := by
  rw [statements]
  refine .kindAhead (.ite (fun _ => .pure ⟨[], .refl c, [], .nil, rfl⟩) fun _ => .ite (fun _ => .fail _) fun _ => ?_)
  refine .atVarDecl fun isVar => .ite (fun _ => .fail _) fun _ => (ih.statement h).seq ?_
  rintro one c₁ ⟨ts, htaken, hone⟩
  refine (ih.statements (htaken.fit h)).seq ?_
  rintro _ c₂ ⟨us, htaken', ss, hss, rfl⟩
  exact .pure ⟨_, htaken.trans htaken', one :: ss, .cons hone hss, rfl⟩

/-- A condition in parentheses is read after its keyword. -/
theorem reads_guard {kind : Kind} {what what' : ParseError.Expectation} {β : Type} {f : ι → Expr → ParseM β}
    {Q : (ι → β) → Front ι → Prop} (h : Fit c) (hkind : (c.ahead 0).kind = kind) (hinside : kind ≠ .eof)
    (hf : ∀ c₁ ts e, Taken c c₁ ts → Guard kind ts e → InStep c₁ (fun i => f i (e i)) Q) :
    InStep c.advance (fun i => do
      let _ ← expect .lparen what
      let cond ← Parser.expr fuel
      let _ ← expect .rparen what'
      f i cond) Q := by
  refine .expect fun hopen => ?_
  have htaken := (h.advance hkind hinside).next h hopen (by decide)
  refine ((exprsRead fuel).expr (htaken.fit h)).seq ?_
  rintro e c₁ ⟨ts, htaken', he⟩
  refine .expect fun hclose => hf _ _ e ((htaken.trans htaken').next h hclose (by decide)) ?_
  exact .mk hkind hopen he hclose

theorem Guard.ne_nil {kind : Kind} {ts : List (Common ι)} {e : ι → Expr} (h : Guard kind ts e) : ts ≠ [] := by
  cases h
  simp

theorem reads_statement (ih : StmtsRead ι fuel) (h : Fit c) :
    InStep c (fun _ => statement (fuel + 1)) (Since c fun ts st => Stmts ts [st]) := by
  rw [statement]
  refine .peek ?_
  have hsimple : InStep c (fun i => do
      let open_ ← simpleStmt fuel
      let _ ← expect .semi .statementEnd
      return open_ (← spanFrom ((c.ahead 0).token i))) (Since c fun ts st => Stmts ts [st]) := by
    refine (reads_simpleStmt fuel h).seq ?_
    rintro st c₁ ⟨ts, htaken, hst⟩
    refine .expect fun hsemi => ?_
    have hall := htaken.next h hsemi (by decide)
    exact .spanFrom hall (by simp) (.pure ⟨_, hall, .simple hst hsemi⟩)
  simp only [Common.token_kind]
  cases hkind : (c.ahead 0).kind with
  | ifKw =>
    refine .advance (reads_guard h hkind (by decide) fun c₁ ts e htaken hcond => (ih.block (htaken.fit h)).seq ?_)
    rintro body c₂ ⟨us, htaken', vs, ss, hbody, hss⟩
    have hthen := htaken.trans htaken'
    refine .accept (fun helse => ?_) fun _ => ?_
    · have hword := hthen.next h helse (by decide)
      refine (ih.block (hword.fit h)).seq ?_
      rintro other c₃ ⟨us', htaken'', vs', ss', hother, hss'⟩
      have hall := hword.join htaken''
      exact .spanFrom hall (by simp) (.pure ⟨_, hall, .ifElse hcond hbody hss helse hother hss'⟩)
    · exact .spanFrom hthen (by simp [hcond.ne_nil]) (.pure ⟨_, hthen, .ifThen hcond hbody hss⟩)
  | whileKw =>
    refine .advance (reads_guard h hkind (by decide) fun c₁ ts e htaken hcond => (ih.block (htaken.fit h)).seq ?_)
    rintro body c₂ ⟨us, htaken', vs, ss, hbody, hss⟩
    have hall := htaken.trans htaken'
    exact .spanFrom hall (by simp [hcond.ne_nil]) (.pure ⟨_, hall, .loop hcond hbody hss⟩)
  | _ => exact hsimple

/-- What is parsed as statements is statements. -/
theorem stmtsRead (fuel : Nat) : StmtsRead ι fuel := by
  induction fuel with
  | zero => exact ⟨fun _ => .fail _, fun _ => .fail _, fun _ => .fail _⟩
  | succ fuel ih => exact ⟨reads_block ih, reads_statements ih, reads_statement ih⟩

end Statements

section Programs

variable {c c₁ : Front ι}

theorem reads_function (fuel : Nat) (h : Fit c) (htype : (c.ahead 0).kind.isTypeWord) {x : Common ι}
    (htaken : Taken c c₁ [c.ahead 0, x]) (hname : x.kind = .ident) (hopen : (c₁.ahead 0).kind = .lparen) :
    InStep c₁ (fun i => function fuel ((c.ahead 0).token i) (typeOf ((c.ahead 0).token i) false) (x.token i))
      (Since c fun ts d => DeclPhrase ts fun i => .fn (d i)) := by
  have hparen := htaken.next h hopen (by decide)
  have hrest : ∀ {c₂ ts} (ds : List (ι → VarDecl)), Taken c₁.advance c₂ ts → Formals ts ds → InStep c₂ (fun i => do
      let _ ← expect .rparen .parametersEnd
      let body ← block fuel
      return { span := ← spanFrom ((c.ahead 0).token i), result := typeOf ((c.ahead 0).token i) false
               name := identOf (x.token i), formals := ds.map (· i), body : FnDecl })
      (Since c fun ts d => DeclPhrase ts fun i => .fn (d i)) := by
    intro c₂ ts ds htaken' hds
    refine .expect fun hclose => ?_
    have hclosed := (hparen.trans htaken').next h hclose (by decide)
    refine ((stmtsRead fuel).block (hclosed.fit h)).seq ?_
    rintro body c₃ ⟨us, htaken'', vs, ss, hbody, hss⟩
    have hall := hclosed.join htaken''
    exact .spanFrom hall (by simp) (.pure ⟨_, hall, .fn htype hname hopen hds hclose hbody hss⟩)
  refine .advance (.peekIf (fun _ => hrest [] (.refl _) .none) fun _ => (reads_formals fuel (hparen.fit h)).seq ?_)
  rintro _ c₂ ⟨ts, htaken', ds, ⟨hds, -⟩, rfl⟩
  exact hrest ds htaken' hds

/-- A struct is declared where the brace after its name has been seen. -/
theorem reads_structDecl (fuel : Nat) (h : Fit c) (hstruct : (c.ahead 0).kind = .structKw)
    (hbrace : (c.ahead 2).kind = .lbrace) :
    InStep c (fun _ => structDecl fuel) (Since c fun ts d => DeclPhrase ts fun i => .struct (d i)) := by
  have htaken := h.advance hstruct (by decide)
  refine .peek (.advance (.expect fun hname => ?_))
  rw [← h.ahead_advance hstruct (by decide), ← (htaken.fit h).ahead_advance hname (by decide)] at hbrace
  have hopen := (htaken.next h hname (by decide)).next h hbrace (by decide)
  refine .advance ((reads_fields fuel (hopen.fit h)).seq ?_)
  rintro _ c₁ ⟨hend, ts, htaken', ds, hds, rfl⟩
  have hempty : ∀ i : ι, (ds.map (· i)).isEmpty = ds.isEmpty := fun i => by cases ds <;> rfl
  simp only [hempty, Common.token_text]
  refine .ite (fun _ => (InStep.fail _).seq fun _ _ h => h) fun hne => ?_
  have hclose := (hopen.trans htaken').next h hend (by decide)
  refine .advance (.expect fun hsemi => ?_)
  have hall := hclose.join ((hclose.fit h).advance hsemi (by decide))
  rw [List.append_assoc] at hall
  exact .spanFrom hall (by simp) (.pure ⟨_, hall, .struct hstruct hname hbrace hds (by simpa using hne) hend hsemi⟩)

theorem reads_decl (fuel : Nat) (h : Fit c) : InStep c (fun _ => decl fuel) (Since c DeclPhrase) := by
  refine .peekIf (fun hstruct => ?_) fun _ => ?_
  · refine .kindAhead (.ite (fun hbrace => ?_) fun _ => ?_)
    · exact (reads_structDecl fuel h hstruct hbrace).seq fun d c₁ hd => .pure hd
    · exact (reads_varDecl h).seq fun d c₁ h => .pure (h.imp fun _ h => ⟨h.1, .var h.2⟩)
  refine .ite (p := (c.ahead 0).kind.isTypeWord) (fun _ => .typeWord fun htype => .expect fun hname => ?_)
    fun _ => .fail _
  have hnamed := (h.advance rfl (inside_of_typeWord htype)).next h hname (by decide)
  refine .peekIf (fun hparen => ?_) fun _ => .expect fun hsemi => ?_
  · exact (reads_function fuel h htype hnamed hname hparen).seq fun d c₁ hd => .pure hd
  · have hall := hnamed.next h hsemi (by decide)
    exact .spanFrom hall (by simp) (.pure ⟨_, hall, .var (.word htype hname hsemi)⟩)

/-- The declarations are read up to the end of the text. -/
theorem reads_declarations (depth fuel : Nat) : ∀ {c : Front ι}, Fit c → InStep c (fun _ => declarations depth fuel)
    fun a c' => c'.rest = [] ∧ Since c (Gathered (Each DeclPhrase)) a c' := by
  induction fuel with
  | zero => exact fun _ => .fail _
  | succ fuel ih =>
    intro c h
    refine .peekIf (fun heof => .pure ⟨?_, [], .refl c, [], .nil, rfl⟩) fun _ => (reads_decl depth h).seq ?_
    · cases hrest : c.rest with
      | nil => rfl
      | cons t rest =>
        have hahead : c.ahead 0 = t := by simp [Front.ahead, hrest]
        exact absurd (hahead ▸ heof) (h.rest t (by simp [hrest]))
    · rintro one c₁ ⟨ts, htaken, hone⟩
      refine (ih (htaken.fit h)).seq ?_
      rintro _ c₂ ⟨hend, us, htaken', ds, hds, rfl⟩
      exact .pure ⟨hend, _, htaken.trans htaken', one :: ds, .cons hone hds, rfl⟩

/-- A program is read in all texts, up to their ends. It spans all tokens, or the mark of the end if there are none. -/
theorem reads_program (fuel : Nat) (h : Fit c) (hlast : c.last = c.ahead 0) : InStep c (fun _ => program fuel)
    fun p c' => c'.rest = [] ∧ ∃ ds, Each DeclPhrase c.rest ds ∧ ∀ i, (p i).decls = ds.map (· i) ∧
      (p i).span = if c.rest = [] then spanOf [c.eof] i else spanOf c.rest i := by
  refine .peek ((reads_declarations fuel fuel h).seq ?_)
  rintro _ c₁ ⟨hend, ts, htaken, ds, hds, rfl⟩
  obtain rfl : c.rest = ts := by rw [htaken.rest, hend, List.append_nil]
  refine InStep.seq (P := fun span c₂ => c₂ = c₁ ∧ span = fun i =>
    some ⟨((c.ahead 0).token i).start, (c₁.last.token i).stop⟩) (.inl ⟨_, c₁, fun _ => rfl, rfl, rfl⟩) ?_
  rintro _ _ ⟨rfl, rfl⟩
  refine .pure ⟨hend, ds, hds, fun i => ⟨rfl, ?_⟩⟩
  split
  · rw [htaken.last, hlast, Front.ahead, ‹c.rest = []›]
    rfl
  · exact htaken.span ‹_› i

/-- The front before the first token of all texts. -/
def Front.ofTokens (ts : List (Common ι)) (eof : Common ι) : Front ι := ⟨ts, eof, ts.headD eof⟩

theorem cursor_ofTokens (ts : List (Common ι)) (eof : Common ι) (i : ι) :
    (Front.ofTokens ts eof).cursor i = .ofTokens (ts.map (·.token i) ++ [eof.token i]) := by
  have hlast : ∀ t, (ts.map (·.token i) ++ [eof.token i]).getLastD t = eof.token i := by
    simp [List.getLastD_eq_getLast?]
  rw [Front.ofTokens, Front.cursor, Cursor.ofTokens, hlast, List.dropLast_concat]
  cases ts with
  | nil => rfl
  | cons t ts => rfl

/-- The only text of its kind. -/
def alone (t : Token) : Common Unit := ⟨t.kind, t.text, fun _ => t.start⟩

/-- What is parsed as a program is one, and all of its tokens are taken. -/
theorem of_tokens {ts : List Token} {eof : Token} {p : Program} (heof : eof.kind = .eof)
    (hinside : ∀ t ∈ ts, t.kind ≠ .eof) (h : Program.ofTokens (ts ++ [eof]) = .ok p) : ∃ us ds c,
    us.map (·.token ()) = ts ∧ Each DeclPhrase us ds ∧
      (program (fuelFor (ts ++ [eof]))).run (.ofTokens (ts ++ [eof])) = .ok (p, c) ∧ c.rest = [] ∧
      p.decls = ds.map (· ()) ∧ p.span = if us = [] then spanOf [alone eof] () else spanOf us () := by
  have hmap : (ts.map alone).map (·.token ()) = ts := by
    rw [List.map_map]
    exact List.map_id _
  have hcursor : (Front.ofTokens (ts.map alone) (alone eof)).cursor () = .ofTokens (ts ++ [eof]) := by
    rw [cursor_ofTokens, hmap]
    rfl
  have hfit : Fit (Front.ofTokens (ts.map alone) (alone eof)) := ⟨by simpa [Front.ofTokens, alone] using hinside, heof⟩
  unfold Program.ofTokens at h
  rcases reads_program (fuelFor (ts ++ [eof])) hfit rfl with ⟨q, c, hrun, hend, ds, hds, hdecls⟩ | ⟨cause, t, hrun⟩
  · have hrun := hrun ()
    rw [hcursor] at hrun
    have hq : (program (fuelFor (ts ++ [eof]))).run (.ofTokens (ts ++ [eof])) = .ok (q (), c.cursor ()) := hrun
    rw [hq] at h
    obtain rfl : q () = p := Except.ok.inj h
    exact ⟨_, ds, _, hmap, hds, hq, by simp [Front.cursor, hend], (hdecls ()).1, (hdecls ()).2⟩
  · have hrun := hrun ()
    rw [hcursor] at hrun
    have hq : (program (fuelFor (ts ++ [eof]))).run (.ofTokens (ts ++ [eof])) = .error ⟨cause, t.token ()⟩ := hrun
    rw [hq] at h
    cases h

end Programs

end CMinusMinus.Proofs.Phrases
