import CMinusMinus.Proofs.Tokens

/-!
The spans of a tree. Tokens follow one another in the text, and a node spans the tokens that it is made of. So the
spans of the parts of a node lie in its own span, one after the other.
-/
namespace CMinusMinus.Proofs.Spans

open Token Phrases

/-- A place is not after another. -/
def Upto (p q : Position) : Prop := p.line < q.line ∨ p.line = q.line ∧ p.column ≤ q.column

theorem Upto.refl (p : Position) : Upto p p := .inr ⟨rfl, Int.le_refl _⟩

theorem Upto.trans {p q r : Position} (h : Upto p q) (h' : Upto q r) : Upto p r := by
  unfold Upto at *
  omega

theorem upto_right (p : Position) {m n : Nat} (h : m ≤ n) : Upto (p.right m) (p.right n) :=
  .inr ⟨rfl, Int.add_le_add_left (Int.ofNat_le.mpr h) _⟩

theorem upto_width (p : Position) (n : Nat) : Upto p (p.right n) :=
  .inr ⟨rfl, Int.le_add_of_nonneg_right (Int.natCast_nonneg n)⟩

theorem upto_stop (t : Token) : Upto t.start t.stop := upto_width t.start _

section Outlines

/-- A node with its span and the nodes that are its parts, in their order. -/
inductive Outline where
  | node (span : Option Span) (parts : List Outline)

def Outline.span : Outline → Option Span
  | .node span _ => span

/-- One node ends where another starts, or before. -/
def Outline.Ahead (x y : Outline) : Prop := ∃ s s', x.span = some s ∧ y.span = some s' ∧ Upto s.stop s'.start

/-- The spans of a node and all below it: none ends before it starts, parts lie within their node, and they follow
one another. -/
inductive Placed : Outline → Prop
  | node {s : Span} {parts : List Outline} (upto : Upto s.start s.stop)
      (within : ∀ part ∈ parts, ∃ s', part.span = some s' ∧ Upto s.start s'.start ∧ Upto s'.stop s.stop)
      (order : parts.Pairwise Outline.Ahead) (each : ∀ part ∈ parts, Placed part) : Placed (.node (some s) parts)

def identOutline (x : Ident) : Outline := .node x.note.span []

mutual

def exprOutline : Expr → Outline
  | .int n _ | .string n _ | .bool n _ | .misfit n _ => .node n.span []
  | .ident x => identOutline x
  | .dot n obj field _ _ => .node n.span [exprOutline obj, identOutline field]
  | .assign n target value => .node n.span [exprOutline target, exprOutline value]
  | .call n callee args => .node n.span (identOutline callee :: exprOutlines args)
  | .unary n _ operand => .node n.span [exprOutline operand]
  | .binary n _ left right => .node n.span [exprOutline left, exprOutline right]

def exprOutlines : List Expr → List Outline
  | [] => []
  | e :: es => exprOutline e :: exprOutlines es

end

def varOutline (d : VarDecl) : Outline := .node d.span [.node d.type.span [], identOutline d.name]

mutual

def stmtOutline : Stmt → Outline
  | .assign s e | .increment s e | .decrement s e | .read s e | .write s e | .call s e | .ret s (some e) =>
    .node s [exprOutline e]
  | .ifThen s cond body | .loop s cond body => .node s [exprOutline cond, blockOutline body]
  | .ifElse s cond body other => .node s [exprOutline cond, blockOutline body, blockOutline other]
  | .ret s none | .misfit s _ => .node s []

def stmtOutlines : List Stmt → List Outline
  | [] => []
  | st :: ss => stmtOutline st :: stmtOutlines ss

def blockOutline : Block → Outline
  | .mk s decls stmts => .node s (decls.map varOutline ++ stmtOutlines stmts)

end

def declOutline : Decl → Outline
  | .var d => varOutline d
  | .struct d => .node d.span (identOutline d.name :: d.fields.map varOutline)
  | .fn d => .node d.span (.node d.result.span [] :: identOutline d.name :: d.formals.map varOutline ++
      [blockOutline d.body])
  | .misfit s _ => .node s []

/-- All nodes of a program. -/
def programOutline (p : Program) : Outline := .node p.span (p.decls.map declOutline)

end Outlines

section Covering

/-- Nodes lie one after the other between two places, and so do their parts between the ends of each. -/
inductive Fits : Position → Position → List Outline → Prop
  | nil {a b : Position} (upto : Upto a b) : Fits a b []
  | cons {a b : Position} {s : Span} {parts rest : List Outline} (upto : Upto a s.start)
      (inside : Fits s.start s.stop parts) (behind : Fits s.stop b rest) : Fits a b (.node (some s) parts :: rest)

variable {a b c : Position} {xs ys : List Outline} {ι : Type} {i : ι} {t : Common ι} {ts us : List (Common ι)}

theorem Fits.upto (h : Fits a b xs) : Upto a b := by
  induction h with
  | nil h => exact h
  | cons h _ _ ih ih' => exact h.trans (ih.trans ih')

theorem Fits.before (h : Fits b c xs) (hab : Upto a b) : Fits a c xs := by
  cases h with
  | nil h => exact .nil (hab.trans h)
  | cons h hparts hrest => exact .cons (hab.trans h) hparts hrest

theorem Fits.append (h : Fits a b xs) (h' : Fits b c ys) : Fits a c (xs ++ ys) := by
  induction h with
  | nil hab => exact h'.before hab
  | cons hab hparts _ _ ih => exact .cons hab hparts (ih h')

theorem Fits.placed (h : Fits a b xs) :
    (∀ x ∈ xs, Placed x ∧ ∃ s, x.span = some s ∧ Upto a s.start ∧ Upto s.stop b) ∧ xs.Pairwise Outline.Ahead := by
  induction h with
  | nil => simp
  | cons hab hparts hrest ih ih' =>
    refine ⟨List.forall_mem_cons.mpr ⟨⟨?_, _, rfl, hab, hrest.upto⟩, fun x hx => ?_⟩, List.pairwise_cons.mpr
      ⟨fun x hx => ?_, ih'.2⟩⟩
    · exact .node hparts.upto (fun x hx => (ih.1 x hx).2) ih.2 fun x hx => (ih.1 x hx).1
    · obtain ⟨hx, s, hs, hstart, hstop⟩ := ih'.1 x hx
      exact ⟨hx, s, hs, hab.trans (hparts.upto.trans hstart), hstop⟩
    · obtain ⟨-, s, hs, hstart, -⟩ := ih'.1 x hx
      exact ⟨_, s, rfl, hs, hstart⟩

/-- Tokens follow one another between two places. -/
def Spread (i : ι) (a b : Position) : List (Common ι) → Prop
  | [] => Upto a b
  | t :: ts => Upto a (t.start i) ∧ Spread i (t.token i).stop b ts

theorem Spread.before (h : Spread i b c ts) (hab : Upto a b) : Spread i a c ts := by
  cases ts with
  | nil => exact hab.trans h
  | cons t ts => exact ⟨hab.trans h.1, h.2⟩

theorem spread_append (h : Spread i a b (ts ++ us)) : ∃ c, Spread i a c ts ∧ Spread i c b us := by
  induction ts generalizing a with
  | nil => exact ⟨a, .refl a, h⟩
  | cons t ts ih =>
    obtain ⟨c, hts, hus⟩ := ih h.2
    exact ⟨c, ⟨h.1, hts⟩, hus⟩

/-- The nodes that some tokens make lie where the tokens do. -/
def Covers (i : ι) (ts : List (Common ι)) (xs : List Outline) : Prop := ∀ a b, Spread i a b ts → Fits a b xs

theorem Covers.nil : Covers i ([] : List (Common ι)) [] := fun _ _ => .nil

theorem Covers.append (h : Covers i ts xs) (h' : Covers i us ys) : Covers i (ts ++ us) (xs ++ ys) := by
  intro a b hspread
  obtain ⟨c, hts, hus⟩ := spread_append hspread
  exact (h a c hts).append (h' c b hus)

/-- A token that makes no node. -/
theorem Covers.skip (h : Covers i ts xs) : Covers i (t :: ts) xs := fun _ b hspread =>
  (h _ b hspread.2).before (hspread.1.trans (upto_stop (t.token i)))

/-- A token that makes a node of its own. -/
theorem Covers.leaf (h : Covers i ts xs) : Covers i (t :: ts) (.node (some (t.token i).span) [] :: xs) :=
  fun _ b hspread => .cons hspread.1 (.nil (upto_stop (t.token i))) (h _ b hspread.2)

/-- The last tokens make no node. -/
theorem Covers.closed (h : Covers i ts xs) : Covers i (ts ++ us) xs := by
  have hus : Covers i us [] := by
    induction us with
    | nil => exact .nil
    | cons u us ih => exact ih.skip
  have hall := h.append hus
  rwa [List.append_nil] at hall

theorem spread_last {last : Common ι} (h : Spread i a b ts) (hlast : ts.getLast? = some last) :
    Spread i a (last.token i).stop ts ∧ Upto (last.token i).stop b := by
  obtain ⟨init, rfl⟩ := List.getLast?_eq_some_iff.mp hlast
  clear hlast
  induction init generalizing a with
  | nil => exact ⟨⟨h.1, .refl _⟩, h.2⟩
  | cons t init ih => exact ⟨⟨h.1, (ih h.2).1⟩, (ih h.2).2⟩

theorem Covers.node (h : Covers i ts xs) (hne : ts ≠ []) : Covers i ts [.node (spanOf ts i) xs] := by
  intro a b hspread
  obtain ⟨first, rest, rfl⟩ := List.exists_cons_of_ne_nil hne
  obtain ⟨last, hlast⟩ := Option.ne_none_iff_exists'.mp (mt List.getLast?_eq_none_iff.mp hne)
  obtain ⟨hinside, hbehind⟩ := spread_last hspread hlast
  have hspan : spanOf (first :: rest) i = some ⟨first.start i, (last.token i).stop⟩ := by
    rw [spanOf, hlast]
    rfl
  rw [hspan]
  exact .cons hspread.1 (h _ _ ⟨.refl _, hinside.2⟩) (.nil hbehind)

end Covering

section Trees

variable {ι : Type} {i : ι} {ts us : List (Common ι)}

theorem covers_phrase {es : List (ι → Expr)} (h : Phrase ts es) : Covers i ts (exprOutlines (es.map (· i))) := by
  induction h with
  | none => exact .nil
  | int | string | bool | ident => exact Covers.nil.leaf
  | dot _ _ _ _ ih => exact (ih.append Covers.nil.leaf.skip).node (by simp)
  | assign _ _ _ _ ih ih' | binary _ _ _ ih ih' => exact (ih.append ih'.skip).node (by simp)
  | call _ _ _ _ ih => exact ih.closed.skip.leaf.node (by simp)
  | unary _ _ ih => exact ih.skip.node (by simp)
  | group _ _ _ ih => exact ih.closed.skip
  | more _ _ _ _ ih ih' => exact ih.append ih'.skip

theorem covers_var {d : ι → VarDecl} (h : VarPhrase ts d) : Covers i ts [varOutline (d i)] := by
  cases h with
  | word => exact Covers.nil.skip.leaf.leaf.node (by simp)
  | struct => exact Covers.nil.skip.leaf.leaf.skip.node (by simp)

theorem covers_each {α : Type} {P : List (Common ι) → (ι → α) → Prop} {outline : α → Outline}
    (hP : ∀ {ts a}, P ts a → Covers i ts [outline (a i)]) {as : List (ι → α)} (h : Each P ts as) :
    Covers i ts ((as.map (· i)).map outline) := by
  induction h with
  | nil => exact .nil
  | cons hfirst _ ih => exact (hP hfirst).append ih

theorem covers_formals {ds : List (ι → VarDecl)} (h : Formals ts ds) : Covers i ts ((ds.map (· i)).map varOutline) := by
  induction h with
  | none => exact .nil
  | one => exact Covers.nil.leaf.leaf.node (by simp)
  | more _ _ _ _ ih ih' => exact ih.append ih'.skip

/-- A statement that ends with a semicolon has the parts that its tokens make. -/
theorem covers_simple {st : ι → Option Span → Stmt} (h : Simple ts st) :
    ∃ parts, Covers i ts parts ∧ ∀ span, stmtOutline (st i span) = .node span parts := by
  cases h with
  | done => exact ⟨_, Covers.nil.skip, fun _ => by rw [stmtOutline]⟩
  | ret _ he => exact ⟨_, (covers_phrase he).skip, fun _ => by rw [stmtOutline]; rfl⟩
  | read _ _ he | write _ _ he => exact ⟨_, (covers_phrase he).skip.skip, fun _ => by rw [stmtOutline]; rfl⟩
  | increment he | decrement he =>
    exact ⟨_, (covers_phrase he).closed, fun _ => by rw [stmtOutline]; rfl⟩
  | assign he | call he => exact ⟨_, covers_phrase he, fun _ => by rw [stmtOutline]; rfl⟩

theorem covers_guard {kind : Kind} {e : ι → Expr} (h : Guard kind ts e) : Covers i ts [exprOutline (e i)] := by
  obtain ⟨-, -, he, -⟩ := h
  exact (covers_phrase he).closed.skip.skip

theorem covers_braced {b : ι → Block} {ss : List (ι → Stmt)} (h : Braced ts b us ss)
    (hss : Covers i us (stmtOutlines (ss.map (· i)))) : Covers i ts [blockOutline (b i)] := by
  obtain ⟨-, hds, -⟩ := h
  exact ((covers_each covers_var hds).append hss).closed.skip.node (by simp)

theorem covers_stmts {ss : List (ι → Stmt)} (h : Stmts ts ss) : Covers i ts (stmtOutlines (ss.map (· i))) := by
  induction h with
  | nil => exact .nil
  | cons _ _ ih ih' => exact ih.append ih'
  | simple hst =>
    obtain ⟨parts, hparts, hst⟩ := covers_simple (i := i) hst
    show Covers i _ [stmtOutline _]
    rw [hst]
    exact hparts.closed.node (by simp)
  | ifThen hcond hbody _ ih | loop hcond hbody _ ih =>
    exact ((covers_guard hcond).append (covers_braced hbody ih)).node (by simp [hcond.ne_nil])
  | ifElse hcond hbody _ _ hother _ ih ih' =>
    exact (((covers_guard hcond).append (covers_braced hbody ih)).append (covers_braced hother ih').skip).node (by simp)

theorem covers_decl {d : ι → Decl} (h : DeclPhrase ts d) : Covers i ts [declOutline (d i)] := by
  cases h with
  | var hd => exact covers_var hd
  | struct _ _ _ hds => exact (covers_each (i := i) covers_var hds).closed.skip.leaf.skip.node (by simp)
  | fn _ _ _ hds _ hbody hss =>
    exact ((covers_formals hds).append (covers_braced hbody (covers_stmts hss)).skip).skip.leaf.leaf.node (by simp)

end Trees

section Texts

theorem upto_next (p : Position) (c : Char) : Upto p (p.next c) := by
  unfold Position.next
  split
  · exact .inl (Int.lt_succ _)
  · exact .inr ⟨rfl, Int.le_add_one (Int.le_refl _)⟩

theorem upto_skip (comment : Bool) (cs : List Char) (p : Position) : Upto p (skipSeparators comment cs p).2 := by
  fun_induction skipSeparators comment cs p with
  | case1 c rest p _ ih | case2 c rest p _ _ ih | case6 c rest p _ _ _ ih => exact (upto_next p c).trans ih
  | case5 rest p _ ih => exact (upto_next p _).trans ih
  | case4 rest p ih => exact (upto_width p 2).trans ih
  | case3 | case7 | case8 => exact .refl _

/-- The tokens of a text follow one another, up to the end of the mark of its end. -/
theorem spread_of_lexFrom {cs : List Char} {p : Position} {tokens : List Token} (h : lexFrom cs p = .ok tokens) :
    ∃ end_, Spread () p end_ (tokens.map alone) := by
  fun_induction lexFrom cs p generalizing tokens with
  | case1 cs p q hs =>
    cases h
    have hskip := upto_skip false cs p
    rw [hs] at hskip
    exact ⟨_, hskip, .refl _⟩
  | case2 => cases h
  | case3 cs p c rest q hs l hl ih =>
    obtain ⟨more, hmore, h⟩ := Grammar.ok_of_bind h
    cases h
    obtain ⟨end_, hspread⟩ := ih hmore
    have hskip := upto_skip false cs p
    rw [hs] at hskip
    have hwidth : (String.ofList l.text).length ≤ l.width := by
      rw [(Grammar.lexed_of_lexemeAt hl).split.2.1, Grammar.spelled, String.length_ofList]
      split
      · simp only [List.length_cons, List.length_append]
        omega
      · exact Nat.le_refl _
    exact ⟨end_, hskip, hspread.before (upto_right q hwidth)⟩

/-- The spans of a program that has been read form a tree. No span ends before it starts; the spans of the parts of a
node lie within the span of the node, and they follow one another without overlapping. -/
theorem spans_form_tree {text : String} {tokens : List Token} {p : Program} (hlex : Token.lex text = .ok tokens)
    (hparse : Program.ofTokens tokens = .ok p) : Placed (programOutline p) := by
  obtain ⟨ts, eof, rfl, heof, hinside⟩ := (Grammar.tokens_ok hlex).marked
  obtain ⟨us, ds, -, rfl, hds, -, -, hdecls, hspan⟩ := Phrases.of_tokens heof hinside hparse
  obtain ⟨end_, hspread⟩ := spread_of_lexFrom hlex
  have hall : (us.map (·.token ()) ++ [eof]).map alone = us ++ [alone eof] := by simp [alone, Common.token, Function.comp_def]
  rw [hall] at hspread
  obtain ⟨c, hus, -⟩ := spread_append hspread
  have hcovers := covers_each (i := ()) covers_decl hds
  have hfits : ∃ a b, Fits a b [programOutline p] := by
    rw [programOutline, hdecls, hspan]
    split
    · rename_i hempty
      subst hempty
      exact ⟨eof.start, eof.stop, .cons (.refl _) (hcovers _ _ (upto_stop eof)) (.nil (.refl _))⟩
    · exact ⟨_, _, hcovers.node ‹_› _ _ hus⟩
  obtain ⟨a, b, hfits⟩ := hfits
  exact (hfits.placed.1 _ (List.mem_singleton_self _)).1

/-- Parentheses, a literal whose span is shorter than its text, and a statement that goes on over two lines. -/
theorem grouped_spans_form_tree : ∃ tokens p,
    Token.lex "void f(int a)\x7bcout<<\"b\";\na=(a+1)*2;\x7d" = .ok tokens ∧
    Program.ofTokens tokens = .ok p ∧ p.span = some ⟨⟨1, 1⟩, ⟨2, 12⟩⟩ ∧ Placed (programOutline p) := by
  have hread : Fidelity.readsAs "void f(int a)\x7bcout<<\"b\";\na=(a+1)*2;\x7d" fun p => p.span = some ⟨⟨1, 1⟩, ⟨2, 12⟩⟩ := by
    decide +kernel
  obtain ⟨tokens, p, hlex, hparse, hspan⟩ := Fidelity.read_of_readsAs hread
  exact ⟨tokens, p, hlex, hparse, by simpa using hspan, spans_form_tree hlex hparse⟩

end Texts

end CMinusMinus.Proofs.Spans
