import CMinusMinus.Proofs.Grammar
import CMinusMinus.Proofs.Lexing

/-!
Expressions that are written are read. A reader is followed over the tokens it has before it: where
these are the tokens of an expression, and what comes after them does not go on with it, the reader
gives the expression back up to places. There is fuel enough for sixteen calls a token.
-/
namespace CMinusMinus.Proofs.Printing

open Token Parser Grammar WellFormed

section Unspanned

def unspannedNote (n : Note) : Note := { n with span := none }

def unspannedIdent (x : Ident) : Ident := { x with note := unspannedNote x.note }

mutual

def unspanned : Expr → Expr
  | .int n v => .int (unspannedNote n) v
  | .string n text => .string (unspannedNote n) text
  | .bool n v => .bool (unspannedNote n) v
  | .ident x => .ident (unspannedIdent x)
  | .dot n obj field reached bad => .dot (unspannedNote n) (unspanned obj) (unspannedIdent field) reached bad
  | .assign n target value => .assign (unspannedNote n) (unspanned target) (unspanned value)
  | .call n callee args => .call (unspannedNote n) (unspannedIdent callee) (unspannedAll args)
  | .unary n op e => .unary (unspannedNote n) op (unspanned e)
  | .binary n op left right => .binary (unspannedNote n) op (unspanned left) (unspanned right)
  | .misfit n kind => .misfit (unspannedNote n) kind

def unspannedAll : List Expr → List Expr
  | [] => []
  | e :: es => unspanned e :: unspannedAll es

end

theorem unspannedNote_raw {note : Note} (h : note.ty = none) : unspannedNote note = {} := by
  rw [unspannedNote, h]

/-- A name that is read is the one that was written. -/
theorem unspannedIdent_identOf {x : Ident} {t : Token} (h : RawIdent x) (ht : exactly t = word x.name) :
    unspannedIdent (identOf t) = unspannedIdent x := by
  have hname : t.text = x.name := congrArg Piece.text ht
  rw [unspannedIdent, unspannedIdent, unspannedNote_raw h.ty, h.binding, ← hname]
  rfl

/-- A location stays one. -/
theorem isLocation_unspanned (e : Expr) : (unspanned e).isLocation = e.isLocation := by
  cases e <;> rfl

theorem isLocation_of_same {e e' : Expr} (h : unspanned e' = unspanned e) :
    e'.isLocation = e.isLocation := by
  rw [← isLocation_unspanned e', h, isLocation_unspanned]

end Unspanned

section Rules

def ahead (c : Cursor) : List Piece := c.rest.map exactly

/-- The kind of a token some places ahead; the end goes on forever. -/
def kindAt (n : Nat) (ps : List Piece) : Kind := (ps[n]?.map Piece.kind).getD .eof

@[simp] theorem kindAt_fixed (kind : Kind) (ps : List Piece) : kindAt 0 (fixed kind :: ps) = kind := rfl

/-- A piece of parsing gives something with a property, and takes the tokens up to some others. -/
def Reads {α : Type} (x : ParseM α) (before after : List Piece) (P : α → Prop) : Prop :=
  ∀ c : Cursor, c.eof.kind = .eof → ahead c = before →
    ∃ a c', x c = .ok (a, c') ∧ c'.eof.kind = .eof ∧ ahead c' = after ∧ P a

variable {α β : Type} {x : ParseM α} {before middle after : List Piece} {P : α → Prop} {Q : β → Prop}

theorem Reads.seq {f : α → ParseM β} (hx : Reads x before middle P)
    (hf : ∀ a, P a → Reads (f a) middle after Q) : Reads (x >>= f) before after Q := by
  intro c heof hc
  obtain ⟨a, c', hxc, heof', hc', ha⟩ := hx c heof hc
  obtain ⟨b, c'', hfa, heof'', hc'', hb⟩ := hf a ha c' heof' hc'
  refine ⟨b, c'', ?_, heof'', hc'', hb⟩
  have hbind : (x >>= f) c = (x c).bind fun p => f p.1 p.2 := rfl
  rw [hbind, hxc]
  exact hfa

theorem Reads.pure {a : α} (h : P a) : Reads (pure a) before before P :=
  fun c heof hc => ⟨a, c, rfl, heof, hc, h⟩

theorem Reads.weaken {R : α → Prop} (hx : Reads x before after P) (h : ∀ a, P a → R a) :
    Reads x before after R := by
  intro c heof hc
  obtain ⟨a, c', hxc, heof', hc', ha⟩ := hx c heof hc
  exact ⟨a, c', hxc, heof', hc', h a ha⟩

theorem ahead_kind {c : Cursor} (heof : c.eof.kind = .eof) (n : Nat) :
    (c.ahead n).kind = kindAt n (ahead c) := by
  unfold Cursor.ahead kindAt ahead
  rw [List.headD_eq_head?_getD, List.head?_drop]
  cases h : c.rest[n]? with
  | none => simp [h, heof]
  | some t => simp [h, exactly]

theorem Reads.peek {f : Token → ParseM β}
    (h : ∀ t : Token, t.kind = kindAt 0 before → Reads (f t) before after Q) :
    Reads (Parser.peek >>= f) before after Q := by
  intro c heof hc
  exact h (c.ahead 0) (hc ▸ ahead_kind heof 0) c heof hc

/-- The next token is looked at where there is one. -/
theorem Reads.look {p : Piece} {f : Token → ParseM β}
    (h : ∀ t : Token, exactly t = p → Reads (f t) (p :: before) after Q) :
    Reads (Parser.peek >>= f) (p :: before) after Q := by
  intro c heof hc
  refine h (c.ahead 0) ?_ c heof hc
  obtain ⟨t, rest, hrest, ht, -⟩ := List.map_eq_cons_iff.mp hc
  simpa [Cursor.ahead, hrest] using ht

theorem Reads.kindAhead {n : Nat} {f : Kind → ParseM β}
    (h : Reads (f (kindAt n before)) before after Q) : Reads (Parser.kindAhead n >>= f) before after Q := by
  intro c heof hc
  have hrun : (Parser.kindAhead n >>= f) c = f (c.ahead n).kind c := rfl
  rw [hrun, ahead_kind heof n, hc]
  exact h c heof hc

theorem Reads.advance {p : Piece} {f : Token → ParseM β}
    (h : ∀ t : Token, exactly t = p → Reads (f t) before after Q) :
    Reads (Parser.advance >>= f) (p :: before) after Q := by
  intro c heof hc
  obtain ⟨t, rest, hrest, ht, hmore⟩ := List.map_eq_cons_iff.mp hc
  have hahead : c.ahead 0 = t := by simp [Cursor.ahead, hrest]
  have hadvance : c.advance = { c with rest, last := t } := by simp [Cursor.advance, hrest]
  have hrun : (Parser.advance >>= f) c = f (c.ahead 0) c.advance := rfl
  rw [hrun, hahead, hadvance]
  exact h t ht _ heof hmore

theorem Reads.spanFrom {first : Token} {f : Option Span → ParseM β}
    (h : ∀ span, Reads (f span) before after Q) : Reads (Parser.spanFrom first >>= f) before after Q :=
  fun c heof hc => h _ c heof hc

theorem Reads.ite_pos {p : Prop} [Decidable p] {y : ParseM α} (hp : p) (h : Reads x before after P) :
    Reads (if p then x else y) before after P := by
  rw [if_pos hp]
  exact h

theorem Reads.ite_neg {p : Prop} [Decidable p] {y : ParseM α} (hp : ¬ p) (h : Reads x before after P) :
    Reads (if p then y else x) before after P := by
  rw [if_neg hp]
  exact h

theorem Reads.expect {p : Piece} {what : ParseError.Expectation} {f : Token → ParseM β}
    (h : ∀ t : Token, exactly t = p → Reads (f t) before after Q) :
    Reads (Parser.expect p.kind what >>= f) (p :: before) after Q := by
  have hexpect : Reads (Parser.expect p.kind what) (p :: before) before fun t => exactly t = p := by
    refine Reads.peek fun t ht => .ite_pos ht ?_
    have hadvance : Reads (Parser.advance >>= fun t => Pure.pure t) (p :: before) before
        fun t => exactly t = p := Reads.advance fun t ht => .pure ht
    simpa using hadvance
  exact hexpect.seq h

theorem Reads.accept_pos {p : Piece} {f : Bool → ParseM β} (h : Reads (f true) before after Q) :
    Reads (Parser.accept p.kind >>= f) (p :: before) after Q := by
  have haccept : Reads (Parser.accept p.kind) (p :: before) before fun b => b = true :=
    Reads.peek fun t ht => .ite_pos ht (Reads.advance fun _ _ => .pure rfl)
  refine haccept.seq fun b hb => ?_
  rw [hb]
  exact h

theorem Reads.accept_neg {kind : Kind} {f : Bool → ParseM β} (hkind : kindAt 0 before ≠ kind)
    (h : Reads (f false) before after Q) : Reads (Parser.accept kind >>= f) before after Q := by
  have haccept : Reads (Parser.accept kind) before before fun b => b = false :=
    Reads.peek fun t ht => .ite_neg (ht ▸ hkind) (.pure rfl)
  refine haccept.seq fun b hb => ?_
  rw [hb]
  exact h

end Rules

section Levels

/-- The rank of the operands that a token puts another operand or part to; other tokens end an
expression. -/
def joins : Kind → Option Nat
  | .eq => some 0
  | .orOr => some 1
  | .andAnd => some 2
  | .eqEq | .ne | .lt | .gt | .le | .ge => some 3
  | .plus | .minus => some 4
  | .star | .slash => some 5
  | .lparen | .dot => some 7
  | _ => none

/-- What comes after an expression does not go on with it on a level, or on a tighter one. -/
def Stops (n : Nat) (next : List Piece) : Prop := ∀ m, joins (kindAt 0 next) = some m → m < n

theorem Stops.tighter {n m : Nat} {next : List Piece} (h : Stops n next) (hnm : n ≤ m) : Stops m next :=
  fun k hk => Nat.lt_of_lt_of_le (h k hk) hnm

theorem stops_of_ends {n : Nat} {next : List Piece} (h : joins (kindAt 0 next) = none) : Stops n next := by
  intro m hm
  rw [h] at hm
  cases hm

theorem Stops.ne {n m : Nat} {next : List Piece} {kind : Kind} (h : Stops n next)
    (hkind : joins kind = some m) (hle : n ≤ m) : kindAt 0 next ≠ kind := by
  rintro rfl
  have := h m hkind
  omega

/-- The rank of the operands that are chained on a level. -/
def place : Level → Nat
  | .or => 1
  | .and => 2
  | .add => 4
  | .mul => 5

def readerAt : Nat → Nat → ParseM Expr
  | 0 => expr
  | 1 => chain .or
  | 2 => chain .and
  | 3 => comparison
  | 4 => chain .add
  | 5 => chain .mul
  | 6 => unary
  | _ => primary

/-- How many calls a reader is away from that of whole expressions. -/
def depth : Nat → Nat
  | 0 => 0
  | 1 => 1
  | 2 => 3
  | 3 => 5
  | 4 => 6
  | 5 => 8
  | 6 => 10
  | _ => 11

theorem depth_place (level : Level) : depth (place level + 1) = depth (place level) + 2 := by
  cases level <;> rfl

theorem depth_le (n : Nat) : depth n ≤ 11 := by
  unfold depth
  split <;> omega

theorem operand_succ (level : Level) (fuel : Nat) :
    operand level (fuel + 1) = readerAt (place level + 1) fuel := by
  cases level <;> rfl

theorem chain_eq (level : Level) : readerAt (place level) = chain level := by
  cases level <;> rfl

def ReadAt (n : Nat) (e : Expr) (ps : List Piece) : Prop :=
  ∀ fuel next, 16 * ps.length ≤ fuel + depth n → Stops n next →
    Reads (readerAt n fuel) (ps ++ next) next fun e' => unspanned e' = unspanned e

variable {e : Expr} {ps : List Piece}

theorem kindAt_append (hne : ps ≠ []) (next : List Piece) : kindAt 0 (ps ++ next) = kindAt 0 ps := by
  obtain ⟨p, rest, rfl⟩ := List.exists_cons_of_ne_nil hne
  rfl

theorem links_none {level : Level} {first : Token} {fuel : Nat} {left : Expr} {next : List Piece}
    (hstops : Stops (place level) next) :
    Reads (links level first (fuel + 1) left) next next fun e' => e' = left := by
  rw [links]
  refine Reads.peek fun t ht => ?_
  have hop : level.op? t.kind = none := by
    rw [ht]
    cases hop : level.op? (kindAt 0 next) with
    | none => rfl
    | some op =>
      have hjoins : joins (kindAt 0 next) = some (place level) := by
        generalize kindAt 0 next = kind at hop
        unfold Level.op? at hop
        split at hop <;> first | rfl | cases hop
      exact absurd rfl (hstops.ne hjoins (Nat.le_refl _))
  rw [hop]
  exact .pure rfl

/-- What is read on the level of the operands is read as a chain of one. -/
theorem ReadAt.chain (level : Level) (h : ReadAt (place level + 1) e ps) (hne : ps ≠ []) :
    ReadAt (place level) e ps := by
  intro fuel next hfuel hstops
  have hlength := List.length_pos_iff.mpr hne
  have hdepth := depth_place level
  have hbound := depth_le (place level)
  obtain ⟨f, rfl⟩ : ∃ f, fuel = f + 3 := ⟨fuel - 3, by omega⟩
  rw [chain_eq, Parser.chain]
  refine Reads.peek fun first _ => ?_
  rw [operand_succ]
  refine (h (f + 1) next (by omega) (hstops.tighter (by omega))).seq fun left hleft => ?_
  refine (links_none hstops).weaken fun e' he' => ?_
  rw [he']
  exact hleft

theorem ReadAt.comparison (h : ReadAt 4 e ps) (hne : ps ≠ []) : ReadAt 3 e ps := by
  intro fuel next hfuel hstops
  have hlength := List.length_pos_iff.mpr hne
  have hdepth : depth 3 = 5 := rfl
  have hdepth' : depth 4 = 6 := rfl
  obtain ⟨f, rfl⟩ : ∃ f, fuel = f + 1 := ⟨fuel - 1, by omega⟩
  rw [readerAt, Parser.comparison]
  refine Reads.peek fun first _ => ?_
  refine (h f next (by omega) (hstops.tighter (by omega))).seq fun left hleft => ?_
  refine Reads.peek fun t ht => ?_
  have hop : comparisonOp? t.kind = none := by
    rw [ht]
    cases hop : comparisonOp? (kindAt 0 next) with
    | none => rfl
    | some op =>
      have hjoins : joins (kindAt 0 next) = some 3 := by
        generalize kindAt 0 next = kind at hop
        unfold comparisonOp? at hop
        split at hop <;> first | rfl | cases hop
      exact absurd rfl (hstops.ne hjoins (Nat.le_refl _))
  rw [hop]
  exact .pure hleft

theorem ReadAt.expr (h : ReadAt 1 e ps) (hne : ps ≠ []) : ReadAt 0 e ps := by
  intro fuel next hfuel hstops
  have hlength := List.length_pos_iff.mpr hne
  have hdepth : depth 0 = 0 := rfl
  have hdepth' : depth 1 = 1 := rfl
  obtain ⟨f, rfl⟩ : ∃ f, fuel = f + 1 := ⟨fuel - 1, by omega⟩
  rw [readerAt, Parser.expr]
  refine Reads.peek fun first _ => ?_
  refine (h f next (by omega) (hstops.tighter (by omega))).seq fun target htarget => ?_
  refine Reads.peek fun t ht => .ite_neg ?_ (.pure htarget)
  rw [ht]
  exact hstops.ne rfl (Nat.zero_le _)

theorem ReadAt.unary (h : ReadAt 7 e ps) (hne : ps ≠ []) (hstart : unaryOp? (kindAt 0 ps) = none) :
    ReadAt 6 e ps := by
  intro fuel next hfuel hstops
  have hlength := List.length_pos_iff.mpr hne
  have hdepth : depth 6 = 10 := rfl
  have hdepth' : depth 7 = 11 := rfl
  obtain ⟨f, rfl⟩ : ∃ f, fuel = f + 1 := ⟨fuel - 1, by omega⟩
  rw [readerAt, Parser.unary]
  refine Reads.peek fun first hfirst => ?_
  have hop : unaryOp? first.kind = none := by
    rw [hfirst, kindAt_append hne]
    exact hstart
  rw [hop]
  exact h f next (by omega) (hstops.tighter (by omega))

/-- What is read on a level is read on the looser levels. -/
theorem ReadAt.looser (hne : ps ≠ []) {n m : Nat} (hnm : n ≤ m) (hm : m ≤ 6) (h : ReadAt m e ps) :
    ReadAt n e ps := by
  induction m with
  | zero =>
    obtain rfl : n = 0 := by omega
    exact h
  | succ m ih =>
    by_cases heq : n = m + 1
    · rw [heq]
      exact h
    · apply ih (by omega) (by omega)
      match m, hm, h with
      | 0, _, h => exact h.expr hne
      | 1, _, h => exact h.chain .or hne
      | 2, _, h => exact h.chain .and hne
      | 3, _, h => exact h.comparison hne
      | 4, _, h => exact h.chain .add hne
      | 5, _, h => exact h.chain .mul hne

/-- An expression is read as the start of a chain, which goes on behind it with it as its left operand. -/
def ChainRead (level : Level) (e : Expr) (ps : List Piece) : Prop :=
  ∀ first fuel next after (P : Expr → Prop), 16 * ps.length ≤ fuel + 1 + depth (place level) →
    Stops (place level + 1) next →
    (∀ e' fuel', fuel ≤ fuel' + ps.length → unspanned e' = unspanned e →
      Reads (links level first fuel' e') next after P) →
    Reads (operand level fuel >>= links level first fuel) (ps ++ next) after P

theorem ReadAt.startsChain (level : Level) (h : ReadAt (place level + 1) e ps) (hne : ps ≠ []) :
    ChainRead level e ps := by
  intro first fuel next after P hfuel hstops hrest
  have hlength := List.length_pos_iff.mpr hne
  have hdepth := depth_place level
  have hbound := depth_le (place level)
  obtain ⟨f, rfl⟩ : ∃ f, fuel = f + 1 := ⟨fuel - 1, by omega⟩
  rw [operand_succ]
  exact (h f next (by omega) hstops).seq fun e' he' => hrest e' (f + 1) (by omega) he'

/-- A chain goes on by an operator and its right operand. -/
theorem ChainRead.link {level : Level} {op : BinaryOp} {left right : Expr} {ls rs : List Piece} {note : Note}
    {kind : Kind} (hop : level.op? kind = some op) (hsign : binarySign op = fixed kind)
    (hleft : ChainRead level left ls) (hright : ReadAt (place level + 1) right rs) (hne : rs ≠ [])
    (hnote : unspannedNote note = {}) :
    ChainRead level (.binary note op left right) (ls ++ binarySign op :: rs) := by
  intro first fuel next after P hfuel hstops hrest
  have hdepth := depth_place level
  have hbound := depth_le (place level)
  have hlength := List.length_pos_iff.mpr hne
  simp only [List.length_append, List.length_cons] at hfuel hrest
  have hbetween : Stops (place level + 1) (binarySign op :: rs ++ next) := by
    have hjoins : joins kind = some (place level) := by
      unfold Level.op? at hop
      split at hop <;> first | rfl | cases hop
    intro m hm
    rw [hsign] at hm
    obtain rfl : place level = m := by simpa [kindAt, fixed, hjoins] using hm
    omega
  rw [List.append_assoc]
  refine hleft first fuel _ after P (by omega) hbetween fun left' f hf hleft' => ?_
  obtain ⟨g, rfl⟩ : ∃ g, f = g + 2 := ⟨f - 2, by omega⟩
  rw [links]
  refine Reads.peek fun t ht => ?_
  have hkind : t.kind = kind := by
    rw [ht, hsign]
    rfl
  rw [hkind, hop]
  refine Reads.advance fun _ _ => ?_
  rw [operand_succ]
  refine (hright g next (by omega) hstops).seq fun right' hright' => Reads.spanFrom fun span => ?_
  apply hrest _ (g + 1) (by omega)
  rw [unspanned, unspanned, hleft', hright', hnote]
  rfl

theorem ChainRead.read {level : Level} (h : ChainRead level e ps) (hne : ps ≠ []) :
    ReadAt (place level) e ps := by
  intro fuel next hfuel hstops
  have hlength := List.length_pos_iff.mpr hne
  have hbound := depth_le (place level)
  obtain ⟨f, rfl⟩ : ∃ f, fuel = f + 1 := ⟨fuel - 1, by omega⟩
  rw [chain_eq, Parser.chain]
  refine Reads.peek fun first _ => ?_
  refine h first f next next _ (by omega) (hstops.tighter (by omega)) fun e' f' hf' he' => ?_
  obtain ⟨g, rfl⟩ : ∃ g, f' = g + 1 := ⟨f' - 1, by omega⟩
  refine (links_none hstops).weaken fun e'' heq => ?_
  rw [heq]
  exact he'

end Levels

section Grouping

variable {e : Expr} {ps : List Piece} {σ : Style}

def openers : List Kind := [.int, .string, .trueKw, .falseKw, .ident, .minus, .bang, .lparen]

/-- An expression is read from tokens on its own level, and as the start of a chain on that level. -/
structure ExprRead (e : Expr) (ps : List Piece) : Prop where
  nonempty : ps ≠ []
  own : ReadAt (rank e) e ps
  start : rank e = 7 → unaryOp? (kindAt 0 ps) = none
  opens : kindAt 0 ps ∈ openers
  chain : ∀ level, place level = rank e → ChainRead level e ps

theorem rank_le (e : Expr) : rank e ≤ 7 := by
  cases e with
  | binary note op left right => cases op <;> simp [rank, strength]
  | _ => simp [rank]

theorem ExprRead.at (h : ExprRead e ps) {n : Nat} (hn : n ≤ rank e) (hsix : n ≤ 6) : ReadAt n e ps := by
  by_cases hseven : rank e = 7
  · have hunary : ReadAt 6 e ps := ReadAt.unary (hseven ▸ h.own) h.nonempty (h.start hseven)
    exact hunary.looser h.nonempty hsix (Nat.le_refl 6)
  · have hle := rank_le e
    exact h.own.looser h.nonempty hn (by omega)

theorem ExprRead.chainAt (h : ExprRead e ps) (level : Level) (hlevel : place level ≤ rank e) :
    ChainRead level e ps := by
  by_cases heq : place level = rank e
  · exact h.chain level heq
  · have hplace : place level ≤ 5 := by cases level <;> decide
    exact (h.at (n := place level + 1) (by omega) (by omega)).startsChain level h.nonempty

/-- An expression in parentheses is read on every level. -/
theorem ExprRead.group (h : ExprRead e ps) {n : Nat} (hn : n ≤ 6) :
    ReadAt n e (fixed .lparen :: ps ++ [fixed .rparen]) := by
  have hprimary : ReadAt 7 e (fixed .lparen :: ps ++ [fixed .rparen]) := by
    intro fuel next hfuel _
    simp only [List.length_append, List.length_cons, List.length_nil] at hfuel
    have hdepth : depth 7 = 11 := rfl
    obtain ⟨f, rfl⟩ : ∃ f, fuel = f + 1 := ⟨fuel - 1, by omega⟩
    have hinner := h.at (Nat.zero_le _) (Nat.zero_le _) f (fixed .rparen :: next)
      (by omega) (stops_of_ends rfl)
    rw [readerAt, primary]
    · rw [List.append_assoc]
      refine Reads.look fun first hfirst => ?_
      have hkind : first.kind = .lparen := congrArg Piece.kind hfirst
      rw [hkind]
      refine Reads.advance fun _ _ => hinner.seq fun e' he' => ?_
      exact Reads.expect (p := fixed .rparen) fun _ _ => .pure he'
    all_goals omega
  have hunary : ReadAt 6 e (fixed .lparen :: ps ++ [fixed .rparen]) := hprimary.unary (by simp) rfl
  exact hunary.looser (by simp) hn (Nat.le_refl 6)

theorem grouped_ne_nil (h : ps ≠ []) (n : Nat) : grouped σ n e ps ≠ [] := by
  unfold grouped
  split
  · simp
  · exact h

theorem ExprRead.groupedOpens (h : ExprRead e ps) (n : Nat) : kindAt 0 (grouped σ n e ps) ∈ openers := by
  unfold grouped
  split
  · exact (by decide : Kind.lparen ∈ openers)
  · exact h.opens

/-- An operand is read in its place. -/
theorem ExprRead.grouped (h : ExprRead e ps) {n : Nat} (hn : n ≤ 6) :
    ReadAt n e (grouped σ n e ps) := by
  unfold Printing.grouped
  split
  · exact h.group hn
  · rename_i hrank
    have hrank : n ≤ rank e ∧ σ e = false := by simpa using hrank
    exact h.at hrank.1 hn

theorem ExprRead.groupedChain (h : ExprRead e ps) (level : Level) :
    ChainRead level e (Printing.grouped σ (place level) e ps) := by
  have hplace : place level ≤ 5 := by cases level <;> decide
  unfold Printing.grouped
  split
  · exact (h.group (n := place level + 1) (by omega)).startsChain level (by simp)
  · rename_i hrank
    have hrank : place level ≤ rank e ∧ σ e = false := by simpa using hrank
    exact h.chainAt level hrank.1

end Grouping

section Primaries

variable {lit : String → Prop} {e : Expr} {σ : Style}

/-- What is read as a whole is read on its own level. -/
theorem exprRead_primary {ps : List Piece} (hrank : rank e = 7) (hopens : kindAt 0 ps ∈ openers)
    (hstart : unaryOp? (kindAt 0 ps) = none)
    (h : ∀ fuel next, 16 * ps.length ≤ fuel + 12 → Stops 7 next →
      Reads (primary (fuel + 1)) (ps ++ next) next fun e' => unspanned e' = unspanned e) :
    ExprRead e ps := by
  have hne : ps ≠ [] := by
    rintro rfl
    exact absurd hopens (by decide)
  refine ⟨hne, ?_, fun _ => hstart, hopens, fun level hlevel => ?_⟩
  · rw [hrank]
    intro fuel next hfuel hstops
    have hlength := List.length_pos_iff.mpr hne
    have hdepth : depth 7 = 11 := rfl
    obtain ⟨f, rfl⟩ : ∃ f, fuel = f + 1 := ⟨fuel - 1, by omega⟩
    exact h f next (by omega) hstops
  · rw [hrank] at hlevel
    cases level <;> cases hlevel

/-- A location is read, and then what follows it. -/
theorem reads_location (e : Expr) (hlocation : e.isLocation) (hraw : Raw lit e)
    {what : ParseError.Expectation} {fuel : Nat} {next after : List Piece} {P : Expr → Prop}
    (hfuel : (exprPieces σ e).length ≤ fuel)
    (hrest : ∀ first e' fuel', fuel ≤ fuel' + (exprPieces σ e).length → unspanned e' = unspanned e →
      Reads (dots first fuel' e') next after P) :
    Reads (location fuel what) (exprPieces σ e ++ next) after P := by
  cases e with
  | ident x =>
    rw [exprPieces]
    refine Reads.expect (p := word x.name) fun first hfirst => ?_
    apply hrest first _ fuel (by omega)
    rw [unspanned, unspanned, unspannedIdent_identOf hraw hfirst]
  | dot note obj field reached bad =>
    obtain ⟨hty, hobj, hraw, hfield, rfl, rfl⟩ := hraw
    rw [exprPieces] at hfuel hrest ⊢
    simp only [List.length_append, List.length_cons, List.length_nil] at hfuel hrest
    rw [List.append_assoc]
    refine reads_location obj hobj hraw (by omega) fun first obj' f hf hobj' => ?_
    obtain ⟨g, rfl⟩ : ∃ g, f = g + 1 := ⟨f - 1, by omega⟩
    rw [dots]
    refine Reads.accept_pos (p := fixed .dot) (Reads.expect (p := word field.name) fun name hname => ?_)
    refine Reads.spanFrom fun span => hrest first _ g (by omega) ?_
    rw [unspanned, unspanned, unspannedIdent_identOf hfield hname, unspannedNote_raw hty, hobj']
    rfl
  | _ => cases hlocation

theorem reads_dots_end {first : Token} {fuel : Nat} {next : List Piece} (h : kindAt 0 next ≠ .dot) :
    Reads (dots first (fuel + 1) e) next next fun e' => e' = e := by
  rw [dots]
  exact Reads.accept_neg h (.pure rfl)

/-- A location is read up to what follows it. -/
theorem reads_place (hlocation : e.isLocation) (hraw : Raw lit e) {what : ParseError.Expectation} {fuel : Nat}
    {next : List Piece} (hfuel : (exprPieces σ e).length < fuel) (hnext : kindAt 0 next ≠ .dot) :
    Reads (location fuel what) (exprPieces σ e ++ next) next fun e' => unspanned e' = unspanned e := by
  refine reads_location e hlocation hraw (by omega) fun first e' f hf he' => ?_
  obtain ⟨g, rfl⟩ : ∃ g, f = g + 1 := ⟨f - 1, by omega⟩
  refine (reads_dots_end hnext).weaken fun e'' heq => ?_
  rw [heq]
  exact he'

/-- A location is written as a name, with a dot behind it or nothing. -/
theorem location_pieces (σ : Style) (e : Expr) (hlocation : e.isLocation) (hraw : Raw lit e) :
    ∃ name rest, exprPieces σ e = word name :: rest ∧ (rest = [] ∨ ∃ more, rest = fixed .dot :: more) := by
  cases e with
  | ident x => exact ⟨x.name, [], by rw [exprPieces], .inl rfl⟩
  | dot note obj field reached bad =>
    obtain ⟨name, rest, heq, hrest⟩ := location_pieces σ obj hraw.2.1 hraw.2.2.1
    refine ⟨name, rest ++ [fixed .dot, word field.name], by rw [exprPieces, heq]; rfl, .inr ?_⟩
    rcases hrest with rfl | ⟨more, rfl⟩
    · exact ⟨_, rfl⟩
    · exact ⟨_, rfl⟩
  | _ => cases hlocation

theorem rank_location (h : e.isLocation) : rank e = 7 := by
  cases e with
  | ident | dot => rfl
  | _ => cases h

theorem exprRead_location (hlocation : e.isLocation) (hraw : Raw lit e) :
    ExprRead e (exprPieces σ e) := by
  obtain ⟨name, rest, heq, hrest⟩ := location_pieces σ e hlocation hraw
  have hfront : kindAt 0 (exprPieces σ e) = .ident := by
    rw [heq]
    rfl
  refine exprRead_primary (rank_location hlocation) (by rw [hfront]; decide) (by rw [hfront]; rfl)
    fun fuel next hfuel hstops => ?_
  rw [primary]
  refine Reads.peek fun first hfirst => ?_
  rw [kindAt_append (by rw [heq]; simp), hfront] at hfirst
  rw [hfirst]
  refine Reads.kindAhead (.ite_neg ?_ (reads_place hlocation hraw ?_ (hstops.ne rfl (Nat.le_refl 7))))
  · rw [heq]
    rcases hrest with rfl | ⟨more, rfl⟩
    · exact hstops.ne rfl (Nat.le_refl 7)
    · exact (by decide : Kind.dot ≠ Kind.lparen)
  · rw [heq] at hfuel ⊢
    simp only [List.length_cons] at hfuel ⊢
    omega

theorem exprRead_int {note : Note} {v : Int} (hty : note.ty = none) (hv : 0 ≤ v) :
    ExprRead (.int note v) [numeral v] := by
  refine exprRead_primary rfl (by exact (by decide : Kind.int ∈ openers)) rfl fun fuel next _ _ => ?_
  obtain ⟨n, rfl⟩ : ∃ n : Nat, v = n := ⟨v.toNat, by omega⟩
  rw [primary]
  refine Reads.look fun first hfirst => ?_
  have hkind : first.kind = .int := congrArg Piece.kind hfirst
  have htext : first.text = toString (n : Int) := congrArg Piece.text hfirst
  have hvalue : literalValue first.text = n := by
    rw [literalValue, htext, digits_toString, ofDigits_toDigits]
  rw [hkind]
  refine Reads.advance fun _ _ => Reads.spanFrom fun span => .pure ?_
  rw [unspanned, unspanned, unspannedNote_raw hty, hvalue]
  rfl

theorem exprRead_string {note : Note} {text : String} (hty : note.ty = none) :
    ExprRead (.string note text) [⟨.string, text⟩] := by
  refine exprRead_primary rfl (by exact (by decide : Kind.string ∈ openers)) rfl fun fuel next _ _ => ?_
  rw [primary]
  refine Reads.look fun first hfirst => ?_
  have hkind : first.kind = .string := congrArg Piece.kind hfirst
  have htext : first.text = text := congrArg Piece.text hfirst
  rw [hkind]
  refine Reads.advance fun _ _ => Reads.spanFrom fun span => .pure ?_
  rw [unspanned, unspanned, unspannedNote_raw hty, htext]
  rfl

theorem exprRead_bool {note : Note} {v : Bool} (hty : note.ty = none) :
    ExprRead (.bool note v) [fixed (if v then .trueKw else .falseKw)] := by
  refine exprRead_primary rfl (by decide +revert) (by decide +revert) fun fuel next _ _ => ?_
  rw [primary]
  refine Reads.look fun first hfirst => ?_
  have hkind : first.kind = if v then .trueKw else .falseKw := congrArg Piece.kind hfirst
  rw [hkind]
  cases v with
  | true =>
    refine Reads.advance fun _ _ => Reads.spanFrom fun span => .pure ?_
    rw [unspanned, unspanned, unspannedNote_raw hty]
    rfl
  | false =>
    refine Reads.advance fun _ _ => Reads.spanFrom fun span => .pure ?_
    rw [unspanned, unspanned, unspannedNote_raw hty]
    rfl

def ArgsRead (es : List Expr) (ps : List Piece) : Prop :=
  ∀ fuel next, 16 * ps.length + 1 ≤ fuel → kindAt 0 next = .rparen →
    Reads (arguments fuel) (ps ++ next) next fun es' => unspannedAll es' = unspannedAll es

theorem exprRead_call {note : Note} {callee : Ident} {args : List Expr} {ps : List Piece}
    (hty : note.ty = none) (hcallee : RawIdent callee)
    (hargs : args = [] ∧ ps = [] ∨ kindAt 0 ps ∈ openers ∧ ArgsRead args ps) :
    ExprRead (.call note callee args) (word callee.name :: fixed .lparen :: ps ++ [fixed .rparen]) := by
  refine exprRead_primary rfl (by exact (by decide : Kind.ident ∈ openers)) rfl fun fuel next hfuel _ => ?_
  simp only [List.length_append, List.length_cons, List.length_nil] at hfuel
  rw [primary]
  simp only [List.cons_append, List.append_assoc]
  refine Reads.look fun first hfirst => ?_
  have hkind : first.kind = .ident := congrArg Piece.kind hfirst
  rw [hkind]
  have hrest : ∀ args', unspannedAll args' = unspannedAll args → Reads (do
      let _ ← expect .rparen .argumentsEnd
      return Expr.call { span := ← spanFrom first } (identOf first) args') (fixed .rparen :: next) next
      fun e' => unspanned e' = unspanned (.call note callee args) := by
    intro args' hsame
    refine Reads.expect (p := fixed .rparen) fun _ _ => Reads.spanFrom fun span => .pure ?_
    rw [unspanned, unspanned, unspannedIdent_identOf hcallee hfirst, unspannedNote_raw hty, hsame]
    rfl
  refine Reads.kindAhead (.ite_pos rfl (Reads.advance fun _ _ => Reads.advance fun _ _ => ?_))
  refine Reads.peek fun t ht => ?_
  rcases hargs with ⟨rfl, rfl⟩ | ⟨hopens, hargs⟩
  · exact .ite_pos ht (hrest [] rfl)
  · have hne : ps ≠ [] := by
      rintro rfl
      exact absurd hopens (by decide)
    rw [kindAt_append hne] at ht
    refine .ite_neg ?_ ((hargs fuel (fixed .rparen :: next) (by omega) rfl).seq hrest)
    intro hparen
    rw [← ht, hparen] at hopens
    exact absurd hopens (by decide)

end Primaries

section Operators

variable {lit : String → Prop} {σ : Style} {note : Note} {e left right target value : Expr}
  {ps ls rs : List Piece}

theorem exprRead_unary {op : UnaryOp} (hty : note.ty = none) (hop : op = .neg ∨ op = .not)
    (h : ExprRead e ps) : ExprRead (.unary note op e) (unarySign op :: grouped σ 6 e ps) := by
  have hsign : unaryOp? (unarySign op).kind = some op ∧ (unarySign op).kind ∈ openers := by
    rcases hop with rfl | rfl
    · exact ⟨rfl, by decide⟩
    · exact ⟨rfl, by decide⟩
  refine ⟨by simp, ?_, fun hrank => absurd hrank (by simp [rank]), hsign.2, fun level hlevel => ?_⟩
  · intro fuel next hfuel hstops
    have hdepth : depth (rank (.unary note op e)) = 10 := rfl
    have hdepth' : depth 6 = 10 := rfl
    simp only [List.length_cons] at hfuel
    obtain ⟨f, rfl⟩ : ∃ f, fuel = f + 1 := ⟨fuel - 1, by omega⟩
    show Reads (unary (f + 1)) _ _ _
    rw [unary]
    refine Reads.peek fun first hfirst => ?_
    have hkind : first.kind = (unarySign op).kind := hfirst
    rw [hkind, hsign.1]
    refine Reads.advance fun _ _ => ?_
    refine (h.grouped (σ := σ) (Nat.le_refl 6) f next (by omega) hstops).seq fun e' he' => ?_
    refine Reads.spanFrom fun span => .pure ?_
    rw [unspanned, unspanned, unspannedNote_raw hty, he']
    rfl
  · have hplace : place level ≤ 5 := by cases level <;> decide
    have hrank : rank (.unary note op e) = 6 := rfl
    omega

/-- Two operands of an operator that chains. -/
theorem exprRead_chain {op : BinaryOp} (level : Level) (kind : Kind) (hty : note.ty = none)
    (hop : level.op? kind = some op) (hsign : binarySign op = fixed kind)
    (hstrength : strength op = place level) (hleft : ExprRead left ls)
    (hright : ExprRead right rs) :
    ExprRead (.binary note op left right)
      (grouped σ (place level) left ls ++ binarySign op :: grouped σ (place level + 1) right rs) := by
  have hplace : place level ≤ 5 ∧ place level ≠ 3 := by cases level <;> decide
  have hne := grouped_ne_nil (σ := σ) (e := left) hleft.nonempty (place level)
  have hne' : grouped σ (place level) left ls ++ binarySign op :: grouped σ (place level + 1) right rs ≠ [] := by
    simp
  have hchain : ChainRead level (.binary note op left right)
      (grouped σ (place level) left ls ++ binarySign op :: grouped σ (place level + 1) right rs) :=
    .link hop hsign (hleft.groupedChain level) (hright.grouped (by omega))
      (grouped_ne_nil hright.nonempty _) (unspannedNote_raw hty)
  refine ⟨hne', ?_, fun hrank => ?_, ?_, fun level' hlevel => ?_⟩
  · rw [rank, hstrength]
    exact hchain.read hne'
  · rw [rank, hstrength] at hrank
    omega
  · rw [kindAt_append hne]
    exact hleft.groupedOpens _
  · rw [rank, hstrength] at hlevel
    obtain rfl : level' = level := by
      cases level' <;> cases level <;> first | rfl | cases hlevel
    exact hchain

/-- Two operands of a comparison. -/
theorem exprRead_comparison {op : BinaryOp} (kind : Kind) (hty : note.ty = none)
    (hop : comparisonOp? kind = some op) (hsign : binarySign op = fixed kind) (hstrength : strength op = 3)
    (hleft : ExprRead left ls) (hright : ExprRead right rs) :
    ExprRead (.binary note op left right) (grouped σ 4 left ls ++ binarySign op :: grouped σ 4 right rs) := by
  have hne := grouped_ne_nil (σ := σ) (e := left) hleft.nonempty 4
  have hjoins : joins kind = some 3 := by
    unfold comparisonOp? at hop
    split at hop <;> first | rfl | cases hop
  refine ⟨by simp, ?_, fun hrank => ?_, ?_, fun level hlevel => ?_⟩
  · rw [rank, hstrength]
    intro fuel next hfuel hstops
    simp only [List.length_append, List.length_cons] at hfuel
    have hdepth : depth 3 = 5 := rfl
    have hdepth' : depth 4 = 6 := rfl
    obtain ⟨f, rfl⟩ : ∃ f, fuel = f + 1 := ⟨fuel - 1, by omega⟩
    rw [readerAt, comparison, List.append_assoc]
    have hbetween : Stops 4 (binarySign op :: grouped σ 4 right rs ++ next) := by
      intro m hm
      rw [hsign] at hm
      obtain rfl : 3 = m := by simpa [kindAt, fixed, hjoins] using hm
      omega
    refine Reads.peek fun first _ => ?_
    refine (hleft.grouped (σ := σ) (by omega) f _ (by omega) hbetween).seq fun left' hleft' => ?_
    refine Reads.peek fun t ht => ?_
    have hkind : t.kind = kind := by
      rw [ht, hsign]
      rfl
    rw [hkind, hop]
    refine Reads.advance fun _ _ => ?_
    refine (hright.grouped (σ := σ) (by omega) f next (by omega) (hstops.tighter (by omega))).seq
      fun right' hright' => Reads.spanFrom fun span => Reads.peek fun u hu => ?_
    refine .ite_neg ?_ (.pure ?_)
    · intro hcomparison
      have hthree : joins (kindAt 0 next) = some 3 := by
        rw [hu] at hcomparison
        generalize kindAt 0 next = kind' at hcomparison
        unfold Kind.isComparison at hcomparison
        split at hcomparison <;> first | rfl | cases hcomparison
      exact absurd rfl (hstops.ne hthree (Nat.le_refl 3))
    · rw [unspanned, unspanned, unspannedNote_raw hty, hleft', hright']
      rfl
  · rw [rank, hstrength] at hrank
    omega
  · rw [kindAt_append hne]
    exact hleft.groupedOpens _
  · rw [rank, hstrength] at hlevel
    cases level <;> cases hlevel

theorem exprRead_binary {op : BinaryOp} (hty : note.ty = none) (hop : ∀ sign, op ≠ .other sign)
    (hleft : ExprRead left ls) (hright : ExprRead right rs) : ExprRead (.binary note op left right)
      (grouped σ (leftRank op) left ls ++ binarySign op :: grouped σ (rightRank op) right rs) := by
  cases op with
  | or => exact exprRead_chain .or .orOr hty rfl rfl rfl hleft hright
  | and => exact exprRead_chain .and .andAnd hty rfl rfl rfl hleft hright
  | add => exact exprRead_chain .add .plus hty rfl rfl rfl hleft hright
  | sub => exact exprRead_chain .add .minus hty rfl rfl rfl hleft hright
  | mul => exact exprRead_chain .mul .star hty rfl rfl rfl hleft hright
  | div => exact exprRead_chain .mul .slash hty rfl rfl rfl hleft hright
  | eq => exact exprRead_comparison .eqEq hty rfl rfl rfl hleft hright
  | ne => exact exprRead_comparison .ne hty rfl rfl rfl hleft hright
  | lt => exact exprRead_comparison .lt hty rfl rfl rfl hleft hright
  | gt => exact exprRead_comparison .gt hty rfl rfl rfl hleft hright
  | le => exact exprRead_comparison .le hty rfl rfl rfl hleft hright
  | ge => exact exprRead_comparison .ge hty rfl rfl rfl hleft hright
  | other sign => exact absurd rfl (hop sign)

theorem exprRead_assign (hty : note.ty = none) (hlocation : target.isLocation) (htarget : Raw lit target)
    (hvalue : ExprRead value rs) :
    ExprRead (.assign note target value) (exprPieces σ target ++ fixed .eq :: grouped σ 0 value rs) := by
  have hread : ExprRead target (exprPieces σ target) := exprRead_location hlocation htarget
  have hseven := rank_location hlocation
  refine ⟨by simp, ?_, fun hrank => absurd hrank (by simp [rank]), ?_, fun level hlevel => ?_⟩
  · intro fuel next hfuel hstops
    simp only [List.length_append, List.length_cons] at hfuel
    have hdepth : depth (rank (.assign note target value)) = 0 := rfl
    have hdepth' : depth 0 = 0 := rfl
    have hdepth'' : depth 1 = 1 := rfl
    obtain ⟨f, rfl⟩ : ∃ f, fuel = f + 1 := ⟨fuel - 1, by omega⟩
    show Reads (Parser.expr (f + 1)) _ _ _
    rw [Parser.expr, List.append_assoc]
    have hbetween : Stops 1 (fixed .eq :: grouped σ 0 value rs ++ next) := by
      intro m hm
      obtain rfl : 0 = m := Option.some.inj hm
      omega
    refine Reads.peek fun first _ => ?_
    refine (hread.at (n := 1) (by omega) (by omega) f _ (by omega) hbetween).seq fun target' htarget' => ?_
    refine Reads.peek fun t ht => .ite_pos ht (Reads.advance fun _ _ => .ite_neg ?_ ?_)
    · rw [isLocation_of_same htarget', hlocation]
      decide
    · have hread := hvalue.grouped (σ := σ) (Nat.zero_le 6)
      refine (hread f next (by omega) hstops).seq fun value' hvalue' => ?_
      refine Reads.spanFrom fun span => .pure ?_
      rw [unspanned, unspanned, unspannedNote_raw hty, htarget', hvalue']
      rfl
  · rw [kindAt_append hread.nonempty]
    exact hread.opens
  · have hrank : rank (.assign note target value) = 0 := rfl
    rw [hrank] at hlevel
    cases level <;> cases hlevel

theorem argsRead_last (h : ExprRead e ps) : ArgsRead [e] (grouped σ 0 e ps) := by
  intro fuel next hfuel hnext
  have hdepth : depth 0 = 0 := rfl
  obtain ⟨f, rfl⟩ : ∃ f, fuel = f + 1 := ⟨fuel - 1, by omega⟩
  rw [arguments]
  have hstops : Stops 0 next := stops_of_ends (by rw [hnext]; rfl)
  refine (h.grouped (σ := σ) (Nat.zero_le _) f next (by omega) hstops).seq fun e' he' => ?_
  refine Reads.accept_neg (by rw [hnext]; decide) (.pure ?_)
  rw [unspannedAll, unspannedAll, he']
  rfl

theorem argsRead_cons {es : List Expr} (h : ExprRead e ps) (hes : ArgsRead es rs) :
    ArgsRead (e :: es) (grouped σ 0 e ps ++ fixed .comma :: rs) := by
  intro fuel next hfuel hnext
  simp only [List.length_append, List.length_cons] at hfuel
  have hdepth : depth 0 = 0 := rfl
  obtain ⟨f, rfl⟩ : ∃ f, fuel = f + 1 := ⟨fuel - 1, by omega⟩
  rw [arguments, List.append_assoc]
  refine (h.grouped (σ := σ) (Nat.zero_le _) f (fixed .comma :: rs ++ next) (by omega)
    (stops_of_ends rfl)).seq fun e' he' => ?_
  refine Reads.accept_pos (p := fixed .comma) ?_
  refine (hes f next (by omega) hnext).seq fun es' hes' => .pure ?_
  rw [unspannedAll, unspannedAll, he', hes']

mutual

/-- Expressions that the grammar makes are read from the tokens that they are written by. -/
theorem exprRead (σ : Style) : (e : Expr) → Raw lit e → ExprRead e (exprPieces σ e)
  | .int note v, hraw => by
    rw [exprPieces]
    exact exprRead_int hraw.1 hraw.2.1
  | .string note text, hraw => by
    rw [exprPieces]
    exact exprRead_string hraw.1
  | .bool note v, hraw => by
    rw [exprPieces]
    exact exprRead_bool hraw
  | .ident x, hraw => exprRead_location rfl hraw
  | .dot note obj field reached bad, hraw => exprRead_location rfl hraw
  | .assign note target value, hraw => by
    obtain ⟨hty, hlocation, htarget, hvalue⟩ := hraw
    rw [exprPieces]
    exact exprRead_assign hty hlocation htarget (exprRead σ value hvalue)
  | .call note callee args, hraw => by
    obtain ⟨hty, hcallee, hargs⟩ := hraw
    rw [exprPieces]
    exact exprRead_call hty hcallee (argsRead σ args hargs)
  | .unary note op operand, hraw => by
    obtain ⟨hty, hop, hoperand⟩ := hraw
    rw [exprPieces]
    exact exprRead_unary hty hop (exprRead σ operand hoperand)
  | .binary note op left right, hraw => by
    obtain ⟨hty, hop, hleft, hright⟩ := hraw
    rw [exprPieces]
    exact exprRead_binary hty hop (exprRead σ left hleft) (exprRead σ right hright)
  | .misfit note kind, hraw => hraw.elim

/-- Arguments that the grammar makes are read from the tokens that they are written by. -/
theorem argsRead (σ : Style) : (es : List Expr) → RawAll lit es →
    es = [] ∧ listed (argPieces σ es) = [] ∨
      kindAt 0 (listed (argPieces σ es)) ∈ openers ∧ ArgsRead es (listed (argPieces σ es))
  | [], _ => .inl ⟨rfl, by rw [argPieces, listed]⟩
  | e :: es, hraw => by
    have hone := exprRead σ e hraw.1
    have hne := grouped_ne_nil (σ := σ) (e := e) hone.nonempty 0
    rw [argPieces]
    right
    rcases argsRead σ es hraw.2 with ⟨rfl, -⟩ | ⟨hopens, hes⟩
    · rw [argPieces, listed]
      exact ⟨hone.groupedOpens 0, argsRead_last hone⟩
    · have hparts : argPieces σ es ≠ [] := by
        intro hnil
        rw [hnil, listed] at hopens
        exact absurd hopens (by decide)
      rw [listed_cons hparts, kindAt_append hne]
      exact ⟨hone.groupedOpens 0, argsRead_cons hone hes⟩

end

end Operators

end CMinusMinus.Proofs.Printing
