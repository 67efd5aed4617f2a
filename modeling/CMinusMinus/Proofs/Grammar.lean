import CMinusMinus.Proofs.Phrases
import CMinusMinus.Proofs.Printing
import CMinusMinus.Proofs.WellFormed

/-!
What the grammar makes of a text. Identifiers are words, literals are in range, targets are
locations, and nothing is bound or typed yet: a tree from the parser is raw.
-/
namespace CMinusMinus.Proofs.Grammar

open WellFormed Token

def IsTypeWord (word : String) : Prop := word = "int" ∨ word = "bool" ∨ word = "void"

/-- The text of a token fits its kind. What holds of the texts of string literals is left open. -/
def TokenOk (lit : String → Prop) (t : Token) : Prop :=
  match t.kind with
  | .ident => IsName t.text
  | .int => Parser.literalValue t.text ≤ maxLiteral
  | .string => lit t.text
  | kind => t.text = Printing.spelling kind

/-- The tokens fit their kinds, and the end is marked by the last one alone. -/
structure TokensOk (lit : String → Prop) (tokens : List Token) : Prop where
  each : ∀ t ∈ tokens, TokenOk lit t
  marked : ∃ ts eof, tokens = ts ++ [eof] ∧ eof.kind = .eof ∧ ∀ t ∈ ts, t.kind ≠ .eof

section Lexer

theorem ok_of_bind {ε α β : Type} {x : Except ε α} {f : α → Except ε β} {b : β} (h : x >>= f = .ok b) :
    ∃ a, x = .ok a ∧ f a = .ok b := by
  cases x with
  | error e => cases h
  | ok a => exact ⟨a, rfl, h⟩

theorem literal_of_stringBody {start : Position} {cs : List Char} {p : Position}
    {body rest : List Char} (h : stringBody start cs p = .ok (body, rest)) :
    Literal body ∧ cs = body ++ '"' :: rest := by
  fun_induction stringBody start cs p generalizing body rest with
  | case1 | case3 | case5 | case6 => cases h
  | case2 =>
    cases h
    exact ⟨.nil, rfl⟩
  | case4 c tail p hc ih =>
    obtain ⟨⟨inner, more⟩, hinner, h⟩ := ok_of_bind h
    cases h
    obtain ⟨hliteral, rfl⟩ := ih hinner
    exact ⟨.escape hc hliteral, rfl⟩
  | case7 c tail p hquote hlone hescape hc ih =>
    obtain ⟨⟨inner, more⟩, hinner, h⟩ := ok_of_bind h
    cases h
    obtain ⟨hliteral, rfl⟩ := ih hinner
    have hc : c ≠ nul ∧ c ≠ '\n' := by simpa using hc
    refine ⟨.plain hquote ?_ hc.2 hc.1 hliteral, rfl⟩
    rintro rfl
    cases inner with
    | nil => exact hescape _ _ rfl rfl
    | cons d inner => exact hescape _ _ rfl rfl

/-- The tokens that start with a character, each with the text after it: words and numbers go on as far as
they can, and a sign has two characters if it can. -/
inductive Lexed (c : Char) : List Char → Lexeme → Prop
  | word {rest : List Char} (start : isWordStart c) : Lexed c rest
      ⟨.ofWord (String.ofList (c :: rest.takeWhile isWordPart)), c :: rest.takeWhile isWordPart,
        (c :: rest.takeWhile isWordPart).length, rest.dropWhile isWordPart⟩
  | number {rest : List Char} (start : isWordStart c = false) (digit : c.isDigit)
      (small : Parser.literalValue (String.ofList ((c :: rest).takeWhile Char.isDigit)) ≤ maxLiteral) : Lexed c rest
      ⟨.int, (c :: rest).takeWhile Char.isDigit, ((c :: rest).takeWhile Char.isDigit).length,
        (c :: rest).dropWhile Char.isDigit⟩
  | literal {body more : List Char} (quote : c = '"') (literal : Literal body) :
      Lexed c (body ++ '"' :: more) ⟨.string, body, body.length + 2, more⟩
  | pair {d : Char} {more : List Char} {kind : Kind} (sign : twoCharSign? c d = some kind) :
      Lexed c (d :: more) ⟨kind, [c, d], 2, more⟩
  | single {rest : List Char} {kind : Kind} (sign : oneCharSign? c = some kind)
      (alone : ∀ d ∈ rest.head?, twoCharSign? c d = none) : Lexed c rest ⟨kind, [c], 1, rest⟩

theorem lexed_of_lexemeAt {p : Position} {c : Char} {rest : List Char} {l : Lexeme}
    (h : lexemeAt p c rest = .ok l) : Lexed c rest l := by
  unfold lexemeAt at h
  split at h
  · rename_i hstart
    cases h
    exact .word hstart
  rename_i hstart
  split at h
  · rename_i hdigit
    unfold numberAt at h
    dsimp only at h
    split at h
    · cases h
    split at h
    · cases h
    split at h
    · cases h
    · rename_i hvalue
      cases h
      refine .number (by simpa using hstart) hdigit ?_
      simpa [Parser.literalValue] using hvalue
  split at h
  · rename_i hquote
    obtain ⟨⟨body, more⟩, hbody, h⟩ := ok_of_bind h
    cases h
    obtain ⟨hliteral, rfl⟩ := literal_of_stringBody hbody
    exact .literal hquote hliteral
  have hone : (∀ d ∈ rest.head?, twoCharSign? c d = none) → signAt.oneChar p c rest = .ok l → Lexed c rest l := by
    intro halone h
    unfold signAt.oneChar at h
    split at h
    · rename_i kind hkind
      cases h
      exact .single hkind halone
    · cases h
  unfold signAt at h
  split at h
  · rename_i d more
    split at h
    · rename_i kind hkind
      cases h
      exact .pair hkind
    · rename_i hnone
      exact hone (by simpa using hnone) h
  · exact hone (by simp) h

theorem ofWord_mem (word : String) : Kind.ofWord word = .ident ∨ (word, Kind.ofWord word) ∈ keywords := by
  unfold Kind.ofWord
  cases hlookup : keywords.lookup word with
  | none => exact .inl rfl
  | some kind =>
    obtain ⟨before, after, hsplit, -⟩ := List.lookup_eq_some_iff.mp hlookup
    exact .inr (by simp [hsplit])

theorem ofWord_ne_string (word : String) : Kind.ofWord word ≠ .string := by
  intro hkind
  rcases ofWord_mem word with hident | hmem
  · rw [hident] at hkind
    cases hkind
  · rw [hkind] at hmem
    simp [keywords] at hmem

/-- How a token is spelled: a string literal stands between quotes. -/
def spelled (kind : Kind) (text : List Char) : List Char :=
  if kind = .string then '"' :: (text ++ ['"']) else text

theorem spelled_of_ne {kind : Kind} (h : kind ≠ .string) (text : List Char) : spelled kind text = text := if_neg h

theorem feed_of_literal {body : List Char} (h : Literal body) : '\n' ∉ body := by
  induction h with
  | nil => exact List.not_mem_nil
  | plain _ _ hfeed _ _ ih => simp [hfeed.symm, ih]
  | @escape c rest hknown _ ih =>
    have hc : c ≠ '\n' := by
      rintro rfl
      exact absurd hknown (by decide)
    simp [hc.symm, ih]

theorem feed_of_all {p : Char → Bool} (hp : p '\n' = false) {cs : List Char} (h : cs.all p) : '\n' ∉ cs := by
  intro hmem
  rw [List.all_eq_true.mp h _ hmem] at hp
  cases hp

/-- What can be the spelling of a token: a word, a number, a string literal between quotes, or a sign. -/
inductive IsSpelling : List Char → Prop
  | word {c : Char} {cs : List Char} (start : isWordStart c) (parts : cs.all isWordPart) : IsSpelling (c :: cs)
  | number {c : Char} {cs : List Char} (digits : (c :: cs).all Char.isDigit) : IsSpelling (c :: cs)
  | literal {body : List Char} (literal : Literal body) : IsSpelling ('"' :: (body ++ ['"']))
  | pair {c d : Char} {kind : Kind} (sign : twoCharSign? c d = some kind) : IsSpelling [c, d]
  | single {c : Char} {kind : Kind} (sign : oneCharSign? c = some kind) : IsSpelling [c]

/-- A token stands in the text by its spelling, on one line. -/
theorem Lexed.split {c : Char} {rest : List Char} {l : Lexeme} (h : Lexed c rest l) :
    c :: rest = spelled l.kind l.text ++ l.rest ∧ l.width = (spelled l.kind l.text).length ∧
      '\n' ∉ spelled l.kind l.text ∧ IsSpelling (spelled l.kind l.text) := by
  cases h with
  | word hstart =>
    rw [spelled_of_ne (ofWord_ne_string _)]
    refine ⟨by simp [List.takeWhile_append_dropWhile], rfl, ?_, .word hstart List.all_takeWhile⟩
    have hrest := feed_of_all (p := isWordPart) (by decide) (List.all_takeWhile (l := rest))
    have hc : c ≠ '\n' := by
      rintro rfl
      exact absurd hstart (by decide)
    simp [hc.symm, hrest]
  | number _ hdigit =>
    rw [spelled_of_ne (by simp)]
    refine ⟨List.takeWhile_append_dropWhile.symm, rfl, feed_of_all (by decide) List.all_takeWhile, ?_⟩
    rw [List.takeWhile_cons_of_pos hdigit]
    exact .number (by simp [hdigit])
  | literal hquote hliteral =>
    subst hquote
    have hfeed := feed_of_literal hliteral
    refine ⟨?_, ?_, ?_, .literal hliteral⟩ <;> simp [spelled, hfeed]
  | pair hsign =>
    have hspelling := IsSpelling.pair hsign
    unfold twoCharSign? at hsign
    split at hsign <;> cases hsign <;> exact ⟨rfl, rfl, by simp [spelled], hspelling⟩
  | single hsign =>
    have hspelling := IsSpelling.single hsign
    unfold oneCharSign? at hsign
    split at hsign <;> cases hsign <;> exact ⟨rfl, rfl, by simp [spelled], hspelling⟩

/-- A lexeme is inside the text and fits its kind. -/
def LexemeOk (l : Lexeme) : Prop :=
  l.kind ≠ .eof ∧ TokenOk (fun text => Literal text.toList) ⟨l.kind, String.ofList l.text, .start⟩

/-- A word is a keyword or an identifier. -/
theorem word_ok {c : Char} {rest : List Char} (hstart : isWordStart c) :
    LexemeOk ⟨.ofWord (String.ofList (c :: rest.takeWhile isWordPart)), c :: rest.takeWhile isWordPart,
      (c :: rest.takeWhile isWordPart).length, rest.dropWhile isWordPart⟩ := by
  unfold LexemeOk
  dsimp only
  generalize hword : String.ofList (c :: rest.takeWhile isWordPart) = word
  have hpart : isWordPart c := by
    have : c.isAlpha ∨ c = '_' := by simpa [isWordStart] using hstart
    rcases this with h | rfl
    · simp [isWordPart, Char.isAlphanum, h]
    · decide
  have hchars : word.toList = c :: rest.takeWhile isWordPart := by simp [← hword]
  rcases ofWord_mem word with hident | hmem
  · rw [hident]
    refine ⟨by simp, ⟨?_, ?_, ?_⟩, hident⟩
    · rintro rfl
      simp at hchars
    · simp [hchars, hstart]
    · rw [hchars]
      intro x hx
      rcases List.mem_cons.mp hx with rfl | hx
      · exact hpart
      · exact List.all_eq_true.mp List.all_takeWhile x hx
  · generalize Kind.ofWord word = kind at hmem
    simp only [keywords, List.mem_cons, Prod.mk.injEq, List.not_mem_nil, or_false] at hmem
    rcases hmem with ⟨rfl, rfl⟩ | ⟨rfl, rfl⟩ | ⟨rfl, rfl⟩ | ⟨rfl, rfl⟩ | ⟨rfl, rfl⟩ | ⟨rfl, rfl⟩ |
      ⟨rfl, rfl⟩ | ⟨rfl, rfl⟩ | ⟨rfl, rfl⟩ | ⟨rfl, rfl⟩ | ⟨rfl, rfl⟩ | ⟨rfl, rfl⟩ <;>
      exact ⟨by decide, rfl⟩

theorem lexeme_ok {p : Position} {c : Char} {rest : List Char} {l : Lexeme}
    (h : lexemeAt p c rest = .ok l) : LexemeOk l := by
  cases lexed_of_lexemeAt h with
  | word hstart => exact word_ok hstart
  | number _ _ hsmall => exact ⟨by simp, hsmall⟩
  | literal _ hliteral => exact ⟨by simp, by simpa [TokenOk] using hliteral⟩
  | @pair d _ _ hsign =>
    unfold twoCharSign? at hsign
    split at hsign <;> cases hsign <;> exact ⟨by simp, rfl⟩
  | single hsign =>
    unfold oneCharSign? at hsign
    split at hsign <;> cases hsign <;> exact ⟨by simp, rfl⟩

/-- The tokens of a text fit their kinds. -/
theorem tokens_ok {cs : List Char} {p : Position} {tokens : List Token}
    (h : lexFrom cs p = .ok tokens) : TokensOk (fun text => Literal text.toList) tokens := by
  fun_induction lexFrom cs p generalizing tokens with
  | case1 cs p q hs =>
    obtain rfl := Except.ok.inj h
    exact ⟨by simp [TokenOk, Printing.spelling], [], _, rfl, rfl, by simp⟩
  | case2 => simp at h
  | case3 cs p c rest q hs l hl ih =>
    obtain ⟨more, hmore, h⟩ := ok_of_bind h
    cases h
    obtain ⟨hinside, hok⟩ := lexeme_ok hl
    obtain ⟨heach, ts, eof, rfl, heof, hts⟩ := ih hmore
    exact ⟨List.forall_mem_cons.mpr ⟨hok, heach⟩, _ :: ts, eof, rfl, heof, List.forall_mem_cons.mpr ⟨hinside, hts⟩⟩

end Lexer

/-- An identifier that no analysis has seen. -/
structure RawIdent (x : Ident) : Prop where
  name : IsName x.name
  binding : x.binding = .unvisited
  ty : x.note.ty = none

theorem RawIdent.word {x : Ident} (h : RawIdent x) : IsWord x.name := h.name.1

section Raw

variable (lit : String → Prop)

mutual

def Raw : Expr → Prop
  | .int note v => note.ty = none ∧ 0 ≤ v ∧ v ≤ maxLiteral
  | .string note text => note.ty = none ∧ lit text
  | .bool note _ => note.ty = none
  | .ident x => RawIdent x
  | .dot note obj field reached bad =>
    note.ty = none ∧ obj.isLocation ∧ Raw obj ∧ RawIdent field ∧ reached = none ∧ bad = false
  | .assign note target value => note.ty = none ∧ target.isLocation ∧ Raw target ∧ Raw value
  | .call note callee args => note.ty = none ∧ RawIdent callee ∧ RawAll args
  | .unary note op operand => note.ty = none ∧ (op = .neg ∨ op = .not) ∧ Raw operand
  | .binary note op left right =>
    note.ty = none ∧ (∀ sign, op ≠ .other sign) ∧ Raw left ∧ Raw right
  | .misfit .. => False

def RawAll : List Expr → Prop
  | [] => True
  | e :: es => Raw e ∧ RawAll es

end

/-- The declaration of a variable that no analysis has seen. -/
structure RawVar (d : VarDecl) : Prop where
  name : RawIdent d.name
  type : d.type.isStruct = false → IsTypeWord d.type.name
  struct : d.type.isStruct = true → IsName d.type.name

/-- A type that is written as a word. -/
structure RawWord (t : TypeName) : Prop where
  word : IsTypeWord t.name
  plain : t.isStruct = false

/-- The declaration of a parameter that no analysis has seen. -/
structure RawFormal (d : VarDecl) : Prop where
  name : RawIdent d.name
  type : RawWord d.type

mutual

def RawStmt : Stmt → Prop
  | .assign _ e => (∃ note target value, e = .assign note target value) ∧ Raw lit e
  | .increment _ e | .decrement _ e | .read _ e => e.isLocation ∧ Raw lit e
  | .write _ e => Raw lit e
  | .ifThen _ cond body => Raw lit cond ∧ RawBlock body
  | .ifElse _ cond body other => Raw lit cond ∧ RawBlock body ∧ RawBlock other
  | .loop _ cond body => Raw lit cond ∧ RawBlock body
  | .call _ e => (∃ note callee args, e = .call note callee args) ∧ Raw lit e
  | .ret _ none => True
  | .ret _ (some e) => Raw lit e
  | .misfit .. => False

def RawStmts : List Stmt → Prop
  | [] => True
  | s :: ss => RawStmt s ∧ RawStmts ss

def RawBlock : Block → Prop
  | .mk _ decls stmts => (∀ d ∈ decls, RawVar d) ∧ RawStmts stmts

end

/-- A declaration that no analysis has seen. -/
def RawDecl : Decl → Prop
  | .var d => RawVar d
  | .struct d => RawIdent d.name ∧ d.fields ≠ [] ∧ ∀ f ∈ d.fields, RawVar f
  | .fn d => RawIdent d.name ∧ RawWord d.result ∧ (∀ f ∈ d.formals, RawFormal f) ∧
      RawBlock lit d.body
  | .misfit .. => False

end Raw

section Phrases

open Parser Phrases

variable {lit : String → Prop} {ι : Type} {i : ι} {t : Common ι} {ts us : List (Common ι)}

/-- The tokens of a phrase fit their kinds in one of the texts. -/
def AllOk (lit : String → Prop) (i : ι) (ts : List (Common ι)) : Prop := ∀ t ∈ ts, TokenOk lit (t.token i)

theorem allOk_cons : AllOk lit i (t :: ts) ↔ TokenOk lit (t.token i) ∧ AllOk lit i ts := List.forall_mem_cons

theorem allOk_append : AllOk lit i (ts ++ us) ↔ AllOk lit i ts ∧ AllOk lit i us := List.forall_mem_append

theorem rawIdent_of_token (h : TokenOk lit (t.token i)) (hkind : t.kind = .ident) :
    RawIdent (identOf (t.token i)) := by
  rw [TokenOk, Common.token_kind, hkind] at h
  exact ⟨h, rfl, rfl⟩

theorem rawWord_of_token (h : TokenOk lit (t.token i)) (hkind : t.kind.isTypeWord) :
    RawWord (typeOf (t.token i) false) := by
  refine ⟨?_, rfl⟩
  unfold TokenOk at h
  rw [Common.token_kind] at h
  cases hk : t.kind <;> simp only [hk, Kind.isTypeWord, Bool.false_eq_true] at h hkind
  · exact .inl h
  · exact .inr (.inl h)
  · exact .inr (.inr h)

theorem op_ne_other {kind : Kind} {op : BinaryOp}
    (h : (∃ level : Level, level.op? kind = some op) ∨ comparisonOp? kind = some op) (sign : String) :
    op ≠ .other sign := by
  rcases h with ⟨level, h⟩ | h
  · unfold Level.op? at h
    split at h <;> simp at h <;> simp [← h]
  · unfold comparisonOp? at h
    split at h <;> simp at h <;> simp [← h]

theorem unaryOp_cases {kind : Kind} {op : UnaryOp} (h : unaryOp? kind = some op) : op = .neg ∨ op = .not := by
  unfold unaryOp? at h
  split at h <;> simp at h <;> simp [← h]

/-- What is read as an expression is raw. -/
theorem raw_phrase {es : List (ι → Expr)} (h : Phrase ts es) (hok : AllOk lit i ts) :
    RawAll lit (es.map (· i)) := by
  have hone : ∀ {e : ι → Expr}, RawAll lit ([e].map (· i)) ↔ Raw lit (e i) := by simp [RawAll]
  induction h with
  | none => rw [List.map_nil, RawAll]; trivial
  | int hkind =>
    have hsmall := (allOk_cons.mp hok).1
    rw [TokenOk, Common.token_kind, hkind] at hsmall
    rw [hone, Raw]
    exact ⟨rfl, by omega, by exact_mod_cast hsmall⟩
  | string hkind =>
    have hliteral := (allOk_cons.mp hok).1
    rw [TokenOk, Common.token_kind, hkind] at hliteral
    rw [hone, Raw]
    exact ⟨rfl, hliteral⟩
  | bool => rw [hone, Raw]
  | ident hkind =>
    rw [hone, Raw]
    exact rawIdent_of_token (allOk_cons.mp hok).1 hkind
  | dot _ hplace _ hfield ih =>
    rw [allOk_append, allOk_cons, allOk_cons] at hok
    rw [hone, Raw]
    exact ⟨rfl, isLocation_iff.mpr (hplace i), hone.mp (ih hok.1), rawIdent_of_token hok.2.2.1 hfield, rfl, rfl⟩
  | assign _ hplace _ _ ih ih' =>
    rw [allOk_append, allOk_cons] at hok
    rw [hone, Raw]
    exact ⟨rfl, isLocation_iff.mpr (hplace i), hone.mp (ih hok.1), hone.mp (ih' hok.2.2)⟩
  | call hcallee _ _ _ ih =>
    rw [allOk_cons, allOk_cons, allOk_append] at hok
    rw [hone, Raw]
    exact ⟨rfl, rawIdent_of_token hok.1 hcallee, ih hok.2.2.1⟩
  | unary hsign _ ih =>
    rw [allOk_cons] at hok
    rw [hone, Raw]
    exact ⟨rfl, unaryOp_cases hsign, hone.mp (ih hok.2)⟩
  | binary _ hsign _ ih ih' =>
    rw [allOk_append, allOk_cons] at hok
    rw [hone, Raw]
    exact ⟨rfl, op_ne_other hsign, hone.mp (ih hok.1), hone.mp (ih' hok.2.2)⟩
  | group _ _ _ ih =>
    rw [allOk_cons, allOk_append] at hok
    exact ih hok.2.1
  | more _ _ _ _ ih ih' =>
    rw [allOk_append, allOk_cons] at hok
    rw [List.map_cons, RawAll]
    exact ⟨hone.mp (ih hok.1), ih' hok.2.2⟩

theorem raw_one {e : ι → Expr} (h : Phrase ts [e]) (hok : AllOk lit i ts) : Raw lit (e i) := by
  have hall := raw_phrase h hok
  rw [List.map_cons, RawAll] at hall
  exact hall.1

theorem raw_var {d : ι → VarDecl} (h : VarPhrase ts d) (hok : AllOk lit i ts) : RawVar (d i) := by
  cases h with
  | word htype hname =>
    rw [allOk_cons, allOk_cons] at hok
    exact ⟨rawIdent_of_token hok.2.1 hname, fun _ => (rawWord_of_token hok.1 htype).word, fun h => (by cases h)⟩
  | struct _ htype hname =>
    rw [allOk_cons, allOk_cons, allOk_cons] at hok
    exact ⟨rawIdent_of_token hok.2.2.1 hname, (fun h => (by cases h)), fun _ => (rawIdent_of_token hok.2.1 htype).name⟩

/-- What holds of phrases of some kind holds of all of them in a row. -/
theorem raw_each {α : Type} {P : List (Common ι) → (ι → α) → Prop} {R : α → Prop}
    (hP : ∀ {ts a}, P ts a → AllOk lit i ts → R (a i)) {as : List (ι → α)} (h : Each P ts as)
    (hok : AllOk lit i ts) : ∀ a ∈ as.map (· i), R a := by
  induction h with
  | nil => simp
  | cons hfirst _ ih =>
    rw [allOk_append] at hok
    rw [List.map_cons, List.forall_mem_cons]
    exact ⟨hP hfirst hok.1, ih hok.2⟩

theorem raw_formals {ds : List (ι → VarDecl)} (h : Formals ts ds) (hok : AllOk lit i ts) :
    ∀ d ∈ ds.map (· i), RawFormal d := by
  induction h with
  | none => simp
  | one htype hname =>
    rw [allOk_cons, allOk_cons] at hok
    rw [List.map_singleton, List.forall_mem_singleton]
    exact ⟨rawIdent_of_token hok.2.1 hname, rawWord_of_token hok.1 htype⟩
  | more _ _ _ _ ih ih' =>
    rw [allOk_append, allOk_cons] at hok
    rw [List.map_cons, List.forall_mem_cons]
    exact ⟨ih hok.1 _ (by simp), ih' hok.2.2⟩

theorem raw_simple {st : ι → Option Span → Stmt} (h : Simple ts st) (hok : AllOk lit i ts) (span : Option Span) :
    RawStmt lit (st i span) := by
  cases h with
  | done => rw [RawStmt]; trivial
  | ret _ hvalue =>
    exact raw_one hvalue (allOk_cons.mp hok).2
  | read _ _ htarget hplace =>
    exact ⟨isLocation_iff.mpr (hplace i), raw_one htarget (allOk_cons.mp (allOk_cons.mp hok).2).2⟩
  | write _ _ hvalue =>
    exact raw_one hvalue (allOk_cons.mp (allOk_cons.mp hok).2).2
  | increment htarget hplace | decrement htarget hplace =>
    exact ⟨isLocation_iff.mpr (hplace i), raw_one htarget (allOk_append.mp hok).1⟩
  | @assign _ e he hform =>
    rw [RawStmt]
    have hform := hform i
    have hraw := raw_one he hok
    cases hi : e i <;> simp [hi, formOf] at hform
    exact ⟨⟨_, _, _, rfl⟩, hi ▸ hraw⟩
  | @call _ e he hform =>
    rw [RawStmt]
    have hform := hform i
    have hraw := raw_one he hok
    cases hi : e i <;> simp [hi, formOf] at hform
    exact ⟨⟨_, _, _, rfl⟩, hi ▸ hraw⟩

theorem raw_guard {kind : Kind} {e : ι → Expr} (h : Guard kind ts e) (hok : AllOk lit i ts) : Raw lit (e i) := by
  obtain ⟨-, -, hcond, -⟩ := h
  rw [allOk_cons, allOk_cons, allOk_append] at hok
  exact raw_one hcond hok.2.2.1

/-- A block is raw if its statements are. -/
theorem raw_braced {b : ι → Block} {ss : List (ι → Stmt)} (h : Braced ts b us ss)
    (hss : AllOk lit i us → RawStmts lit (ss.map (· i))) (hok : AllOk lit i ts) : RawBlock lit (b i) := by
  obtain ⟨-, hds, -⟩ := h
  rw [allOk_cons, allOk_append, allOk_append] at hok
  exact ⟨raw_each raw_var hds hok.2.1.1, hss hok.2.1.2⟩

theorem raw_stmts {ss : List (ι → Stmt)} (h : Stmts ts ss) (hok : AllOk lit i ts) :
    RawStmts lit (ss.map (· i)) := by
  have hone : ∀ {st : ι → Stmt}, RawStmts lit ([st].map (· i)) ↔ RawStmt lit (st i) := by simp [RawStmts]
  induction h with
  | nil => rw [List.map_nil, RawStmts]; trivial
  | cons _ _ ih ih' =>
    rw [allOk_append] at hok
    rw [List.map_cons, RawStmts]
    exact ⟨hone.mp (ih hok.1), ih' hok.2⟩
  | simple hst =>
    rw [hone]
    exact raw_simple hst (allOk_append.mp hok).1 _
  | ifThen hcond hbody _ ih | loop hcond hbody _ ih =>
    rw [allOk_append] at hok
    rw [hone, RawStmt]
    exact ⟨raw_guard hcond hok.1, raw_braced hbody ih hok.2⟩
  | ifElse hcond hbody _ _ hother _ ih ih' =>
    rw [allOk_append, allOk_append, allOk_cons] at hok
    rw [hone, RawStmt]
    exact ⟨raw_guard hcond hok.1.1, raw_braced hbody ih hok.1.2, raw_braced hother ih' hok.2.2⟩

theorem raw_decl {d : ι → Decl} (h : DeclPhrase ts d) (hok : AllOk lit i ts) : RawDecl lit (d i) := by
  cases h with
  | var hd => exact raw_var hd hok
  | struct _ hname _ hds hne =>
    simp only [allOk_cons, allOk_append] at hok
    exact ⟨rawIdent_of_token hok.2.1 hname, by simpa using hne, raw_each raw_var hds hok.2.2.2.1⟩
  | fn htype hname _ hformals _ hbody hstmts =>
    simp only [allOk_cons, allOk_append] at hok
    exact ⟨rawIdent_of_token hok.2.1 hname, rawWord_of_token hok.1 htype, raw_formals hformals hok.2.2.2.1,
      raw_braced (i := i) hbody (raw_stmts hstmts) hok.2.2.2.2.2⟩

end Phrases

/-- A parsed program is raw. -/
theorem raw_of_tokens {lit : String → Prop} {tokens : List Token} {p : Program} (htokens : TokensOk lit tokens)
    (h : Program.ofTokens tokens = .ok p) : ∀ d ∈ p.decls, RawDecl lit d := by
  obtain ⟨ts, eof, rfl, heof, hinside⟩ := htokens.marked
  obtain ⟨us, ds, c, hus, hds, -, -, hdecls, -⟩ := Phrases.of_tokens heof hinside h
  rw [hdecls]
  refine raw_each raw_decl hds fun t ht => htokens.each _ ?_
  rw [← hus]
  exact List.mem_append_left _ (List.mem_map_of_mem ht)

end CMinusMinus.Proofs.Grammar
