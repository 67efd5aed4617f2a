import CMinusMinus.Analysis

/-!
Well-formed programs: every name stands for the innermost declaration in sight, every expression
has a type, and every statement fits its function. Symbols are seen without the offsets of their
slots, so that laying out frames changes nothing here. What holds of the texts of string literals
is left open.
-/
namespace CMinusMinus.Proofs.WellFormed

abbrev Symbols := Int → Option Symbol

/-- A symbol apart from the place of a variable in its frame or struct. -/
def unplaced : Symbol → Symbol
  | .var v => .var { v with offset := 0 }
  | s => s

def shape (a : Arena) : Symbols := fun i => (a.get? i).map unplaced

/-- Symbols that other symbols agree with wherever they are defined. -/
def Extends (σ τ : Symbols) : Prop := ∀ i s, σ i = some s → τ i = some s

/-- What a name stands for in a stack of scopes, the innermost first. -/
def find (Γ : List Scope) (name : String) : Option Int := Γ.findSome? (·.lookup name)

def IsScalar (t : Ty) : Prop := t = .int ∨ t = .bool

/-- An identifier's text: a letter or underscore, then letters, digits and underscores. -/
def IsWord (text : String) : Prop :=
  text ≠ "" ∧ (∀ c ∈ text.toList.head?, Token.isWordStart c) ∧ ∀ c ∈ text.toList, Token.isWordPart c

/-- An identifier's text that is not a keyword. -/
def IsName (text : String) : Prop := IsWord text ∧ Token.Kind.ofWord text = .ident

/-- The inside of a string literal: each backslash starts an escape, and there are no quotes, line
feeds and null characters outside of escapes. -/
inductive Literal : List Char → Prop
  | nil : Literal []
  | plain {c : Char} {rest : List Char} (quote : c ≠ '"') (backslash : c ≠ '\\')
      (feed : c ≠ '\n') (null : c ≠ Token.nul) (more : Literal rest) : Literal (c :: rest)
  | escape {c : Char} {rest : List Char} (known : Token.isEscape c) (more : Literal rest) :
      Literal ('\\' :: c :: rest)

/-- A symbol is in order: a variable holds a word or refers to its struct, a function takes words
and gives a word or nothing, and the fields of a struct are variables. -/
def SymbolOk (σ : Symbols) : Symbol → Prop
  | .var v => IsWord v.name ∧ (IsScalar v.ty ∧ v.structDef = none ∨
      ∃ name k d, v.ty = .struct name ∧ v.structDef = some k ∧ σ k = some (.struct d))
  | .func f => IsWord f.name ∧ (∀ t ∈ f.params, IsScalar t) ∧ (IsScalar f.result ∨ f.result = .void)
  | .struct d => IsWord d.name ∧ ∃ scope, d.fields.scopes = [scope] ∧
      ∀ p ∈ scope, ∃ w, σ p.2 = some (.var w)

def SymbolsOk (σ : Symbols) : Prop := ∀ i s, σ i = some s → SymbolOk σ s

/-- An expression is a location that ends in a variable or field: a name in sight, or a field of a
struct variable. -/
def Place (σ : Symbols) (Γ : List Scope) : Expr → Variable → Prop
  | .ident x, v => ∃ i, find Γ x.name = some i ∧ x.binding = .symbol i ∧ σ i = some (.var v)
  | .dot _ obj field reached bad, v =>
    bad = false ∧ reached = v.structDef ∧ ∃ u k d j, Place σ Γ obj u ∧ u.structDef = some k ∧
      σ k = some (.struct d) ∧ d.fields.find? field.name = some j ∧ field.binding = .symbol j ∧
      σ j = some (.var v)
  | _, _ => False

section Judgements

variable (lit : String → Prop) (σ : Symbols)

mutual

/-- All identifiers of an expression are bound to what they stand for. -/
def Bound (Γ : List Scope) : Expr → Prop
  | .int _ v => 0 ≤ v ∧ v ≤ Token.maxLiteral
  | .string _ text => lit text
  | .bool .. => True
  | .ident x => ∃ i s, find Γ x.name = some i ∧ x.binding = .symbol i ∧ σ i = some s
  | .dot note obj field reached bad => ∃ v, Place σ Γ (.dot note obj field reached bad) v
  | .assign _ target value => target.isLocation ∧ Bound Γ target ∧ Bound Γ value
  | .call _ callee args =>
    (∃ i s, find Γ callee.name = some i ∧ callee.binding = .symbol i ∧ σ i = some s) ∧
      BoundAll Γ args
  | .unary _ op operand => (op = .neg ∨ op = .not) ∧ Bound Γ operand
  | .binary _ op left right => (∀ sign, op ≠ .other sign) ∧ Bound Γ left ∧ Bound Γ right
  | .misfit .. => False

def BoundAll (Γ : List Scope) : List Expr → Prop
  | [] => True
  | e :: es => Bound Γ e ∧ BoundAll Γ es

end

/-- The types of the operands and of the result of an operator; both operands have one type. -/
def OperatorTypes : BinaryOp → Ty → Ty → Prop
  | .add, u, t | .sub, u, t | .mul, u, t | .div, u, t => u = .int ∧ t = .int
  | .and, u, t | .or, u, t => u = .bool ∧ t = .bool
  | .lt, u, t | .gt, u, t | .le, u, t | .ge, u, t => u = .int ∧ t = .bool
  | .eq, u, t | .ne, u, t => (IsScalar u ∨ u = .string) ∧ t = .bool
  | .other _, _, _ => False

mutual

def Typed (Γ : List Scope) : Expr → Ty → Prop
  | .int _ v, t => t = .int ∧ 0 ≤ v ∧ v ≤ Token.maxLiteral
  | .string _ text, t => t = .string ∧ lit text
  | .bool .., t => t = .bool
  | .ident x, t => ∃ i s, find Γ x.name = some i ∧ x.binding = .symbol i ∧ σ i = some s ∧ t = s.ty
  | .dot note obj field reached bad, t =>
    ∃ v, Place σ Γ (.dot note obj field reached bad) v ∧ t = v.ty
  | .assign _ target value, t =>
    target.isLocation ∧ IsScalar t ∧ Typed Γ target t ∧ Typed Γ value t
  | .call _ callee args, t =>
    ∃ i f, find Γ callee.name = some i ∧ callee.binding = .symbol i ∧ σ i = some (.func f) ∧
      t = f.result ∧ TypedAll Γ args f.params
  | .unary _ op operand, t =>
    (op = .neg ∧ t = .int ∨ op = .not ∧ t = .bool) ∧ Typed Γ operand t
  | .binary _ op left right, t =>
    ∃ u, OperatorTypes op u t ∧ Typed Γ left u ∧ Typed Γ right u
  | .misfit .., _ => False

def TypedAll (Γ : List Scope) : List Expr → List Ty → Prop
  | [], ts => ts = []
  | e :: es, ts => ∃ t rest, ts = t :: rest ∧ Typed Γ e t ∧ TypedAll Γ es rest

end

def Declares : List VarDecl → Scope → Prop
  | [], scope => scope = []
  | d :: ds, scope => ∃ i rest, scope = (d.name.name, i) :: rest ∧ d.name.binding = .symbol i ∧
      (∃ v, σ i = some (.var v) ∧ v.isGlobal = false) ∧ Declares ds rest

mutual

def StmtOk (Γ : List Scope) (result : Ty) : Stmt → Prop
  | .assign _ e => ∃ t, IsScalar t ∧ Typed lit σ Γ e t
  | .increment _ e | .decrement _ e => e.isLocation ∧ Typed lit σ Γ e .int
  | .read _ e => e.isLocation ∧ ∃ t, IsScalar t ∧ Typed lit σ Γ e t
  | .write _ e => ∃ t, (IsScalar t ∨ t = .string) ∧ e.ty = some t ∧ Typed lit σ Γ e t
  | .ifThen _ cond body => Typed lit σ Γ cond .bool ∧ BlockOk Γ result body
  | .ifElse _ cond body other =>
    Typed lit σ Γ cond .bool ∧ BlockOk Γ result body ∧ BlockOk Γ result other
  | .loop _ cond body => Typed lit σ Γ cond .bool ∧ BlockOk Γ result body
  | .call _ e => ∃ note callee args t, e = .call note callee args ∧ Typed lit σ Γ e t
  | .ret _ none => result = .void
  | .ret _ (some e) => IsScalar result ∧ Typed lit σ Γ e result
  | .misfit .. => False

def StmtsOk (Γ : List Scope) (result : Ty) : List Stmt → Prop
  | [] => True
  | s :: ss => StmtOk Γ result s ∧ StmtsOk Γ result ss

def BlockOk (Γ : List Scope) (result : Ty) : Block → Prop
  | .mk _ decls stmts => ∃ scope, Declares σ decls scope ∧ (scope.map Prod.fst).Nodup ∧
      StmtsOk (scope :: Γ) result stmts

end

/-- A parameter has the type at its place in the list of the function's parameters. -/
def Formals : List VarDecl → List Ty → Prop
  | [], ts => ts = []
  | d :: ds, ts => ∃ t rest i v, ts = t :: rest ∧ d.name.binding = .symbol i ∧
      σ i = some (.var v) ∧ v.ty = t ∧ v.name = d.name.name ∧ Formals ds rest

def declName : Decl → String
  | .var d => d.name.name
  | .struct d => d.name.name
  | .fn d => d.name.name
  | .misfit .. => ""

section Declarations

variable (body : List Scope → Ty → List Stmt → Prop)

/-- A function is in order, where its name is already in the global scope. The parameters and the
declarations of the body are one scope. What the statements of the body have to do is left open. -/
def FnShape (globals : Scope) (d : FnDecl) (f : Function) : Prop :=
  f.name = d.name.name ∧ Ty.ofWord? d.result.name = some f.result ∧ Formals σ d.formals f.params ∧
    ∃ scope, Declares σ (d.formals ++ d.body.decls) scope ∧ (scope.map Prod.fst).Nodup ∧
      body [scope, globals] f.result d.body.stmts

/-- A declaration at the top of a program is in order and bound to an index. -/
def DeclShape (globals : Scope) (index : Int) : Decl → Prop
  | .var d => d.name.binding = .symbol index ∧
      ∃ v, σ index = some (.var v) ∧ v.name = d.name.name ∧ v.isGlobal = true
  | .struct d => d.name.binding = .symbol index ∧ ∃ s, σ index = some (.struct s)
  | .fn d => d.name.binding = .symbol index ∧
      ∃ f, σ index = some (.func f) ∧ FnShape σ body globals d f
  | .misfit .. => False

/-- Declarations add to a global scope one after the other, each with a new name that is in sight
from then on. -/
def DeclsShape (before : Scope) : List Decl → Scope → Prop
  | [], after => after = before
  | d :: ds, after => ∃ i, declName d ∉ before.map Prod.fst ∧
      DeclShape σ body (before ++ [(declName d, i)]) i d ∧
      DeclsShape (before ++ [(declName d, i)]) ds after

end Declarations

abbrev FnOk (globals : Scope) (d : FnDecl) (f : Function) : Prop :=
  FnShape σ (StmtsOk lit σ) globals d f

/-- A declaration at the top of a program is in order, and its statements fit it. -/
abbrev DeclOk (globals : Scope) (index : Int) (d : Decl) : Prop :=
  DeclShape σ (StmtsOk lit σ) globals index d

/-- Declarations add to a global scope one after the other, and their statements fit them. -/
abbrev DeclsOk (before : Scope) (ds : List Decl) (after : Scope) : Prop :=
  DeclsShape σ (StmtsOk lit σ) before ds after

end Judgements

section Slots

def declSlots (decls : List VarDecl) : List Int :=
  decls.filterMap fun d =>
    match d.name.binding with
    | .symbol i => some i
    | _ => none

mutual

/-- The symbols of the variables that a statement declares in its blocks, in order. -/
def stmtSlots : Stmt → List Int
  | .ifThen _ _ body | .loop _ _ body => blockSlots body
  | .ifElse _ _ body other => blockSlots body ++ blockSlots other
  | _ => []

def stmtsSlots : List Stmt → List Int
  | [] => []
  | s :: ss => stmtSlots s ++ stmtsSlots ss

def blockSlots : Block → List Int
  | .mk _ decls body => declSlots decls ++ stmtsSlots body

end

theorem declSlots_eq {σ : Symbols} {decls : List VarDecl} :
    ∀ {scope : Scope}, Declares σ decls scope → declSlots decls = scope.map Prod.snd := by
  induction decls with
  | nil => rintro _ rfl; rfl
  | cons d ds ih =>
    rintro _ ⟨i, rest, rfl, hbinding, -, hrest⟩
    simp only [declSlots, List.filterMap_cons, hbinding, List.map_cons]
    exact congrArg _ (ih hrest)

end Slots

section Types

theorem not_string_of_scalar {t : Ty} (h : IsScalar t) : t ≠ .string := by
  rcases h with rfl | rfl <;> simp

def IsOperand (t : Ty) : Prop := IsScalar t ∨ t = .string ∨ t = .void

/-- A variable that is an operand holds a word. -/
theorem scalar_of_operand {σ : Symbols} {v : Variable} (h : SymbolOk σ (.var v))
    (hoperand : IsOperand v.ty) : IsScalar v.ty := by
  rcases h.2 with ⟨hscalar, -⟩ | ⟨name, k, d, hty, -⟩
  · exact hscalar
  · simp [IsOperand, IsScalar, hty] at hoperand

theorem symbol_of_place {σ : Symbols} {Γ : List Scope} {e : Expr} {v : Variable}
    (h : Place σ Γ e v) : ∃ i, σ i = some (.var v) := by
  cases e with
  | ident x =>
    obtain ⟨i, -, -, hv⟩ := h
    exact ⟨i, hv⟩
  | dot note obj field reached bad =>
    obtain ⟨-, -, _, _, _, j, -, -, -, -, -, hv⟩ := h
    exact ⟨j, hv⟩
  | _ => exact h.elim

/-- A location of the type of operands names a word of a variable. -/
theorem place_of_typed {lit : String → Prop} {σ : Symbols} {Γ : List Scope} {e : Expr} {t : Ty}
    (hσ : SymbolsOk σ) (hlocation : e.isLocation) (htyped : Typed lit σ Γ e t)
    (hoperand : IsOperand t) : ∃ v, Place σ Γ e v ∧ v.ty = t ∧ IsScalar t := by
  cases e with
  | ident x =>
    obtain ⟨i, symbol, hfind, hbinding, hsymbol, rfl⟩ := htyped
    cases symbol with
    | var v =>
      exact ⟨v, ⟨i, hfind, hbinding, hsymbol⟩, rfl, scalar_of_operand (hσ i _ hsymbol) hoperand⟩
    | func f => simp [IsOperand, IsScalar, Symbol.ty] at hoperand
    | struct d => simp [IsOperand, IsScalar, Symbol.ty] at hoperand
  | dot note obj field reached bad =>
    obtain ⟨v, hplace, rfl⟩ := htyped
    obtain ⟨j, hj⟩ := symbol_of_place hplace
    exact ⟨v, hplace, rfl, scalar_of_operand (hσ j _ hj) hoperand⟩
  | _ => simp [Expr.isLocation] at hlocation

/-- A location whose last variable holds a word leads to no struct. -/
theorem structDef_of_place {σ : Symbols} {Γ : List Scope} {e : Expr} {v : Variable}
    (hσ : SymbolsOk σ) (hplace : Place σ Γ e v) (hscalar : IsScalar v.ty) : v.structDef = none := by
  obtain ⟨i, hv⟩ := symbol_of_place hplace
  have hok : SymbolOk σ (.var v) := hσ i _ hv
  rcases hok.2 with ⟨-, hnone⟩ | ⟨name, k, d, hty, -⟩
  · exact hnone
  · simp [IsScalar, hty] at hscalar

/-- Operators work on operands. -/
theorem operand_of_operator {op : BinaryOp} {u t : Ty} (h : OperatorTypes op u t) : IsOperand u := by
  cases op with
  | eq | ne => exact h.1.imp_right .inl
  | and | or => exact .inl (.inr h.1)
  | other sign => exact h.elim
  | _ => exact .inl (.inl h.1)

/-- The type of a call is one of operands. -/
theorem operand_of_call {lit : String → Prop} {σ : Symbols} {Γ : List Scope} {note : Note}
    {callee : Ident} {args : List Expr} {t : Ty} (hσ : SymbolsOk σ)
    (h : Typed lit σ Γ (.call note callee args) t) : IsOperand t := by
  obtain ⟨i, f, -, -, hf, rfl, -⟩ := h
  have hok : SymbolOk σ (.func f) := hσ i _ hf
  rcases hok.2.2 with hscalar | hvoid
  · exact .inl hscalar
  · exact .inr (.inr hvoid)

theorem typedAll_length {lit : String → Prop} {σ : Symbols} {Γ : List Scope} {es : List Expr} :
    ∀ {ts : List Ty}, TypedAll lit σ Γ es ts → es.length = ts.length := by
  induction es with
  | nil => intro ts h; rw [TypedAll] at h; simp [h]
  | cons e es ih =>
    intro ts h
    obtain ⟨t, ts', rfl, -, hes⟩ := h
    simp [ih hes]

theorem declares_append {σ : Symbols} {ds : List VarDecl} : ∀ {cs : List VarDecl} {scope : Scope},
    Declares σ (cs ++ ds) scope → ∃ first rest, scope = first ++ rest ∧ Declares σ cs first ∧
      Declares σ ds rest
  | [], scope, h => ⟨[], scope, rfl, rfl, h⟩
  | c :: cs, _, ⟨i, _, rfl, hbinding, hv, h⟩ => by
    obtain ⟨first, rest, rfl, hfirst, hrest⟩ := declares_append h
    exact ⟨(c.name.name, i) :: first, rest, rfl, ⟨i, first, rfl, hbinding, hv, hfirst⟩, hrest⟩

end Types

section Scopes

theorem lookup_cons_cases {p : String × Int} {rest : Scope} {name : String} {j : Int}
    (h : (p :: rest).lookup name = some j) : name = p.1 ∧ p.2 = j ∨ rest.lookup name = some j := by
  obtain ⟨n, i⟩ := p
  by_cases hname : name = n
  · subst hname
    exact .inl ⟨rfl, by simpa using h⟩
  · have hbeq : (name == n) = false := by simpa using hname
    exact .inr (by simpa [List.lookup_cons, hbeq] using h)

theorem lookup_of_prefix {x : String} {i : Int} {visible globals : Scope} (h : visible <+: globals)
    (hx : visible.lookup x = some i) : globals.lookup x = some i := by
  obtain ⟨rest, rfl⟩ := h
  rw [List.lookup_append, hx]
  rfl

theorem prefix_of_declsShape {σ : Symbols} {body : List Scope → Ty → List Stmt → Prop} {ds : List Decl} :
    ∀ {before after : Scope}, DeclsShape σ body before ds after → before <+: after := by
  induction ds with
  | nil =>
    rintro before _ rfl
    exact List.prefix_refl _
  | cons d ds ih =>
    rintro before after ⟨i, -, -, hrest⟩
    exact (List.prefix_append _ _).trans (ih hrest)

end Scopes

end CMinusMinus.Proofs.WellFormed
