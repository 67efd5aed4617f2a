import CMinusMinus.Proofs.Code
import CMinusMinus.Proofs.Slots

/-!
No two labels of a program are the same. A numbered label belongs to the part of the code in which
its number was given out, a named one to the declaration whose name it is made from; so the labels
of code that comes after other code are new.
-/
namespace CMinusMinus.Proofs.Code

open Assembly Lowering WellFormed

def Item.label? : Item → Option String
  | label name _ | literal name _ | global name _ => some name
  | _ => none

def labels (items : List Item) : List String := items.filterMap Item.label?

@[simp] theorem labels_nil : labels [] = [] := rfl

@[simp] theorem labels_append (is js : List Item) : labels (is ++ js) = labels is ++ labels js :=
  List.filterMap_append

@[simp] theorem labels_op (i : Instr) (comment : String) (is : List Item) :
    labels (.op i comment :: is) = labels is := rfl

@[simp] theorem labels_label (name comment : String) (is : List Item) :
    labels (.label name comment :: is) = name :: labels is := rfl

@[simp] theorem labels_literal (name text : String) (is : List Item) :
    labels (.literal name text :: is) = name :: labels is := rfl

@[simp] theorem labels_global (name : String) (words : Option Int) (is : List Item) :
    labels (.global name words :: is) = name :: labels is := rfl

@[simp] theorem labels_start (isMain : Bool) (is : List Item) :
    labels (.start isMain :: is) = labels is := rfl

@[simp] theorem labels_note (name : String) (size : Int) (is : List Item) :
    labels (.note name size :: is) = labels is := rfl

section Unlabelled

variable (env : Env) (v : Variable) (offset : Int) (r : Reg)

@[simp] theorem labels_push : labels (push r) = [] := rfl
@[simp] theorem labels_pop : labels (pop r) = [] := rfl
@[simp] theorem labels_service (number : Int) : labels (service number) = [] := rfl

@[simp] theorem labels_drop (words : Int) : labels (drop words) = [] := by
  unfold drop; split <;> rfl

@[simp] theorem labels_address : labels (address v offset r) = [] := by
  unfold address
  split
  · split <;> rfl
  · rfl

@[simp] theorem labels_fetch : labels (fetch v offset) = [] := by
  unfold fetch
  split
  · split <;> simp
  · rfl

theorem labels_onPlace {e : Expr} {items : Variable → Int → List Item}
    (h : ∀ v offset, labels (items v offset) = []) : labels (onPlace env e items) = [] := by
  unfold onPlace
  split
  · exact h _ _
  · rfl

@[simp] theorem labels_unary (op : UnaryOp) : labels (unary op) = [] := by cases op <;> rfl

@[simp] theorem labels_binary (op : BinaryOp) : labels (binary op) = [] := by
  unfold binary; split <;> rfl

@[simp] theorem labels_invoke (callee : Ident) (count : Nat) :
    labels (invoke env callee count) = [] := by
  unfold invoke; split <;> simp

@[simp] theorem labels_count (target : Expr) (delta : Int) : labels (count env target delta) = [] :=
  labels_onPlace env fun v offset => by simp

@[simp] theorem labels_prologue (frame : Int) : labels (prologue frame) = [] := by
  unfold prologue; split <;> simp

@[simp] theorem labels_copyArguments (ds : List VarDecl) : labels (copyArguments env ds) = [] := by
  induction ds with
  | nil => rfl
  | cons d ds ih => unfold copyArguments; split <;> simp [ih]

@[simp] theorem labels_epilogue (name : String) : labels (epilogue name) = [] := by
  unfold epilogue; split <;> rfl

end Unlabelled

def Counters.Le (c c' : Counters) : Prop := ∀ kind, c kind ≤ c' kind

theorem Counters.Le.trans {c c' c'' : Counters} (h : c.Le c') (h' : c'.Le c'') : c.Le c'' :=
  fun kind => Nat.le_trans (h kind) (h' kind)

/-- A label belongs to a stretch of numbers or to one of some names. -/
def Owned (c c' : Counters) (names : List String) (l : String) : Prop :=
  (∃ kind n, l = kind.stem ++ toString n ∧ c kind ≤ n ∧ n < c' kind) ∨
    ∃ x ∈ names, l = functionLabel x ∨ l = exitLabel x ∨ l = globalLabel x

/-- Labels that are given out between two counters or made from some names, none of them twice. -/
structure Fresh (c c' : Counters) (names : List String) (ls : List String) : Prop where
  le : c.Le c'
  nodup : ls.Nodup
  owned : ∀ l ∈ ls, Owned c c' names l

section Owned

variable {c c₁ c₂ : Counters} {names names' ls ls' : List String} {kind kind' : LabelKind} {n n' : Nat}
  {l x y : String}

/-- A numbered label tells its kind and its number. -/
theorem numbered_inj (h : kind.stem ++ toString n = kind'.stem ++ toString n') :
    kind = kind' ∧ n = n' := by
  have hchars := congrArg String.toList h
  simp only [String.toList_append] at hchars
  obtain rfl : kind = kind' := by
    cases kind <;> cases kind' <;> first | rfl | simp [LabelKind.stem] at hchars
  have hdigits : Nat.toDigits 10 n = Nat.toDigits 10 n' := by
    simpa using List.append_cancel_left hchars
  refine ⟨rfl, ?_⟩
  rw [← Nat.ofDigitChars_ten_toDigits (n := n), hdigits, Nat.ofDigitChars_ten_toDigits]

/-- A numbered label is not made from a name. -/
theorem numbered_ne_named (h : l = functionLabel x ∨ l = exitLabel x ∨ l = globalLabel x) :
    l ≠ kind.stem ++ toString n := by
  rintro rfl
  have hchars : ∀ text, kind.stem ++ toString n = text →
      text.toList.head? ∈ [some '.', some 'E', some 'L', some 'S'] := by
    rintro _ rfl
    cases kind <;> simp [LabelKind.stem]
  rcases h with h | h | h
  · have := hchars _ h
    unfold functionLabel at this
    split at this <;> simp at this
  · simpa [exitLabel] using hchars _ h
  · simpa [globalLabel] using hchars _ h

/-- Labels made from two names differ. -/
theorem named_inj (h : l = functionLabel x ∨ l = exitLabel x ∨ l = globalLabel x)
    (h' : l = functionLabel y ∨ l = exitLabel y ∨ l = globalLabel y) : x = y := by
  have htexts : ∀ {z}, (l = functionLabel z ∨ l = exitLabel z ∨ l = globalLabel z) →
      z = "main" ∧ l.toList = "main".toList ∨ l.toList = '_' :: z.toList ∨
        l.toList = 'e' :: 'x' :: 'i' :: 't' :: '_' :: z.toList := by
    rintro z (rfl | rfl | rfl)
    · unfold functionLabel
      split
      · exact .inl ⟨‹_›, rfl⟩
      · exact .inr (.inl (by simp))
    · exact .inr (.inr (by simp [exitLabel]))
    · exact .inr (.inl (by simp [globalLabel]))
  rcases htexts h with ⟨rfl, hx⟩ | hx | hx <;> rcases htexts h' with ⟨rfl, hy⟩ | hy | hy <;>
    simp_all [String.toList_inj]

/-- A label is not given out again after it has been given out. -/
theorem Owned.not_later (h : Owned c c₁ names l) (hdisjoint : ∀ x ∈ names, x ∉ names') :
    ¬ Owned c₁ c₂ names' l := by
  rcases h with ⟨kind, n, rfl, -, hn⟩ | ⟨x, hx, hl⟩
  · rintro (⟨kind', n', heq, hn', -⟩ | ⟨y, -, hl'⟩)
    · obtain ⟨rfl, rfl⟩ := numbered_inj heq
      omega
    · exact numbered_ne_named hl' rfl
  · rintro (⟨kind', n', heq, -, -⟩ | ⟨y, hy, hl'⟩)
    · exact numbered_ne_named hl heq
    · obtain rfl := named_inj hl hl'
      exact hdisjoint x hx hy

theorem Owned.mono {c' c₁' : Counters} (h : Owned c c₁ names l) (hle : c'.Le c) (hle' : c₁.Le c₁')
    (hnames : names ⊆ names') : Owned c' c₁' names' l := by
  rcases h with ⟨kind, n, rfl, hn, hn'⟩ | ⟨x, hx, hl⟩
  · have := hle kind
    have := hle' kind
    exact .inl ⟨kind, n, rfl, by omega, by omega⟩
  · exact .inr ⟨x, hnames hx, hl⟩

theorem Fresh.nil (c : Counters) : Fresh c c names [] := ⟨fun _ => Nat.le_refl _, by simp, by simp⟩

/-- The labels of code that comes after other code are new. -/
theorem Fresh.append (h : Fresh c c₁ names ls) (h' : Fresh c₁ c₂ names' ls')
    (hdisjoint : ∀ x ∈ names, x ∉ names') : Fresh c c₂ (names ++ names') (ls ++ ls') where
  le := h.le.trans h'.le
  nodup := by
    refine List.nodup_append.mpr ⟨h.nodup, h'.nodup, ?_⟩
    rintro l hl _ hl' rfl
    exact (h.owned l hl).not_later hdisjoint (h'.owned l hl')
  owned l hl := by
    rcases List.mem_append.mp hl with hl | hl
    · exact (h.owned l hl).mono (fun _ => Nat.le_refl _) h'.le (List.subset_append_left _ _)
    · exact (h'.owned l hl).mono h.le (fun _ => Nat.le_refl _) (List.subset_append_right _ _)

/-- The labels inside functions are numbered, and so never made from names. -/
theorem Fresh.and (h : Fresh c c₁ [] ls) (h' : Fresh c₁ c₂ [] ls') : Fresh c c₂ [] (ls ++ ls') :=
  h.append h' (by simp)

theorem Fresh.perm (h : Fresh c c₁ names ls) (hperm : ls.Perm ls') : Fresh c c₁ names ls' :=
  ⟨h.le, hperm.nodup_iff.mp h.nodup, fun l hl => h.owned l (hperm.mem_iff.mpr hl)⟩

/-- The next label of a kind is new. -/
theorem fresh_label (kind : LabelKind) (c : Counters) :
    Fresh c (bump kind c) [] [labelOf kind c] where
  le k := by unfold bump; split <;> simp_all
  nodup := by simp
  owned l hl := by
    obtain rfl := List.mem_singleton.mp hl
    exact .inl ⟨kind, c kind, rfl, Nat.le_refl _, by simp [bump]⟩

end Owned

section Inside

variable (env : Env)

mutual

/-- The labels of an expression's code are new. -/
theorem fresh_expr : (e : Expr) → (c : Counters) → Fresh c (exprAfter e c) [] (labels (expr env e c))
  | .int .., c | .bool .., c | .misfit .., c => by
    simpa [expr, exprAfter] using Fresh.nil c
  | .string _ text, c => by
    simpa [expr, exprAfter] using fresh_label .string c
  | .ident x, c => by
    rw [expr, exprAfter, labels_onPlace env fun v offset => by simp]
    · exact Fresh.nil c
    all_goals simp
  | .dot note obj field reached bad, c => by
    rw [expr, exprAfter, labels_onPlace env fun v offset => by simp]
    · exact Fresh.nil c
    all_goals simp
  | .assign _ target value, c => by
    rw [expr, exprAfter, labels_append, labels_onPlace env fun v offset => by simp,
      List.append_nil]
    exact fresh_expr value c
  | .call _ callee args, c => by
    rw [expr, exprAfter, labels_append, labels_invoke, List.append_nil]
    exact fresh_exprs args c
  | .unary _ op operand, c => by
    simpa [expr, exprAfter] using fresh_expr operand c
  | .binary _ op left right, c => by
    by_cases hop : op = .and ∨ op = .or
    · -- both labels are given out before the code of the operands
      have hfirst := (fresh_label .shortCircuit c).and (fresh_label .shortCircuit _)
      have hall := (hfirst.and (fresh_expr left _)).and (fresh_expr right _)
      simp only [expr, exprAfter, hop, if_true, shortCut, labels_append, labels_pop, labels_op,
        labels_push, labels_label, labels_nil, List.nil_append]
      refine hall.perm ?_
      simp only [List.cons_append, List.nil_append]
      grind
    · have hall := (fresh_expr left c).and (fresh_expr right _)
      simpa [expr, exprAfter, hop] using hall

/-- The labels of the code of expressions are new. -/
theorem fresh_exprs : (es : List Expr) → (c : Counters) →
    Fresh c (exprsAfter es c) [] (labels (exprs env es c))
  | [], c => by simpa [exprs, exprsAfter] using Fresh.nil c
  | e :: es, c => by
    rw [exprs, exprsAfter, labels_append]
    exact (fresh_expr e c).and (fresh_exprs es _)

end

variable (function : String)

mutual

/-- The labels of a statement's code are new. -/
theorem fresh_stmt : (s : Stmt) → (c : Counters) →
    Fresh c (stmtAfter s c) [] (labels (stmt env function s c))
  | .assign _ e, c | .call _ e, c | .write _ e, c | .ret _ (some e), c => by
    simpa [stmt, stmtAfter] using fresh_expr env e c
  | .increment .., c | .decrement .., c | .ret _ none, c | .misfit .., c => by
    simpa [stmt, stmtAfter] using Fresh.nil c
  | .read _ target, c => by
    rw [stmt, stmtAfter, labels_append, labels_onPlace env fun v offset => by simp]
    · exact Fresh.nil c
    all_goals simp
  | .ifThen _ cond body, c => by
    have hall := ((fresh_expr env cond c).and (fresh_label .endIf _)).and (fresh_block body _)
    simp only [stmt, stmtAfter, labels_append, labels_pop, labels_op, labels_label, labels_nil,
      List.nil_append]
    refine hall.perm ?_
    grind
  | .ifElse _ cond body other, c => by
    have hfirst := ((fresh_expr env cond c).and (fresh_label .otherwise _)).and (fresh_label .endIf _)
    have hall := (hfirst.and (fresh_block body _)).and (fresh_block other _)
    simp only [stmt, stmtAfter, labels_append, labels_pop, labels_op, labels_label, labels_nil,
      List.nil_append]
    refine hall.perm ?_
    grind
  | .loop _ cond body, c => by
    have hfirst := (fresh_label .loop c).and (fresh_label .endLoop _)
    have hall := (hfirst.and (fresh_expr env cond _)).and (fresh_block body _)
    simp only [stmt, stmtAfter, labels_append, labels_pop, labels_op, labels_label, labels_nil,
      List.nil_append]
    refine hall.perm ?_
    grind

/-- The labels of the code of statements are new. -/
theorem fresh_stmts : (ss : List Stmt) → (c : Counters) →
    Fresh c (stmtsAfter ss c) [] (labels (stmts env function ss c))
  | [], c => by simpa [stmts, stmtsAfter] using Fresh.nil c
  | s :: ss, c => by
    rw [stmts, stmtsAfter, labels_append]
    exact (fresh_stmt s c).and (fresh_stmts ss _)

/-- The labels of a block's code are new. -/
theorem fresh_block : (b : Block) → (c : Counters) →
    Fresh c (blockAfter b c) [] (labels (block env function b c))
  | .mk _ _ body, c => by
    rw [block, blockAfter]
    exact fresh_stmts body c

end

end Inside

/-- The labels of a function's code are new: its two names for itself apart, they are numbered. -/
theorem fresh_function (env : Env) (d : FnDecl) (c : Counters) :
    Fresh c (blockAfter d.body c) [d.name.name] (labels (function env d c)) := by
  have hnames : Fresh c c [d.name.name] [functionLabel d.name.name, exitLabel d.name.name] := by
    refine ⟨fun _ => Nat.le_refl _, ?_, ?_⟩
    · have hne : functionLabel d.name.name ≠ exitLabel d.name.name := by
        intro h
        have hchars := congrArg (·.toList.head?) h
        unfold functionLabel exitLabel at hchars
        split at hchars <;> simp at hchars
      simp [hne]
    · intro l hl
      refine .inr ⟨d.name.name, by simp, ?_⟩
      simp only [List.mem_cons, List.not_mem_nil, or_false] at hl
      exact hl.imp_right .inl
  have hall := hnames.append (fresh_block env d.name.name d.body c) (by simp)
  simp only [function, entry, labels_append, labels_start, labels_label, labels_prologue,
    labels_copyArguments, labels_epilogue, List.nil_append, List.append_nil, List.cons_append]
  refine hall.perm ?_
  grind

/-- The labels of a declaration are new: they are numbered or made from its name. -/
theorem fresh_decl {lit : String → Prop} {env : Env} {globals : Scope} {index : Int} {d : Decl}
    (h : DeclOk lit (shape env.arena) globals index d) (c : Counters) :
    Fresh c (declAfter d c) [declName d] (labels (decl env d c)) := by
  cases d with
  | var d =>
    obtain ⟨hbinding, v, hv, hname, -⟩ := h
    obtain ⟨u, hu, rfl⟩ := shape_var hv
    rw [decl, variableOf_eq hbinding hu, declAfter]
    · refine ⟨fun _ => Nat.le_refl _, by simp, fun l hl => .inr ⟨declName (.var d), by simp, ?_⟩⟩
      have hname : u.name = d.name.name := hname
      simp only [labels_global, labels_nil, List.mem_singleton] at hl
      exact .inr (.inr (by rw [hl, hname, declName]))
    · simp
  | struct d =>
    rw [decl, declAfter]
    · split
      · exact Fresh.nil c
      · exact Fresh.nil c
    · simp
  | fn d => exact fresh_function env d c
  | misfit span kind => exact h.elim

/-- No two labels of a program are the same. -/
theorem fresh_decls {lit : String → Prop} {env : Env} {ds : List Decl} :
    ∀ {before after : Scope}, DeclsOk lit (shape env.arena) before ds after → ∀ c,
      Fresh c (declsAfter ds c) (ds.map declName) (labels (decls env ds c)) ∧
        ∀ x ∈ ds.map declName, x ∉ before.map Prod.fst := by
  induction ds with
  | nil => exact fun _ c => ⟨Fresh.nil c, by simp⟩
  | cons d ds ih =>
    rintro before after ⟨i, hnew, hdecl, hrest⟩ c
    obtain ⟨hfresh, hnames⟩ := ih hrest (declAfter d c)
    simp only [List.map_append, List.map_cons, List.map_nil, List.mem_append, List.mem_singleton,
      not_or] at hnames
    refine ⟨?_, ?_⟩
    · rw [decls, declsAfter, labels_append]
      exact (fresh_decl hdecl c).append hfresh (by
        intro x hx hmem
        exact (hnames x hmem).2 (List.mem_singleton.mp hx))
    · intro x hx
      rcases List.mem_cons.mp hx with rfl | hx
      · exact hnew
      · exact (hnames x hx).1

theorem labels_nodup {lit : String → Prop} {env : Env} {ds : List Decl} {before after : Scope}
    (h : DeclsOk lit (shape env.arena) before ds after) (c : Counters) :
    (labels (decls env ds c)).Nodup :=
  (fresh_decls h c).1.nodup

end CMinusMinus.Proofs.Code
