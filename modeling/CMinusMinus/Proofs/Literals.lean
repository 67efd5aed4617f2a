import CMinusMinus.Proofs.Addresses
import CMinusMinus.Proofs.Comments
import CMinusMinus.Proofs.Renaming
import CMinusMinus.Proofs.WellTyped

/-!
The literals of a program in the machine. The code stores them in the order in which they are written, each
under a label with its number. The passes change nothing about them, so that what the code stores are the
literals among the tokens of the text.
-/
namespace CMinusMinus.Proofs.Literals

open Assembly Machine Printing Grammar
open Code (Item Counters)
open Addresses (perform perform_cons perform_append)
open Lexical (unboundIdent unboundExpr unboundExprs unboundStmt unboundStmts unboundBlock unboundDecl)
open TypeRules (untypedIdent untyped untypedAll untypedStmt untypedStmts untypedBlock untypedDecl)

section Untyped

variable {lit : String → Prop}

theorem untypedIdent_of_raw {x : Ident} (h : RawIdent (unboundIdent x)) : untypedIdent x = x := by
  rw [untypedIdent, ← h.ty]
  rfl

mutual

/-- What name analysis makes of expressions has no types. -/
theorem untyped_of_raw : ∀ {e : Expr}, Raw lit (unboundExpr e) → untyped e = e
  | .int .., h | .string .., h => by rw [untyped, ← h.1]
  | .bool .., h => by rw [untyped, ← h]
  | .ident _, h => by rw [untyped, untypedIdent_of_raw h]
  | .dot .., h => by rw [untyped, untyped_of_raw h.2.2.1, ← h.1]
  | .assign .., h => by rw [untyped, untyped_of_raw h.2.2.1, untyped_of_raw h.2.2.2, ← h.1]
  | .call .., h => by rw [untyped, untypedIdent_of_raw h.2.1, untypedAll_of_raw h.2.2, ← h.1]
  | .unary .., h => by rw [untyped, untyped_of_raw h.2.2, ← h.1]
  | .binary .., h => by rw [untyped, untyped_of_raw h.2.2.1, untyped_of_raw h.2.2.2, ← h.1]

theorem untypedAll_of_raw : ∀ {es : List Expr}, RawAll lit (unboundExprs es) → untypedAll es = es
  | [], _ => rfl
  | _ :: _, h => by rw [untypedAll, untyped_of_raw h.1, untypedAll_of_raw h.2]

end

mutual

theorem untypedStmt_of_raw : ∀ {st : Stmt}, RawStmt lit (unboundStmt st) → untypedStmt st = st
  | .assign .., h | .increment .., h | .decrement .., h | .read .., h | .call .., h => by
    rw [untypedStmt, untyped_of_raw h.2]
  | .write .., h | .ret _ (some _), h => by rw [untypedStmt, untyped_of_raw h]
  | .ifThen .., h | .loop .., h => by rw [untypedStmt, untyped_of_raw h.1, untypedBlock_of_raw h.2]
  | .ifElse .., h => by
    rw [untypedStmt, untyped_of_raw h.1, untypedBlock_of_raw h.2.1, untypedBlock_of_raw h.2.2]
  | .ret _ none, _ => rfl

theorem untypedStmts_of_raw : ∀ {ss : List Stmt}, RawStmts lit (unboundStmts ss) → untypedStmts ss = ss
  | [], _ => rfl
  | _ :: _, h => by rw [untypedStmts, untypedStmt_of_raw h.1, untypedStmts_of_raw h.2]

theorem untypedBlock_of_raw : ∀ {b : Block}, RawBlock lit (unboundBlock b) → untypedBlock b = b
  | .mk .., h => by rw [untypedBlock, untypedStmts_of_raw h.2]

end

theorem untypedDecl_of_raw {d : Decl} (h : RawDecl lit (unboundDecl d)) : untypedDecl d = d := by
  cases d with
  | fn d => rw [untypedDecl, untypedBlock_of_raw h.2.2.2]
  | _ => rfl

end Untyped

section Tokens

variable {lit : String → Prop}

/-- The literals among the tokens of a text, in order. -/
def quoted (ps : List Piece) : List String := ps.filterMap fun p => if p.kind = .string then some p.text else none

@[simp] theorem quoted_append (ps qs : List Piece) : quoted (ps ++ qs) = quoted ps ++ quoted qs :=
  List.filterMap_append ..

@[simp] theorem quoted_nil : quoted [] = [] := rfl

@[simp] theorem quoted_cons (p : Piece) (ps : List Piece) :
    quoted (p :: ps) = if p.kind = .string then p.text :: quoted ps else quoted ps := by
  simp only [quoted, List.filterMap_cons]
  split <;> simp_all

@[simp] theorem quoted_plain (ps : List Piece) : quoted (Fidelity.plain ps) = quoted ps := by
  induction ps with
  | nil => rfl
  | cons p ps ih =>
    rw [Fidelity.plain_cons, quoted_cons]
    split
    · rw [quoted_cons, ih]
    · rename_i hparen
      have hkind : p.kind ≠ .string := by
        intro hkind
        simp [hkind] at hparen
      rw [ih, if_neg hkind]

@[simp] theorem quoted_grouped (σ : Style) (place : Nat) (e : Expr) (ps : List Piece) :
    quoted (grouped σ place e ps) = quoted ps := by
  rw [← quoted_plain, Fidelity.plain_grouped, quoted_plain]

@[simp] theorem quoted_operand (σ : Style) (e : Expr) : quoted (operandPieces σ e) = quoted (exprPieces σ e) :=
  quoted_grouped ..

theorem quoted_listed (parts : List (List Piece)) : quoted (listed parts) = parts.flatMap quoted := by
  induction parts with
  | nil => rfl
  | cons part parts ih =>
    by_cases hparts : parts = []
    · simp [hparts, listed]
    · simp [listed_cons hparts, ih]

@[simp] theorem unarySign_kind (op : UnaryOp) : (unarySign op).kind ≠ .string := by
  cases op <;> simp [unarySign]

@[simp] theorem binarySign_kind (op : BinaryOp) : (binarySign op).kind ≠ .string := by
  cases op <;> simp [binarySign]

/-- The tokens of a location are names and points. -/
theorem quoted_location : ∀ e : Expr, e.isLocation → Raw lit e → quoted (exprPieces .sparse e) = []
  | .ident _, _, _ => by simp [exprPieces]
  | .dot _ obj _ _ _, _, h => by
    simp [exprPieces, quoted_location obj h.2.1 h.2.2.1]
  | .int .., h, _ | .string .., h, _ | .bool .., h, _ | .assign .., h, _ | .call .., h, _ | .unary .., h, _
  | .binary .., h, _ | .misfit .., h, _ => by simp [Expr.isLocation] at h

theorem quoted_type (t : TypeName) : quoted (typePieces t) = [] := by
  unfold typePieces
  split <;> simp [ofWord_ne_string]

@[simp] theorem quoted_formal (d : VarDecl) : quoted (formalPieces d) = [] := by simp [formalPieces, quoted_type]

@[simp] theorem quoted_vars (ds : List VarDecl) : quoted (ds.flatMap varPieces) = [] := by
  induction ds with
  | nil => rfl
  | cons d ds ih => simp [varPieces, ih]

end Tokens

section Storing

variable {env : Lowering.Env}

def stored (items : List Item) : List (String × String) := items.filterMap fun
  | .literal name text => some (name, text)
  | _ => none

def labelled (n : Nat) (texts : List String) : List (String × String) :=
  (texts.zipIdx n).map fun (text, i) => (LabelKind.string.stem ++ toString i, text)

@[simp] theorem stored_append (items more : List Item) : stored (items ++ more) = stored items ++ stored more :=
  List.filterMap_append ..

@[simp] theorem stored_nil : stored [] = [] := rfl

@[simp] theorem stored_op (i : Instr) (comment : String) (items : List Item) :
    stored (.op i comment :: items) = stored items := rfl

@[simp] theorem stored_label (name comment : String) (items : List Item) :
    stored (.label name comment :: items) = stored items := rfl

@[simp] theorem stored_pop (r : Reg) : stored (Code.pop r) = [] := rfl

@[simp] theorem stored_service (n : Int) : stored (Code.service n) = [] := rfl

@[simp] theorem stored_shortCut (isAnd : Bool) (right done : String) : stored (Code.shortCut isAnd right done) = [] :=
  rfl

/-- Code without labels stores nothing. -/
@[simp] theorem stored_of_labels {items : List Item} (h : Code.labels items = []) : stored items = [] := by
  rw [Code.labels, List.filterMap_eq_nil_iff] at h
  rw [stored, List.filterMap_eq_nil_iff]
  intro item hitem
  cases item with
  | literal name text => cases h _ hitem
  | _ => rfl

@[simp] theorem stored_onPlace {e : Expr} {items : Variable → Int → List Item}
    (h : ∀ v n, Code.labels (items v n) = []) : stored (Code.onPlace env e items) = [] :=
  stored_of_labels (Code.labels_onPlace env h)

/-- Code stores some literals, under the labels from a number on up to another. -/
def Stores (items : List Item) (n n' : Nat) (texts : List String) : Prop :=
  stored items = labelled n texts ∧ n' = n + texts.length

theorem Stores.append {items more : List Item} {n n' n'' : Nat} {ts us : List String} (h : Stores items n n' ts)
    (hmore : Stores more n' n'' us) : Stores (items ++ more) n n'' (ts ++ us) := by
  obtain ⟨hstored, rfl⟩ := h
  obtain ⟨hrest, rfl⟩ := hmore
  constructor
  · simp [hstored, hrest, labelled, List.zipIdx_append]
  · rw [List.length_append, Nat.add_assoc]

/-- More code around code that stores literals stores no more of them. -/
theorem Stores.within {items whole : List Item} {n n' : Nat} {ts us : List String} (h : Stores items n n' ts)
    (hwhole : stored whole = stored items) (htexts : us = ts) : Stores whole n n' us := by
  subst htexts
  exact ⟨hwhole.trans h.1, h.2⟩

theorem Stores.none {items : List Item} {n : Nat} {ts : List String} (h : stored items = []) (hts : ts = []) :
    Stores items n n ts := by
  subst hts
  exact ⟨h, rfl⟩

variable {lit : String → Prop} (env)

mutual

/-- The code of an expression stores the literals among its tokens. -/
theorem stores_expr : ∀ (e : Expr) (c : Counters), Raw lit (unboundExpr (untyped e)) →
    Stores (Code.expr env e c) (c .string) (Code.exprAfter e c .string)
      (quoted (exprPieces .sparse (unboundExpr (untyped e))))
  | .string .., _, _ => by
    rw [Code.expr, Code.exprAfter]
    exact ⟨rfl, rfl⟩
  | .assign _ _ value, c, h => (stores_expr value c h.2.2.2).within (by simp [Code.expr])
      (by simp [untyped, unboundExpr, exprPieces, quoted_location _ h.2.1 h.2.2.1])
  | .call _ _ args, c, h => (stores_exprs args c h.2.2).within (by simp [Code.expr])
      (by simp [untyped, unboundExpr, exprPieces, quoted_listed])
  | .unary _ _ operand, c, h => (stores_expr operand c h.2.2).within (by simp [Code.expr])
      (by simp [untyped, unboundExpr, exprPieces])
  | .binary _ op left right, c, h => by
    rw [Code.exprAfter]
    by_cases hop : op = .and ∨ op = .or
    · let c' := Code.bump .shortCircuit (Code.bump .shortCircuit c)
      simp only [hop, if_true]
      exact ((stores_expr left c' h.2.2.1).append (stores_expr right (Code.exprAfter left c') h.2.2.2)).within
        (by simp [Code.expr, hop, c']) (by simp [untyped, unboundExpr, exprPieces])
    · simp only [hop, if_false]
      exact ((stores_expr left c h.2.2.1).append (stores_expr right (Code.exprAfter left c) h.2.2.2)).within
        (by simp [Code.expr, hop]) (by simp [untyped, unboundExpr, exprPieces])
  | .dot .., _, h => .none (by simp [Code.expr]) (quoted_location _ rfl h)
  | .bool _ value, _, _ => .none rfl (by cases value <;> rfl)
  | .int .., _, _ => .none rfl rfl
  | .ident _, _, _ => .none (by simp [Code.expr]) rfl

theorem stores_exprs : ∀ (es : List Expr) (c : Counters), RawAll lit (unboundExprs (untypedAll es)) →
    Stores (Code.exprs env es c) (c .string) (Code.exprsAfter es c .string)
      ((argPieces .sparse (unboundExprs (untypedAll es))).flatMap quoted)
  | [], _, _ => .none rfl rfl
  | e :: es, c, h => ((stores_expr e c h.1).append (stores_exprs es _ h.2)).within rfl
      (by simp [untypedAll, unboundExprs, argPieces])

end

variable (f : String)

mutual

/-- The code of a statement stores the literals among its tokens. -/
theorem stores_stmt : ∀ (st : Stmt) (c : Counters), RawStmt lit (unboundStmt (untypedStmt st)) →
    Stores (Code.stmt env f st c) (c .string) (Code.stmtAfter st c .string)
      (quoted (stmtPieces .sparse (unboundStmt (untypedStmt st))))
  | .assign _ e, c, h | .call _ e, c, h => (stores_expr env e c h.2).within (by simp [Code.stmt])
      (by simp [untypedStmt, unboundStmt, stmtPieces])
  | .write _ e, c, h | .ret _ (some e), c, h => (stores_expr env e c h).within (by simp [Code.stmt])
      (by simp [untypedStmt, unboundStmt, stmtPieces])
  | .ifThen _ cond body, c, h =>
    ((stores_expr env cond c h.1).append (stores_block body (Code.bump .endIf (Code.exprAfter cond c)) h.2)).within
      (by simp [Code.stmt]) (by simp [untypedStmt, unboundStmt, stmtPieces])
  | .ifElse _ cond body other, c, h =>
    let c' := Code.bump .endIf (Code.bump .otherwise (Code.exprAfter cond c))
    ((stores_expr env cond c h.1).append ((stores_block body c' h.2.1).append
      (stores_block other (Code.blockAfter body c') h.2.2))).within (by simp [Code.stmt, c'])
      (by simp [untypedStmt, unboundStmt, stmtPieces])
  | .loop _ cond body, c, h =>
    let c' := Code.bump .endLoop (Code.bump .loop c)
    ((stores_expr env cond c' h.1).append (stores_block body (Code.exprAfter cond c') h.2)).within
      (by simp [Code.stmt, c']) (by simp [untypedStmt, unboundStmt, stmtPieces])
  | .increment .., _, h | .decrement .., _, h | .read .., _, h => .none (by simp [Code.stmt])
      (by simp [untypedStmt, unboundStmt, stmtPieces, quoted_location _ h.1 h.2])
  | .ret _ none, _, _ => .none rfl rfl

theorem stores_stmts : ∀ (ss : List Stmt) (c : Counters), RawStmts lit (unboundStmts (untypedStmts ss)) →
    Stores (Code.stmts env f ss c) (c .string) (Code.stmtsAfter ss c .string)
      (quoted (stmtsPieces .sparse (unboundStmts (untypedStmts ss))))
  | [], _, _ => .none rfl rfl
  | st :: ss, c, h => ((stores_stmt st c h.1).append (stores_stmts ss _ h.2)).within rfl
      (by simp [untypedStmts, unboundStmts, stmtsPieces])

theorem stores_block : ∀ (b : Block) (c : Counters), RawBlock lit (unboundBlock (untypedBlock b)) →
    Stores (Code.block env f b c) (c .string) (Code.blockAfter b c .string)
      (quoted (blockPieces .sparse (unboundBlock (untypedBlock b))))
  | .mk _ _ body, c, h => (stores_stmts body c h.2).within rfl
      (by simp [untypedBlock, unboundBlock, blockPieces])

end

theorem stores_decl (d : Decl) (c : Counters) (h : RawDecl lit (unboundDecl (untypedDecl d))) :
    Stores (Code.decl env d c) (c .string) (Code.declAfter d c .string)
      (quoted (declPieces .sparse (unboundDecl (untypedDecl d)))) := by
  cases d with
  | fn d =>
    refine (stores_block env d.name.name d.body c h.2.2.2).within ?_ ?_
    · show stored ((Code.prologue _ ++ Code.copyArguments env _) ++ (_ ++ .label _ :: Code.epilogue _)) = _
      simp
    · simp [untypedDecl, unboundDecl, declPieces, quoted_type, quoted_listed, List.flatMap_map]
  | var d =>
    refine .none ?_ (by simp [untypedDecl, unboundDecl, declPieces, varPieces])
    simp only [Code.decl]
    split <;> rfl
  | struct d =>
    refine .none ?_ (by simp [untypedDecl, unboundDecl, declPieces])
    simp only [Code.decl]
    split <;> rfl
  | misfit => cases h

theorem stores_decls (ds : List Decl) : ∀ c : Counters, (∀ d ∈ ds, RawDecl lit (unboundDecl (untypedDecl d))) →
    Stores (Code.decls env ds c) (c .string) (Code.declsAfter ds c .string)
      (quoted ((ds.map fun d => unboundDecl (untypedDecl d)).flatMap (declPieces .sparse))) := by
  induction ds with
  | nil => exact fun _ _ => .none rfl rfl
  | cons d ds ih =>
    intro c h
    rw [List.forall_mem_cons] at h
    exact ((stores_decl env d c h.1).append (ih _ h.2)).within rfl (by simp)

end Storing

section Programs

variable {text file asm : String} {a : Analysis} {p : Program} {tokens : List Token} {comments : Bool}

/-- The literals among the tokens of a program that was read are those of its text, in order. -/
theorem quoted_of_tokens (hlex : Token.lex text = .ok tokens) (hparse : Program.ofTokens tokens = .ok p) :
    quoted (programPieces .sparse p) = (tokens.filter (·.kind = .string)).map Token.text := by
  obtain ⟨ts, eof, -, rfl, heof, hplain, -⟩ := Fidelity.tokens_taken Style.sparse hlex hparse
  have hpieces : ∀ ts : List Token, quoted (ts.map Fidelity.pieceOf) =
      (ts.filter (·.kind = .string)).map Token.text := by
    intro ts
    induction ts with
    | nil => rfl
    | cons t ts ih =>
      by_cases hint : t.kind = .int <;> by_cases hstring : t.kind = .string <;>
        simp_all [Fidelity.pieceOf, numeral]
  rw [← quoted_plain, ← hplain, quoted_plain, hpieces]
  simp [heof]

/-- The code of an accepted program stores the literals of its text, in order. -/
theorem stored_of_accepts (h : Accepts text file a) (hp : a.program = some p)
    (hlex : Token.lex text = .ok tokens) :
    stored (codeOf a p) = labelled 0 ((tokens.filter (·.kind = .string)).map Token.text) := by
  obtain ⟨_, p₀, hlex', hparse, rfl⟩ := h.read
  cases hlex.symm.trans hlex'
  have hraw := raw_of_tokens (tokens_ok hlex) hparse
  obtain ⟨b, q, hresolve, hq, hunbound⟩ := Places.names_resolve file hlex hparse
  obtain ⟨ds, s, hpassed⟩ : ∃ ds s, Passed _ (readFrom file p₀) _ ds s :=
    ⟨_, _, passes (a := readFrom file p₀) rfl hraw rfl⟩
  cases hresolve.symm.trans hpassed.names
  cases hq
  rw [hpassed.result] at hp ⊢
  cases hp
  have hunbound : ds.map unboundDecl = p₀.decls := hunbound.trans (Views.unboundDecls_of_raw hraw)
  have hbare : (ds.map (Verdicts.typedDecl s.arena)).map (fun d => unboundDecl (untypedDecl d)) = p₀.decls := by
    have hsame : ds.map untypedDecl = ds := by
      refine (List.map_congr_left fun d hd => untypedDecl_of_raw (hraw _ ?_)).trans (List.map_id' _)
      rw [← hunbound]
      exact List.mem_map_of_mem hd
    have huntyped : (ds.map (Verdicts.typedDecl s.arena)).map untypedDecl = ds := by
      simpa only [List.map_map, Function.comp_def, TypeRules.untyped_typedDecl] using hsame
    show (ds.map _).map (unboundDecl ∘ untypedDecl) = _
    rw [← List.map_map, huntyped, hunbound]
  have hstores := fun env => stores_decls env (ds.map (Verdicts.typedDecl s.arena)) (fun _ => 0)
    fun _ hd => hraw _ (hbare ▸ List.mem_map_of_mem hd)
  rw [hbare] at hstores
  rw [← quoted_of_tokens hlex hparse]
  exact (hstores _).1

/-- The numbers in the code around a literal can be written. -/
theorem small_isWritable {n : Int} (h : n.natAbs < 10) : ∀ m ∈ [n], Text.isWritable m := by
  rw [List.forall_mem_singleton]
  exact Numerals.isWritable_of_lt (by omega)

/-- A word is popped as it was pushed. -/
theorem perform_pass (image : Image) (s : State) (hlow : -2 ^ 31 ≤ s.reg Reg.sp - 4)
    (hhigh : s.reg Reg.sp < 2 ^ 31) :
    ∃ t, perform image (Code.push .t0 ++ Code.pop .a0) s = .ok () t ∧
      t.reg Reg.a0 = wrap (s.reg Reg.t0) ∧ t.output = s.output := by
  let u := (s.store (s.reg Reg.sp + 0) (s.reg Reg.t0)).setReg Reg.sp (s.reg Reg.sp - 4)
  have hpush : perform image (Code.push .t0) s = .ok () u := by
    rw [Code.push, perform_cons (i := .sw .t0 (.indexed 0 .sp)) References.isReg_sp
        (small_isWritable (by decide)) rfl,
      perform_cons (i := .compute .subu .sp .sp (.imm 4)) trivial (small_isWritable (by decide)) rfl]
    rfl
  have hsp : u.reg Reg.sp = s.reg Reg.sp - 4 := by
    rw [← wrap_of_fits hlow (by omega)]
    simp [u, Reg.sp]
  have hload : u.load (u.reg Reg.sp + 4) = s.reg Reg.t0 := by
    rw [hsp]
    simp [u]
  let v := u.setReg Reg.a0 (u.load (u.reg Reg.sp + 4))
  refine ⟨v.setReg Reg.sp (v.reg Reg.sp + 4), ?_, ?_, ?_⟩
  · rw [perform_append hpush, Code.pop,
      perform_cons (i := .lw .a0 (.indexed 4 .sp)) References.isReg_sp (small_isWritable (by decide)) rfl,
      perform_cons (i := .compute .addu .sp .sp (.imm 4)) trivial (small_isWritable (by decide)) rfl]
    rfl
  · rw [← hload]
    simp [v, Reg.a0, Reg.sp]
  · simp [v, u]

/-- The code that writes a literal writes the text that is stored under its label. -/
theorem perform_write {env : Lowering.Env} {f shown literal : String} {note : Note} {span : Option Span}
    {c : Counters} {image : Image} {address : Int} {s : State} (hty : note.ty = some .string)
    (hlabel : image.dataLabels[Code.labelOf .string c]? = some address)
    (htext : image.texts[address]? = some shown) (haddress : -2 ^ 31 ≤ address) (hlimit : address < 2 ^ 31)
    (hlow : -2 ^ 31 ≤ s.reg Reg.sp - 4) (hhigh : s.reg Reg.sp < 2 ^ 31) :
    ∃ t, perform image (Code.stmt env f (.write span (.string note literal)) c) s = .ok () t ∧
      t.output = s.output ++ shown := by
  have hprinter : Code.printer env (.string note literal) = Lowering.printString := by
    simp [Code.printer, Lowering.recordedTy, Expr.ty, Expr.note, hty, Ty.known?, Ty.isError, Ty.isString]
  have hname : Legible (.la .t0 (.label (Code.labelOf .string c))) :=
    Spelling.indexed?_of_label (Spelling.isLabel_numbered .string c)
  have hla : effect image s (.la .t0 (.label (Code.labelOf .string c))) = .ok false (s.setReg Reg.t0 address) := by
    simp [effect, withPlace, locate?, hlabel]
  have hsp : (s.setReg Reg.t0 address).reg Reg.sp = s.reg Reg.sp := by simp [Reg.t0, Reg.sp]
  obtain ⟨u, hu, harg, houtput⟩ := 
    perform_pass image (s.setReg Reg.t0 address) (by rwa [hsp]) (by rwa [hsp])
  have harg' : (u.setReg Reg.v0 Lowering.printString).reg "$a0" = address := by
    have hwrap := wrap_of_fits haddress hlimit
    simpa [Reg.v0, Reg.a0, Reg.t0, hwrap] using harg
  have hv0 : (u.setReg Reg.v0 Lowering.printString).reg "$v0" = 4 := by
    rw [← wrap_of_fits (n := 4) (by decide) (by decide)]
    simp [Reg.v0, Lowering.printString]
  rw [Code.stmt, Code.expr, hprinter]
  show ∃ t, perform image (.op (.la .t0 (.label (Code.labelOf .string c))) ::
    (Code.push .t0 ++ (Code.pop .a0 ++ Code.service Lowering.printString))) s = .ok () t ∧ _
  rw [perform_cons hname (by simp [Instr.numbers, Address.numbers]) hla, ← List.append_assoc,
    perform_append hu, Code.service,
    perform_cons (i := .li .v0 Lowering.printString) trivial (small_isWritable (by decide)) rfl,
    perform_cons (i := .syscall) trivial (by simp [Instr.numbers])
      (service_printText image hv0 (harg'.symm ▸ htext))]
  exact ⟨_, rfl, by simp [houtput]⟩

/-- The literals of an accepted text survive its compilation, if they have no line breaks. The code is loaded,
and the literal with some number is stored under the label with this number, with its escapes decoded and else
as it is written. The code that writes it, wherever it stands, writes that text, as long as the address of
the text and those of the stack fit into registers. -/
theorem literals_survive (haccepts : Accepts text file a) (hplain : PlainLiterals text)
    (hasm : (a.assembly comments).result = some asm) (hlex : Token.lex text = .ok tokens) :
    ∃ image, load asm = (image, none) ∧
      ∀ n t, (tokens.filter (·.kind = .string))[n]? = some t → ∃ address,
        image.dataLabels["STRING_" ++ toString n]? = some address ∧
        image.texts[address]? = some (String.ofList (Reference.shown t.text.toList)) ∧
        ∀ (f : String) span (note : Note) (c : Counters) (s : State), note.ty = some .string → c .string = n →
          address < 2 ^ 31 → -2 ^ 31 ≤ s.reg Reg.sp - 4 → s.reg Reg.sp < 2 ^ 31 →
          ∃ s', perform image (Code.stmt (envOf a) f (.write span (.string note t.text)) c) s =
              .ok () s' ∧ s'.output = s.output ++ String.ofList (Reference.shown t.text.toList) := by
  obtain ⟨p, globals, hloadable, rfl⟩ := haccepts.loadable hplain hasm
  refine ⟨_, hloadable.load_eq comments, fun n t ht => ?_⟩
  have hmem : .literal ("STRING_" ++ toString n) t.text ∈ codeOf a p := by
    have hlabelled : ("STRING_" ++ toString n, t.text) ∈ stored (codeOf a p) := by
      rw [stored_of_accepts haccepts hloadable.analysed.program hlex]
      refine List.mem_map.mpr ⟨(t.text, n), ?_, rfl⟩
      rw [List.mk_mem_zipIdx_iff_getElem?, List.getElem?_map, ht]
      rfl
    obtain ⟨item, hitem, hsome⟩ := List.mem_filterMap.mp hlabelled
    cases item with
    | literal name text =>
      cases hsome
      exact hitem
    | _ => cases hsome
  obtain ⟨pc, address, hlabel, hlow, -, htext⟩ := itemAt_of_mem hmem (hloadable.placed comments)
  rw [← shown_eq_unescape] at htext
  refine ⟨address, hlabel, htext, fun f span note c s hty hc hlimit hsp hsp' => ?_⟩
  subst hc
  exact perform_write hty hlabel htext (by simp only [dataBase] at hlow; omega) hlimit hsp hsp'

def greetingLetters : { letters : List Char // String.ofList letters =
    "void main()\x7bcout<<\"hi\\n\";cout<<\"\\\"\\t\\\\\";\x7d" } :=
  ⟨_, rfl⟩

theorem greeting_compiled : (compiled? greetingLetters.1).isSome = true := by decide +kernel

def greeting : Specimen := .ofLetters greetingLetters.1 greeting_compiled

/-- The second literal of the text is stored with its escapes decoded. -/
theorem greeting_survives : ∃ tokens t, Token.lex greeting.text = .ok tokens ∧
    (tokens.filter (·.kind = .string))[1]? = some t ∧ t.text = "\\\"\\t\\\\" ∧
    ∃ image address, load greeting.code = (image, none) ∧ image.dataLabels["STRING_1"]? = some address ∧
      image.texts[address]? = some "\"\t\\" := by
  obtain ⟨tokens, -, hlex, -⟩ := greeting.accepts.read
  have hsecond : ((Token.lex greeting.text).toOption.bind fun tokens =>
      (tokens.filter (·.kind = .string))[1]?.map Token.text) = some "\\\"\\t\\\\" := by
    decide +kernel
  rw [hlex] at hsecond
  obtain ⟨t, ht, htext⟩ := Option.map_eq_some_iff.mp hsecond
  obtain ⟨image, hload, hall⟩ := literals_survive greeting.accepts greeting.plain greeting.code_eq hlex
  obtain ⟨address, hlabel, hstored, -⟩ := hall 1 t ht
  rw [htext] at hstored
  exact ⟨tokens, t, hlex, ht, htext, image, address, hload, hlabel, hstored⟩

/-- A text whose literal has a tabulator of lines in it, spelled out. -/
def brokenLetters : { letters : List Char // String.ofList letters = "void main()\x7bcout<<\"a\x0bb\";\x7d" } :=
  ⟨_, rfl⟩

theorem broken_accepted : (accepted? brokenLetters.1).isSome = true := by decide +kernel

/-- The analysis of the text. -/
def brokenAnalysis : Analysis := ((accepted? brokenLetters.1).get broken_accepted).2

/-- The text is accepted, but its code is not loaded: the line of the literal ends inside of it. -/
theorem broken_literal_is_not_loaded : ∃ asm, Accepts (String.ofList brokenLetters.1) "main.cmm" brokenAnalysis ∧
    (brokenAnalysis.assembly false).result = some asm ∧ (load asm).2.isSome = true := by
  have haccepts := (accepts_of_accepted (Option.some_get broken_accepted).symm).2
  have hfails : brokenAnalysis.lower.toOption.any (fun lines =>
      ((lines.flatMap (Comments.pieces false)).foldl Loading.next {}).error.isSome) = true := by
    decide +kernel
  cases hlower : brokenAnalysis.lower with
  | error fault => simp [hlower, Except.toOption] at hfails
  | ok lines =>
    rw [hlower, Except.toOption, Option.any_some, ← Comments.load_pieces] at hfails
    exact ⟨render false lines, haccepts, by simp [Analysis.assembly, hlower], hfails⟩

end Programs

end CMinusMinus.Proofs.Literals
