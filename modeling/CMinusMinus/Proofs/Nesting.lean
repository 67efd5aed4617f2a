import CMinusMinus.Symbol.Table
import Mathlib.Data.List.Induction

/-!
Scopes nest. Whatever is done to a table between the opening of a scope and its end, and whether it is refused
or not, the scopes around are as they were. A scope lists the names that were declared while it was the
innermost one, in the order of their declarations and each of them once.
-/
namespace CMinusMinus.Proofs.Nesting

/-- What is asked of a table. -/
inductive Question where
  | inner (name : String)
  | any (name : String)
  | names

/-- What is done to a table. -/
inductive Action where
  | push
  | pop
  | declare (name : String) (index : Int)
  | freeze
  | ask (question : Question)

inductive Answer where
  | done
  | index (found : Option Int)
  | names (scope : Scope)

def answer (t : SymbolTable) : Question → Answer
  | .inner name => .index (t.findInner? name)
  | .any name => .index (t.find? name)
  | .names => .names t.inner

/-- What an action gives, and the table after it. -/
def perform (t : SymbolTable) : Action → Except TableError Answer × SymbolTable
  | .push => (.ok .done, t.push)
  | .pop => change (t.withScope t.pop)
  | .declare name index => change (t.declare name index)
  | .freeze => (.ok .done, t.freeze)
  | .ask question => (t.withScope (answer t question), t)
where
  change : Except TableError SymbolTable → Except TableError Answer × SymbolTable
    | .ok t' => (.ok .done, t')
    | .error e => (.error e, t)

/-- The table after some actions, whether they are refused or not. -/
def run (t : SymbolTable) (actions : List Action) : SymbolTable := actions.foldl (fun t a => (perform t a).2) t

/-- The number of scopes that are open after some actions, of those opened by them and some before; there is none
if more scopes are closed than were open. -/
def height : Nat → List Action → Option Nat
  | h, [] => some h
  | h, .push :: rest => height (h + 1) rest
  | 0, .pop :: _ => none
  | h + 1, .pop :: rest => height h rest
  | h, _ :: rest => height h rest

/-- The declarations that are accepted in the scope that is innermost when so many scopes have been closed, in
their order. -/
def accepted : SymbolTable → Nat → List Action → Scope
  | _, _, [] => []
  | t, h, .push :: rest => accepted t.push (h + 1) rest
  | t, h, .pop :: rest => accepted (perform t .pop).2 (h - 1) rest
  | t, h, .declare name index :: rest =>
    (if h = 0 ∧ (t.declare name index).isOk then [(name, index)] else []) ++
      accepted (perform t (.declare name index)).2 h rest
  | t, h, .freeze :: rest => accepted t.freeze h rest
  | t, h, .ask _ :: rest => accepted t h rest

section Steps

variable {t : SymbolTable} {scope : Scope} {outer : List Scope}

theorem perform_pop (h : t.scopes = scope :: outer) : (perform t .pop).2.scopes = outer := by
  simp [perform, perform.change, SymbolTable.withScope, SymbolTable.pop, h]

/-- A declaration is added at the end of the innermost scope, which does not have the name yet, or it is refused. -/
theorem perform_declare (t : SymbolTable) (name : String) (index : Int) :
    (∃ scope outer, t.scopes = scope :: outer ∧ name ∉ scope.map Prod.fst ∧ (t.declare name index).isOk ∧
      (perform t (.declare name index)).2.scopes = (scope ++ [(name, index)]) :: outer) ∨
    (t.declare name index).isOk = false ∧ (perform t (.declare name index)).2 = t := by
  rw [perform]
  cases hdeclare : t.declare name index with
  | error e => exact .inr ⟨rfl, rfl⟩
  | ok t' =>
    unfold SymbolTable.declare at hdeclare
    split at hdeclare
    · cases hdeclare
    split at hdeclare
    · cases hdeclare
    split at hdeclare
    · cases hdeclare
    obtain rfl := Except.ok.inj hdeclare
    obtain ⟨scope, outer, hscopes⟩ := List.exists_cons_of_ne_nil (l := t.scopes) (by simp_all)
    refine .inl ⟨scope, outer, hscopes, ?_, rfl, by simp [perform.change, SymbolTable.insert, hscopes]⟩
    rename_i hfree
    rw [SymbolTable.findInner?, SymbolTable.inner, hscopes, Bool.not_eq_true, Option.isSome_eq_false_iff,
      Option.isNone_iff_eq_none, List.headD_cons, List.lookup_eq_none_iff] at hfree
    rw [List.mem_map]
    rintro ⟨entry, hentry, rfl⟩
    simpa using hfree entry hentry

/-- An action that is refused changes nothing. -/
theorem unchanged_of_refused {a : Action} {e : TableError} (h : (perform t a).1 = .error e) : (perform t a).2 = t := by
  cases a with
  | push | freeze => cases h
  | ask => rfl
  | pop | declare =>
    rw [perform] at h ⊢
    unfold perform.change at h ⊢
    split at h
    · cases h
    · rfl

/-- The scopes that are open when some actions start are not touched as long as scopes on top of them are open. -/
theorem run_keeps (actions : List Action) (inner : List Scope) {t : SymbolTable} {outer : List Scope} {h k : Nat}
    (hscopes : t.scopes = inner ++ outer) (hlength : inner.length = h + 1) (hheight : height h actions = some k) :
    ∃ inner', inner'.length = k + 1 ∧ (run t actions).scopes = inner' ++ outer := by
  induction actions generalizing t inner h with
  | nil => exact ⟨inner, by rw [hlength, Option.some.inj hheight], hscopes⟩
  | cons a rest ih =>
    obtain ⟨scope, more, rfl⟩ := List.exists_cons_of_length_eq_add_one hlength
    cases a with
    | push => exact ih ([] :: scope :: more) (by simp [perform, SymbolTable.push, hscopes]) (by simpa using hlength) hheight
    | pop =>
      cases h with
      | zero => cases hheight
      | succ h => exact ih more (perform_pop hscopes) (by simpa using hlength) hheight
    | declare name index =>
      rcases perform_declare t name index with ⟨scope', outer', hscopes', -, -, hnew⟩ | ⟨-, hsame⟩
      · obtain ⟨rfl, rfl⟩ := List.cons_eq_cons.mp (hscopes'.symm.trans hscopes)
        exact ih ((scope' ++ [(name, index)]) :: more) hnew (by simpa using hlength) hheight
      · exact ih _ ((congrArg _ hsame).trans hscopes) hlength hheight
    | freeze | ask => exact ih _ hscopes hlength hheight

end Steps

section Histories

theorem run_concat (t : SymbolTable) (actions : List Action) (a : Action) :
    run t (actions ++ [a]) = (perform (run t actions) a).2 := by
  rw [run, List.foldl_append]
  rfl

theorem height_append (h : Nat) (actions more : List Action) :
    height h (actions ++ more) = (height h actions).bind (height · more) := by
  fun_induction height h actions <;> simp_all [height]

theorem accepted_append {h k : Nat} {actions : List Action} (hheight : height h actions = some k) (t : SymbolTable)
    (more : List Action) :
    accepted t h (actions ++ more) = accepted t h actions ++ accepted (run t actions) k more := by
  induction actions generalizing t h with
  | nil => rw [Option.some.inj hheight]; rfl
  | cons a rest ih =>
    cases a with
    | push => exact ih hheight _
    | pop =>
      cases h with
      | zero => cases hheight
      | succ h => exact ih hheight _
    | declare name index =>
      rw [List.cons_append, accepted, accepted, ih hheight, List.append_assoc]
      rfl
    | freeze | ask => exact ih hheight _

/-- A scope that is open after some actions was opened at some time and has what was accepted in it since, where
so many scopes have been opened on top of it. -/
def Recorded (actions : List Action) (depth : Nat) (scope : Scope) : Prop :=
  ∃ before since, actions = before ++ since ∧ (before = [] ∨ before.getLast? = some .push) ∧
    height 0 since = some depth ∧ scope = accepted (run {} before) 0 since

theorem Recorded.step {actions : List Action} {depth k : Nat} {scope new : Scope} {a : Action}
    (h : Recorded actions depth scope) (hheight : height depth [a] = some k)
    (hnew : accepted (run {} actions) depth [a] = new) : Recorded (actions ++ [a]) k (scope ++ new) := by
  obtain ⟨before, since, rfl, hopened, hdepth, rfl⟩ := h
  refine ⟨before, since ++ [a], by simp, hopened, by rw [height_append, hdepth]; exact hheight, ?_⟩
  rw [accepted_append hdepth, ← hnew, run, run, run, List.foldl_append]

/-- A scope stays as it is if nothing is accepted in it. -/
theorem Recorded.keep {actions : List Action} {depth k : Nat} {scope : Scope} {a : Action}
    (h : Recorded actions depth scope) (hheight : height depth [a] = some k)
    (hnew : accepted (run {} actions) depth [a] = []) : Recorded (actions ++ [a]) k scope := by
  simpa using h.step hheight hnew

theorem recorded (actions : List Action) (depth : Nat) {scope : Scope}
    (h : (run {} actions).scopes[depth]? = some scope) : Recorded actions depth scope := by
  -- by induction from the last action, which decides what the scopes of the history before have become
  induction actions using List.reverseRecOn generalizing depth scope with
  | nil =>
    cases depth with
    | zero => exact ⟨[], [], rfl, .inl rfl, rfl, (Option.some.inj h).symm⟩
    | succ depth => cases h
  | append_singleton actions a ih =>
    rw [run_concat] at h
    cases a with
    | push =>
      cases depth with
      | zero =>
        refine ⟨actions ++ [.push], [], by simp, .inr (by simp), rfl, ?_⟩
        simpa [perform, SymbolTable.push, accepted] using h.symm
      | succ depth => exact (ih depth h).keep rfl rfl
    | pop =>
      cases hscopes : (run {} actions).scopes with
      | nil => simp [perform, perform.change, SymbolTable.withScope, hscopes] at h
      | cons inner outer =>
        rw [perform_pop hscopes] at h
        exact (ih (depth + 1) (by rw [hscopes]; exact h)).keep rfl rfl
    | declare name index =>
      rcases perform_declare (run {} actions) name index with ⟨inner, outer, hscopes, -, hok, hnew⟩ | ⟨hbad, hkept⟩
      · rw [hnew] at h
        cases depth with
        | zero =>
          obtain rfl := Option.some.inj h
          exact (ih 0 (by rw [hscopes]; rfl)).step rfl (by simp [accepted, hok])
        | succ depth => exact (ih (depth + 1) (by rw [hscopes]; exact h)).keep rfl (by simp [accepted])
      · exact (ih depth (by rw [← hkept]; exact h)).keep (by cases depth <;> rfl) (by simp [accepted, hbad])
    | freeze | ask => exact (ih depth h).keep (by cases depth <;> rfl) rfl

theorem nodup_scopes (actions : List Action) : ∀ scope ∈ (run {} actions).scopes, (scope.map Prod.fst).Nodup := by
  induction actions using List.reverseRecOn with
  | nil => simp [run]
  | append_singleton actions a ih =>
    rw [run_concat]
    cases a with
    | push => exact List.forall_mem_cons.mpr ⟨List.nodup_nil, ih⟩
    | pop =>
      cases hscopes : (run {} actions).scopes with
      | nil => simp [perform, perform.change, SymbolTable.withScope, hscopes]
      | cons inner outer =>
        rw [perform_pop hscopes]
        exact fun scope hscope => ih scope (by rw [hscopes]; exact List.mem_cons_of_mem _ hscope)
    | declare name index =>
      rcases perform_declare (run {} actions) name index with ⟨inner, outer, hscopes, hfresh, -, hnew⟩ | ⟨-, hkept⟩
      · rw [hscopes, List.forall_mem_cons] at ih
        rw [hnew, List.forall_mem_cons]
        refine ⟨?_, ih.2⟩
        rw [List.map_append, List.nodup_append]
        exact ⟨ih.1, by simp, by rintro x hx _ (_ | ⟨_, ⟨⟩⟩) rfl; exact hfresh hx⟩
      · rw [hkept]
        exact ih
    | freeze | ask => exact ih

end Histories

/-- Scopes nest properly. Actions between the opening of a scope and its end leave the scopes as they were, and with
them what is answered to any question; this holds for all tables, and whether the actions are refused or not. An
action that is refused changes nothing. In a table that some actions have led to, a scope has no name twice, and
its names are those that were accepted while it was the innermost scope, in the order of their declarations. -/
theorem scopes_nest :
    (∀ (t : SymbolTable) (actions : List Action), height 0 actions = some 0 →
      (run t (.push :: actions ++ [.pop])).scopes = t.scopes ∧
      ∀ question, (perform (run t (.push :: actions ++ [.pop])) (.ask question)).1 = (perform t (.ask question)).1) ∧
    (∀ (t : SymbolTable) (a : Action) (e : TableError), (perform t a).1 = .error e → (perform t a).2 = t) ∧
    ∀ (actions : List Action) (depth : Nat) (scope : Scope), (run {} actions).scopes[depth]? = some scope →
      (scope.map Prod.fst).Nodup ∧ ∃ before since, actions = before ++ since ∧
        (before = [] ∨ before.getLast? = some .push) ∧ height 0 since = some depth ∧
        scope = accepted (run {} before) 0 since := by
  refine ⟨fun t actions hclosed => ?_, fun t a e => unchanged_of_refused, fun actions depth scope h =>
    ⟨nodup_scopes actions scope (List.mem_of_getElem? h), recorded actions depth h⟩⟩
  obtain ⟨inner, hlength, hrun⟩ := run_keeps actions [[]] (t := t.push) rfl rfl hclosed
  obtain ⟨scope, rfl⟩ := List.length_eq_one_iff.mp hlength
  have hscopes : (run t (.push :: actions ++ [.pop])).scopes = t.scopes := by
    rw [run_concat]
    exact perform_pop hrun
  refine ⟨hscopes, fun question => ?_⟩
  cases question <;> simp only [perform, SymbolTable.withScope, answer, SymbolTable.findInner?, SymbolTable.find?,
    SymbolTable.inner, hscopes]

/-- Names are declared, hidden and refused, in a scope that is closed and in one that is left to be closed. -/
def busy : List Action :=
  [.declare "x" 1, .declare "x" 2, .push, .declare "x" 3, .pop, .ask .names, .declare "y" 4, .freeze, .declare "z" 5]

theorem busy_scope_is_left :
    height 0 busy = some 0 ∧
      (run ⟨[[("x", 0)]], false⟩ (.push :: busy ++ [.pop])).scopes = [[("x", 0)]] ∧
    (perform (run {} busy) (.declare "w" 6)).1 = .error (.frozen "w") ∧
      (perform (run {} busy) (.declare "w" 6)).2 = run {} busy ∧
    (run {} busy).scopes[0]? = some [("x", 1), ("y", 4)] ∧
      ∃ before since, busy = before ++ since ∧ (before = [] ∨ before.getLast? = some .push) ∧
        height 0 since = some 0 ∧ [("x", 1), ("y", 4)] = accepted (run {} before) 0 since := by
  have hfrozen : (perform (run {} busy) (.declare "w" 6)).1 = .error (.frozen "w") := rfl
  have hscope : (run {} busy).scopes[0]? = some [("x", 1), ("y", 4)] := by decide +kernel
  exact ⟨rfl, (scopes_nest.1 ⟨[[("x", 0)]], false⟩ busy rfl).1, hfrozen, scopes_nest.2.1 _ _ _ hfrozen, hscope,
    (scopes_nest.2.2 busy 0 _ hscope).2⟩

end CMinusMinus.Proofs.Nesting
