import CMinusMinus.Proofs.WellFormed
import Mathlib.Data.List.TakeWhile

/-!
Types as they are shown can be told apart. A function inside of a function is shown without brackets around
it, yet the text of a type is never a beginning of another one's: what follows a type is a comma or a closing
bracket, and neither goes on with it.
-/
namespace CMinusMinus.Proofs.ShownTypes

open WellFormed

/-- The names of the structs that a type speaks of. -/
def structNames : Ty → List String
  | .struct name | .structDef name => [name]
  | .func params result => structNamesAll params ++ structNames result
  | _ => []
where
  /-- The names of the structs that some types speak of. -/
  structNamesAll : List Ty → List String
    | [] => []
    | p :: ps => structNames p ++ structNamesAll ps

open structNames (structNamesAll)

def Named (names : List String) : Prop := ∀ name ∈ names, IsWord name

@[simp] theorem named_append (ns ms : List String) : Named (ns ++ ms) ↔ Named ns ∧ Named ms :=
  List.forall_mem_append

/-- What may stand after a type. -/
def Follows (rest : List Char) : Prop := ∀ c ∈ rest.head?, c = ',' ∨ c = ')'

/-- A name ends where a type does. -/
theorem name_append_inj {n m : String} (hn : IsWord n) (hm : IsWord m) {rest rest' : List Char}
    (hrest : Follows rest) (hrest' : Follows rest') (h : n.toList ++ rest = m.toList ++ rest') : n = m ∧ rest = rest' := by
  have hsplit : ∀ {n : String} {rest : List Char}, IsWord n → Follows rest →
      (n.toList ++ rest).takeWhile Token.isWordPart = n.toList := by
    intro n rest hn hrest
    rw [List.takeWhile_append_of_pos hn.2.2]
    cases rest with
    | nil => exact List.append_nil _
    | cons c rest => rcases hrest c rfl with rfl | rfl <;> simp [Token.isWordPart]
  have hname : n.toList = m.toList := by rw [← hsplit hn hrest, h, hsplit hm hrest']
  exact ⟨String.toList_inj.mp hname, List.append_cancel_left (hname ▸ h)⟩

/-- The text of the parameters after the first, up to the closing bracket. -/
def more (params : List Ty) : List Char := params.flatMap fun p => ',' :: ' ' :: p.shown.toList

theorem follows_more (params : List Ty) (rest : List Char) : Follows (more params ++ ')' :: rest) := by
  cases params <;> simp [more, Follows]

/-- The text of a list of parameters. -/
def listed : List Ty → List Char
  | [] => []
  | p :: ps => p.shown.toList ++ more ps

theorem toList_params (params : List Ty) :
    (", ".intercalate (Ty.shown.shownAll params)).toList = listed params := by
  rw [String.toList_intercalate]
  induction params with
  | nil => rfl
  | cons p ps ih =>
    cases ps with
    | nil => simp [Ty.shown.shownAll, listed, more]
    | cons q qs => simp_all [Ty.shown.shownAll, List.intercalate_cons_cons, listed, more]

theorem toList_shown_func (params : List Ty) (result : Ty) : (Ty.func params result).shown.toList =
    "function(".toList ++ (listed params ++ ')' :: " -> ".toList ++ result.shown.toList) := by
  simp [Ty.shown, ← toList_params]

/-- No type is shown with a closing bracket at its beginning. -/
theorem shown_ne_bracket (t : Ty) (rest rest' : List Char) : t.shown.toList ++ rest ≠ ')' :: rest' := by
  cases t <;> simp [Ty.shown]

mutual

/-- Of two types with texts in the same place, each is the other. The induction is on the first; what comes
after the texts is left open, so that results and parameters can be cut off one by one. -/
theorem shown_append_inj : (t u : Ty) → Named (structNames t) → Named (structNames u) → {rest rest' : List Char} →
    Follows rest → Follows rest' → t.shown.toList ++ rest = u.shown.toList ++ rest' → t = u ∧ rest = rest'
  | .struct n, u, ht, hu, rest, rest', hrest, hrest', h => by
    cases u with
    | struct m =>
      have h : n.toList ++ rest = m.toList ++ rest' := by simpa [Ty.shown] using h
      simpa using name_append_inj (ht n (.head _)) (hu m (.head _)) hrest hrest' h
    | _ => simp [Ty.shown] at h
  | .structDef n, u, ht, hu, rest, rest', hrest, hrest', h => by
    cases u with
    | structDef m =>
      have h : n.toList ++ rest = m.toList ++ rest' := by simpa [Ty.shown] using h
      simpa using name_append_inj (ht n (.head _)) (hu m (.head _)) hrest hrest' h
    | _ => simp [Ty.shown] at h
  | .func ps r, u, ht, hu, rest, rest', hrest, hrest', h => by
    cases u with
    | func qs t =>
      rw [structNames, named_append] at ht hu
      simp only [toList_shown_func, List.append_assoc, List.cons_append, List.append_cancel_left_eq] at h
      obtain ⟨rfl, hresult⟩ := listed_append_inj ps qs ht.1 hu.1 h
      obtain ⟨rfl, rfl⟩ := shown_append_inj r t ht.2 hu.2 hrest hrest' (List.append_cancel_left hresult)
      exact ⟨rfl, rfl⟩
    | _ => simp [Ty.shown] at h
  | .int, u, _, _, _, _, hrest, hrest', h | .bool, u, _, _, _, _, hrest, hrest', h
  | .void, u, _, _, _, _, hrest, hrest', h | .string, u, _, _, _, _, hrest, hrest', h
  | .error, u, _, _, _, _, hrest, hrest', h | .absent, u, _, _, _, _, hrest, hrest', h => by
    cases u <;> simp_all [Ty.shown]

theorem listed_append_inj : (ps qs : List Ty) → Named (structNamesAll ps) → Named (structNamesAll qs) →
    {rest rest' : List Char} → listed ps ++ ')' :: rest = listed qs ++ ')' :: rest' → ps = qs ∧ rest = rest'
  | [], [], _, _, _, _, h => ⟨rfl, List.tail_eq_of_cons_eq h⟩
  | [], q :: qs, _, _, _, _, h => by
    rw [listed, listed, List.append_assoc] at h
    exact absurd h.symm (shown_ne_bracket _ _ _)
  | p :: ps, [], _, _, _, _, h => by
    rw [listed, listed, List.append_assoc] at h
    exact absurd h (shown_ne_bracket _ _ _)
  | p :: ps, q :: qs, hp, hq, rest, rest', h => by
    rw [structNamesAll, named_append] at hp hq
    rw [listed, listed, List.append_assoc, List.append_assoc] at h
    obtain ⟨rfl, hmore⟩ := shown_append_inj p q hp.1 hq.1 (follows_more ps rest) (follows_more qs rest') h
    obtain ⟨rfl, rfl⟩ := more_append_inj ps qs hp.2 hq.2 hmore
    exact ⟨rfl, rfl⟩

theorem more_append_inj : (ps qs : List Ty) → Named (structNamesAll ps) → Named (structNamesAll qs) →
    {rest rest' : List Char} → more ps ++ ')' :: rest = more qs ++ ')' :: rest' → ps = qs ∧ rest = rest'
  | [], [], _, _, _, _, h => ⟨rfl, List.tail_eq_of_cons_eq h⟩
  | [], q :: qs, _, _, _, _, h | q :: qs, [], _, _, _, _, h => by simp [more] at h
  | p :: ps, q :: qs, hp, hq, rest, rest', h => by
    rw [structNamesAll, named_append] at hp hq
    simp only [more, List.flatMap_cons, List.cons_append, List.append_assoc, List.cons.injEq, true_and] at h
    obtain ⟨rfl, hmore⟩ := shown_append_inj p q hp.1 hq.1 (follows_more ps rest) (follows_more qs rest') h
    obtain ⟨rfl, rfl⟩ := more_append_inj ps qs hp.2 hq.2 hmore
    exact ⟨rfl, rfl⟩

end

/-- Types whose structs have identifiers for names are shown alike only if they are the same. -/
theorem shown_types_are_unambiguous {a b : Ty} (ha : ∀ name ∈ structNames a, IsWord name)
    (hb : ∀ name ∈ structNames b, IsWord name) : a.shown = b.shown ↔ a = b := by
  have hnone : Follows [] := by simp [Follows]
  exact ⟨fun h => (shown_append_inj a b ha hb hnone hnone (by rw [h])).1, congrArg Ty.shown⟩

/-- A function of a function and a struct is not shown like one of a function whose result is the struct. -/
theorem nested_functions_are_shown_apart :
    (Ty.func [.func [.bool] .int, .struct "pair"] .void).shown ≠ (Ty.func [.func [.bool] (.struct "pair")] .void).shown := by
  have hpair : IsWord "pair" := by simp [IsWord, Token.isWordStart, Token.isWordPart]
  have hleft : ∀ name ∈ structNames (.func [.func [.bool] .int, .struct "pair"] .void), IsWord name := by
    simpa [structNames, structNamesAll] using hpair
  have hright : ∀ name ∈ structNames (.func [.func [.bool] (.struct "pair")] .void), IsWord name := by
    simpa [structNames, structNamesAll] using hpair
  exact (shown_types_are_unambiguous hleft hright).not.mpr (by simp)

end CMinusMinus.Proofs.ShownTypes
