import Mathlib.Algebra.Ring.Int.Defs
import CMinusMinus.Proofs.WellTyped

/-!
The layout of structs. After name analysis each struct has a table of its fields that takes no more names.
The fields lie one after the other from the start, each as large as its type, and the struct ends where the
last of them does. This holds also for programs with errors, in which fields have been refused. A field comes
after the struct of its type and before the struct that it is in, so that no struct is part of itself.
-/
namespace CMinusMinus.Proofs.Layouts

open Naming Grammar WellFormed

/-- A variable at an index is a word, or as large as an earlier struct. -/
def Sized (arena : Arena) (j : Int) (u : Variable) : Prop :=
  IsScalar u.ty ∧ u.structDef = none ∧ u.size = wordSize ∨
    ∃ k d, u.structDef = some k ∧ k < j ∧ arena.get? k = some (.struct d) ∧ u.size = d.size

/-- The struct at an index is laid out: the names in its table stand for the fields, in order. -/
structure LaidOut (arena : Arena) (k : Int) (d : StructDef) (scope : Scope) (fields : List Variable) : Prop where
  frozen : d.fields.frozen
  scopes : d.fields.scopes = [scope]
  entries : scope.map (fun entry => arena.get? entry.2) = fields.map fun u => some (.var u)
  sized : ∀ entry ∈ scope, entry.2 < k ∧ ∀ u, arena.get? entry.2 = some (.var u) → Sized arena entry.2 u
  offsets : ∀ before u after, fields = before ++ u :: after → u.offset = (before.map Variable.size).sum
  size : d.size = (fields.map Variable.size).sum
  words : 4 ∣ d.size

/-- A struct has a field whose type is another. -/
def Nests (arena : Arena) (inner outer : Int) : Prop :=
  ∃ d, arena.get? outer = some (.struct d) ∧ ∃ scope ∈ d.fields.scopes, ∃ entry ∈ scope, ∃ u,
    arena.get? entry.2 = some (.var u) ∧ u.structDef = some inner

section Arenas

variable {arena : Arena} {scope : Scope}

/-- Fields that lie one after the other have the sizes of those before them as offsets. -/
theorem fields_of_packed : ∀ {low high : Int}, Packed arena scope low high → ∃ fields : List Variable,
    scope.map (fun entry => arena.get? entry.2) = fields.map (fun u => some (.var u)) ∧
    (∀ before u after, fields = before ++ u :: after → u.offset = low + (before.map Variable.size).sum) ∧
    high = low + (fields.map Variable.size).sum := by
  induction scope with
  | nil =>
    rintro low _ rfl
    exact ⟨[], rfl, by simp, by simp⟩
  | cons entry rest ih =>
    rintro low high ⟨u, hu, rfl, -, hrest⟩
    obtain ⟨fields, hfields, hoffsets, hhigh⟩ := ih hrest
    refine ⟨u :: fields, by simp [hu, hfields], fun before v after hsplit => ?_, ?_⟩
    · cases before with
      | nil =>
        obtain ⟨rfl, -⟩ := List.cons.inj hsplit
        simp
      | cons first before =>
        obtain ⟨rfl, hrest⟩ := List.cons.inj hsplit
        rw [hoffsets before v after hrest, List.map_cons, List.sum_cons, Int.add_assoc]
    · rw [hhigh, List.map_cons, List.sum_cons, Int.add_assoc]

theorem sized_of_sane (hsane : ArenaSane arena) (hfounded : Founded arena) {j : Int} {u : Variable}
    (hu : arena.get? j = some (.var u)) : Sized arena j u := by
  rcases (hsane hu).2.2.2 with hscalar | ⟨_, k, d, -, hk, hd, hsize⟩
  · exact .inl hscalar
  · exact .inr ⟨k, d, hk, (hfounded hu).1 k hk, hd, hsize⟩

theorem laidOut_of_sane (hsane : ArenaSane arena) (hfounded : Founded arena) {k : Int} {d : StructDef}
    (hd : arena.get? k = some (.struct d)) : ∃ scope fields, LaidOut arena k d scope fields := by
  obtain ⟨-, -, hwords, scope, hscopes, -, hpacked⟩ := hsane hd
  obtain ⟨fields, hentries, hoffsets, hsize⟩ := fields_of_packed hpacked
  simp only [Int.zero_add] at hoffsets hsize
  refine ⟨scope, fields, (hfounded hd).2 d rfl, hscopes, hentries, fun entry hentry => ?_, hoffsets, hsize, hwords⟩
  exact ⟨(hfounded hd).1 entry.2 ⟨scope, by simp [hscopes], entry, hentry, rfl⟩,
    fun u hu => sized_of_sane hsane hfounded hu⟩

/-- What a struct has inside comes before it. -/
theorem nests_wellFounded (hsane : ArenaSane arena) (hfounded : Founded arena) : WellFounded (Nests arena) := by
  refine Subrelation.wf (r := InvImage (· < ·) Int.toNat) ?_ (InvImage.wf _ Nat.lt_wfRel.wf)
  rintro inner outer ⟨d, hd, scope, hscope, entry, hentry, u, hu, hinner⟩
  have hfield : entry.2 < outer := (hfounded hd).1 _ ⟨scope, hscope, entry, hentry, rfl⟩
  have hstruct : inner < entry.2 := (hfounded hu).1 _ hinner
  obtain ⟨t, ht⟩ := (hsane hu).refers hinner
  have := (get?_lt ht).1
  show inner.toNat < outer.toNat
  omega

end Arenas

variable {text : String} {tokens : List Token} {p : Program}

/-- After name analysis of any program that can be read, with or without errors, each struct is laid out, and
no chain of structs in structs goes on for ever. -/
theorem structs_are_laid_out (file : String) (hlex : Token.lex text = .ok tokens)
    (hparse : Program.ofTokens tokens = .ok p) : ∃ a, (readFrom file p).resolveNames = (a, none) ∧
    (∀ k d, a.arena.get? k = some (.struct d) → ∃ scope fields, LaidOut a.arena k d scope fields) ∧
    WellFounded (Nests a.arena) := by
  have hraw := raw_of_tokens (tokens_ok hlex) hparse
  have hgood := (looked (a := readFrom file p) rfl hraw).adds.good
  exact ⟨_, resolveNames_eq (a := readFrom file p) rfl rfl hraw, fun k d hd => laidOut_of_sane hgood.arena hgood.founded hd,
    nests_wellFounded hgood.arena hgood.founded⟩

/-- A text with a struct of which two fields are refused, and a struct that has it inside. -/
def nestedText : String :=
  "struct S\x7bint a;void b;int a;bool c;\x7d;struct T\x7bint d;struct S e;\x7d;void main()\x7b\x7d"

/-- The struct in the table at an index that a name stands for. -/
def sizeOf? (a : Analysis) (name : String) : Option Int :=
  match (a.globals.bind (·.find? name)).bind a.arena.get? with
  | some (.struct d) => some d.size
  | _ => none

theorem nested_structs_are_laid_out : ∃ a, TypeRules.namesOf nestedText = some a ∧
    sizeOf? a "S" = some 8 ∧ sizeOf? a "T" = some 12 ∧
    (∀ k d, a.arena.get? k = some (.struct d) → ∃ scope fields, LaidOut a.arena k d scope fields) := by
  have hfound : ∃ a, TypeRules.namesOf nestedText = some a ∧
      (sizeOf? a "S" == some 8 && sizeOf? a "T" == some 12) := by
    rw [← Option.any_eq_true]
    decide +kernel
  obtain ⟨a, ha, hsizes⟩ := hfound
  obtain ⟨tokens, p, hlex, hparse, hread⟩ := TypeRules.read_of_namesOf ha
  obtain ⟨a', hresolve, hlaid, -⟩ := structs_are_laid_out "main.cmm" hlex hparse
  obtain rfl : a' = a := by rw [← hread, hresolve]
  simp only [Bool.and_eq_true, beq_iff_eq] at hsizes
  exact ⟨a', ha, hsizes.1, hsizes.2, hlaid⟩

end CMinusMinus.Proofs.Layouts
