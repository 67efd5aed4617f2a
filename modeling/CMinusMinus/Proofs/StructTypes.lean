import CMinusMinus.Proofs.Scoping

/-!
Struct types. The type of a variable is looked for like any name, so that a parameter or a local variable of
the same name hides a struct, although structs are declared at the top only.
-/
namespace CMinusMinus.Proofs.Lexical

open Names Grammar Resolution

variable {text : String} {tokens : List Token} {p : Program}

/-- Name analysis finds the struct of a type, or takes the type down, for each variable and field in order:
the type is found if a struct of its name was accepted at the top before and neither a parameter nor a local
variable in sight has that name. A variable that is accepted has the struct that was found and its size. -/
theorem struct_types_are_found_or_reported (file : String) (hlex : Token.lex text = .ok tokens)
    (hparse : Program.ofTokens tokens = .ok p) : ∃ a q, (readFrom file p).resolveNames = (a, none) ∧
    a.program = some q ∧ q.decls.map unboundDecl = p.decls.map unboundDecl ∧
    Structs a.file a.arena (inDecls 0 q.decls) (a.diagnostics.filter isStructless) := by
  have hraw := raw_of_tokens (tokens_ok hlex) hparse
  refine ⟨_, _, resolveNames_eq (a := readFrom file p) rfl rfl hraw, rfl, unbound_declsIn _ _, ?_⟩
  show Structs _ _ _ (((declsSay outset p.decls).map (about _)).filter isStructless)
  rw [filter_about _ (fun _ => rfl)]
  exact (reached_program hraw).structs.about _

/-- A text with a struct, and a local variable of the same name before a variable of its type. -/
def hiddenText : String := "struct S\x7bint a;\x7d;void main()\x7bint S;struct S x;\x7d"

theorem hidden_is_accounted_for : ∃ a q, TypeRules.namesOf hiddenText = some a ∧ a.program = some q ∧
    Structs a.file a.arena (inDecls 0 q.decls) (a.diagnostics.filter isStructless) := by
  have hread : (TypeRules.namesOf hiddenText).isSome := by decide +kernel
  obtain ⟨a, ha⟩ := Option.isSome_iff_exists.mp hread
  obtain ⟨tokens, p, hlex, hparse, hread⟩ := TypeRules.read_of_namesOf ha
  obtain ⟨a', q, hresolve, hq, -, hstructs⟩ := struct_types_are_found_or_reported "main.cmm" hlex hparse
  obtain rfl : a' = a := by rw [← hread, hresolve]
  exact ⟨a', q, ha, hq, hstructs⟩

/-- Whether a name stands for a struct at the top of a program. -/
def isStructAtTop (a : Analysis) (name : String) : Bool :=
  match (a.globals.bind (·.find? name)).bind a.arena.get? with
  | some (.struct _) => true
  | _ => false

/-- The name stands for a struct at the top, and yet the type of the variable is taken down. -/
theorem local_name_hides_struct : ∃ a, TypeRules.namesOf hiddenText = some a ∧
    isStructAtTop a "S" ∧ a.diagnostics.map isStructless = [true] := by
  have hfound : ∃ a, TypeRules.namesOf hiddenText = some a ∧
      (isStructAtTop a "S" && a.diagnostics.map isStructless == [true]) := by
    rw [← Option.any_eq_true]
    decide +kernel
  simpa using hfound

end CMinusMinus.Proofs.Lexical
