import CMinusMinus.Proofs.Scoping
import CMinusMinus.Proofs.Visits

/-!
Chains of field accesses. A chain is followed from its first name on, from struct to struct. Where it cannot be followed
any further, that is said once, and the rest of the chain is given up in silence.
-/
namespace CMinusMinus.Proofs.Resolution

open Names WellFormed Grammar Naming

/-- One access in a chain: the field, the struct that it leads to, and whether it is given up. -/
structure Link where
  note : Note
  field : Ident
  reached : Option Int
  bad : Bool

/-- The chain of accesses that starts with a name. -/
def chained (x : Ident) (links : List Link) : Expr :=
  links.foldl (fun obj l => .dot l.note obj l.field l.reached l.bad) (.ident x)

theorem chained_snoc (x : Ident) (ls : List Link) (l : Link) :
    chained x (ls ++ [l]) = .dot l.note (chained x ls) l.field l.reached l.bad := by
  simp [chained]

mutual

/-- The chains of an expression that are in no longer chain, in the order in which they are looked at. A name that
stands alone is a chain, and so is the name of a function that is called. -/
def chains : Expr → List Expr
  | .ident x => [.ident x]
  | .dot note obj field reached bad => [.dot note obj field reached bad]
  | .assign _ target value => chains value ++ chains target
  | .call _ callee args => .ident callee :: chainsAll args
  | .unary _ _ operand => chains operand
  | .binary _ _ left right => chains left ++ chains right
  | .int .. | .string .. | .bool .. | .misfit .. => []

def chainsAll : List Expr → List Expr
  | [] => []
  | e :: es => chains e ++ chainsAll es

end

/-- The struct whose fields a symbol has. -/
def structBehind : Symbol → Option Int
  | .var v => v.structDef
  | _ => none

section Rules

variable (arena : Arena)

/-- Links are followed from a struct, if there is one, to another: each field is the one of its name in the struct
reached so far, and it leads to the struct that it is an instance of, if it is one. -/
inductive Followed (start : Option Int) : List Link → Option Int → Prop
  | nil : Followed start [] start
  | snoc {ls : List Link} {l : Link} {k j : Int} {d : StructDef} {v : Variable} (front : Followed start ls (some k))
      (struct : arena.get? k = some (.struct d)) (field : d.fields.find? l.field.name = some j)
      (bound : l.field.binding = .symbol j) (variable_ : arena.get? j = some (.var v)) (reached : l.reached = v.structDef)
      (kept : l.bad = false) : Followed start (ls ++ [l]) v.structDef

def GivenUp (l : Link) : Prop := l.field.binding = .unresolved ∧ l.bad = true

/-- What is said where a chain cannot be followed: its object is no struct, or the struct has no such field. -/
inductive Stuck (obj : Expr) (field : Ident) : Option Int → Diagnostic → Prop
  | noStruct : Stuck obj field none (objection .dotOnNonStruct obj.span)
  | noField {k : Int} {d : StructDef} (struct : arena.get? k = some (.struct d))
      (missing : d.fields.find? field.name = none) :
      Stuck obj field (some k) (objection (.noSuchField field.name) field.note.span)

/-- What is said about the chain that starts with a name: that nothing is declared under the name, or why the first
link that fails does so, or nothing at all. The links before are followed, all others are given up. -/
inductive Reported (x : Ident) : List Link → List Diagnostic → Prop
  | undeclared {ls : List Link} (binding : x.binding = .unresolved) (rest : ∀ l ∈ ls, GivenUp l) :
      Reported x ls [objection (.undeclared x.name) x.note.span]
  | through {ls : List Link} {i : Int} {s : Symbol} {k : Option Int} (binding : x.binding = .symbol i)
      (symbol : arena.get? i = some s) (links : Followed arena (structBehind s) ls k) : Reported x ls []
  | stuck {front rest : List Link} {l : Link} {i : Int} {s : Symbol} {k : Option Int} {d : Diagnostic}
      (binding : x.binding = .symbol i) (symbol : arena.get? i = some s)
      (links : Followed arena (structBehind s) front k) (why : Stuck arena (chained x front) l.field k d)
      (failed : GivenUp l) (others : ∀ l ∈ rest, GivenUp l) : Reported x (front ++ l :: rest) [d]

/-- Chains in order, with what is said about them. -/
inductive Accounted : List Expr → List Diagnostic → Prop
  | nil : Accounted [] []
  | cons {x : Ident} {ls : List Link} {es : List Expr} {ds ds' : List Diagnostic} (first : Reported arena x ls ds)
      (rest : Accounted es ds') : Accounted (chained x ls :: es) (ds ++ ds')

end Rules

section Chains

variable {lit : String → Prop} {arena arena' : Arena} {x : Ident} {ls : List Link} {l : Link} {k start : Option Int}
  {s : State} {es es' : List Expr} {ds ds' : List Diagnostic}

theorem Followed.grows (h : Followed arena start ls k) (hgrows : Grows arena arena') : Followed arena' start ls k := by
  induction h with
  | nil => exact .nil
  | snoc _ hstruct hfield hbound hvar hreached hkept ih =>
    exact .snoc ih (hgrows hstruct) hfield hbound (hgrows hvar) hreached hkept

theorem Reported.grows (h : Reported arena x ls ds) (hgrows : Grows arena arena') : Reported arena' x ls ds := by
  cases h with
  | undeclared hx hrest => exact .undeclared hx hrest
  | through hx hs hlinks => exact .through hx (hgrows hs) (hlinks.grows hgrows)
  | stuck hx hs hlinks hwhy hfailed hrest =>
    refine .stuck hx (hgrows hs) (hlinks.grows hgrows) ?_ hfailed hrest
    cases hwhy with
    | noStruct => exact .noStruct
    | noField hstruct hmissing => exact .noField (hgrows hstruct) hmissing

theorem Accounted.append (h : Accounted arena es ds) (h' : Accounted arena es' ds') :
    Accounted arena (es ++ es') (ds ++ ds') := by
  induction h with
  | nil => exact h'
  | cons hfirst _ ih =>
    rw [List.append_assoc]
    exact .cons hfirst ih

theorem Accounted.grows (h : Accounted arena es ds) (hgrows : Grows arena arena') : Accounted arena' es ds := by
  induction h with
  | nil => exact .nil
  | cons hfirst _ ih => exact .cons (hfirst.grows hgrows) ih

/-- What is said about chains is about uses of names. -/
theorem Accounted.isUse (h : Accounted arena es ds) : ∀ d ∈ ds, isUse d = true := by
  induction h with
  | nil => simp
  | cons hfirst _ ih =>
    refine List.forall_mem_append.mpr ⟨?_, ih⟩
    cases hfirst with
    | undeclared => exact List.forall_mem_singleton.mpr rfl
    | through => simp
    | stuck _ _ _ hwhy => cases hwhy <;> exact List.forall_mem_singleton.mpr rfl

/-- A chain that has been followed offers the fields of the struct that it leads to. -/
theorem Followed.owner {i : Int} {t : Symbol} (hx : x.binding = .symbol i) (ht : arena.get? i = some t)
    (h : Followed arena (structBehind t) ls k) :
    ownerOf arena (chained x ls) = k ∧ isLost (chained x ls) = false := by
  cases h with
  | nil =>
    refine ⟨?_, by simp [chained, isLost, hx]⟩
    simp only [chained, List.foldl_nil, ownerOf, hx, ht]
    cases t <;> rfl
  | snoc _ _ _ _ _ hreached hkept => simp [chained_snoc, ownerOf, isLost, hreached, hkept]

/-- A chain that is lost stays so, and no more is said. -/
theorem Reported.lost (h : Reported arena x ls ds) (hds : ds ≠ []) (hl : GivenUp l) :
    isLost (chained x ls) = true ∧ ownerOf arena (chained x ls) = none ∧ Reported arena x (ls ++ [l]) ds := by
  have hlast : ∀ (front : List Link) {rest : List Link} {l : Link}, GivenUp l → (∀ l ∈ rest, GivenUp l) →
      isLost (chained x (front ++ l :: rest)) = true ∧ ownerOf arena (chained x (front ++ l :: rest)) = none := by
    intro front rest l hl hrest
    obtain ⟨init, last, hsplit⟩ := List.eq_nil_or_concat (l :: rest) |>.resolve_left (by simp)
    have hbad : last.bad = true := (List.forall_mem_cons.mpr ⟨hl, hrest⟩ last (by simp [hsplit])).2
    rw [hsplit, List.concat_eq_append, ← List.append_assoc, chained_snoc]
    simp [isLost, ownerOf, hbad]
  cases h with
  | through => exact absurd rfl hds
  | undeclared hx hrest =>
    have hall : Reported arena x (ls ++ [l]) _ := .undeclared hx (List.forall_mem_append.mpr ⟨hrest, by simpa using hl⟩)
    cases ls with
    | nil => exact ⟨by simp [chained, isLost, hx], by simp [chained, ownerOf, hx], hall⟩
    | cons first rest =>
      obtain ⟨hfirst, hrest⟩ := List.forall_mem_cons.mp hrest
      exact ⟨(hlast [] hfirst hrest).1, (hlast [] hfirst hrest).2, hall⟩
  | stuck hx hs hlinks hwhy hfailed hrest =>
    refine ⟨(hlast _ hfailed hrest).1, (hlast _ hfailed hrest).2, ?_⟩
    rw [List.append_assoc, List.cons_append]
    exact .stuck hx hs hlinks hwhy hfailed (List.forall_mem_append.mpr ⟨hrest, by simpa using hl⟩)

/-- One more access in a chain. -/
theorem reported_access (h : Good s) (hreported : Reported s.arena x ls ds)
    (hvisited : Visited (shape s.arena) (chained x ls)) (note : Note) (field : Ident) :
    ∃ l, access s.arena note (chained x ls) field = chained x (ls ++ [l]) ∧
      Reported s.arena x (ls ++ [l]) (ds ++ accessSays s.arena (chained x ls) field) := by
  have hup : GivenUp ⟨note, { field with binding := .unresolved }, none, true⟩ := ⟨rfl, rfl⟩
  simp only [chained_snoc, access, accessIn, accessSays, ownerSays]
  by_cases hds : ds = []
  · subst hds
    cases hreported with
    | @through _ _ _ k hx hs hlinks =>
      obtain ⟨howner, hlost⟩ := hlinks.owner hx hs
      rw [howner, hlost]
      cases k with
      | none => exact ⟨_, rfl, .stuck hx hs hlinks .noStruct hup (by simp)⟩
      | some k =>
        obtain ⟨d, hd⟩ := struct_of_owner h hvisited howner
        cases hfield : d.fields.find? field.name with
        | none =>
          have hnone : fieldOf s.arena k field.name = none := by simp [fieldOf, hd, hfield]
          simp only [Option.bind_some, hnone, fieldSays]
          refine ⟨_, rfl, .stuck hx hs hlinks ?_ hup (by simp)⟩
          exact .noField hd hfield
        | some j =>
          obtain ⟨u, hu⟩ := field_of_find h.arena hd hfield
          have hsome : fieldOf s.arena k field.name = some (j, u) := by simp [fieldOf, hd, hfield, hu]
          simp only [Option.bind_some, hsome, fieldSays]
          exact ⟨⟨note, { field with binding := .symbol j }, u.structDef, false⟩, rfl,
            .through hx hs (.snoc hlinks hd hfield rfl hu rfl rfl)⟩
  · obtain ⟨hlost, howner, hmore⟩ := hreported.lost hds hup
    rw [howner, hlost]
    exact ⟨_, rfl, by simpa [fieldSays] using hmore⟩

/-- What is said about a location is said about one chain. -/
theorem reported_location (h : Good s) : (e : Expr) → Raw lit e → e.isLocation → ∃ x ls,
    resolved (sightOf s) e = chained x ls ∧ Reported s.arena x ls (exprSays (sightOf s) e)
  | .ident x, _, _ => by
    refine ⟨bound (sightOf s) x, [], rfl, ?_⟩
    cases hfind : s.table.find? x.name with
    | none =>
      have hsaid : exprSays (sightOf s) (.ident x) = [objection (.undeclared x.name) x.note.span] := by
        simp [exprSays, useSays, hfind]
      rw [hsaid]
      exact .undeclared (x := bound (sightOf s) x) (by simp [bound, hfind]) (by simp)
    | some i =>
      obtain ⟨t, ht⟩ := h.find hfind
      have hsaid : exprSays (sightOf s) (.ident x) = [] := by simp [exprSays, useSays, hfind]
      rw [hsaid]
      exact .through (by simp [bound, hfind]) ht .nil
  | .dot note obj field _ _, hraw, _ => by
    obtain ⟨x, ls, hobj, hreported⟩ := reported_location h obj hraw.2.2.1 hraw.2.1
    have hvisited := visited_resolved h obj hraw.2.2.1
    rw [hobj] at hvisited
    obtain ⟨l, haccess, hmore⟩ := reported_access h hreported hvisited note field
    rw [resolved, exprSays, hobj]
    exact ⟨x, ls ++ [l], haccess, hmore⟩
  | .int .., _, h | .string .., _, h | .bool .., _, h | .assign .., _, h | .call .., _, h | .unary .., _, h
  | .binary .., _, h | .misfit .., _, h => by cases h

theorem accounted_location (h : Good s) {e : Expr} (hraw : Raw lit e) (hlocation : e.isLocation) :
    Accounted s.arena [resolved (sightOf s) e] (exprSays (sightOf s) e) := by
  obtain ⟨x, ls, hsame, hreported⟩ := reported_location h e hraw hlocation
  rw [hsame]
  simpa using Accounted.cons hreported .nil

mutual

/-- What is said about an expression is said about its chains. -/
theorem accounted_expr (h : Good s) : (e : Expr) → Raw lit e →
    Accounted s.arena (chains (resolved (sightOf s) e)) (exprSays (sightOf s) e)
  | .int .., _ | .string .., _ | .bool .., _ => .nil
  | .ident _, hraw | .dot .., hraw => accounted_location h hraw rfl
  | .assign _ target value, hraw => (accounted_expr h value hraw.2.2.2).append (accounted_expr h target hraw.2.2.1)
  | .call _ callee args, hraw =>
    (accounted_location h (show Raw lit (.ident callee) from hraw.2.1) rfl).append (accounted_exprs h args hraw.2.2)
  | .unary _ _ operand, hraw => accounted_expr h operand hraw.2.2
  | .binary _ _ left right, hraw => (accounted_expr h left hraw.2.2.1).append (accounted_expr h right hraw.2.2.2)
  | .misfit .., hraw => hraw.elim

theorem accounted_exprs (h : Good s) : (es : List Expr) → RawAll lit es →
    Accounted s.arena (chainsAll (resolvedAll (sightOf s) es)) (exprsSay (sightOf s) es)
  | [], _ => .nil
  | e :: es, hraw => (accounted_expr h e hraw.1).append (accounted_exprs h es hraw.2)

end

/-- What is said along a walk about uses of names is said about the chains that it comes to. -/
theorem Visits.accounted {fs : List Expr} (h : Visits lit arena es fs ds) :
    Accounted arena (fs.flatMap chains) (ds.filter isUse) := by
  induction h with
  | aside haside =>
    rw [List.filter_eq_nil_iff.mpr (by simpa using haside)]
    exact .nil
  | expr hgood hraw hgrows =>
    have hall := accounted_expr hgood _ hraw
    rw [List.filter_eq_self.mpr hall.isUse, List.flatMap_singleton]
    exact hall.grows hgrows
  | append _ _ ih ih' =>
    rw [List.flatMap_append, List.filter_append]
    exact ih.append ih'

end Chains

section Programs

variable {text : String} {tokens : List Token} {p : Program}

/-- Chains of accesses are resolved link by link, and what is wrong with one is said once. Name analysis goes through
for every program that was read and changes nothing but what the names are bound to, and what it says about uses of
names is what there is to say about each chain of the program, in order. -/
theorem chains_are_reported_once (file : String) (hlex : Token.lex text = .ok tokens)
    (hparse : Program.ofTokens tokens = .ok p) : ∃ a q ds, (readFrom file p).resolveNames = (a, none) ∧
      a.program = some q ∧ q.decls.map Lexical.unboundDecl = p.decls.map Lexical.unboundDecl ∧
      Accounted a.arena ((q.decls.flatMap declExprs).flatMap chains) ds ∧
      a.diagnostics.filter isUse = ds.map (about a.file) := by
  have hraw := raw_of_tokens (tokens_ok hlex) hparse
  have hvisits := visits_decls hraw (good_start (a := readFrom file p) rfl) fun h => h
  refine ⟨_, _, _, resolveNames_eq (a := readFrom file p) rfl rfl hraw, rfl, Lexical.unbound_declsIn _ _,
    hvisits.accounted, Lexical.filter_about _ (fun _ => rfl) _⟩

/-- A text with four chains of accesses: to a field that is missing, from a name that is not declared, from a number,
and one that is in order. -/
def brokenChainsText : String := "struct P\x7bint x;\x7d;struct Q\x7bstruct P p;\x7d;struct Q q;" ++
  "void main()\x7bq.p.y.z=1;r.a.b=2;q.p.x.k.l=3;q.p.x=4;\x7d"

/-- Three of the chains are reported, each once. -/
theorem broken_chains_are_reported_once : ∃ a q ds, TypeRules.namesOf brokenChainsText = some a ∧ a.program = some q ∧
    Accounted a.arena ((q.decls.flatMap declExprs).flatMap chains) ds ∧
    a.diagnostics.filter isUse = ds.map (about a.file) ∧
    ((q.decls.flatMap declExprs).flatMap chains).length = 4 ∧ ds.length = 3 := by
  have hread : ∃ a, TypeRules.namesOf brokenChainsText = some a ∧ (decide ((a.diagnostics.filter isUse).length = 3) &&
      a.program.any fun q => ((q.decls.flatMap declExprs).flatMap chains).length = 4) := by
    rw [← Option.any_eq_true]
    decide +kernel
  obtain ⟨a, ha, hseen⟩ := hread
  obtain ⟨hlength, hchains⟩ := (Bool.and_eq_true _ _).mp hseen
  obtain ⟨tokens, p, hlex, hparse, hread⟩ := TypeRules.read_of_namesOf ha
  obtain ⟨a', q, ds, hresolve, hq, -, haccounted, hsaid⟩ := chains_are_reported_once "main.cmm" hlex hparse
  obtain rfl : a' = a := by rw [← hread, hresolve]
  rw [decide_eq_true_eq, hsaid, List.length_map] at hlength
  exact ⟨a', q, ds, ha, hq, haccounted, hsaid, by simpa [hq] using hchains, hlength⟩

end Programs

end CMinusMinus.Proofs.Resolution
