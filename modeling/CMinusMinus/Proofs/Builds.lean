import CMinusMinus.Proofs.Faults
import CMinusMinus.Proofs.Prompt

/-!
Builds of several files. A build takes its files one by one and writes the assembly of a file next to it. So it
changes no place where no assembly goes, and as long as no file's assembly goes to the place of another file or
of its assembly, each file is compiled as if it were alone. A file named as its own assembly is overwritten, and
a number that is too long ends the build for the files after it.
-/
namespace CMinusMinus.Proofs.Builds

open Host Command Files Prompt

section Steps

variable {settings : Settings} {here : Location} {d d' : Disk} {file : String} {files rest : List String}
  {code : Nat} {r : Except Escape Nat} {fate : Fate} {place : Location}

/-- The place that the assembly of a file goes to. -/
def outputPlace? (settings : Settings) (here : Location) (d : Disk) (file : String) : Option Location := do
  let target ← (Path.ofString file).assembly? settings
  (d.locate here target).toOption

theorem mem_outputPlace? : place ∈ outputPlace? settings here d file ↔
    ∃ target, (Path.ofString file).assembly? settings = some target ∧ d.locate here target = .ok place := by
  unfold outputPlace?
  cases (Path.ofString file).assembly? settings with
  | none => simp
  | some target => cases hplace : d.locate here target <;> simp [Except.toOption, hplace]

/-- A build of files, with an exit code so far, has a result and leaves a disk. -/
def Runs (settings : Settings) (here : Location) (code : Nat) (files : List String) (d : Disk)
    (r : Except Escape Nat) (d' : Disk) : Prop :=
  Ends (buildInOrder settings .beside code files) here d r d' ""

/-- How a build goes on at a file, as the file fares: it ends there, or it is what it is for the other files on
the disk that the file leaves. -/
def Continues (settings : Settings) (here : Location) (code : Nat) (file : String) (rest : List String) (d : Disk) :
    Fate → Prop
  | .replied .missing _ | .refused => Runs settings here code (file :: rest) d (.ok 1) d
  | .escaped e => Runs settings here code (file :: rest) d (.error e) d
  | .replied reply d₁ => ∀ {r d'}, Runs settings here (if reply.output?.isSome then code else 1) rest d₁ r d' →
      Runs settings here code (file :: rest) d r d'

theorem continues_of_fares (code : Nat) (rest : List String) (h : Fares settings here d file fate) :
    Continues settings here code file rest d fate := by
  have hdone := compiles_of_fares h
  cases h with
  | missing | refused =>
    obtain ⟨done, hfatal, hends⟩ := hdone
    refine hends.after ?_
    simp only [hfatal, if_true]
    exact ends_pure 1
  | unreadable | faulty | wrote =>
    intro r d' hrest
    obtain ⟨done, hfatal, houtput, -, hends⟩ := hdone
    refine hends.after ?_
    simp only [hfatal, Compiled.ok, houtput]
    exact hrest
  | tooLong | codeTooLong => exact hdone.2.after giveUp_escapes
  | undecodable | unnamable => exact Ends.escape hdone

theorem mem_outputPlace?_of_directories (h : ∀ place, d'.isDirectory place = d.isDirectory place) :
    place ∈ outputPlace? settings here d' file ↔ place ∈ outputPlace? settings here d file := by
  simp only [mem_outputPlace?, locate_eq_ok h]

/-- A file that gets a reply leaves the disk as it is, but for the place of its assembly. -/
theorem Fares.keeps {reply : Reply} (h : Fares settings here d file (.replied reply d')) :
    (∀ place, d'.isDirectory place = d.isDirectory place) ∧
      ∀ place, place ∉ outputPlace? settings here d file → d'.contents? place = d.contents? place := by
  cases h with
  | missing | unreadable | faulty => exact ⟨fun _ => rfl, fun _ _ => rfl⟩
  | @wrote text asm a target _ source accepts code named usable written =>
    obtain ⟨place, hplace, -, rfl⟩ := write_eq_ok.mp written
    refine ⟨fun other => isDirectory_put d place other _, fun other hother => ?_⟩
    rw [contents?_put, if_neg]
    rintro rfl
    exact hother (mem_outputPlace?.mpr ⟨target, named, hplace⟩)

/-- A build ends somehow, and changes no place to which no assembly goes. -/
theorem runs_keep (settings : Settings) (here : Location) (code : Nat) (files : List String) (d : Disk)
    {place : Location} (h : ∀ file ∈ files, place ∉ outputPlace? settings here d file) :
    ∃ r d', Runs settings here code files d r d' ∧ d'.contents? place = d.contents? place := by
  induction files generalizing code d with
  | nil => exact ⟨_, d, ends_pure code, rfl⟩
  | cons file rest ih =>
    obtain ⟨fate, hfares⟩ := fares_total settings here d file
    have hstep := continues_of_fares code rest hfares
    have hgoesOn : ∀ {reply : Reply} {d₁}, fate = .replied reply d₁ →
        (∀ {r d'}, Runs settings here (if reply.output?.isSome then code else 1) rest d₁ r d' →
          Runs settings here code (file :: rest) d r d') →
        ∃ r d', Runs settings here code (file :: rest) d r d' ∧ d'.contents? place = d.contents? place := by
      rintro reply d₁ rfl hstep
      obtain ⟨hdirectories, hkept⟩ := Fares.keeps hfares
      obtain ⟨r, d', hruns, hsame⟩ := ih (if reply.output?.isSome then code else 1) d₁ fun other hother =>
        mt (mem_outputPlace?_of_directories hdirectories).mp (h other (List.mem_cons_of_mem _ hother))
      exact ⟨r, d', hstep hruns, hsame.trans (hkept place (h file List.mem_cons_self))⟩
    cases fate with
    | refused => exact ⟨_, d, hstep, rfl⟩
    | escaped e => exact ⟨_, d, hstep, rfl⟩
    | replied reply d₁ =>
      cases reply with
      | missing => exact ⟨_, d, hstep, rfl⟩
      | unreadable | faulty | wrote => exact hgoesOn rfl hstep

theorem Runs.buildFiles {w : World} (h : Runs settings w.here 0 files w.disk r d') :
    ∃ w', (buildFiles settings files .beside : Session Nat).runIn w = (r, w') ∧ w'.disk = d' := by
  obtain ⟨w', hrun, -, hdisk, -⟩ := h w rfl rfl
  exact ⟨w', hrun, hdisk⟩

end Steps

section Sources

variable {settings : Settings} {here : Location} {d : Disk} {file : String} {place : Location}

/-- A path that ends in a name leads to a place of that name. -/
theorem head_of_walk {name : String} (hdot : name ≠ ".") (hdots : name ≠ "..") {parts : List String} :
    ∀ {start : Location}, d.walk start (parts ++ [name]) = .ok place → ∃ above, place = name :: above := by
  induction parts with
  | nil =>
    intro start h
    rw [List.nil_append, Disk.walk, if_neg hdot, if_neg hdots] at h
    split at h
    · exact ⟨start, by simpa [Disk.walk] using h.symm⟩
    · split at h <;> simp at h
  | cons part rest ih =>
    intro start h
    rw [List.cons_append, Disk.walk] at h
    split at h
    · exact ih h
    · split at h <;> simp at h

/-- Assembly goes to files that are named as such. -/
theorem name_of_outputPlace (hsuffix : settings.suffix = ".asm")
    (h : place ∈ outputPlace? settings here d file) : ∃ name above, place = name :: above ∧ ".asm".toList <:+ name.toList := by
  obtain ⟨target, htarget, hplace⟩ := mem_outputPlace?.mp h
  simp only [Path.assembly?, Path.withSuffix?, hsuffix] at htarget
  split at htarget
  · simp at htarget
  · rename_i name _
    obtain rfl : _ = target := by simpa [Path.isSuffix] using htarget
    have hlong : ∀ short : String, short.length < 4 → String.ofList (Path.stem name.toList) ++ ".asm" ≠ short := by
      rintro _ hshort rfl
      rw [String.length_append, show ".asm".length = 4 from rfl] at hshort
      omega
    obtain ⟨above, rfl⟩ := head_of_walk (hlong "." (by decide)) (hlong ".." (by decide)) hplace
    refine ⟨_, above, rfl, ?_⟩
    rw [String.toList_append]
    exact List.suffix_append _ _

/-- A build changes no file where no assembly of a listed file goes, whatever becomes of it. In particular it
keeps each source whose name is not that of assembly. -/
theorem build_spares_sources (settings : Settings) (files : List String) (w : World) (place : Location) :
    ((∀ file ∈ files, place ∉ outputPlace? settings w.here w.disk file) →
      ((buildFiles settings files .beside : Session Nat).runIn w).2.disk.contents? place = w.disk.contents? place) ∧
    (settings.suffix = ".asm" → (∀ name above, place = name :: above → ¬ ".asm".toList <:+ name.toList) →
      ((buildFiles settings files .beside : Session Nat).runIn w).2.disk.contents? place =
        w.disk.contents? place) := by
  have hkept : (∀ file ∈ files, place ∉ outputPlace? settings w.here w.disk file) →
      ((buildFiles settings files .beside : Session Nat).runIn w).2.disk.contents? place =
        w.disk.contents? place := by
    intro hplace
    obtain ⟨r, d', hruns, hsame⟩ := runs_keep settings w.here 0 files w.disk hplace
    obtain ⟨w', hrun, rfl⟩ := hruns.buildFiles
    rw [hrun, hsame]
  refine ⟨hkept, fun hsuffix hname => hkept fun file _ hoff => ?_⟩
  obtain ⟨name, above, hplace, hasm⟩ := name_of_outputPlace hsuffix hoff
  exact hname name above hplace hasm

/-- A session whose files are in its working directory. -/
def shelf (files : List (String × String)) : World where
  disk := { files := files.map fun (name, text) => ([name], text.toUTF8) }
  here := []
  directory := ⟨1, []⟩
  time := ""

/-- A source is kept though assembly is listed with it. -/
theorem build_spares_listed_source :
    ((buildFiles {} ["a.cmm", "a.asm"] .beside : Session Nat).runIn
      (shelf [("a.cmm", "void main(){}"), ("a.asm", "x")])).2.disk.contents? ["a.cmm"] = some "void main(){}".toUTF8 := by
  have hkept := (build_spares_sources {} ["a.cmm", "a.asm"] (shelf [("a.cmm", "void main(){}"), ("a.asm", "x")])
    ["a.cmm"]).2 rfl
  rw [hkept]
  · decide +kernel
  · rintro name above h
    obtain rfl : "a.cmm" = name := (List.cons.inj h).1
    decide

/-- A source that is named as assembly is overwritten by its own. -/
theorem build_overwrites_source :
    ((buildFiles {} ["a.asm"] .beside : Session Nat).runIn
      (shelf [("a.asm", "void main(){}")])).2.disk.contents? ["a.asm"] ≠ some "void main(){}".toUTF8 := by
  decide +kernel

end Sources

section Independence

variable {settings : Settings} {here : Location} {d₀ d : Disk} {file asm : String} {files rest : List String}

/-- A file has no errors. -/
def ErrorFree (here : Location) (d : Disk) (file : String) : Prop :=
  ∃ text a, Source d here (.ofString file) text ∧ Accepts text (Path.ofString file).text a

def Codes (settings : Settings) (here : Location) (d : Disk) (file asm : String) : Prop :=
  ∃ text a, Source d here (.ofString file) text ∧ Accepts text (Path.ofString file).text a ∧
    (a.assembly settings.comments).result = some asm

/-- A file is fatal if it is missing, or has no errors and its assembly cannot be written. -/
def Fatal (settings : Settings) (here : Location) (d : Disk) (file : String) : Prop :=
  (∀ bytes, ¬ Found d here (.ofString file) bytes) ∨
    ErrorFree here d file ∧ ∃ target, (Path.ofString file).assembly? settings = some target ∧
      ∀ bytes, ∃ reason, d.write here target bytes = .error reason

/-- A build comes to a file and goes on: neither the file nor one before it is fatal. -/
inductive Reached (settings : Settings) (here : Location) (d : Disk) : List String → String → Prop
  | first {file : String} {rest : List String} (goesOn : ¬ Fatal settings here d file) :
      Reached settings here d (file :: rest) file
  | later {first file : String} {rest : List String} (goesOn : ¬ Fatal settings here d first)
      (reached : Reached settings here d rest file) : Reached settings here d (first :: rest) file

theorem Reached.mem (h : Reached settings here d files file) : file ∈ files := by
  induction h with
  | first => exact List.mem_cons_self
  | later _ _ ih => exact List.mem_cons_of_mem _ ih

theorem reached_of_mem (hgoesOn : ∀ file ∈ files, ¬ Fatal settings here d file) (hfile : file ∈ files) :
    Reached settings here d files file := by
  induction files with
  | nil => exact absurd hfile List.not_mem_nil
  | cons first rest ih =>
    rcases List.mem_cons.mp hfile with rfl | hfile
    · exact .first (hgoesOn _ List.mem_cons_self)
    · exact .later (hgoesOn first List.mem_cons_self)
        (ih (fun file hfile => hgoesOn file (List.mem_cons_of_mem _ hfile)) hfile)

theorem Reached.goesOn (h : Reached settings here d files file) : ¬ Fatal settings here d file := by
  induction h with
  | first hgoesOn => exact hgoesOn
  | later _ _ ih => exact ih

theorem Codes.unique {asm' : String} (h : Codes settings here d file asm) (h' : Codes settings here d file asm') :
    asm = asm' := by
  obtain ⟨text, a, hsource, haccepts, hcode⟩ := h
  obtain ⟨text', a', hsource', haccepts', hcode'⟩ := h'
  obtain rfl := hsource.unique hsource'
  obtain rfl : a = a' := haccepts.result.symm.trans haccepts'.result
  exact Option.some.inj (hcode.symm.trans hcode')

/-- Files that do not get in each other's way: they are valid UTF-8, their assembly goes to places that differ
from each other and from their own, and no number that they hold or need is too long. No file of the disk is
also a directory. -/
structure Apart (settings : Settings) (here : Location) (d : Disk) (files : List String) : Prop where
  suffix : settings.suffix = ".asm"
  rooted : d.isDirectory here = true
  sound : ∀ place ∈ [] :: d.directories, d.contents? place = none
  decodable : ∀ file ∈ files, ∀ bytes, Found d here (.ofString file) bytes → (String.fromUTF8? bytes).isSome
  distinct : files.Pairwise fun f g => ∀ place ∈ outputPlace? settings here d f, place ∉ outputPlace? settings here d g
  separate : ∀ f ∈ files, ∀ g ∈ files, ∀ place ∈ outputPlace? settings here d f,
    d.locate here (.ofString g) ≠ .ok place
  short : ∀ file ∈ files, ¬ Fares settings here d file (.escaped (.fault .numeralTooLong))

theorem Apart.sublist (h : Apart settings here d files) (hsub : rest.Sublist files) : Apart settings here d rest where
  suffix := h.suffix
  rooted := h.rooted
  sound := h.sound
  decodable file hfile := h.decodable file (hsub.subset hfile)
  distinct := h.distinct.sublist hsub
  separate f hf g hg := h.separate f (hsub.subset hf) g (hsub.subset hg)
  short file hfile := h.short file (hsub.subset hfile)

/-- What a build that starts with an exit code on a disk leaves of files, as they were on a disk before: the
assembly of each file without errors that comes before all fatal ones, and nothing else. -/
structure Outcome (settings : Settings) (here : Location) (d₀ : Disk) (files : List String) (code : Nat) (d : Disk)
    (code' : Nat) (d' : Disk) : Prop where
  status : code' = 0 ↔ code = 0 ∧ ∀ file ∈ files, ¬ Fatal settings here d₀ file ∧ ErrorFree here d₀ file
  binary : code ≤ 1 → code' ≤ 1
  written : ∀ file, Reached settings here d₀ files file → ErrorFree here d₀ file →
    ∃ asm, ∃ place ∈ outputPlace? settings here d₀ file, Codes settings here d₀ file asm ∧
      d'.contents? place = some asm.toUTF8
  kept : ∀ place, (∀ file, Reached settings here d₀ files file → ErrorFree here d₀ file →
    place ∉ outputPlace? settings here d₀ file) → d'.contents? place = d.contents? place

/-- A disk on which files are as they were before. -/
structure Kept (here : Location) (d₀ d : Disk) (files : List String) : Prop where
  directories : ∀ place, d.isDirectory place = d₀.isDirectory place
  inputs : ∀ file ∈ files, ∀ place, d₀.locate here (.ofString file) = .ok place → d.contents? place = d₀.contents? place

theorem Kept.found (h : Kept here d₀ d files) (hfile : file ∈ files) {bytes : ByteArray} :
    Found d here (.ofString file) bytes ↔ Found d₀ here (.ofString file) bytes := by
  simp only [Found, read_eq_ok, locate_eq_ok h.directories]
  constructor
  · rintro ⟨husable, place, hplace, hbytes⟩
    exact ⟨husable, place, hplace, (h.inputs file hfile place hplace).symm.trans hbytes⟩
  · rintro ⟨husable, place, hplace, hbytes⟩
    exact ⟨husable, place, hplace, (h.inputs file hfile place hplace).trans hbytes⟩

theorem Kept.source (h : Kept here d₀ d files) (hfile : file ∈ files) {text : String} :
    Source d here (.ofString file) text ↔ Source d₀ here (.ofString file) text := by
  simp only [Source, h.found hfile]

/-- The part of a name before its suffix has no letters of its own. -/
theorem mem_of_mem_stem {c : Char} {name : List Char} (h : c ∈ Path.stem name) : c ∈ name := by
  unfold Path.stem at h
  dsimp only at h
  split at h
  · exact h
  · exact List.mem_reverse.mp (List.mem_of_mem_drop (List.mem_reverse.mp h))

/-- The assembly of a file that is there can be named. -/
theorem Apart.nameable (h : Apart settings here d files) {bytes : ByteArray} (hfound : Found d here (.ofString file) bytes) :
    ∃ target, (Path.ofString file).assembly? settings = some target ∧ target.isUsable = true := by
  obtain ⟨husable, hread⟩ := hfound
  obtain ⟨place, hplace, hbytes⟩ := read_eq_ok.mp hread
  unfold Path.assembly? Path.withSuffix?
  cases hlast : (Path.ofString file).parts.getLast? with
  | none =>
    have hdirectory : place ∈ [] :: d.directories := by
      have hrooted := h.rooted
      rw [Disk.locate, List.getLast?_eq_none_iff.mp hlast] at hplace
      obtain rfl := Except.ok.inj hplace
      split
      · simpa [Disk.isDirectory] using hrooted
      · exact List.mem_cons_self
    simp [h.sound place hdirectory] at hbytes
  | some name =>
    refine ⟨_, by simp only [h.suffix]; rfl, ?_⟩
    simp only [Path.isUsable, List.all_eq_true, List.mem_append, List.mem_singleton] at husable ⊢
    rintro part (hpart | rfl)
    · exact husable part (List.dropLast_subset _ hpart)
    · have hname := husable name (List.mem_of_getLast? hlast)
      simp only [Bool.not_eq_true', List.contains_eq_mem, decide_eq_false_iff_not] at hname ⊢
      intro hnull
      rcases List.mem_append.mp (String.toList_append ▸ hnull) with hnull | hnull
      · exact hname (mem_of_mem_stem (by simpa using hnull))
      · exact absurd hnull (by decide)

/-- What a build does at the first of some files: it ends there, or goes on with an error, or writes the file's
assembly and goes on. -/
theorem step_cases (h : Apart settings here d₀ (file :: rest)) (hkept : Kept here d₀ d (file :: rest)) (code : Nat) :
    (Fatal settings here d₀ file ∧ Runs settings here code (file :: rest) d (.ok 1) d) ∨
    (¬ Fatal settings here d₀ file ∧ ¬ ErrorFree here d₀ file ∧
      ∀ {r d'}, Runs settings here 1 rest d r d' → Runs settings here code (file :: rest) d r d') ∨
    (¬ Fatal settings here d₀ file ∧ ∃ asm, ∃ place ∈ outputPlace? settings here d₀ file, Codes settings here d₀ file asm ∧
      ∀ {r d'}, Runs settings here code rest (d.put place asm.toUTF8) r d' →
        Runs settings here code (file :: rest) d r d') := by
  have hfile : file ∈ file :: rest := List.mem_cons_self
  obtain ⟨fate, hfares⟩ := fares_total settings here d file
  have hstep := continues_of_fares code rest hfares
  have hfaulty : ∀ {text}, Source d₀ here (.ofString file) text →
      ¬ Accepts text (Path.ofString file).text (Analysis.ofSource text (Path.ofString file).text).result →
      ¬ Fatal settings here d₀ file ∧ ¬ ErrorFree here d₀ file := by
    intro text hsource hnot
    have hfree : ¬ ErrorFree here d₀ file := by
      rintro ⟨text', a, hsource', haccepts⟩
      obtain rfl := hsource.unique hsource'
      exact hnot (haccepts.result ▸ haccepts)
    refine ⟨?_, hfree⟩
    rintro (habsent | ⟨hfree', -⟩)
    · obtain ⟨bytes, -, hfound, -⟩ := hsource
      exact habsent bytes hfound
    · exact hfree hfree'
  cases hfares with
  | missing absent => exact .inl ⟨.inl fun bytes => mt (hkept.found hfile).mpr (absent bytes), hstep⟩
  | @undecodable bytes found invalid =>
    exact absurd (h.decodable file hfile bytes ((hkept.found hfile).mp found)) (by simp [invalid])
  | tooLong source fault => exact absurd (.tooLong ((hkept.source hfile).mp source) fault) (h.short file hfile)
  | unreadable source returns unread =>
    obtain ⟨hgoesOn, hfree⟩ := hfaulty ((hkept.source hfile).mp source) fun haccepts => by
      obtain ⟨p, hp, -⟩ := haccepts.assembles settings.comments
      simp [unread] at hp
    exact .inr (.inl ⟨hgoesOn, hfree, hstep⟩)
  | faulty source returns read errors =>
    obtain ⟨hgoesOn, hfree⟩ := hfaulty ((hkept.source hfile).mp source) fun haccepts => by
      simp [haccepts.quiet] at errors
    exact .inr (.inl ⟨hgoesOn, hfree, hstep⟩)
  | codeTooLong source accepts fault =>
    exact absurd (.codeTooLong ((hkept.source hfile).mp source) accepts fault) (h.short file hfile)
  | unnamable source accepts code unusable =>
    obtain ⟨bytes, -, hfound, -⟩ := source
    obtain ⟨target, htarget, husable⟩ := h.nameable ((hkept.found hfile).mp hfound)
    exact absurd husable (by simp [unusable target htarget])
  | @refused text asm a target reason source accepts code named usable unwritten =>
    refine .inl ⟨.inr ⟨⟨text, a, (hkept.source hfile).mp source, accepts⟩, target, named, fun bytes => ?_⟩, hstep⟩
    cases hwrite : d₀.write here target bytes with
    | error reason => exact ⟨reason, rfl⟩
    | ok d' =>
      obtain ⟨place, hplace, hdirectory, -⟩ := write_eq_ok.mp hwrite
      have hwritten : d.write here target asm.toUTF8 = .ok (d.put place asm.toUTF8) := write_eq_ok.mpr
        ⟨place, (locate_eq_ok hkept.directories).mpr hplace, (hkept.directories place).trans hdirectory, rfl⟩
      rw [hwritten] at unwritten
      simp at unwritten
  | @wrote text asm a target _ source accepts code named usable written =>
    have hsource := (hkept.source hfile).mp source
    obtain ⟨place, hplace, hdirectory, rfl⟩ := write_eq_ok.mp written
    rw [locate_eq_ok hkept.directories] at hplace
    refine .inr (.inr ⟨?_, asm, place, mem_outputPlace?.mpr ⟨target, named, hplace⟩, ⟨text, a, hsource, accepts, code⟩,
      hstep⟩)
    rintro (habsent | ⟨-, target', named', hunwritten⟩)
    · obtain ⟨bytes, -, hfound, -⟩ := hsource
      exact habsent bytes hfound
    · obtain rfl : target = target' := Option.some.inj (named.symm.trans named')
      obtain ⟨reason, hwrite⟩ := hunwritten asm.toUTF8
      rw [write_eq_ok.mpr ⟨place, hplace, (hkept.directories place).symm.trans hdirectory, rfl⟩] at hwrite
      simp at hwrite

/-- A build leaves of its files what each of them leaves. -/
theorem runs_apart (h : Apart settings here d₀ files) (hkept : Kept here d₀ d files) (code : Nat) :
    ∃ code' d', Runs settings here code files d (.ok code') d' ∧
      Outcome settings here d₀ files code d code' d' := by
  induction files generalizing d code with
  | nil =>
    refine ⟨code, d, ends_pure code, by simp, id, fun file hreached => ?_, fun _ _ => rfl⟩
    cases hreached
  | cons first rest ih =>
    have hrest := h.sublist (List.sublist_cons_self first rest)
    obtain ⟨hfatal, hruns⟩ | ⟨hgoesOn, hfaulty, hruns⟩ | ⟨hgoesOn, asm, place, hplace, hcodes, hruns⟩ :=
      step_cases h hkept code
    · refine ⟨1, d, hruns, by simp [hfatal], fun _ => Nat.le_refl 1, fun file hreached => ?_, fun _ _ => rfl⟩
      cases hreached with
      | first hgoesOn | later hgoesOn => exact absurd hfatal hgoesOn
    · have hkept' : Kept here d₀ d rest :=
        ⟨hkept.directories, fun file hfile => hkept.inputs file (List.mem_cons_of_mem _ hfile)⟩
      obtain ⟨code', d', hruns', hdone⟩ := ih hrest hkept' 1
      refine ⟨code', d', hruns hruns', ?_, fun _ => hdone.binary (Nat.le_refl 1), ?_, ?_⟩
      · rw [hdone.status]
        simp [hfaulty]
      · intro file hreached hfree
        cases hreached with
        | first => exact absurd hfree hfaulty
        | later _ hreached => exact hdone.written file hreached hfree
      · exact fun place hplace => hdone.kept place fun file hreached => hplace file (.later hgoesOn hreached)
    · have hfree : ErrorFree here d₀ first := by
        obtain ⟨text, a, hsource, haccepts, -⟩ := hcodes
        exact ⟨text, a, hsource, haccepts⟩
      have hkept' : Kept here d₀ (d.put place asm.toUTF8) rest := by
        refine ⟨fun other => (isDirectory_put d place other _).trans (hkept.directories other), ?_⟩
        intro file hfile other hother
        have hmem := List.mem_cons_of_mem first hfile
        rw [contents?_put, if_neg, hkept.inputs file hmem other hother]
        rintro rfl
        exact h.separate first List.mem_cons_self file hmem other hplace hother
      obtain ⟨code', d', hruns', hdone⟩ := ih hrest hkept' code
      refine ⟨code', d', hruns hruns', ?_, hdone.binary, ?_, ?_⟩
      · rw [hdone.status]
        simp [hgoesOn, hfree]
      · intro file hfile hfree
        cases hfile with
        | first =>
          refine ⟨asm, place, hplace, hcodes, ?_⟩
          -- No other file's assembly goes there, so what is written stays.
          rw [hdone.kept place fun other hother _ => ?_, contents?_put, if_pos rfl]
          exact (List.pairwise_cons.mp h.distinct).1 other hother.mem place hplace
        | later _ hfile => exact hdone.written file hfile hfree
      · intro other hother
        rw [hdone.kept other fun file hfile => hother file (.later hgoesOn hfile), contents?_put, if_neg]
        rintro rfl
        exact hother first (.first hgoesOn) hfree hplace

theorem Apart.perm (h : Apart settings here d files) (hperm : files.Perm rest) : Apart settings here d rest where
  suffix := h.suffix
  rooted := h.rooted
  sound := h.sound
  decodable file hfile := h.decodable file (hperm.mem_iff.mpr hfile)
  distinct := (hperm.pairwise_iff fun hfg place hg hf => hfg place hf hg).mp h.distinct
  separate f hf g hg := h.separate f (hperm.mem_iff.mpr hf) g (hperm.mem_iff.mpr hg)
  short file hfile := h.short file (hperm.mem_iff.mpr hfile)

theorem build_apart {w : World} (h : Apart settings w.here w.disk files) :
    ∃ code w', (buildFiles settings files .beside : Session Nat).runIn w = (.ok code, w') ∧
      Outcome settings w.here w.disk files 0 w.disk code w'.disk := by
  obtain ⟨code, d', hruns, hdone⟩ := runs_apart h ⟨fun _ => rfl, fun _ _ _ _ => rfl⟩ 0
  obtain ⟨w', hrun, rfl⟩ := hruns.buildFiles
  exact ⟨code, w', hrun, hdone⟩

/-- Two builds that come to a file leave the same assembly of it. -/
theorem Outcome.agree {files' : List String} {code code' : Nat} {d' d'' : Disk}
    (h : Outcome settings here d files 0 d code d') (h' : Outcome settings here d files' 0 d code' d'')
    (hreached : Reached settings here d files file) (hreached' : Reached settings here d files' file)
    (hfree : ErrorFree here d file) : ∀ place ∈ outputPlace? settings here d file,
      d'.contents? place = d''.contents? place := by
  obtain ⟨asm, place, hplace, hcodes, hasm⟩ := h.written file hreached hfree
  obtain ⟨asm', place', hplace', hcodes', hasm'⟩ := h'.written file hreached' hfree
  obtain rfl := hcodes.unique hcodes'
  intro other hother
  rw [Option.mem_unique hother hplace, hasm, Option.mem_unique hplace hplace', hasm']

/-- A build treats its files apart. It writes the assembly of the files without errors that come before the first
fatal one, each as it is written of the file alone, and changes nothing else. It gives zero exactly if all files
have no errors and none is fatal, and the order of files that are not fatal does not matter. -/
theorem build_treats_files_apart {w : World} (h : Apart settings w.here w.disk files) :
    ∃ code w', (buildFiles settings files .beside : Session Nat).runIn w = (.ok code, w') ∧
      Outcome settings w.here w.disk files 0 w.disk code w'.disk ∧
      (∀ file, Reached settings w.here w.disk files file → ErrorFree w.here w.disk file →
        ∃ w₁, (buildFiles settings [file] .beside : Session Nat).runIn w = (.ok 0, w₁) ∧
          ∀ place ∈ outputPlace? settings w.here w.disk file, w'.disk.contents? place = w₁.disk.contents? place) ∧
      ((∀ file ∈ files, ¬ Fatal settings w.here w.disk file) → ∀ files', files.Perm files' →
        ∃ w₁, (buildFiles settings files' .beside : Session Nat).runIn w = (.ok code, w₁) ∧
          ∀ place, w'.disk.contents? place = w₁.disk.contents? place) := by
  obtain ⟨code, w', hrun, hdone⟩ := build_apart h
  refine ⟨code, w', hrun, hdone, fun file hreached hfree => ?_, fun hgoesOn files' hperm => ?_⟩
  · obtain ⟨code₁, w₁, hrun₁, hdone₁⟩ := build_apart (h.sublist (List.singleton_sublist.mpr hreached.mem))
    obtain rfl : code₁ = 0 := hdone₁.status.mpr ⟨rfl, by simp [hreached.goesOn, hfree]⟩
    exact ⟨w₁, hrun₁, hdone.agree hdone₁ hreached (.first hreached.goesOn) hfree⟩
  · obtain ⟨code₁, w₁, hrun₁, hdone₁⟩ := build_apart (h.perm hperm)
    have hstatus : code = 0 ↔ code₁ = 0 := by
      rw [hdone.status, hdone₁.status]
      simp only [hperm.mem_iff]
    obtain rfl : code = code₁ := by
      have hcode := hdone.binary (Nat.zero_le 1)
      have hcode₁ := hdone₁.binary (Nat.zero_le 1)
      omega
    have hreached : ∀ {file}, Reached settings w.here w.disk files file ↔
        Reached settings w.here w.disk files' file :=
      ⟨fun hfile => reached_of_mem (fun g hg => hgoesOn g (hperm.mem_iff.mpr hg)) (hperm.mem_iff.mp hfile.mem),
        fun hfile => reached_of_mem hgoesOn (hperm.mem_iff.mpr hfile.mem)⟩
    refine ⟨w₁, hrun₁, fun place => ?_⟩
    by_cases hplace : ∃ file, Reached settings w.here w.disk files file ∧ ErrorFree w.here w.disk file ∧
        place ∈ outputPlace? settings w.here w.disk file
    · obtain ⟨file, hfile, hfree, hplace⟩ := hplace
      exact hdone.agree hdone₁ hfile (hreached.mp hfile) hfree place hplace
    · have hplace : ∀ file, Reached settings w.here w.disk files file → ErrorFree w.here w.disk file →
          place ∉ outputPlace? settings w.here w.disk file := by
        intro file hfile hfree hmem
        exact hplace ⟨file, hfile, hfree, hmem⟩
      rw [hdone.kept place hplace, hdone₁.kept place fun file hfile => hplace file (hreached.mpr hfile)]

/-- A file that ends a build without an exit code ends it for the files after it too. -/
theorem build_of_escaped {w : World} {e : Escape} (rest : List String)
    (h : Fares settings w.here w.disk file (.escaped e)) :
    ∃ w', (buildFiles settings (file :: rest) .beside : Session Nat).runIn w = (.error e, w') ∧ w'.disk = w.disk :=
  Runs.buildFiles (continues_of_fares 0 rest h)

/-- A file with errors and one without. -/
def sampleShelf : World := shelf [("a.cmm", "int"), ("b.cmm", "void main(){}")]

theorem sampleShelf_apart : Apart {} [] sampleShelf.disk ["a.cmm", "b.cmm", "c.cmm"] := by
  have hends : ∀ file ∈ ["a.cmm", "b.cmm", "c.cmm"], ∀ e, ¬ Fares {} [] sampleShelf.disk file (.escaped e) := by
    intro file hfile e hfares
    obtain ⟨w', hrun, -⟩ := build_of_escaped (w := sampleShelf) [] hfares
    have hok : ∀ file ∈ ["a.cmm", "b.cmm", "c.cmm"],
        ((buildFiles {} [file] .beside : Session Nat).runIn sampleShelf).1.isOk = true := by decide +kernel
    have := hok file hfile
    rw [hrun] at this
    cases this
  refine ⟨rfl, rfl, by decide +kernel, fun file hfile bytes hfound => ?_, by decide +kernel, by decide +kernel,
    fun file hfile => hends file hfile _⟩
  apply Option.isSome_iff_ne_none.mpr
  exact fun hinvalid => hends file hfile _ (.undecodable hfound hinvalid)

/-- The third file is missing. -/
theorem build_stops_at_missing_file : Apart {} [] sampleShelf.disk ["a.cmm", "b.cmm", "c.cmm"] ∧
    ∃ code w', (buildFiles {} ["a.cmm", "b.cmm", "c.cmm"] .beside : Session Nat).runIn sampleShelf = (.ok code, w') ∧
      Outcome {} [] sampleShelf.disk ["a.cmm", "b.cmm", "c.cmm"] 0 sampleShelf.disk code w'.disk := by
  refine ⟨sampleShelf_apart, ?_⟩
  obtain ⟨code, w', hrun, hdone, -⟩ := build_treats_files_apart (w := sampleShelf) sampleShelf_apart
  exact ⟨code, w', hrun, hdone⟩

/-- A file with a number that is too long, and one without errors. -/
def longShelf (n : Nat) : World :=
  shelf [("a.cmm", String.ofList (List.replicate n '9')), ("b.cmm", "void main(){}")]

theorem longShelf_escapes {n : Nat} (hn : Text.digitLimit < n) :
    Fares {} (longShelf n).here (longShelf n).disk "a.cmm" (.escaped (.fault .numeralTooLong)) := by
  have hnines : Text.unifyNewlines (List.replicate n '9') = List.replicate n '9' := by
    clear hn
    induction n with
    | zero => rfl
    | succ n ih => exact congrArg ('9' :: ·) ih
  refine .tooLong ⟨_, String.ofList (List.replicate n '9'), ⟨by decide, ?_⟩, fromUTF8?_toUTF8 _, ?_⟩ (fault_of_nines hn _)
  · exact read_eq_ok.mpr ⟨["a.cmm"], by rfl, by rfl⟩
  · rw [String.toList_ofList, hnines]

/-- A number that is too long ends a build before the files after it, which have assembly if they are alone. -/
theorem long_number_stops_build :
    ((buildFiles {} ["a.cmm", "b.cmm"] .beside : Session Nat).runIn (longShelf 4301)).1 = .error (.fault .numeralTooLong) ∧
    ((buildFiles {} ["a.cmm", "b.cmm"] .beside : Session Nat).runIn (longShelf 4301)).2.disk.contents? ["b.asm"] = none ∧
    ((buildFiles {} ["b.cmm"] .beside : Session Nat).runIn (longShelf 4301)).2.disk.contents? ["b.asm"] ≠ none := by
  obtain ⟨w', hrun, hdisk⟩ := build_of_escaped ["b.cmm"] (longShelf_escapes (n := 4301) (by decide))
  rw [hrun, hdisk]
  exact ⟨rfl, rfl, by decide +kernel⟩

end Independence

end CMinusMinus.Proofs.Builds
