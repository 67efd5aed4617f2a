import CMinusMinus.Command.Run
import CMinusMinus.Proofs.Attribution
import CMinusMinus.Proofs.Files

/-!
The prompt. A name that is given to it fares in one of a few ways: it is answered and the next name is
asked for, or the prompt ends. It ends at an output that cannot be written, with exit code one. It also ends,
without an exit code, at a file that is not valid UTF-8, at a number that is too long to be read or written,
and at a name that no assembly can be named after.
-/
namespace CMinusMinus.Proofs.Prompt

open Host Command
open Files (ofString_text spelled_ofString text_ne_empty read_eq_ok read_of_write)

section Sessions

variable {α β : Type} {x : Session α} {f : α → Session β} {a : α} {r : Except Escape β} {here : Location}
  {disk disk' disk'' : Disk} {said said' : String}

/-- What work in a session comes to, in a directory of a disk: its result, the disk that it leaves, and what it
writes to the standard output. -/
def Ends (x : Session α) (here : Location) (disk : Disk) (r : Except Escape α) (disk' : Disk) (said : String) : Prop :=
  ∀ w : World, w.here = here → w.disk = disk →
    ∃ w', x.runIn w = (r, w') ∧ w'.here = here ∧ w'.disk = disk' ∧ w'.out = w.out ++ said

abbrev Logs (x : Session α) (here : Location) (disk : Disk) (a : α) : Prop := Ends x here disk (.ok a) disk ""

theorem Ends.bind (hx : Ends x here disk (.ok a) disk' said) (hf : Ends (f a) here disk' r disk'' said') :
    Ends (x >>= f) here disk r disk'' (said ++ said') := by
  intro w hhere hdisk
  obtain ⟨w₁, hrun, hhere, hdisk, hout⟩ := hx w hhere hdisk
  obtain ⟨w₂, hrun', hhere', hdisk', hout'⟩ := hf w₁ hhere hdisk
  refine ⟨w₂, ?_, hhere', hdisk', by rw [hout', hout, String.append_assoc]⟩
  have hstep : (x >>= f).runIn w = (f a).runIn w₁ := by
    simp only [Session.runIn, ExceptT.run_bind, StateT.run_bind] at hrun ⊢
    rw [show StateT.run (ExceptT.run x) w = (.ok a, w₁) from hrun]
    rfl
  rw [hstep, hrun']

theorem Ends.escape {e : Escape} (hx : Ends x here disk (.error e) disk' said) :
    Ends (x >>= f) here disk (.error e) disk' said := by
  intro w hhere hdisk
  obtain ⟨w₁, hrun, hrest⟩ := hx w hhere hdisk
  refine ⟨w₁, ?_, hrest⟩
  simp only [Session.runIn, ExceptT.run_bind, StateT.run_bind] at hrun ⊢
  rw [show StateT.run (ExceptT.run x) w = (.error e, w₁) from hrun]
  rfl

/-- Work that only looks at the session. -/
theorem ends_of_runIn {r : Except Escape α} (h : ∀ w, w.here = here → w.disk = disk → x.runIn w = (r, w)) :
    Ends x here disk r disk "" :=
  fun w hhere hdisk => ⟨w, h w hhere hdisk, hhere, hdisk, String.append_empty.symm⟩

theorem ends_pure (a : α) : Logs (pure a) here disk a := ends_of_runIn fun _ _ _ => rfl

/-- What is done after work that has written nothing. -/
theorem Ends.after (hx : Ends x here disk (.ok a) disk' "") (hf : Ends (f a) here disk' r disk'' said) :
    Ends (x >>= f) here disk r disk'' said := by
  have h := hx.bind hf
  rwa [String.empty_append] at h

theorem Ends.done (hx : Ends x here disk (.ok a) disk' said) (b : β) :
    Ends (do let _ ← x; return b) here disk (.ok b) disk' said := by
  have h := hx.bind (f := fun _ => pure b) (ends_pure b)
  rwa [String.append_empty] at h

theorem logs_forM {γ : Type} {g : γ → Session Unit} {cs : List γ} (hg : ∀ c ∈ cs, Logs (g c) here disk ()) :
    Logs (cs.forM g) here disk () := by
  induction cs with
  | nil => exact ends_pure ()
  | cons c cs ih =>
    exact Ends.after (f := fun _ => cs.forM g) (hg c List.mem_cons_self)
      (ih fun d hd => hg d (List.mem_cons_of_mem _ hd))

/-- What is done with something that is found in the session, whatever it is. -/
theorem ends_whatever (hx : ∀ w, ∃ a, x.runIn w = (.ok a, w)) (hf : ∀ a, Ends (f a) here disk r disk' said) :
    Ends (x >>= f) here disk r disk' said := by
  intro w hhere hdisk
  obtain ⟨a, hrun⟩ := hx w
  simp only [Session.runIn, ExceptT.run_bind, StateT.run_bind] at hrun ⊢
  rw [show StateT.run (ExceptT.run x) w = (.ok a, w) from hrun]
  exact hf a w hhere hdisk

theorem logs_log (settings : Option Settings) (e : LogEntry) : Logs (log settings e) here disk () :=
  ends_whatever (fun w => ⟨w.time, rfl⟩) fun _ => logs_forM fun _ _ _ hhere hdisk =>
    ⟨_, rfl, hhere, hdisk, String.append_empty.symm⟩

theorem logs_logAll (settings : Option Settings) (es : List LogEntry) : Logs (logAll settings es) here disk () :=
  logs_forM fun e _ => logs_log settings e

theorem ends_out (text : String) : Ends (out text) here disk (.ok ()) disk text :=
  fun _ hhere hdisk => ⟨_, rfl, hhere, hdisk, rfl⟩

theorem logs_settleWork (settings : Settings) (done : Worked α) : Logs (settleWork settings done) here disk
    (match done.fault with | some fault => .error fault | none => .ok done.result) := by
  unfold settleWork
  refine (logs_logAll _ _).after ?_
  cases done.fault with
  | some fault => exact ends_pure _
  | none => exact ends_pure _

end Sessions

section Sources

variable {disk : Disk} {here : Location} {path : CMinusMinus.Path} {bytes : ByteArray} {text : String}

def Found (disk : Disk) (here : Location) (path : CMinusMinus.Path) (bytes : ByteArray) : Prop :=
  path.isUsable = true ∧ disk.read here path = .ok bytes

/-- There is a file at a path that holds a text, up to the ends of its lines. -/
def Source (disk : Disk) (here : Location) (path : CMinusMinus.Path) (text : String) : Prop :=
  ∃ bytes raw, Found disk here path bytes ∧ String.fromUTF8? bytes = some raw ∧
    text = String.ofList (Text.unifyNewlines raw.toList)

theorem Source.unique {text' : String} (h : Source disk here path text) (h' : Source disk here path text') :
    text = text' := by
  obtain ⟨bytes, raw, ⟨-, hread⟩, hraw, rfl⟩ := h
  obtain ⟨bytes', raw', ⟨-, hread'⟩, hraw', rfl⟩ := h'
  obtain rfl : bytes = bytes' := Except.ok.inj (hread.symm.trans hread')
  obtain rfl : raw = raw' := Option.some.inj (hraw.symm.trans hraw')
  rfl

theorem logs_isFile (path : CMinusMinus.Path) :
    Logs (Host.isFile path) here disk (path.isUsable && disk.isFile here path) :=
  ends_of_runIn fun _ hhere hdisk => hhere ▸ hdisk ▸ rfl

theorem isFile_iff : (path.isUsable && disk.isFile here path) = true ↔ ∃ bytes, Found disk here path bytes := by
  simp only [Bool.and_eq_true, Found, exists_and_left, and_congr_right_iff]
  intro _
  unfold Disk.isFile
  cases hplace : disk.locate here path with
  | error e => simp [read_eq_ok, hplace]
  | ok place => simp [read_eq_ok, hplace, Option.isSome_iff_exists]

theorem Found.logs_isFile (h : Found disk here path bytes) : Logs (Host.isFile path) here disk true :=
  isFile_iff.mpr ⟨bytes, h⟩ ▸ Prompt.logs_isFile path

theorem logs_isFile_absent (h : ∀ bytes, ¬ Found disk here path bytes) : Logs (Host.isFile path) here disk false := by
  have hfile : (path.isUsable && disk.isFile here path) = false :=
    Bool.eq_false_iff.mpr fun hfile => not_exists.mpr h (isFile_iff.mp hfile)
  exact hfile ▸ logs_isFile path

/-- A file that is there is read as its bytes can be decoded. -/
theorem Found.ends_readText (h : Found disk here path bytes) : Ends (readText path) here disk
    (match String.fromUTF8? bytes with
      | some raw => .ok (.ok (String.ofList (Text.unifyNewlines raw.toList)))
      | none => .error .undecodable) disk "" := by
  obtain ⟨husable, hread⟩ := h
  have hbytes : Logs (Host.read path) here disk (.ok bytes) :=
    ends_of_runIn fun _ hhere hdisk => by rw [← hread, ← hhere, ← hdisk]; rfl
  unfold readText
  simp only [husable, Bool.not_true, Bool.false_eq_true, ↓reduceIte]
  refine hbytes.after ?_
  dsimp only
  cases String.fromUTF8? bytes with
  | some raw => exact ends_pure _
  | none => exact ends_of_runIn fun _ _ _ => rfl

theorem logs_readText (h : Source disk here path text) : Logs (readText path) here disk (.ok text) := by
  obtain ⟨bytes, raw, hfound, hdecodes, rfl⟩ := h
  simpa [hdecodes] using hfound.ends_readText

/-- Diagnostics are shown without an end to the session if the files that they name can be read. -/
theorem logs_showDiagnostics (settings : Option Settings) {ds : List Diagnostic}
    (hds : ∀ d ∈ ds, ∀ file ∈ d.file, ∃ text, Source disk here (.ofString file) text) :
    Logs (showDiagnostics settings ds) here disk () := by
  refine logs_forM fun d hd => ?_
  refine ends_whatever (fun w => ⟨w.directory, rfl⟩) fun _ => (logs_log _ _).after ?_
  split
  · exact ends_pure ()
  · rename_i file hshown
    have hfile : file ∈ d.file := by
      unfold Diagnostic.shownFile? at hshown
      split at hshown
      · simp_all
      · simp at hshown
    obtain ⟨text, hsource⟩ := hds d hd file hfile
    exact (logs_readText hsource).after (logs_logAll _ _)

end Sources

/-- What the prompt says to a name. -/
inductive Reply where
  | missing
  | unreadable
  | faulty
  | wrote (path : CMinusMinus.Path)

/-- The line that a reply is. -/
def Reply.line (name : String) : Reply → String
  | missing => name ++ " not found"
  | unreadable => "syntax error: parsing aborted"
  | faulty => "compilation aborted"
  | wrote path => "wrote " ++ path.text

def Reply.output? : Reply → Option CMinusMinus.Path
  | wrote path => some path
  | _ => none

/-- How a name fares: it gets a reply, its output cannot be written, or the prompt ends without an exit
code. -/
inductive Fate where
  | replied (reply : Reply) (disk : Disk)
  | refused
  | escaped (e : Escape)

/-- How a name fares on a disk. -/
inductive Fares (settings : Settings) (here : Location) (disk : Disk) (name : String) : Fate → Prop
  | missing (absent : ∀ bytes, ¬ Found disk here (.ofString name) bytes) :
      Fares settings here disk name (.replied .missing disk)
  | undecodable {bytes : ByteArray} (found : Found disk here (.ofString name) bytes)
      (invalid : String.fromUTF8? bytes = none) :
      Fares settings here disk name (.escaped .undecodable)
  | tooLong {text : String} (source : Source disk here (.ofString name) text)
      (fault : (Analysis.ofSource text (Path.ofString name).text).fault = some .numeralTooLong) :
      Fares settings here disk name (.escaped (.fault .numeralTooLong))
  | unreadable {text : String} (source : Source disk here (.ofString name) text)
      (returns : (Analysis.ofSource text (Path.ofString name).text).fault = none)
      (unread : (Analysis.ofSource text (Path.ofString name).text).result.program = none) :
      Fares settings here disk name (.replied .unreadable disk)
  | faulty {text : String} (source : Source disk here (.ofString name) text)
      (returns : (Analysis.ofSource text (Path.ofString name).text).fault = none) {p : Program}
      (read : (Analysis.ofSource text (Path.ofString name).text).result.program = some p)
      (errors : (Analysis.ofSource text (Path.ofString name).text).result.hasErrors = true) :
      Fares settings here disk name (.replied .faulty disk)
  | codeTooLong {text : String} {a : Analysis} (source : Source disk here (.ofString name) text)
      (accepts : Accepts text (Path.ofString name).text a)
      (fault : (a.assembly settings.comments).fault = some .numeralTooLong) :
      Fares settings here disk name (.escaped (.fault .numeralTooLong))
  | unnamable {text asm : String} {a : Analysis} (source : Source disk here (.ofString name) text)
      (accepts : Accepts text (Path.ofString name).text a)
      (code : (a.assembly settings.comments).result = some asm)
      (unusable : ∀ target ∈ (Path.ofString name).assembly? settings, target.isUsable = false) :
      Fares settings here disk name (.escaped .unusablePath)
  | refused {text asm : String} {a : Analysis} {target : CMinusMinus.Path} {reason : FileError}
      (source : Source disk here (.ofString name) text) (accepts : Accepts text (Path.ofString name).text a)
      (code : (a.assembly settings.comments).result = some asm)
      (named : (Path.ofString name).assembly? settings = some target) (usable : target.isUsable = true)
      (unwritten : disk.write here target asm.toUTF8 = .error reason) :
      Fares settings here disk name .refused
  | wrote {text asm : String} {a : Analysis} {target : CMinusMinus.Path} {disk' : Disk}
      (source : Source disk here (.ofString name) text) (accepts : Accepts text (Path.ofString name).text a)
      (code : (a.assembly settings.comments).result = some asm)
      (named : (Path.ofString name).assembly? settings = some target) (usable : target.isUsable = true)
      (written : disk.write here target asm.toUTF8 = .ok disk') :
      Fares settings here disk name (.replied (.wrote target) disk')

section Compiling

variable {settings : Settings} {here : Location} {disk disk' : Disk} {name text asm : String} {a : Analysis}
  {target : CMinusMinus.Path} {r : Except Escape (Except Fault Compiled)}

theorem Source.logs_isFile {path : CMinusMinus.Path} (h : Source disk here path text) :
    Logs (Host.isFile path) here disk true := by
  obtain ⟨bytes, raw, hfound, -⟩ := h
  exact hfound.logs_isFile

theorem logs_analyzeFile {path : CMinusMinus.Path} (h : Source disk here path text) :
    Logs (analyzeFile settings path) here disk (match (Analysis.ofSource text path.text).fault with
      | some fault => .error fault
      | none => .ok (Analysis.ofSource text path.text).result) := by
  unfold analyzeFile
  refine (logs_log _ _).after (h.logs_isFile.after ?_)
  rw [if_pos rfl]
  exact (logs_readText h).after (logs_settleWork settings _)

/-- A file that is read and analysed is compiled as its analysis goes. -/
theorem ends_compileFile (hsource : Source disk here (.ofString name) text)
    (hreturns : (Analysis.ofSource text (Path.ofString name).text).fault = none)
    (ha : (Analysis.ofSource text (Path.ofString name).text).result = a)
    (hrest : Ends (do
      if a.program.isNone || a.hasErrors then
        log (some settings) (.info s!"Not generating code for '{name}': errors found")
        return .ok { analysis := a }
      else match ← assemblyText settings a with
        | .error fault => return .error fault
        | .ok text =>
          match Output.beside.pathFor settings (.ofString name) with
          | .error e => escape e
          | .ok target => return .ok (← writeAssembly settings a target text)) here disk r disk' "") :
    Ends (compileFile settings name .beside) here disk r disk' "" := by
  have hanalysed : Logs (analyzeFile settings (.ofString name)) here disk _ := logs_analyzeFile hsource
  simp only [hreturns, ha] at hanalysed
  unfold compileFile
  refine hanalysed.after (hsource.logs_isFile.after ?_)
  rwa [Bool.not_true, if_neg Bool.false_ne_true]

/-- A file with errors is not compiled further. -/
theorem compileFile_rejects (hsource : Source disk here (.ofString name) text)
    (hreturns : (Analysis.ofSource text (Path.ofString name).text).fault = none)
    (ha : (Analysis.ofSource text (Path.ofString name).text).result = a)
    (hbad : (a.program.isNone || a.hasErrors) = true) :
    Logs (compileFile settings name .beside) here disk (.ok { analysis := a }) := by
  refine ends_compileFile hsource hreturns ha ?_
  rw [if_pos hbad]
  exact (logs_log _ _).after (ends_pure _)

/-- The code of an accepted file is made, and what is done with it. -/
theorem compileFile_accepts (hsource : Source disk here (.ofString name) text)
    (haccepts : Accepts text (Path.ofString name).text a)
    (hrest : Ends (match (match (a.assembly settings.comments).fault with
          | some fault => .error fault
          | none => .ok ((a.assembly settings.comments).result.getD "") : Except Fault String) with
        | .error fault => return .error fault
        | .ok text =>
          match Output.beside.pathFor settings (.ofString name) with
          | .error e => escape e
          | .ok target => return .ok (← writeAssembly settings a target text)) here disk r disk' "") :
    Ends (compileFile settings name .beside) here disk r disk' "" := by
  obtain ⟨p, hp, -⟩ := haccepts.assembles settings.comments
  refine ends_compileFile hsource haccepts.returns haccepts.result ?_
  rw [hp, haccepts.quiet, Option.isNone_some, Bool.or_false, if_neg Bool.false_ne_true]
  refine Ends.after ?_ hrest
  unfold assemblyText
  refine (logs_settleWork settings _).after ?_
  cases (a.assembly settings.comments).fault with
  | some fault => exact ends_pure _
  | none => exact ends_pure _

/-- Assembly is not written to a path that cannot be used. -/
theorem writeAssembly_escapes (a : Analysis) (asm : String) (husable : target.isUsable = false) :
    Ends (writeAssembly settings a target asm) here disk (.error .unusablePath) disk "" := by
  refine Ends.escape (ends_of_runIn fun w _ _ => ?_)
  simp only [Host.write, husable]
  rfl

/-- What compiling comes to if the output cannot be written: one more diagnostic, which names no file. -/
def refusal (a : Analysis) (target : CMinusMinus.Path) (reason : FileError) : Compiled where
  analysis := { a with diagnostics := a.diagnostics ++
    [.atSpan .error (.outputRefused target.text reason.reason) none none] }
  fatal := true

theorem runIn_write (husable : target.isUsable = true) (w : World) :
    (Host.write target asm : Session _).runIn w = match w.disk.write w.here target asm.toUTF8 with
      | .error e => (.ok (.error e), w)
      | .ok disk => (.ok (.ok ()), { w with disk }) := by
  have hstep : (Host.write target asm : Session (Except FileError Unit)).runIn w =
      Session.runIn (match w.disk.write w.here target asm.toUTF8 with
        | .error e => pure (.error e)
        | .ok disk => do
          set { w with disk }
          return .ok ()) w := by
    simp only [Host.write, husable]
    rfl
  rw [hstep]
  cases w.disk.write w.here target asm.toUTF8 with
  | error e => rfl
  | ok disk => rfl

theorem writeAssembly_refused (a : Analysis) {reason : FileError} (husable : target.isUsable = true)
    (hwrite : disk.write here target asm.toUTF8 = .error reason) :
    Logs (writeAssembly settings a target asm) here disk (refusal a target reason) := by
  have hrefused : Logs (Host.write target asm) here disk (.error reason) := by
    refine ends_of_runIn fun w hhere hdisk => ?_
    rw [runIn_write husable, hhere, hdisk, hwrite]
  exact hrefused.after (ends_pure _)

theorem writeAssembly_wrote (a : Analysis) (husable : target.isUsable = true)
    (hwrite : disk.write here target asm.toUTF8 = .ok disk') :
    Ends (writeAssembly settings a target asm) here disk (.ok { analysis := a, output := some target }) disk' "" := by
  have hwrote : Ends (Host.write target asm) here disk (.ok (.ok ())) disk' "" := by
    refine fun w hhere hdisk => ⟨{ w with disk := disk' }, ?_, hhere, rfl, String.append_empty.symm⟩
    rw [runIn_write husable, hhere, hdisk, hwrite]
  exact hwrote.after ((logs_log _ _).after (ends_pure _))

end Compiling

section Answering

variable {settings : Settings} {here : Location} {disk disk' : Disk} {name answer text asm said : String}
  {a : Analysis} {target : CMinusMinus.Path} {fate : Fate}

/-- A text that is written can be read. -/
theorem fromUTF8?_toUTF8 (text : String) : String.fromUTF8? text.toUTF8 = some text := by
  unfold String.fromUTF8?
  exact dif_pos text.isValidUTF8

/-- A file that has a text has one still, once a file is written. -/
theorem Source.after_write {path : CMinusMinus.Path} (h : Source disk here path text)
    (hwrite : disk.write here target asm.toUTF8 = .ok disk') : ∃ text', Source disk' here path text' := by
  obtain ⟨bytes, raw, ⟨husable, hread⟩, hdecodes, -⟩ := h
  rcases read_of_write hwrite hread with hnew | hold
  · exact ⟨_, _, _, ⟨husable, hnew⟩, fromUTF8?_toUTF8 asm, rfl⟩
  · exact ⟨_, _, _, ⟨husable, hold⟩, hdecodes, rfl⟩

/-- What compiling a file comes to, once its diagnostics are shown. -/
theorem ends_compileOne {done : Compiled}
    (hdone : Ends (compileFile settings name .beside) here disk (.ok (.ok done)) disk' "")
    (hnamed : ∀ d ∈ done.analysis.diagnostics, ∀ file ∈ d.file, ∃ text, Source disk' here (.ofString file) text) :
    Ends (compileOne settings name .beside) here disk (.ok (.ok done)) disk' "" :=
  hdone.after ((logs_showDiagnostics _ hnamed).after (ends_pure _))

/-- A file that cannot be decoded ends the session. -/
theorem compileFile_undecodable {bytes : ByteArray} (hfound : Found disk here (.ofString name) bytes)
    (hinvalid : String.fromUTF8? bytes = none) :
    Ends (compileFile settings name .beside) here disk (.error .undecodable) disk "" := by
  have hread := hfound.ends_readText
  rw [hinvalid] at hread
  unfold compileFile analyzeFile
  refine Ends.escape ((logs_log _ _).after (hfound.logs_isFile.after ?_))
  rw [if_pos rfl]
  exact hread.escape

/-- A number that is too long ends the analysis of a file. -/
theorem compileFile_tooLong (hsource : Source disk here (.ofString name) text)
    (hfault : (Analysis.ofSource text (Path.ofString name).text).fault = some .numeralTooLong) :
    Logs (compileFile settings name .beside) here disk (.error .numeralTooLong) := by
  have hanalysed : Logs (analyzeFile settings (.ofString name)) here disk _ := logs_analyzeFile hsource
  simp only [hfault] at hanalysed
  exact hanalysed.after (ends_pure _)

/-- A file whose code has been made is compiled as writing the code goes. -/
theorem compileFile_coded {r : Except Escape (Except Fault Compiled)} (hsource : Source disk here (.ofString name) text)
    (haccepts : Accepts text (Path.ofString name).text a) (hcode : (a.assembly settings.comments).result = some asm)
    (hrest : Ends (match Output.beside.pathFor settings (.ofString name) with
      | .error e => escape e
      | .ok target => return .ok (← writeAssembly settings a target asm)) here disk r disk' "") :
    Ends (compileFile settings name .beside) here disk r disk' "" := by
  have hfault : (a.assembly settings.comments).fault = none := by
    unfold Analysis.assembly at hcode ⊢
    cases hlower : a.lower with
    | error fault => simp [hlower] at hcode
    | ok lines => rfl
  refine compileFile_accepts hsource haccepts ?_
  rwa [hfault, hcode]

/-- What compiling a file comes to, as the file fares. A file that is not there and an output that cannot be
written are fatal. -/
def Fate.Compiles (x : Session (Except Fault Compiled)) (here : Location) (disk : Disk) : Fate → Prop
  | replied .missing _ | refused => ∃ done, done.fatal = true ∧ Logs x here disk (.ok done)
  | replied reply disk' => ∃ done, done.fatal = false ∧ done.output = reply.output? ∧
      (done.analysis.program = none ↔ reply = .unreadable) ∧ Ends x here disk (.ok (.ok done)) disk' ""
  | escaped (.fault fault) => fault = .numeralTooLong ∧ Logs x here disk (.error fault)
  | escaped e => Ends x here disk (.error e) disk ""

/-- What compiling comes to if there is no file: one diagnostic, which names no file. -/
def absence (path : CMinusMinus.Path) : Compiled where
  analysis :=
    { file := some path.text
      diagnostics := [.atSpan .error (.sourceMissing path.text) none none] }
  fatal := true

theorem compileFile_missing (habsent : ∀ bytes, ¬ Found disk here (.ofString name) bytes) :
    Logs (compileFile settings name .beside) here disk (.ok (absence (.ofString name))) := by
  have hgone := logs_isFile_absent habsent
  have hanalysed : Logs (analyzeFile settings (.ofString name)) here disk (.ok (absence (.ofString name)).analysis) :=
    (logs_log _ _).after (hgone.after (ends_pure _))
  exact hanalysed.after (hgone.after (ends_pure _))

/-- A file is compiled as it fares. -/
theorem compiles_of_fares (h : Fares settings here disk name fate) :
    fate.Compiles (compileOne settings name .beside) here disk := by
  -- All diagnostics of an analysis name the file, and the file can be read.
  have hnamed : ∀ {text' disk}, Source disk here (.ofString name) text' → ∀ text,
      ∀ d ∈ (Analysis.ofSource text (Path.ofString name).text).result.diagnostics,
      ∀ file ∈ d.file, ∃ text, Source disk here (.ofString file) text := by
    intro text' disk source text d hd file hfile
    rw [Attribution.diagnostics_name_file text (text_ne_empty (spelled_ofString _)) d hd] at hfile
    obtain rfl : (Path.ofString name).text = file := by simpa using hfile
    rw [ofString_text (spelled_ofString name)]
    exact ⟨text', source⟩
  cases h with
  | missing absent =>
    refine ⟨absence (.ofString name), rfl, ends_compileOne (compileFile_missing absent) fun d hd => ?_⟩
    rw [List.mem_singleton.mp hd]
    simp [Diagnostic.atSpan]
  | undecodable found invalid => exact (compileFile_undecodable found invalid).escape
  | tooLong source fault => exact ⟨rfl, (compileFile_tooLong source fault).after (ends_pure _)⟩
  | @unreadable text source returns unread =>
    have hdone : Logs (compileFile settings name .beside) here disk _ :=
      compileFile_rejects source returns rfl (by simp [unread])
    exact ⟨_, rfl, rfl, by simp [unread], ends_compileOne hdone (hnamed source text)⟩
  | @faulty text source returns p read errors =>
    have hdone : Logs (compileFile settings name .beside) here disk _ :=
      compileFile_rejects source returns rfl (by simp [errors])
    exact ⟨_, rfl, rfl, by simp [read], ends_compileOne hdone (hnamed source text)⟩
  | codeTooLong source accepts fault =>
    refine ⟨rfl, Ends.after (a := .error .numeralTooLong) (compileFile_accepts source accepts ?_) (ends_pure _)⟩
    rw [fault]
    exact ends_pure _
  | unnamable source accepts code unusable =>
    refine Ends.escape (compileFile_coded source accepts code ?_)
    unfold Output.pathFor
    cases htarget : (Path.ofString name).assembly? settings with
    | none => exact ends_of_runIn fun _ _ _ => rfl
    | some target => exact (writeAssembly_escapes _ _ (unusable target htarget)).escape
  | @refused text asm a target reason source accepts code named usable unwritten =>
    refine ⟨refusal a target reason, rfl, ends_compileOne (compileFile_coded source accepts code ?_) fun d hd => ?_⟩
    · rw [Output.pathFor, named]
      exact (writeAssembly_refused a usable unwritten).after (ends_pure _)
    · rcases List.mem_append.mp hd with hd | hd
      · exact hnamed source text d (accepts.result ▸ hd)
      · rw [List.mem_singleton.mp hd]
        simp [Diagnostic.atSpan]
  | @wrote text asm a target disk' source accepts code named usable written =>
    obtain ⟨text', source'⟩ := source.after_write written
    obtain ⟨p, hp, -⟩ := accepts.assembles settings.comments
    refine ⟨{ analysis := a, output := some target }, rfl, rfl, by simp [hp],
      ends_compileOne (compileFile_coded source accepts code ?_) fun d hd => hnamed source' text d (accepts.result ▸ hd)⟩
    rw [Output.pathFor, named]
    exact (writeAssembly_wrote a usable written).after (ends_pure _)

def nameOf (answer : String) : String := String.ofList (Text.trim answer.toList)

def Fate.Shown (name : String) (x : Session (Option Nat)) (here : Location) (disk : Disk) : Fate → Prop
  | replied reply disk' => Ends x here disk (.ok none) disk' (reply.line name ++ "\n")
  | refused => Ends x here disk (.ok (some 1)) disk ""
  | escaped e => Ends x here disk (.error e) disk ""

/-- An answer that is a name is dealt with as there is a file of that name, and as compiling the file goes. -/
theorem ends_answerPrompt {r : Except Escape (Option Nat)} (hname : nameOf answer ≠ "") (hstop : nameOf answer ≠ stopWord)
    {found : Bool} (hfound : Logs (Host.isFile (.ofString (nameOf answer))) here disk found)
    (hrest : Ends (do
      if !found then
        say (nameOf answer ++ " not found")
        return none
      else
        match ← compileOne settings (nameOf answer) .beside with
        | .error fault => return some (← giveUp settings fault)
        | .ok done =>
          if done.fatal then return some 1
          else
            if done.analysis.program.isNone then say "syntax error: parsing aborted"
            else match done.output with
              | none => say "compilation aborted"
              | some path => say ("wrote " ++ path.text)
            return none) here disk r disk' said) :
    Ends (answerPrompt settings answer) here disk r disk' said := by
  have hempty : (nameOf answer).isEmpty = false := by simpa using hname
  unfold answerPrompt
  dsimp only
  rw [show String.ofList (Text.trim answer.toList) = nameOf answer from rfl, if_neg hstop, hempty,
    if_neg Bool.false_ne_true]
  exact hfound.after hrest

theorem giveUp_escapes :
    Ends (giveUp settings .numeralTooLong) here disk (.error (.fault .numeralTooLong)) disk "" :=
  ends_of_runIn fun _ _ _ => rfl

theorem Fares.found_or_missing (h : Fares settings here disk name fate) :
    (∃ bytes, Found disk here (.ofString name) bytes) ∨
      fate = .replied .missing disk ∧ ∀ bytes, ¬ Found disk here (.ofString name) bytes := by
  cases h with
  | missing absent => exact .inr ⟨rfl, absent⟩
  | undecodable found => exact .inl ⟨_, found⟩
  | tooLong source | unreadable source | faulty source | codeTooLong source | unnamable source | refused source
  | wrote source =>
    obtain ⟨bytes, -, hfound, -⟩ := source
    exact .inl ⟨bytes, hfound⟩

/-- The prompt does with a name as it fares. -/
theorem shown_of_fares (hname : nameOf answer ≠ "") (hstop : nameOf answer ≠ stopWord)
    (h : Fares settings here disk (nameOf answer) fate) :
    fate.Shown (nameOf answer) (answerPrompt settings answer) here disk := by
  have hsay : ∀ {line disk}, Ends (do say line; return none : Session (Option Nat)) here disk (.ok none) disk
      (line ++ "\n") := (ends_out _).done none
  obtain ⟨bytes, hfound⟩ | ⟨rfl, habsent⟩ := h.found_or_missing
  swap
  · exact ends_answerPrompt hname hstop (logs_isFile_absent habsent) hsay
  have hdone := compiles_of_fares h
  cases h with
  | missing absent => exact absurd hfound (absent bytes)
  | unreadable | faulty | wrote =>
    obtain ⟨done, hfatal, houtput, hprogram, hends⟩ := hdone
    refine ends_answerPrompt hname hstop hfound.logs_isFile (hends.after ?_)
    simp [hfatal, houtput, hprogram, Reply.output?]
    exact hsay
  | refused =>
    obtain ⟨done, hfatal, hends⟩ := hdone
    refine ends_answerPrompt hname hstop hfound.logs_isFile (hends.after ?_)
    simp only [hfatal, if_true]
    exact ends_pure _
  | tooLong | codeTooLong =>
    exact ends_answerPrompt hname hstop hfound.logs_isFile (hdone.2.after giveUp_escapes.escape)
  | undecodable | unnamable => exact ends_answerPrompt hname hstop hfound.logs_isFile (Ends.escape hdone)

end Answering

section Dialogues

variable {settings : Settings} {here : Location} {disk disk' : Disk} {handled rest answers : List String}
  {said said' answer name : String} {r : Except Escape Nat}

/-- A file whose text is accepted fares as its code does. -/
theorem fares_accepted {text : String} {a : Analysis} (hsource : Source disk here (.ofString name) text)
    (haccepts : Accepts text (Path.ofString name).text a) : ∃ fate, Fares settings here disk name fate := by
  obtain ⟨p, -, hdone, hstopped⟩ := haccepts.assembles settings.comments
  by_cases hwritable : Code.Writable (codeOf a p)
  · obtain ⟨⟨asm, hcode⟩, -⟩ := hdone hwritable
    by_cases htarget : ∀ target ∈ (Path.ofString name).assembly? settings, target.isUsable = false
    · exact ⟨_, .unnamable hsource haccepts hcode htarget⟩
    · obtain ⟨target, htarget, husable⟩ : ∃ target, (Path.ofString name).assembly? settings = some target ∧
          target.isUsable = true := by simpa using htarget
      cases hwrite : disk.write here target asm.toUTF8 with
      | error reason => exact ⟨_, .refused hsource haccepts hcode htarget husable hwrite⟩
      | ok disk' => exact ⟨_, .wrote hsource haccepts hcode htarget husable hwrite⟩
  · exact ⟨_, .codeTooLong hsource haccepts (hstopped hwritable).2⟩

/-- A name fares in some way. -/
theorem fares_total (settings : Settings) (here : Location) (disk : Disk) (name : String) :
    ∃ fate, Fares settings here disk name fate := by
  by_cases hfound : ∃ bytes, Found disk here (.ofString name) bytes
  · obtain ⟨bytes, hfound⟩ := hfound
    cases hraw : String.fromUTF8? bytes with
    | none => exact ⟨_, .undecodable hfound hraw⟩
    | some raw =>
      obtain ⟨text, hsource⟩ : ∃ text, Source disk here (.ofString name) text := ⟨_, bytes, raw, hfound, hraw, rfl⟩
      obtain ⟨-, hreturns | ⟨hfault, -⟩⟩ := fault_of_source text (Path.ofString name).text
      · cases hread : (Analysis.ofSource text (Path.ofString name).text).result.program with
        | none => exact ⟨_, .unreadable hsource hreturns hread⟩
        | some p =>
          cases herrors : (Analysis.ofSource text (Path.ofString name).text).result.hasErrors with
          | true => exact ⟨_, .faulty hsource hreturns hread herrors⟩
          | false => exact fares_accepted hsource ⟨hreturns, rfl, herrors⟩
      · exact ⟨_, .tooLong hsource hfault⟩
  · exact ⟨_, .missing fun bytes hbytes => hfound ⟨bytes, hbytes⟩⟩

/-- The prompt deals with answers, each of them a blank one or a name that it replies to, and asks for the next
name. What it says are its questions and one reply to each name. -/
inductive Exchanges (settings : Settings) (here : Location) : Disk → List String → String → Disk → Prop
  | none {disk : Disk} : Exchanges settings here disk [] "" disk
  | blank {disk disk' : Disk} {answer said : String} {answers : List String} (blank : nameOf answer = "")
      (rest : Exchanges settings here disk answers said disk') :
      Exchanges settings here disk (answer :: answers) (promptText ++ said) disk'
  | reply {disk disk₁ disk' : Disk} {answer said : String} {answers : List String} {reply : Reply}
      (named : nameOf answer ≠ "") (goesOn : nameOf answer ≠ stopWord)
      (fares : Fares settings here disk (nameOf answer) (.replied reply disk₁))
      (rest : Exchanges settings here disk₁ answers said disk') :
      Exchanges settings here disk (answer :: answers)
        (promptText ++ ((reply.line (nameOf answer) ++ "\n") ++ said)) disk'

/-- How the prompt ends with some answers left: when there are no more, at the word to stop, at an output that
cannot be written, and where a name makes it end without an exit code. -/
inductive Final (settings : Settings) (here : Location) (disk : Disk) : List String → Except Escape Nat → Prop
  | exhausted : Final settings here disk [] (.ok 0)
  | stopped {answer : String} {rest : List String} (stops : nameOf answer = stopWord) :
      Final settings here disk (answer :: rest) (.ok 0)
  | refused {answer : String} {rest : List String} (named : nameOf answer ≠ "")
      (goesOn : nameOf answer ≠ stopWord) (fares : Fares settings here disk (nameOf answer) .refused) :
      Final settings here disk (answer :: rest) (.ok 1)
  | escaped {answer : String} {rest : List String} {e : Escape} (named : nameOf answer ≠ "")
      (goesOn : nameOf answer ≠ stopWord) (fares : Fares settings here disk (nameOf answer) (.escaped e)) :
      Final settings here disk (answer :: rest) (.error e)

/-- The prompt asks, and ends at the answer. -/
theorem promptFor_ends {outcome : Except Escape (Option Nat)}
    (hanswer : Ends (answerPrompt settings answer) here disk outcome disk "")
    (houtcome : (∃ code, outcome = .ok (some code) ∧ r = .ok code) ∨ ∃ e, outcome = .error e ∧ r = .error e) :
    Ends (promptFor settings (answer :: rest)) here disk r disk promptText := by
  rw [← String.append_empty (s := promptText)]
  refine (ends_out promptText).bind ?_
  rcases houtcome with ⟨code, rfl, rfl⟩ | ⟨e, rfl, rfl⟩
  · exact hanswer.after (ends_pure code)
  · exact hanswer.escape

/-- The prompt asks, deals with the answer and goes on. -/
theorem promptFor_goes_on {disk₁ : Disk} (hanswer : Ends (answerPrompt settings answer) here disk (.ok none) disk₁ said)
    (hrest : Ends (promptFor settings rest) here disk₁ r disk' said') :
    Ends (promptFor settings (answer :: rest)) here disk r disk' (promptText ++ (said ++ said')) :=
  (ends_out promptText).bind (hanswer.bind hrest)

/-- A blank answer is passed over. -/
theorem answer_blank (hblank : nameOf answer = "") : Logs (answerPrompt settings answer) here disk none := by
  unfold answerPrompt
  dsimp only
  rw [show String.ofList (Text.trim answer.toList) = nameOf answer from rfl, hblank]
  exact ends_pure none

/-- The prompt ends where it is to. -/
theorem promptFor_final (hfinal : Final settings here disk rest r) :
    Ends (promptFor settings rest) here disk r disk promptText := by
  cases hfinal with
  | exhausted => exact (ends_out promptText).done 0
  | @stopped answer rest stops =>
    refine promptFor_ends ?_ (.inl ⟨0, rfl, rfl⟩)
    unfold answerPrompt
    dsimp only
    rw [show String.ofList (Text.trim answer.toList) = nameOf answer from rfl, if_pos stops]
    exact ends_pure _
  | refused named goesOn fares => exact promptFor_ends (shown_of_fares named goesOn fares) (.inl ⟨1, rfl, rfl⟩)
  | @escaped answer rest e named goesOn fares =>
    exact promptFor_ends (shown_of_fares named goesOn fares) (.inr ⟨e, rfl, rfl⟩)

/-- The prompt ends as it does where it stops, after all that comes before. -/
theorem ends_promptFor (hexchanges : Exchanges settings here disk handled said disk')
    (hfinal : Final settings here disk' rest r) :
    Ends (promptFor settings (handled ++ rest)) here disk r disk' (said ++ promptText) := by
  induction hexchanges with
  | none =>
    rw [String.empty_append]
    exact promptFor_final hfinal
  | @blank disk _ answer _ _ hblank _ ih =>
    have hpassed : Logs (answerPrompt settings answer) here disk none := answer_blank hblank
    have hrest := promptFor_goes_on hpassed (ih hfinal)
    rwa [String.empty_append, ← String.append_assoc] at hrest
  | reply hnamed hgoesOn hfares _ ih =>
    rw [String.append_assoc, String.append_assoc]
    exact promptFor_goes_on (shown_of_fares hnamed hgoesOn hfares) (ih hfinal)

/-- The prompt deals with some of the answers and then ends. -/
theorem exchanges_total (settings : Settings) (here : Location) (answers : List String) : ∀ disk,
    ∃ handled rest said disk' r, answers = handled ++ rest ∧
      Exchanges settings here disk handled said disk' ∧ Final settings here disk' rest r := by
  induction answers with
  | nil => exact fun disk => ⟨[], [], "", disk, .ok 0, rfl, .none, .exhausted⟩
  | cons answer answers ih =>
    intro disk
    by_cases hstop : nameOf answer = stopWord
    · exact ⟨[], _, "", disk, .ok 0, rfl, .none, .stopped hstop⟩
    by_cases hname : nameOf answer = ""
    · obtain ⟨handled, rest, said, disk', r, rfl, hexchanges, hfinal⟩ := ih disk
      exact ⟨answer :: handled, rest, _, disk', r, rfl, .blank hname hexchanges, hfinal⟩
    obtain ⟨fate, hfares⟩ := fares_total settings here disk (nameOf answer)
    cases fate with
    | replied reply disk₁ =>
      obtain ⟨handled, rest, said, disk', r, rfl, hexchanges, hfinal⟩ := ih disk₁
      exact ⟨answer :: handled, rest, _, disk', r, rfl, .reply hname hstop hfares hexchanges, hfinal⟩
    | refused => exact ⟨[], _, "", disk, .ok 1, rfl, .none, .refused hname hstop hfares⟩
    | escaped e => exact ⟨[], _, "", disk, .error e, rfl, .none, .escaped hname hstop hfares⟩

/-- The prompt ends with an exit code of one exactly if it comes to a file without errors whose output cannot be
written, and with zero exactly if it comes to the end of the answers or the word to stop. It ends without an
exit code exactly if it comes to a file that is not valid UTF-8 or holds or needs a number that is too long, or
whose assembly cannot be named. Before that it says one line for each name that it is given, and asks for the
next. -/
theorem prompt_ends_as_names_fare (settings : Settings) (answers : List String) (w : World) :
    (∀ r, ((promptFor settings answers : Session Nat).runIn w).1 = r ↔ ∃ handled rest said disk,
      answers = handled ++ rest ∧ Exchanges settings w.here w.disk handled said disk ∧
      Final settings w.here disk rest r) ∧
    ∀ handled rest said disk r, answers = handled ++ rest →
      Exchanges settings w.here w.disk handled said disk → Final settings w.here disk rest r →
      ((promptFor settings answers : Session Nat).runIn w).2.out = w.out ++ (said ++ promptText) ∧
      ((promptFor settings answers : Session Nat).runIn w).2.disk = disk := by
  have hends : ∀ {handled rest said disk r}, answers = handled ++ rest →
      Exchanges settings w.here w.disk handled said disk → Final settings w.here disk rest r →
      Ends (promptFor settings answers) w.here w.disk r disk (said ++ promptText) := by
    rintro handled rest said disk r rfl hexchanges hfinal
    exact ends_promptFor hexchanges hfinal
  refine ⟨fun r => ⟨fun hr => ?_, ?_⟩, ?_⟩
  · obtain ⟨handled, rest, said, disk, r', hanswers, hexchanges, hfinal⟩ :=
      exchanges_total settings w.here answers w.disk
    obtain ⟨w', hrun, -⟩ := hends hanswers hexchanges hfinal w rfl rfl
    obtain rfl : r' = r := by rw [← hr, hrun]
    exact ⟨handled, rest, said, disk, hanswers, hexchanges, hfinal⟩
  · rintro ⟨handled, rest, said, disk, hanswers, hexchanges, hfinal⟩
    obtain ⟨w', hrun, -⟩ := hends hanswers hexchanges hfinal w rfl rfl
    rw [hrun]
  · intro handled rest said disk r hanswers hexchanges hfinal
    obtain ⟨w', hrun, -, hdisk, hout⟩ := hends hanswers hexchanges hfinal w rfl rfl
    rw [hrun]
    exact ⟨hout, hdisk⟩

end Dialogues

/-- A file that is not valid UTF-8 ends the prompt without an exit code, though the user goes on. -/
theorem undecodable_file_ends_prompt : ((promptFor {} ["a.cmm", "stop"] : Session Nat).runIn
    { disk := { files := [(["a.cmm"], ⟨#[255]⟩)] }, here := [], directory := ⟨1, []⟩, time := "" }).1 =
      .error .undecodable := by
  decide +kernel

end CMinusMinus.Proofs.Prompt
