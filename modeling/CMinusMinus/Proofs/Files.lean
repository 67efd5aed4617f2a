import Mathlib.Data.List.Basic
import CMinusMinus.Session

/-!
Paths and disks. The text of a path spells the path, so that a file is found again under the name that
messages give it. Writing a file changes what is read there and nowhere else.
-/
namespace CMinusMinus.Proofs.Files

section Paths

/-- A path as a text spells it: no more separators at its start than count, and parts that are names. -/
structure Spelled (p : CMinusMinus.Path) : Prop where
  slashes : p.slashes ≤ 2
  parts : ∀ part ∈ p.parts, part ≠ "" ∧ part ≠ "." ∧ '/' ∉ part.toList

theorem not_mem_of_splitOn {c : Char} {cs part : List Char} (h : part ∈ cs.splitOn c) : c ∉ part := by
  induction cs generalizing part with
  | nil =>
    obtain rfl : part = [] := by simpa [List.splitOn_nil] using h
    exact List.not_mem_nil
  | cons d cs ih =>
    rw [List.splitOn_cons_eq_if_modifyHead] at h
    split at h
    · rcases List.mem_cons.mp h with rfl | h
      · exact List.not_mem_nil
      · exact ih h
    · rename_i hne
      cases hsplit : cs.splitOn c with
      | nil => simp [hsplit] at h
      | cons first rest =>
        rw [hsplit] at h ih
        rcases List.mem_cons.mp h with rfl | h
        · intro hc
          rcases List.mem_cons.mp hc with rfl | hc
          · simp at hne
          · exact ih List.mem_cons_self hc
        · exact ih (List.mem_cons_of_mem _ h)

theorem spelled_ofString (text : String) : Spelled (.ofString text) where
  slashes := by
    simp only [Path.ofString, Path.leading]
    split
    · exact Nat.le_refl 2
    · omega
  parts part hpart := by
    obtain ⟨hsplit, hname⟩ := List.mem_filter.mp hpart
    obtain ⟨cs, hcs, rfl⟩ := List.mem_map.mp hsplit
    refine ⟨by simp_all, by simp_all, ?_⟩
    rw [String.toList_ofList]
    exact not_mem_of_splitOn hcs

/-- The letters of the text of a path. -/
theorem toList_text {p : CMinusMinus.Path} (h : p.slashes ≠ 0 ∨ p.parts ≠ []) :
    p.text.toList = List.replicate p.slashes '/' ++ ['/'].intercalate (p.parts.map String.toList) := by
  have hpushn : ∀ n : Nat, ("".pushn '/' n).toList = List.replicate n '/' := by
    intro n
    induction n with
    | zero => rfl
    | succ n ih =>
      rw [String.pushn, Nat.repeat, String.toList_push, List.replicate_succ']
      exact congrArg (· ++ ['/']) ih
  unfold Path.text
  rw [if_neg (by simpa using fun hslashes hparts => h.elim (absurd hslashes) (absurd hparts)),
    String.toList_append, String.toList_intercalate, hpushn]
  rfl

theorem splitOn_replicate_append (c : Char) (n : Nat) (cs : List Char) :
    (List.replicate n c ++ cs).splitOn c = List.replicate n [] ++ cs.splitOn c := by
  induction n with
  | zero => rfl
  | succ n ih =>
    rw [List.replicate_succ, List.cons_append, List.splitOn_cons_eq_if_modifyHead, ih, List.replicate_succ]
    simp

/-- What the parts of a path are written as does not start with a separator. -/
theorem takeWhile_parts {parts : List String}
    (h : ∀ part ∈ parts, part ≠ "" ∧ part ≠ "." ∧ '/' ∉ part.toList) :
    (['/'].intercalate (parts.map String.toList)).takeWhile (· == '/') = [] := by
  cases parts with
  | nil => rfl
  | cons part rest =>
    obtain ⟨hne, -, hno⟩ := h part List.mem_cons_self
    cases hcs : part.toList with
    | nil => exact absurd (String.toList_eq_nil_iff.mp hcs) hne
    | cons c cs =>
      have hc : c ≠ '/' := by
        intro hc
        exact hno (by simp [hcs, hc])
      cases rest with
      | nil => simp [hcs, hc]
      | cons next rest => simp [hcs, hc, List.intercalate_cons_cons]

/-- The parts that are split off the text of a path are its parts. -/
theorem splitOn_parts {parts : List String}
    (h : ∀ part ∈ parts, part ≠ "" ∧ part ≠ "." ∧ '/' ∉ part.toList) :
    (((['/'].intercalate (parts.map String.toList)).splitOn '/').map String.ofList).filter
      (fun part => part ≠ "" && part ≠ ".") = parts := by
  cases parts with
  | nil => rfl
  | cons part rest =>
    have hsplit : (['/'].intercalate ((part :: rest).map String.toList)).splitOn '/' =
        (part :: rest).map String.toList := by
      apply List.splitOn_intercalate
      · intro cs hcs
        obtain ⟨q, hq, rfl⟩ := List.mem_map.mp hcs
        exact (h q hq).2.2
      · simp
    rw [hsplit, List.map_map, List.filter_eq_self.mpr]
    · simp [Function.comp_def]
    · intro q hq
      obtain ⟨hne, hdot, -⟩ := h q (by simpa [Function.comp_def] using hq)
      simp [hne, hdot]

/-- The text of a path spells the path. -/
theorem ofString_text {p : CMinusMinus.Path} (h : Spelled p) : Path.ofString p.text = p := by
  obtain ⟨slashes, parts⟩ := p
  by_cases hempty : slashes = 0 ∧ parts = []
  · obtain ⟨rfl, rfl⟩ := hempty
    rfl
  have htext := toList_text (p := ⟨slashes, parts⟩) (by
    by_cases hslashes : slashes = 0
    · exact .inr fun hparts => hempty ⟨hslashes, hparts⟩
    · exact .inl hslashes)
  have hslashes : Path.leading slashes = slashes := by
    have := h.slashes
    simp only at this
    unfold Path.leading
    split <;> omega
  unfold Path.ofString
  rw [htext]
  dsimp only
  congr 1
  · rw [List.takeWhile_append_of_pos (by simp), takeWhile_parts h.parts]
    simpa using hslashes
  · rw [splitOn_replicate_append, List.map_append, List.filter_append, splitOn_parts h.parts]
    simp

theorem text_ne_empty {p : CMinusMinus.Path} (h : Spelled p) : p.text ≠ "" := by
  intro hempty
  have hp : Path.ofString "" = p := by
    rw [← hempty]
    exact ofString_text h
  rw [← hp] at hempty
  exact absurd hempty (by decide)

end Paths

section Disks

variable {d d' : Disk} {here : Location} {p q : CMinusMinus.Path} {bytes old : ByteArray}

theorem lookup_cons_eq (l other : Location) (bytes : ByteArray) (files : List (Location × ByteArray)) :
    ((l, bytes) :: files).lookup other = if other = l then some bytes else files.lookup other := by
  by_cases hother : other = l
  · simp [hother]
  · rw [List.lookup_cons, beq_eq_false_iff_ne.mpr hother, if_neg hother]

theorem lookup_replace (place other : Location) (bytes : ByteArray) (files : List (Location × ByteArray)) :
    (files.map fun (l, old) => if l = place then (l, bytes) else (l, old)).lookup other =
      if other = place then (files.lookup other).map fun _ => bytes else files.lookup other := by
  induction files with
  | nil => simp
  | cons file files ih =>
    obtain ⟨l, old⟩ := file
    rw [List.map_cons, lookup_cons_eq]
    by_cases hl : l = place
    · simp only [hl, ↓reduceIte, lookup_cons_eq, ih]
      split <;> rfl
    · simp only [hl, ↓reduceIte, lookup_cons_eq, ih]
      by_cases hother : other = l
      · simp [hother, hl]
      · simp [hother]

theorem contents?_put (d : Disk) (place other : Location) (bytes : ByteArray) :
    (d.put place bytes).contents? other = if other = place then some bytes else d.contents? other := by
  unfold Disk.put
  split
  · rename_i hsome
    obtain ⟨old, hold⟩ := Option.isSome_iff_exists.mp hsome
    have hold : d.files.lookup place = some old := hold
    refine (lookup_replace place other bytes d.files).trans ?_
    by_cases hother : other = place
    · simp [hother, hold]
    · simp [hother, Disk.contents?]
  · rename_i hnone
    have hnone : d.files.lookup place = none := Option.not_isSome_iff_eq_none.mp hnone
    simp only [Disk.contents?, List.lookup_append, lookup_cons_eq, List.lookup_nil]
    by_cases hother : other = place
    · simp [hother, hnone]
    · simp [hother]

theorem isDirectory_put (d : Disk) (place other : Location) (bytes : ByteArray) :
    (d.put place bytes).isDirectory other = d.isDirectory other := by
  unfold Disk.put
  split <;> rfl

/-- Where a path leads depends on the directories only. -/
theorem walk_eq_ok (h : ∀ place, d'.isDirectory place = d.isDirectory place) {goal : Location}
    {parts : List String} : ∀ {start : Location}, d'.walk start parts = .ok goal ↔ d.walk start parts = .ok goal := by
  induction parts with
  | nil => exact Iff.rfl
  | cons part rest ih =>
    intro start
    rw [Disk.walk, Disk.walk, h]
    split
    · exact ih
    · constructor
      · intro hwalk
        split at hwalk <;> simp at hwalk
      · intro hwalk
        split at hwalk <;> simp at hwalk

theorem locate_eq_ok (h : ∀ place, d'.isDirectory place = d.isDirectory place) {goal : Location} :
    d'.locate here p = .ok goal ↔ d.locate here p = .ok goal := walk_eq_ok h

theorem read_eq_ok : d.read here p = .ok bytes ↔ ∃ place, d.locate here p = .ok place ∧ d.contents? place = some bytes := by
  unfold Disk.read
  cases d.locate here p with
  | error e => simp [bind, Except.bind]
  | ok place => cases hplace : d.contents? place <;> simp [bind, Except.bind, hplace]

theorem write_eq_ok : d.write here p bytes = .ok d' ↔
    ∃ place, d.locate here p = .ok place ∧ d.isDirectory place = false ∧ d.put place bytes = d' := by
  unfold Disk.write
  cases d.locate here p with
  | error e => simp [bind, Except.bind]
  | ok place => cases hplace : d.isDirectory place <;> simp [bind, Except.bind, hplace]

/-- Once a file is written, what is read of a file is what was written, or what was there before. -/
theorem read_of_write (hwrite : d.write here p bytes = .ok d') (hread : d.read here q = .ok old) :
    d'.read here q = .ok bytes ∨ d'.read here q = .ok old := by
  obtain ⟨place, -, -, rfl⟩ := write_eq_ok.mp hwrite
  obtain ⟨goal, hgoal, hold⟩ := read_eq_ok.mp hread
  have hgoal' := (locate_eq_ok fun other => isDirectory_put d place other bytes).mpr hgoal
  by_cases hsame : goal = place
  · exact .inl (read_eq_ok.mpr ⟨goal, hgoal', by rw [contents?_put, if_pos hsame]⟩)
  · exact .inr (read_eq_ok.mpr ⟨goal, hgoal', by rw [contents?_put, if_neg hsame, hold]⟩)

end Disks

end CMinusMinus.Proofs.Files
