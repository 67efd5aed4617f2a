import CMinusMinus.Analysis.Frames
import CMinusMinus.Proofs.Checking
import CMinusMinus.Proofs.Slots

/-!
Frame layout. The variables of a function get slots one after the other from the first offset on, and
nothing else changes: no other symbol, and of the variables themselves only the offsets. Since no two
functions declare one variable, the slots of each function are still in place when all are laid out.
-/
namespace CMinusMinus.Proofs.Framing

open Frames WellFormed Naming Checking

section Arenas

variable {arena : Arena} {i j : Int} {v : Variable}

theorem get?_set {old new : Symbol} (h : arena.get? i = some old) :
    (arena.set i new).get? j = if j = i then some new else arena.get? j := by
  cases i with
  | negSucc n => cases h
  | ofNat n =>
    have hn : n < arena.symbols.size := (Array.getElem?_eq_some_iff.mp h).1
    cases j with
    | ofNat m =>
      simp only [Arena.get?, Arena.set, Array.getElem?_setIfInBounds, Int.ofNat_eq_natCast,
        Int.natCast_inj]
      by_cases hmn : m = n
      · simp [hmn, hn]
      · simp [hmn, Ne.symm hmn]
    | negSucc m =>
      have hne : ¬ Int.negSucc m = Int.ofNat n := by simp
      rw [if_neg hne]
      rfl

/-- Another offset is no other shape. -/
theorem shape_set (h : arena.get? i = some (.var v)) (offset : Int) :
    shape (arena.set i (.var { v with offset })) = shape arena := by
  funext j
  simp only [shape, get?_set h]
  split
  · rename_i hj
    rw [hj, h]
    rfl
  · rfl

def Laid (arena : Arena) : List Int → Int → Int → Prop
  | [], low, high => low = high
  | i :: rest, low, high => ∃ v, arena.get? i = some (.var v) ∧ v.isGlobal = false ∧ v.offset = low ∧
      0 ≤ v.size ∧ Laid arena rest (low + v.size) high

theorem Laid.congr {arena' : Arena} {slots : List Int} : ∀ {low high : Int},
    Laid arena slots low high → (∀ i ∈ slots, arena'.get? i = arena.get? i) →
    Laid arena' slots low high := by
  induction slots with
  | nil => exact fun h _ => h
  | cons i rest ih =>
    rintro low high ⟨v, hv, hlocal, hoffset, hsize, hrest⟩ hsame
    exact ⟨v, by rw [hsame i (by simp), hv], hlocal, hoffset, hsize,
      ih hrest fun j hj => hsame j (by simp [hj])⟩

theorem Laid.range {slots : List Int} : ∀ {low high : Int}, Laid arena slots low high → low ≤ high ∧
    ∀ i ∈ slots, ∃ v, arena.get? i = some (.var v) ∧ v.isGlobal = false ∧ low ≤ v.offset ∧
      v.offset + v.size ≤ high := by
  induction slots with
  | nil =>
    rintro low _ rfl
    exact ⟨Int.le_refl _, by simp⟩
  | cons i rest ih =>
    rintro low high ⟨v, hv, hlocal, rfl, hsize, hrest⟩
    obtain ⟨hle, hall⟩ := ih hrest
    refine ⟨by omega, fun j hj => ?_⟩
    rcases List.mem_cons.mp hj with rfl | hj
    · exact ⟨v, hv, hlocal, Int.le_refl _, hle⟩
    · obtain ⟨u, hu, hulocal, hlow, hhigh⟩ := hall j hj
      exact ⟨u, hu, hulocal, by omega, hhigh⟩

/-- Variables that lie one after the other have slots of their own. -/
theorem Laid.separate {slots : List Int} {frame : Int} (h : Laid arena slots firstOffset (firstOffset + frame)) :
    0 ≤ frame ∧ Separate arena frame slots := by
  have hfirst : firstOffset = 8 := rfl
  obtain ⟨hle, hall⟩ := h.range
  refine ⟨by omega, fun i hi => ?_, ?_⟩
  · obtain ⟨v, hv, hlocal, hlow, hhigh⟩ := hall i hi
    exact ⟨v, hv, hlocal, by omega, by omega⟩
  · have hpairs : ∀ {slots : List Int} {low high : Int}, Laid arena slots low high →
        slots.Pairwise (Apart arena) := by
      intro slots
      induction slots with
      | nil => exact fun _ => .nil
      | cons i rest ih =>
        rintro low high ⟨v, hv, hlocal, rfl, hsize, hrest⟩
        refine .cons (fun j hj u w hu hw => ?_) (ih hrest)
        obtain ⟨w', hw', -, hlow, -⟩ := hrest.range.2 j hj
        obtain rfl : v = u := by simpa [hv] using hu
        obtain rfl : w' = w := by simpa [hw'] using hw
        exact .inl hlow
    exact hpairs h

end Arenas

def Sized (σ : Symbols) : Prop := ∀ {i v}, σ i = some (.var v) → 0 ≤ v.size

/-- The arena after some variables have got slots one after the other from an offset on, and the next offset. -/
def placing (arena : Arena) (next : Int) : List Int → Arena × Int
  | [] => (arena, next)
  | i :: slots =>
    match arena.get? i with
    | some (.var v) => placing (arena.set i (.var { v with offset := next })) (next + v.size) slots
    | _ => placing arena next slots

/-- What laying out some variables does. -/
structure Lays (arena arena' : Arena) (slots : List Int) (low high : Int) : Prop where
  shape : shape arena' = shape arena
  others : ∀ i ∉ slots, arena'.get? i = arena.get? i
  laid : slots.Nodup → Sized (WellFormed.shape arena) → Laid arena' slots low high

section Layout

variable {s : State} {arena : Arena}

/-- A slot is one of a local variable. -/
def IsLocal (σ : Symbols) (i : Int) : Prop := ∃ v, σ i = some (.var v) ∧ v.isGlobal = false

theorem local_of_shape {i : Int} (h : IsLocal (shape arena) i) :
    ∃ v, arena.get? i = some (.var v) ∧ v.isGlobal = false := by
  obtain ⟨v, hv, hlocal⟩ := h
  obtain ⟨symbol, hsymbol, hunplaced⟩ := Option.map_eq_some_iff.mp hv
  cases symbol with
  | var u =>
    obtain rfl := Symbol.var.inj hunplaced
    exact ⟨u, hsymbol, hlocal⟩
  | func f => cases hunplaced
  | struct d => cases hunplaced

theorem lays_placing : (slots : List Int) → ∀ {arena : Arena} (next : Int), (∀ i ∈ slots, IsLocal (shape arena) i) →
    Lays arena (placing arena next slots).1 slots next (placing arena next slots).2
  | [], _, _, _ => ⟨rfl, fun _ _ => rfl, fun _ _ => rfl⟩
  | i :: slots, arena, next, h => by
    obtain ⟨hi, hslots⟩ := List.forall_mem_cons.mp h
    obtain ⟨v, hv, hlocal⟩ := local_of_shape hi
    have hshape := shape_set hv next
    rw [← hshape] at hslots
    have hrest := lays_placing slots (next + v.size) hslots
    simp only [placing, hv]
    refine ⟨hrest.shape.trans hshape, fun j hj => ?_, fun hnodup hsized => ?_⟩
    · rw [List.mem_cons, not_or] at hj
      rw [hrest.others j hj.2, get?_set hv, if_neg hj.1]
    · obtain ⟨hnew, hnodup⟩ := List.nodup_cons.mp hnodup
      have hsize : 0 ≤ v.size := hsized (i := i) (v := { v with offset := 0 }) (by simp [shape, hv, unplaced])
      refine ⟨{ v with offset := next }, ?_, hlocal, rfl, hsize, hrest.laid hnodup (by rwa [hshape])⟩
      rw [hrest.others i hnew, get?_set hv, if_pos rfl]

/-- Declared variables get their slots in order. -/
theorem placeAll_eq {ds : List VarDecl} : ∀ {s : State}, s.fault = none → (∀ d ∈ ds, SlotOk (shape s.arena) d) →
    placeAll ds s = ((), { s with arena := (placing s.arena s.next (declSlots ds)).1
                                  next := (placing s.arena s.next (declSlots ds)).2 }) := by
  induction ds with
  | nil => exact fun _ _ => rfl
  | cons d ds ih =>
    intro s h hslots
    obtain ⟨hd, hds⟩ := List.forall_mem_cons.mp hslots
    show placeAll ds (place d.name s).2 = _
    have hplace : place d.name s = (if s.fault.isSome then pure () else _ : FramesM Unit) s := rfl
    rw [hplace, if_neg (by simp [h])]
    rcases hd with hnone | ⟨i, v, hi, hv⟩
    · simp only [hnone, declSlots, List.filterMap_cons]
      exact ih h hds
    · obtain ⟨u, hu, hlocal⟩ := local_of_shape ⟨v, hv⟩
      simp only [hi, hu, declSlots, List.filterMap_cons, placing]
      rw [if_neg (by simp [hlocal])]
      exact ih (s := { s with arena := s.arena.set i (.var { u with offset := s.next }), next := s.next + u.size }) h
        (by rwa [shape_set hu])

theorem placeAll_append (ds es : List VarDecl) :
    placeAll (ds ++ es) = (do placeAll ds; placeAll es) := by
  simp only [placeAll, List.forM_eq_forM, List.forM_append]

mutual

theorem stmt_eq : (st : Stmt) → Frames.stmt st = placeAll (stmtDecls st)
  | .ifThen _ _ body | .loop _ _ body => by rw [Frames.stmt, stmtDecls, block_eq]
  | .ifElse _ _ body other => by
    rw [Frames.stmt, stmtDecls, placeAll_append, block_eq, block_eq]
  | .assign .. | .increment .. | .decrement .. | .read .. | .write .. | .call .. | .ret ..
  | .misfit .. => by simp [Frames.stmt, stmtDecls, placeAll]

theorem stmts_eq : (ss : List Stmt) → Frames.stmts ss = placeAll (stmtsDecls ss)
  | [] => by rw [Frames.stmts, stmtsDecls]; rfl
  | st :: ss => by rw [Frames.stmts, stmtsDecls, placeAll_append, stmt_eq, stmts_eq]

theorem block_eq : (b : Block) → Frames.block b = placeAll (blockDecls b)
  | .mk _ decls body => by rw [Frames.block, blockDecls, placeAll_append, stmts_eq]

end

/-- Where the frame of a function is replaced, the others stay. -/
theorem lookup_replaced {frames : List (String × Int)} {name other : String} {size : Int} :
    (frames.map fun (n, m) => if n = name then (n, size) else (n, m)).lookup other =
      if other = name then (frames.lookup name).map fun _ => size else frames.lookup other := by
  induction frames with
  | nil => simp
  | cons p frames ih =>
    obtain ⟨n, m⟩ := p
    by_cases hn : n = name
    · subst hn
      by_cases hother : other = n
      · simp [hother]
      · have hbeq : (other == n) = false := by simpa using hother
        simp only [List.map_cons, if_true, List.lookup_cons, hbeq, ih, hother, if_false]
    · by_cases hother : other = n
      · subst hother
        simp [hn]
      · have hbeq : (other == n) = false := by simpa using hother
        have hbeq' : (name == n) = false := by simpa using Ne.symm hn
        simp only [List.map_cons, hn, if_false, List.lookup_cons, hbeq, hbeq', ih]

theorem lookup_setFrame {frames : List (String × Int)} {name other : String} {size : Int} :
    (setFrame frames name size).lookup other =
      if other = name then some size else frames.lookup other := by
  unfold setFrame
  split
  · rename_i hsome
    rw [lookup_replaced]
    obtain ⟨m, hm⟩ := Option.isSome_iff_exists.mp hsome
    rw [hm]
    rfl
  · rename_i hnone
    have hnone : frames.lookup name = none := Option.not_isSome_iff_eq_none.mp hnone
    rw [List.lookup_append]
    by_cases hother : other = name
    · simp [hother, hnone]
    · have hbeq : (other == name) = false := by simpa using hother
      simp [List.lookup_cons, hbeq, hother]

end Layout

/-- What laying out declarations does. -/
structure Framed (s s' : State) (ds : List Decl) : Prop where
  fault : s'.fault = none
  shape : shape s'.arena = shape s.arena
  others : ∀ i ∉ declSlots (ds.flatMap localsOf), s'.arena.get? i = s.arena.get? i
  names : ∀ name ∉ ds.map declName, s'.frames.lookup name = s.frames.lookup name
  functions : (declSlots (ds.flatMap localsOf)).Nodup → Sized (WellFormed.shape s.arena) →
    (ds.map declName).Nodup → ∀ d, .fn d ∈ ds → ∃ frame,
      s'.frames.lookup d.name.name = some frame ∧
      Laid s'.arena (declSlots (fnDecls d)) firstOffset (firstOffset + frame)

/-- The state after a declaration has been laid out. -/
def laidOut (s : State) : Decl → State
  | .fn d =>
    let r := placing s.arena firstOffset (declSlots (fnDecls d))
    { s with arena := r.1, next := r.2, frames := setFrame s.frames d.name.name (r.2 - firstOffset) }
  | .var _ | .struct _ | .misfit .. => s

section Programs

variable {s s' s'' : State}

theorem Framed.refl (h : s.fault = none) : Framed s s [] :=
  ⟨h, rfl, fun _ _ => rfl, fun _ _ => rfl, fun _ _ _ _ hd => (by cases hd)⟩

/-- A declaration without local variables needs no slots. -/
theorem Framed.skip (h : s.fault = none) {d : Decl} (hd : ∀ e, d ≠ .fn e) : Framed s s [d] :=
  ⟨h, rfl, fun _ _ => rfl, fun _ _ => rfl, fun _ _ _ e he => by
    obtain rfl : .fn e = d := by simpa using he
    exact absurd rfl (hd e)⟩

theorem local_slots {ds : List VarDecl} {σ : Symbols} (h : ∀ d ∈ ds, SlotOk σ d) : ∀ i ∈ declSlots ds, IsLocal σ i := by
  intro i hi
  obtain ⟨d, hd, hbinding⟩ := List.mem_filterMap.mp hi
  rcases h d hd with hnone | ⟨j, v, hj, hv⟩
  · simp [hnone] at hbinding
  · obtain rfl : j = i := by simpa [hj] using hbinding
    exact ⟨v, hv⟩

/-- A declaration is laid out. -/
theorem decl_laidOut (h : s.fault = none) {d : Decl} (hslots : Slotted (shape s.arena) d) :
    Frames.decl d s = ((), laidOut s d) ∧ Framed s (laidOut s d) [d] := by
  cases d with
  | var d | struct d => exact ⟨rfl, .skip h (by simp)⟩
  | misfit span kind => exact hslots.elim
  | fn d =>
    have hslots : ∀ v ∈ fnDecls d, SlotOk (shape s.arena) v := hslots
    have hlays := lays_placing _ firstOffset (local_slots hslots)
    have hlocals : [Decl.fn d].flatMap localsOf = fnDecls d := by simp [localsOf]
    refine ⟨?_, h, hlays.shape, hlocals ▸ hlays.others, fun name hname => ?_, fun hnodup hsized _ e he => ?_⟩
    · have hplaced := placeAll_eq (s := { s with next := firstOffset }) h hslots
      rw [fnDecls, placeAll_append, ← block_eq, ← fnDecls] at hplaced
      have hfn : Frames.decl (.fn d) s = (modify fun s => if s.fault.isSome then s else
          { s with frames := setFrame s.frames d.name.name (s.next - firstOffset) } : FramesM Unit)
            ((do placeAll d.formals; Frames.block d.body) { s with next := firstOffset }).2 := rfl
      rw [hfn, hplaced]
      show ((), if s.fault.isSome then _ else _) = _
      rw [if_neg (by simp [h])]
      rfl
    · show (setFrame s.frames _ _).lookup name = _
      rw [lookup_setFrame, if_neg (by simpa [declName] using hname)]
    · obtain rfl : e = d := by simpa using he
      rw [hlocals] at hnodup
      refine ⟨_, lookup_setFrame.trans (if_pos rfl), ?_⟩
      rw [Int.add_comm, Int.sub_add_cancel]
      exact hlays.laid hnodup hsized

theorem Framed.append {ds es : List Decl} (h : Framed s s' ds) (h' : Framed s' s'' es) :
    Framed s s'' (ds ++ es) where
  fault := h'.fault
  shape := h'.shape.trans h.shape
  others i hi := by
    rw [List.flatMap_append, declSlots_append, List.mem_append, not_or] at hi
    rw [h'.others i hi.2, h.others i hi.1]
  names name hname := by
    rw [List.map_append, List.mem_append, not_or] at hname
    rw [h'.names name hname.2, h.names name hname.1]
  functions hslots hsized hnames d hd := by
    rw [List.flatMap_append, declSlots_append, List.nodup_append] at hslots
    rw [List.map_append, List.nodup_append] at hnames
    rcases List.mem_append.mp hd with hd | hd
    · obtain ⟨frame, hlookup, hlaid⟩ := h.functions hslots.1 hsized hnames.1 d hd
      refine ⟨frame, ?_, hlaid.congr fun i hi => h'.others i fun hi' => ?_⟩
      · rw [h'.names, hlookup]
        intro hmem
        exact hnames.2.2 _ (List.mem_map.mpr ⟨_, hd, rfl⟩) _ hmem rfl
      · refine hslots.2.2 i ?_ i hi' rfl
        obtain ⟨v, hv, hi⟩ := List.mem_filterMap.mp hi
        exact List.mem_filterMap.mpr ⟨v, List.mem_flatMap.mpr ⟨_, hd, hv⟩, hi⟩
    · exact h'.functions hslots.2.1 (by rw [h.shape]; exact hsized) hnames.2.1 d hd

/-- The declarations of a program are laid out. -/
theorem decls_laidOut {ds : List Decl} : ∀ {s : State}, s.fault = none → (∀ d ∈ ds, Slotted (shape s.arena) d) →
    ds.forM Frames.decl s = ((), ds.foldl laidOut s) ∧ Framed s (ds.foldl laidOut s) ds := by
  induction ds with
  | nil => exact fun h _ => ⟨rfl, .refl h⟩
  | cons d ds ih =>
    intro s h hslots
    obtain ⟨hd, hds⟩ := List.forall_mem_cons.mp hslots
    obtain ⟨hfirst, hframed⟩ := decl_laidOut h hd
    obtain ⟨hrest, hframed'⟩ := ih hframed.fault (by rwa [hframed.shape])
    refine ⟨?_, hframed.append hframed'⟩
    show ds.forM Frames.decl (Frames.decl d s).2 = _
    rw [hfirst, hrest, List.foldl_cons]

end Programs

end CMinusMinus.Proofs.Framing
