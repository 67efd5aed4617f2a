import CMinusMinus.Proofs.Labels
import CMinusMinus.Proofs.Placement
import CMinusMinus.Proofs.Rendering

/-!
Code that has been loaded stands in its place. Loading a part of the code changes nothing that was
loaded before it, as long as its label is new; so each part is found in the end where it was put,
and data lie one after the other.
-/
namespace CMinusMinus.Proofs.Loading

open Assembly Machine
open Code (Item labels)
open Rendering

/-- The label that a part of the code sets among the instructions. -/
def textName? : Item → Option String
  | .label name _ => some name
  | _ => none

/-- The label that a part of the code sets among the data, and the bytes that it takes there. -/
def extent? : Item → Option (String × Int)
  | .literal name text => some (name, ((Machine.unescape text.toList).length + 4 : Nat) / 4 * 4)
  | .global name words => some (name, bytesOf words)
  | _ => none

def textNames (items : List Item) : List String := items.filterMap textName?

/-- The labels that code sets among the data, with the bytes that each of them takes. -/
def extents (items : List Item) : List (String × Int) := items.filterMap extent?

/-- An image that has what another one has, but for some labels of its text and of its data. -/
structure Grows (texts data : List String) (image image' : Image) : Prop where
  text : ∀ n < image.text.size, image'.text[n]? = image.text[n]?
  textLabels : ∀ x ∉ texts, image'.textLabels[x]? = image.textLabels[x]?
  dataLabels : ∀ x ∉ data, image'.dataLabels[x]? = image.dataLabels[x]?
  texts : ∀ a < image.dataNext, image'.texts[a]? = image.texts[a]?
  dataNext : image.dataNext ≤ image'.dataNext
  size : image.text.size ≤ image'.text.size

theorem Grows.refl {texts data : List String} (image : Image) : Grows texts data image image :=
  ⟨fun _ _ => rfl, fun _ _ => rfl, fun _ _ => rfl, fun _ _ => rfl, Int.le_refl _, Nat.le_refl _⟩

theorem Grows.trans {texts texts' data data' : List String} {image image' image'' : Image}
    (h : Grows texts data image image') (h' : Grows texts' data' image' image'') :
    Grows (texts ++ texts') (data ++ data') image image'' where
  text n hn := (h'.text n (Nat.lt_of_lt_of_le hn h.size)).trans (h.text n hn)
  textLabels x hx := by
    simp only [List.mem_append, not_or] at hx
    exact (h'.textLabels x hx.2).trans (h.textLabels x hx.1)
  dataLabels x hx := by
    simp only [List.mem_append, not_or] at hx
    exact (h'.dataLabels x hx.2).trans (h.dataLabels x hx.1)
  texts a ha := (h'.texts a (Int.lt_of_lt_of_le ha h.dataNext)).trans (h.texts a ha)
  dataNext := Int.le_trans h.dataNext h'.dataNext
  size := Nat.le_trans h.size h'.size

section Words

theorem words_eq (image : Image) (value : Int) (n : Nat) :
    (image.words value n).text = image.text ∧ (image.words value n).textLabels = image.textLabels ∧
    (image.words value n).dataLabels = image.dataLabels ∧ (image.words value n).texts = image.texts ∧
    (image.words value n).dataNext = image.dataNext + 4 * n := by
  induction n generalizing image with
  | zero => simp [Image.words]
  | succ n ih =>
    obtain ⟨h₁, h₂, h₃, h₄, h₅⟩ :=
      ih { image with memory := image.memory.insert image.dataNext value,
                      dataNext := image.dataNext + 4 }
    rw [Image.words]
    refine ⟨h₁, h₂, h₃, h₄, h₅.trans ?_⟩
    simp only
    omega

def Blank (image : Image) : Prop := ∀ a, image.memory.getD a 0 = 0

theorem blank_words (image : Image) (n : Nat) (h : Blank image) : Blank (image.words 0 n) := by
  induction n generalizing image with
  | zero => exact h
  | succ n ih =>
    refine ih _ fun a => ?_
    simp [Std.TreeMap.getD_insert, h a]

end Words

/-- What has room at the end of the data, from the next multiple of four on. -/
structure Added (image image' : Image) (name : String) (words : Option Int) : Prop where
  text : image'.text = image.text
  textLabels : image'.textLabels = image.textLabels
  dataLabels : image'.dataLabels = image.dataLabels.insert name image.aligned
  texts : image'.texts = image.texts
  low : image.dataNext ≤ image.aligned
  room : image.aligned + bytesOf words ≤ image'.dataNext
  high : image.aligned ≤ image'.dataNext

theorem added_global (image : Image) (name : String) (words : Option Int) :
    Added image (image.addGlobal name words) name words := by
  have hlow : image.dataNext ≤ image.aligned := by
    simp only [Image.aligned]
    omega
  cases words with
  | none => exact ⟨rfl, rfl, rfl, rfl, hlow, by simp [Image.addGlobal, bytesOf],
      by simp only [Image.addGlobal]; omega⟩
  | some n =>
    unfold Image.addGlobal
    dsimp only
    split
    · exact ⟨rfl, rfl, rfl, rfl, hlow, by simp [bytesOf]; omega, Int.le_refl _⟩
    · obtain ⟨h₁, h₂, h₃, h₄, h₅⟩ := words_eq { image with
        dataNext := image.aligned
        dataLabels := image.dataLabels.insert name image.aligned } 0 n.toNat
      refine ⟨h₁, h₂, h₃, h₄, hlow, ?_, ?_⟩
      · rw [h₅]; simp only [bytesOf, Option.getD_some]; omega
      · rw [h₅]; simp only; omega

theorem blank_added {image : Image} (h : Blank image) (name : String) (words : Option Int) :
    Blank (image.addGlobal name words) := by
  cases words with
  | none => exact h
  | some n =>
    unfold Image.addGlobal
    dsimp only
    split
    · exact h
    · exact blank_words _ _ h

/-- A part of the code can be written, loaded and carried out. -/
structure Ready (i : Item) : Prop where
  ok : ItemOk i
  legible : ∀ {instr comment}, i = .op instr comment → Legible instr
  writable : ∀ n ∈ i.numbers, Text.isWritable n

def dataAfter (inData : Bool) : Item → Bool
  | .literal .. | .start _ => false
  | .global .. => true
  | _ => inData

/-- Labels of instructions stand where labels belong to the instructions. -/
def Sectioned : Bool → List Item → Prop
  | _, [] => True
  | inData, i :: is => ((textName? i).isSome → inData = false) ∧ Sectioned (dataAfter inData i) is

variable {n : Nat} {l : Loading} {i : Item} {image image' : Image}

theorem inData_loaded (n : Nat) (l : Loading) (i : Item) :
    (itemLoaded n l i).inData = dataAfter l.inData i := by
  cases i with
  | label name comment =>
    simp only [itemLoaded, Loading.label, dataAfter]
    split <;> rfl
  | _ => rfl

/-- What loading a part of the code adds to an image. -/
theorem grows_item (n : Nat) (hsection : (textName? i).isSome → l.inData = false) :
    Grows (textNames [i]) ((extents [i]).map Prod.fst) l.image (itemLoaded n l i).image := by
  cases i with
  | op i comment =>
    refine ⟨fun k hk => ?_, fun _ _ => rfl, fun _ _ => rfl, fun _ _ => rfl, Int.le_refl _, ?_⟩
    · simp [itemLoaded, Array.getElem?_push, Nat.ne_of_lt hk]
    · simp [itemLoaded]
  | label name comment =>
    have hin := hsection rfl
    rw [itemLoaded, Loading.label, if_neg (by simp [hin])]
    refine ⟨fun _ _ => rfl, fun x hx => ?_, fun _ _ => rfl, fun _ _ => rfl, Int.le_refl _,
      Nat.le_refl _⟩
    have hne : ¬ name = x := by
      rintro rfl
      simp [textNames, textName?] at hx
    simp [Std.TreeMap.getElem?_insert, hne]
  | literal name text =>
    refine ⟨fun _ _ => rfl, fun _ _ => rfl, fun x hx => ?_, fun a ha => ?_, ?_, Nat.le_refl _⟩
    · have hne : ¬ name = x := by
        rintro rfl
        simp [extents, extent?] at hx
      simp [itemLoaded, Image.addText, Std.TreeMap.getElem?_insert, hne]
    · have hne : ¬ l.image.dataNext = a := by omega
      simp [itemLoaded, Image.addText, Std.TreeMap.getElem?_insert, hne]
    · simp only [itemLoaded, Image.addText]
      omega
  | global name words =>
    have hadded := added_global l.image name words
    refine ⟨fun k _ => by rw [itemLoaded, hadded.text], fun x _ => by rw [itemLoaded, hadded.textLabels],
      fun x hx => ?_, fun a _ => by rw [itemLoaded, hadded.texts],
      Int.le_trans hadded.low hadded.high, Nat.le_of_eq (by rw [itemLoaded, hadded.text])⟩
    have hne : ¬ name = x := by
      rintro rfl
      simp [extents, extent?] at hx
    rw [itemLoaded, hadded.dataLabels]
    simp [Std.TreeMap.getElem?_insert, hne]
  | start isMain => exact Grows.refl _
  | note name size => exact Grows.refl _

/-- A part of the code stands in its place as soon as it is loaded. -/
theorem placed_item (n : Nat) (h : Ready i) (hsection : (textName? i).isSome → l.inData = false)
    (hdata : dataBase ≤ l.image.dataNext) :
    ItemAt (itemLoaded n l i).image l.image.text.size i := by
  cases i with
  | op instr comment =>
    exact ⟨h.legible rfl, h.writable, n, by simp [itemLoaded, Image.fetch?]⟩
  | label name comment =>
    have hin := hsection rfl
    refine ⟨l.image.text.size, ?_, rfl⟩
    simp [itemLoaded, Loading.label, hin]
  | literal name text =>
    refine ⟨l.image.dataNext, by simp [itemLoaded, Image.addText], hdata, ?_, ?_⟩
    · simp only [itemLoaded, Image.addText]
      omega
    · simp [itemLoaded, Image.addText]
  | global name words =>
    have hadded := added_global l.image name words
    refine ⟨l.image.aligned, ?_, Int.le_trans hdata hadded.low, hadded.room⟩
    simp [itemLoaded, hadded.dataLabels]
  | start isMain => trivial
  | note name size => trivial

/-- What stands in its place stays there. -/
theorem itemAt_grows {texts data : List String} {pc : Int} (h : ItemAt image pc i)
    (hgrows : Grows texts data image image') (htext : ∀ x, textName? i = some x → x ∉ texts)
    (hdata : ∀ p, extent? i = some p → p.1 ∉ data) : ItemAt image' pc i := by
  cases i with
  | op instr comment =>
    obtain ⟨hlegible, hwritable, line, hfetch⟩ := h
    refine ⟨hlegible, hwritable, line, ?_⟩
    cases pc with
    | ofNat k =>
      have hfetch : image.text[k]? = some ⟨instr.opcode, instr.operands, line⟩ := hfetch
      exact (hgrows.text k (Array.getElem?_eq_some_iff.mp hfetch).1).trans hfetch
    | negSucc k => cases hfetch
  | label name comment =>
    obtain ⟨k, hk, hpc⟩ := h
    exact ⟨k, (hgrows.textLabels name (htext name rfl)).trans hk, hpc⟩
  | literal name text =>
    obtain ⟨a, ha, hlow, hhigh, htexts⟩ := h
    exact ⟨a, (hgrows.dataLabels name (hdata _ rfl)).trans ha, hlow,
      Int.lt_of_lt_of_le hhigh hgrows.dataNext, (hgrows.texts a hhigh).trans htexts⟩
  | global name words =>
    obtain ⟨a, ha, hlow, hhigh⟩ := h
    exact ⟨a, (hgrows.dataLabels name (hdata _ rfl)).trans ha, hlow,
      Int.le_trans hhigh hgrows.dataNext⟩
  | start isMain => trivial
  | note name size => trivial

theorem size_loaded (n : Nat) (l : Loading) (i : Item) :
    ((itemLoaded n l i).image.text.size : Int) = l.image.text.size + i.width := by
  cases i with
  | op instr comment => simp [itemLoaded, Item.width]
  | label name comment =>
    simp only [itemLoaded, Loading.label, Item.width]
    split <;> simp
  | literal name text => simp [itemLoaded, Image.addText, Item.width]
  | global name words => simp [itemLoaded, (added_global l.image name words).text, Item.width]
  | start isMain => simp [itemLoaded, Item.width]
  | note name size => simp [itemLoaded, Item.width]

theorem textNames_cons (i : Item) (is : List Item) :
    textNames (i :: is) = textNames [i] ++ textNames is := by
  simp [textNames, List.filterMap_cons]
  split <;> rfl

theorem extents_cons (i : Item) (is : List Item) : extents (i :: is) = extents [i] ++ extents is := by
  simp [extents, List.filterMap_cons]
  split <;> rfl

/-- What loading some code adds to an image. -/
theorem grows_items (comments : Bool) {items : List Item} : ∀ {n : Nat} {l : Loading},
    Sectioned l.inData items → Grows (textNames items) ((extents items).map Prod.fst) l.image
      (itemsLoaded comments n l items).image := by
  induction items with
  | nil => exact fun _ => Grows.refl _
  | cons i is ih =>
    rintro n l ⟨hsection, hrest⟩
    rw [textNames_cons, extents_cons, List.map_append]
    refine (grows_item n hsection).trans (ih ?_)
    rw [inData_loaded]
    exact hrest

theorem textName?_mem {x : String} {is : List Item} (h : x ∈ textNames is) : x ∈ labels is := by
  obtain ⟨i, hi, hx⟩ := List.mem_filterMap.mp h
  refine List.mem_filterMap.mpr ⟨i, hi, ?_⟩
  cases i <;> simp_all [textName?, Item.label?]

theorem extent?_mem {x : String} {is : List Item} (h : x ∈ (extents is).map Prod.fst) :
    x ∈ labels is := by
  obtain ⟨p, hp, rfl⟩ := List.mem_map.mp h
  obtain ⟨i, hi, hx⟩ := List.mem_filterMap.mp hp
  refine List.mem_filterMap.mpr ⟨i, hi, ?_⟩
  cases i <;> simp_all [extent?, Item.label?] <;> grind

/-- The label of a part of the code is not set again in the rest. -/
theorem label_not_mem {i : Item} {is : List Item} {x : String} (h : (labels (i :: is)).Nodup)
    (hx : i.label? = some x) : x ∉ labels is := by
  simp only [labels, List.filterMap_cons, hx] at h
  exact (List.nodup_cons.mp h).1

/-- Loaded code stands in its place. -/
theorem codeAt_items (comments : Bool) {items : List Item} : ∀ {n : Nat} {l : Loading},
    (∀ i ∈ items, Ready i) → (labels items).Nodup → Sectioned l.inData items →
    dataBase ≤ l.image.dataNext →
    CodeAt (itemsLoaded comments n l items).image l.image.text.size items := by
  induction items with
  | nil => exact fun _ _ _ _ => trivial
  | cons i is ih =>
    rintro n l hready hnodup ⟨hsection, hrest⟩ hdata
    have hrest : Sectioned (itemLoaded n l i).inData is := by rwa [inData_loaded]
    have hgrows := grows_items comments (n := n + (written comments i.lines).length) hrest
    refine ⟨?_, ?_⟩
    · refine itemAt_grows (placed_item n (hready i (by simp)) hsection hdata) hgrows ?_ ?_
      · intro x hx hmem
        refine label_not_mem hnodup ?_ (textName?_mem hmem)
        cases i <;> simp_all [textName?, Item.label?]
      · intro p hp hmem
        refine label_not_mem hnodup ?_ (extent?_mem hmem)
        cases i <;> simp_all [extent?, Item.label?] <;> grind
    · rw [← size_loaded n]
      refine ih (fun j hj => hready j (List.mem_cons_of_mem _ hj)) ?_ hrest
        (Int.le_trans hdata (grows_item n hsection).dataNext)
      exact hnodup.sublist ((List.sublist_cons_self i is).filterMap _)

/-- Data lie at the end of what is loaded before them. -/
theorem extent_item (n : Nat) {p : String × Int} (hp : extent? i = some p) :
    ∃ a, (itemLoaded n l i).image.dataLabels[p.1]? = some a ∧ l.image.dataNext ≤ a ∧
      a + p.2 ≤ (itemLoaded n l i).image.dataNext := by
  cases i with
  | literal name text =>
    obtain rfl := Option.some.inj hp
    exact ⟨l.image.dataNext, by simp [itemLoaded, Image.addText], Int.le_refl _, by
      simp [itemLoaded, Image.addText]⟩
  | global name words =>
    obtain rfl := Option.some.inj hp
    have hadded := added_global l.image name words
    exact ⟨l.image.aligned, by simp [itemLoaded, hadded.dataLabels], hadded.low, hadded.room⟩
  | _ => simp [extent?] at hp

/-- Data lie one after the other, in their order in the code. -/
theorem extents_ordered (comments : Bool) {items : List Item} : ∀ {n : Nat} {l : Loading},
    (labels items).Nodup → Sectioned l.inData items →
    (∀ p ∈ extents items, ∃ a, (itemsLoaded comments n l items).image.dataLabels[p.1]? = some a ∧
      l.image.dataNext ≤ a) ∧
    (extents items).Pairwise fun p q => ∀ {a b},
      (itemsLoaded comments n l items).image.dataLabels[p.1]? = some a →
      (itemsLoaded comments n l items).image.dataLabels[q.1]? = some b → a + p.2 ≤ b := by
  induction items with
  | nil => exact fun _ _ => ⟨by simp [extents], .nil⟩
  | cons i is ih =>
    rintro n l hnodup ⟨hsection, hrest⟩
    have hrest : Sectioned (itemLoaded n l i).inData is := by rwa [inData_loaded]
    have hgrows := grows_items comments (n := n + (written comments i.lines).length) hrest
    obtain ⟨hplaced, hpairs⟩ := ih (n := n + (written comments i.lines).length)
      (hnodup.sublist ((List.sublist_cons_self i is).filterMap _)) hrest
    have hstep := (grows_item n hsection).dataNext
    cases hextent : extent? i with
    | none =>
      have hcons : extents (i :: is) = extents is := by simp [extents, hextent]
      rw [hcons]
      refine ⟨fun p hp => ?_, hpairs⟩
      obtain ⟨a, ha, hlow⟩ := hplaced p hp
      exact ⟨a, ha, Int.le_trans hstep hlow⟩
    | some p =>
      have hcons : extents (i :: is) = p :: extents is := by simp [extents, hextent]
      obtain ⟨a, ha, hlow, hhigh⟩ := extent_item (l := l) n hextent
      -- the label of the first part is not set again
      have hkept : (itemsLoaded comments n l (i :: is)).image.dataLabels[p.1]? = some a := by
        refine (hgrows.dataLabels p.1 fun hmem => ?_).trans ha
        refine label_not_mem hnodup ?_ (extent?_mem hmem)
        cases i <;> simp_all [extent?, Item.label?] <;> grind
      rw [hcons]
      refine ⟨?_, List.pairwise_cons.mpr ⟨?_, hpairs⟩⟩
      · intro q hq
        rcases List.mem_cons.mp hq with rfl | hq
        · exact ⟨a, hkept, hlow⟩
        · obtain ⟨b, hb, hlow⟩ := hplaced q hq
          exact ⟨b, hb, Int.le_trans hstep hlow⟩
      · intro q hq a' b ha' hb
        obtain rfl : a = a' := by simpa [hkept] using ha'
        obtain ⟨b', hb', hlow'⟩ := hplaced q hq
        obtain rfl : b' = b := by
          have hb : (itemsLoaded comments (n + (written comments i.lines).length)
            (itemLoaded n l i) is).image.dataLabels[q.1]? = some b := hb
          simpa [hb'] using hb
        omega

/-- Loading code leaves all words zero. -/
theorem blank_items (comments : Bool) {items : List Item} : ∀ {n : Nat} {l : Loading},
    Blank l.image → Blank (itemsLoaded comments n l items).image := by
  induction items with
  | nil => exact fun h => h
  | cons i is ih =>
    intro n l h
    refine ih ?_
    cases i with
    | label name comment =>
      simp only [itemLoaded, Loading.label]
      split <;> exact h
    | global name words => exact blank_added h name words
    | _ => exact h

end CMinusMinus.Proofs.Loading
