import LcdHandhelds.Proofs.Description.Blocks
import LcdHandhelds.Proofs.Description.Class
import LcdHandhelds.Proofs.Description.Constructor
import LcdHandhelds.Proofs.Description.Rom

/-!
Sources that are written from descriptions. The parts of the descriptions stand in any order, with
notes between them, and each reader finds the parts of its kind, in the order they stand in, and
nothing else.
-/
namespace LcdHandhelds

open Text

/-- The word that a part of a kind opens with. -/
def Part.opening : Part → String
  | declaration => "class"
  | inputs => "INPUT_PORTS_START"
  | constructor => "void"
  | rom => "ROM_START"
  | system => "SYST"

theorem Part.opening_mem_scannedWords (kind : Part) : kind.opening.toList ∈ scannedWords := by
  cases kind <;> decide

/-- A part of a description, or what stands between two parts. -/
inductive Section where
  | note (text : List Char)
  | part (kind : Part) (d : Description)
  deriving DecidableEq, Repr

/-- A text that opens no part, and that no identifier goes on from. -/
structure IsNote (text : List Char) : Prop where
  ended : Ended text
  opensNone : ∀ part : Part, part.opening.toList ∉ words text

instance (text : List Char) : Decidable (IsNote text) :=
  decidable_of_iff
    (Ended text ∧ Part.all.all fun part => !(words text).contains part.opening.toList) (by
      simp only [List.all_eq_true, Part.mem_all, forall_const, Bool.not_eq_true',
        List.contains_eq_mem, decide_eq_false_iff_not]
      exact ⟨fun h => ⟨h.1, h.2⟩, fun h => ⟨h.1, h.2⟩⟩)

namespace Section

def text : Section → List Char
  | note text => text
  | part kind d => kind.text d

def Valid : Section → Prop
  | note text => IsNote text
  | part _ d => d.Valid

def note? : Section → Option (List Char)
  | note text => some text
  | part _ _ => none

/-- The description that a section is a part of, if the part is of this kind. -/
def describes? (kind : Part) : Section → Option Description
  | note _ => none
  | part k d => if k = kind then some d else none

end Section

theorem eq_part_of_describes? {kind : Part} {s : Section} {d : Description}
    (h : s.describes? kind = some d) : s = .part kind d := by
  cases s with
  | note text => cases h
  | part k e =>
    rw [Section.describes?] at h
    split at h
    next hk => exact congrArg₂ Section.part hk (Option.some.inj h)
    · cases h

def sourceText (sections : List Section) : List Char :=
  sections.flatMap Section.text

/-- The descriptions whose parts of one kind are written, in this order. -/
def written (kind : Part) (sections : List Section) : List Description :=
  sections.filterMap (Section.describes? kind)

theorem written_cons (kind : Part) (s : Section) (sections : List Section) :
    written kind (s :: sections) = (s.describes? kind).toList ++ written kind sections := by
  rw [written, List.filterMap_cons]
  cases s.describes? kind <;> rfl

/-! ### Readers of one kind -/

/-- A part does not hold the opening of another kind, but for `void` in a class. -/
theorem opening_notMem_sought {kind part : Part} (h : kind ≠ part) (hc : kind ≠ .constructor) :
    kind.opening.toList ∉ part.sought := by
  cases kind <;> cases part <;> first | contradiction | decide

section Readers

variable {β : Type} {kind : Part} {read : List Char → List β} {value : Description → β}

/-- A reader that passes over what does not open its kind reads all parts of its kind. -/
theorem read_sourceText (hkind : kind ≠ .constructor) (hnil : read [] = [])
    (hpass : ∀ {text}, Ended text → kind.opening.toList ∉ words text → ∀ rest,
      read (text ++ rest) = read rest)
    (hread : ∀ {d : Description}, d.Valid → ∀ rest,
      read (kind.text d ++ rest) = value d :: read rest)
    {sections : List Section} (h : ∀ s ∈ sections, s.Valid) :
    read (sourceText sections) = (written kind sections).map value := by
  induction sections with
  | nil => exact hnil
  | cons s sections ih =>
    rw [List.forall_mem_cons] at h
    rw [sourceText, List.flatMap_cons, ← sourceText, written_cons]
    cases s with
    | note text =>
      rw [Section.text, hpass h.1.ended (h.1.opensNone kind), ih h.2]
      rfl
    | part k d =>
      by_cases hk : k = kind
      · subst hk
        rw [Section.text, hread h.1, ih h.2, Section.describes?, if_pos rfl]
        rfl
      · have hfree := (Part.opens_text h.1 k).notMem kind.opening_mem_scannedWords
          (opening_notMem_sought (Ne.symm hk) hkind)
        rw [Section.text, hpass (Part.ended_text d k) hfree, ih h.2, Section.describes?,
          if_neg hk]
        rfl

end Readers

section Sections

variable {sections : List Section} (h : ∀ s ∈ sections, s.Valid)

include h

theorem declarations_sourceText :
    declarations (sourceText sections) = (written .declaration sections).map fun d =>
      ⟨String.ofList d.className, String.ofList d.id, String.ofList d.id⟩ :=
  read_sourceText (by decide) rfl declarations_append Description.declarations_classText h

theorem inputBlocks_sourceText :
    inputBlocks (sourceText sections) = (written .inputs sections).map fun d =>
      ⟨String.ofList d.id, entriesText d.entries⟩ :=
  read_sourceText (by decide) rfl Description.inputBlocks_append
    Description.inputBlocks_inputsText h

theorem systems_sourceText :
    Description.systems (sourceText sections) = (written .system sections).map fun d =>
      (String.ofList d.id, d.systemEntry) :=
  read_sourceText (by decide) rfl Description.systems_append Description.systems_systemText h

/-! ### Constructors -/

theorem constructorBody?_sourceText {className device : String}
    (hclass : className.toList.all isWordChar) (hdevice : device.toList.all isWordChar) :
    constructorBody? (sourceText sections) className device =
      (written .constructor sections).findSome? fun d =>
        if className.toList = d.className ∧ device.toList = d.id then some d.constructorBody
        else none := by
  induction sections with
  | nil => rfl
  | cons s sections ih =>
    rw [List.forall_mem_cons] at h
    rw [sourceText, List.flatMap_cons, ← sourceText, written_cons]
    cases s with
    | note text =>
      rw [Section.text, constructorBody?_append h.1.ended (h.1.opensNone .constructor), ih h.2]
      rfl
    | part k d =>
      have hpass : k ≠ .declaration → k ≠ .constructor →
          constructorBody? (k.text d ++ sourceText sections) className device =
            constructorBody? (sourceText sections) className device := by
        intro hd hc
        refine constructorBody?_append (Part.ended_text d k) ?_ _ _ _
        refine (Part.opens_text h.1 k).notMem (by decide) ?_
        cases k with
        | declaration => exact absurd rfl hd
        | constructor => exact absurd rfl hc
        | inputs => decide
        | rom => decide
        | system => decide
      rw [Section.text]
      cases k with
      | declaration =>
        exact (Description.constructorBody?_classText h.1 _ hclass).trans (ih h.2)
      | constructor =>
        refine (Description.constructorBody?_constructorText hclass hdevice h.1 _).trans ?_
        rw [ih h.2, Section.describes?, if_pos rfl, Option.toList_some, List.singleton_append,
          List.findSome?_cons]
        split <;> rfl
      | inputs => exact (hpass (by decide) (by decide)).trans (ih h.2)
      | rom => exact (hpass (by decide) (by decide)).trans (ih h.2)
      | system => exact (hpass (by decide) (by decide)).trans (ih h.2)

end Sections

/-! ### ROM blocks and their places -/

/-- The ROM blocks that are written, each with the byte offset of its start. -/
def located : (offset : Nat) → List Section → List (Nat × Description)
  | _, [] => []
  | offset, s :: sections =>
    ((s.describes? .rom).map (offset, ·)).toList ++
      located (offset + byteLength s.text) sections

theorem map_located (offset : Nat) (sections : List Section) :
    (located offset sections).map (·.2) = written .rom sections := by
  induction sections generalizing offset with
  | nil => rfl
  | cons s sections ih =>
    rw [located, List.map_append, ih, written_cons]
    cases s.describes? .rom <;> rfl

theorem le_of_mem_located {offset : Nat} {sections : List Section} {p : Nat × Description}
    (hp : p ∈ located offset sections) : offset ≤ p.1 := by
  induction sections generalizing offset with
  | nil => cases hp
  | cons s sections ih =>
    rw [located, List.mem_append] at hp
    rcases hp with hp | hp
    · obtain ⟨d, -, rfl⟩ := Option.map_eq_some_iff.1 (Option.mem_toList.1 hp)
      exact le_rfl
    · exact le_trans (Nat.le_add_right _ _) (ih hp)

/-- A block that is written further back stands further back. -/
theorem pairwise_located (offset : Nat) (sections : List Section) :
    (located offset sections).Pairwise fun p q => p.1 < q.1 := by
  induction sections generalizing offset with
  | nil => exact List.Pairwise.nil
  | cons s sections ih =>
    rw [located]
    cases hd : s.describes? .rom with
    | none => exact ih _
    | some d =>
      refine List.pairwise_cons.2 ⟨fun q hq => ?_, ih _⟩
      have hlength : 0 < byteLength s.text := by
        obtain rfl := eq_part_of_describes? hd
        rw [Section.text, Part.text, Description.romText, callText]
        simp only [byteLength_append]
        have hstart : byteLength "ROM_START".toList = 9 := by decide
        omega
      have hle := le_of_mem_located hq
      dsimp only
      omega

theorem all_sourceText {sections : List Section} (h : ∀ s ∈ sections, s.Valid) (offset : Nat) :
    (RomBlock.all (sourceText sections)).map (RomBlock.behind offset) =
      (located offset sections).map fun p => (String.ofList p.2.id, ⟨p.1, p.2.romBody⟩) := by
  induction sections generalizing offset with
  | nil => rfl
  | cons s sections ih =>
    rw [List.forall_mem_cons] at h
    rw [sourceText, List.flatMap_cons, ← sourceText, located, List.map_append]
    have hpass : "ROM_START".toList ∉ words s.text → Ended s.text → s.describes? .rom = none →
        (RomBlock.all (s.text ++ sourceText sections)).map (RomBlock.behind offset) =
          (((s.describes? .rom).map (offset, ·)).toList.map fun p =>
              (String.ofList p.2.id, (⟨p.1, p.2.romBody⟩ : RomBlock))) ++
            (located (offset + byteLength s.text) sections).map fun p =>
              (String.ofList p.2.id, ⟨p.1, p.2.romBody⟩) := by
      intro hfree hend hnone
      rw [RomBlock.all_append hend hfree, RomBlock.map_behind, ih h.2, hnone]
      rfl
    cases s with
    | note text => exact hpass (h.1.opensNone .rom) h.1.ended rfl
    | part k d =>
      by_cases hk : k = .rom
      · subst hk
        have hread := Description.all_romText h.1 (sourceText sections)
        rw [Section.text, Part.text, hread, List.map_cons, RomBlock.map_behind, ih h.2]
        rfl
      · have hnone : (Section.part k d).describes? .rom = none := if_neg hk
        exact hpass ((Part.opens_text h.1 k).notMem (by decide)
          (opening_notMem_sought (Ne.symm hk) (by decide))) (Part.ended_text d k) hnone

end LcdHandhelds
