import LcdHandhelds.Proofs.Description.Source
import LcdHandhelds.Proofs.Description.Wiring
import LcdHandhelds.Proofs.Manifest.Duplicates

/-!
The survey of a source that is written from descriptions: every look-up of a described device gives
what its description says, and every declaration becomes the candidate of its description.
-/
namespace LcdHandhelds

open Text

/-- Sections that hold every part of every description once. -/
structure Written (ds : List Description) (sections : List Section) : Prop where
  valid : ∀ d ∈ ds, d.Valid
  distinct : (ds.map Description.id).Nodup
  notes : ∀ text ∈ sections.filterMap Section.note?, IsNote text
  once : ∀ kind, (written kind sections).Perm ds

namespace Description

def declaration (d : Description) : Declaration :=
  ⟨String.ofList d.className, d.device, d.device⟩

def identity (d : Description) : RomIdentity :=
  ⟨⟨String.ofList d.file, String.ofList d.sha1⟩, none⟩

/-- The candidate of a description, up to the place of its ROM block. -/
structure Describes (ds : List Description) (sections : List Section) (d : Description)
    (c : Candidate) : Prop where
  device : c.device = d.device
  hardware : d.hardware? = some c.hardware
  portMap : Wires ds d c.portMap
  system : c.system = some d.systemEntry
  identity : c.identity = d.identity
  position : (c.position, d) ∈ located 0 sections

end Description

namespace Written

variable {ds : List Description} {sections : List Section} (h : Written ds sections)

include h

theorem mem_written {kind : Part} {d : Description} : d ∈ written kind sections ↔ d ∈ ds :=
  (h.once kind).mem_iff

theorem valid_sections : ∀ s ∈ sections, s.Valid := by
  intro s hs
  cases s with
  | note text => exact h.notes text (List.mem_filterMap.2 ⟨_, hs, rfl⟩)
  | part kind d =>
    exact h.valid d (h.mem_written.1 (List.mem_filterMap.2 ⟨_, hs, if_pos (rfl : kind = kind)⟩))

theorem eq_of_id {d e : Description} (hd : d ∈ ds) (he : e ∈ ds) (hid : d.id = e.id) : d = e :=
  List.inj_on_of_nodup_map h.distinct hd he hid

theorem eq_of_device {d e : Description} (hd : d ∈ ds) (he : e ∈ ds)
    (hdevice : d.device = e.device) : d = e :=
  h.eq_of_id hd he (String.ofList_injective hdevice)

theorem nodup_devices (kind : Part) : ((written kind sections).map Description.device).Nodup := by
  have hmap : ds.map Description.device = (ds.map Description.id).map String.ofList := by
    rw [List.map_map]
    rfl
  rw [((h.once kind).map _).nodup_iff, hmap]
  exact h.distinct.map fun _ _ => String.ofList_injective

/-! ### Wirings -/

theorem exists_ofSource :
    ∃ read, InputTable.ofSource (sourceText sections) = .ok read ∧
      Description.Fills ds read.1 ∧
      read.2 = (written .inputs sections).flatMap fun d =>
        (Entry.faults d.entries).map (⟨d.device, ·⟩) := by
  have hblocks := inputBlocks_sourceText h.valid_sections
  have hnames : ((inputBlocks (sourceText sections)).map (·.name)).Nodup := by
    rw [hblocks, List.map_map]
    exact h.nodup_devices .inputs
  obtain ⟨read, hread, hwirings, hreported⟩ := InputTable.holds_ofBlocks hnames
  refine ⟨read, hread, fun name m => ?_, ?_⟩
  · rw [hwirings, hblocks]
    constructor
    · rintro ⟨b, hb, rfl, rfl⟩
      obtain ⟨d, hd, rfl⟩ := List.mem_map.1 hb
      exact ⟨d, h.mem_written.1 hd, rfl, rfl⟩
    · rintro ⟨d, hd, rfl, rfl⟩
      exact ⟨_, List.mem_map.2 ⟨d, h.mem_written.2 hd, rfl⟩, rfl, rfl⟩
  · rw [hreported, hblocks, List.flatMap_map]
    refine List.flatMap_congr fun d hd => ?_
    have hfaults := (Description.readAs (h.valid d (h.mem_written.1 hd))).anomalies
    rw [← hfaults]
    rfl

/-! ### The other parts -/

theorem get?_systems {d : Description} (hd : d ∈ ds) :
    (SystemEntry.scan (sourceText sections)).get? d.device = some d.systemEntry := by
  have hsystems : SystemEntry.scan (sourceText sections) = Table.ofList
      ((written .system sections).map fun d => (d.device, d.systemEntry)) :=
    congrArg Table.ofList (systems_sourceText h.valid_sections)
  rw [hsystems]
  refine Table.get?_ofList_eq_some (List.mem_map.2 ⟨d, h.mem_written.2 hd, rfl⟩) fun b hb => ?_
  obtain ⟨e, he, hpair⟩ := List.mem_map.1 hb
  obtain ⟨hdevice, rfl⟩ := Prod.mk.inj hpair
  rw [h.eq_of_device (h.mem_written.1 he) hd hdevice]

theorem exists_located {d : Description} (hd : d ∈ ds) :
    ∃ offset, (offset, d) ∈ located 0 sections := by
  have hmem : d ∈ (located 0 sections).map (·.2) := by
    rw [map_located]
    exact h.mem_written.2 hd
  obtain ⟨⟨offset, e⟩, hp, rfl⟩ := List.mem_map.1 hmem
  exact ⟨offset, hp⟩

theorem eq_of_located {p q : Nat × Description} (hp : p ∈ located 0 sections)
    (hq : q ∈ located 0 sections) (hd : p.2.device = q.2.device) : p = q := by
  have hnodup : ((located 0 sections).map fun p => p.2.device).Nodup := by
    have hmap : (located 0 sections).map (fun p => p.2.device) =
        ((located 0 sections).map (·.2)).map Description.device := by
      rw [List.map_map]
      rfl
    rw [hmap, map_located]
    exact h.nodup_devices .rom
  exact List.inj_on_of_nodup_map hnodup hp hq hd

theorem get?_roms {p : Nat × Description} (hp : p ∈ located 0 sections) :
    (RomBlock.index (sourceText sections)).get? p.2.device = some ⟨p.1, p.2.romBody⟩ := by
  have hall : RomBlock.all (sourceText sections) = (located 0 sections).map fun p =>
      (p.2.device, ⟨p.1, p.2.romBody⟩) :=
    (List.map_id'' RomBlock.behind_zero _).symm.trans (all_sourceText h.valid_sections 0)
  have hmem : (p.2.device, (⟨p.1, p.2.romBody⟩ : RomBlock)) ∈ (located 0 sections).map fun p =>
      (p.2.device, (⟨p.1, p.2.romBody⟩ : RomBlock)) :=
    List.mem_map.2 ⟨p, hp, rfl⟩
  rw [RomBlock.index, Table.get?_foldl_insertIfNew, Table.get?_empty, Option.none_or, hall]
  cases hf : ((located 0 sections).map fun p => (p.2.device, (⟨p.1, p.2.romBody⟩ : RomBlock))).find?
      (·.1 = p.2.device) with
  | none => exact absurd (decide_eq_true rfl) (List.find?_eq_none.1 hf _ hmem)
  | some e =>
    obtain ⟨q, hq, rfl⟩ := List.mem_map.1 (List.mem_of_find?_eq_some hf)
    have hdevice : q.2.device = p.2.device := by simpa using List.find?_some hf
    rw [Option.map_some, h.eq_of_located hq hp hdevice]

theorem constructorBody?_eq {d : Description} (hd : d ∈ ds) :
    constructorBody? (sourceText sections) (String.ofList d.className) d.device =
      some d.constructorBody := by
  have hclass : (String.ofList d.className).toList.all isWordChar := by
    rw [String.toList_ofList]
    exact (Description.isToken_className (h.valid d hd)).word
  have hdevice : d.device.toList.all isWordChar := by
    rw [Description.device, String.toList_ofList]
    exact (h.valid d hd).id.isToken.word
  rw [constructorBody?_sourceText h.valid_sections hclass hdevice, Description.device]
  simp only [String.toList_ofList]
  cases hf : (written .constructor sections).findSome? fun e =>
      if d.className = e.className ∧ d.id = e.id then some e.constructorBody else none with
  | none =>
    have hnone := List.findSome?_eq_none_iff.1 hf d (h.mem_written.2 hd)
    rw [if_pos ⟨rfl, rfl⟩] at hnone
    cases hnone
  | some body =>
    obtain ⟨e, he, hbody⟩ := List.exists_of_findSome?_eq_some hf
    split at hbody
    next heq => rw [← hbody, h.eq_of_id hd (h.mem_written.1 he) heq.2]
    · cases hbody

/-! ### Candidates -/

section Candidates

variable {raw : InputTable} (hraw : Description.Fills ds raw)

include hraw

theorem exists_visit {d : Description} (hd : d ∈ ds) :
    ∃ c, d.Describes ds sections c ∧
      (Survey.ofSource defaultMarker (sourceText sections) raw).visit d.declaration =
        ⟨if d.grounded then [.extraConstructorLines] else [], .ok c⟩ := by
  have hvalid := h.valid d hd
  obtain ⟨hardware, hhardware, hbuilt⟩ := Description.ofConstructor_constructorBody hvalid
  obtain ⟨offset, hoffset⟩ := h.exists_located hd
  let survey := Survey.ofSource defaultMarker (sourceText sections) raw
  have hbody : constructorBody? survey.source d.declaration.className d.declaration.device =
      some d.constructorBody :=
    h.constructorBody?_eq hd
  have hmap : survey.portMap? d.declaration = some (raw.resolve d.wiring) := by
    have hown : raw.collapse.get? d.device = some (raw.resolve d.wiring) := by
      rw [InputTable.get?_collapse, hraw.get?_device hd, Option.map_some]
    rw [Survey.portMap?]
    exact congrArg (Option.or · _) hown
  let c : Candidate := ⟨d.device, hardware, (raw.resolve d.wiring).ground d.grounded,
    some d.systemEntry, d.identity, offset⟩
  have hcandidate : survey.candidate d.declaration d.constructorBody = .ok c := by
    refine Survey.candidate_eq_ok_iff.2 ⟨hardware, ⟨offset, d.romBody⟩, d.identity, hbuilt,
      romOf_eq_ok_iff.2 ⟨h.get?_roms hoffset, Description.identity_romBody hvalid offset⟩, ?_⟩
    have hsystem : survey.systems.get? d.declaration.device = some d.systemEntry :=
      h.get?_systems hd
    have hmarks : marks survey.marker d.constructorBody = d.grounded :=
      Description.marks_constructorBody hvalid
    rw [hmap, hsystem, hmarks]
    rfl
  have hwires : d.Wires ds c.portMap := hraw.wires_resolve hvalid h.valid
  refine ⟨c, ⟨rfl, hhardware, hwires, rfl, rfl, hoffset⟩, ?_⟩
  rw [Survey.visit, hbody]
  dsimp only
  rw [hcandidate, Survey.inputNotes, hmap, Description.lineNotes_constructorBody hvalid]
  rfl

end Candidates

end Written

end LcdHandhelds
