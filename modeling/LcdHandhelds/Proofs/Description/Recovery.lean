import LcdHandhelds.Proofs.Description.Survey
import LcdHandhelds.Proofs.Manifest.Ownership

/-!
Recovery of descriptions. The manifest of a source that is written from descriptions holds the
described devices and no other, each with the described profile, in whatever order the parts of the
descriptions stand. Main statement: `recovers_of_written`.
-/
namespace LcdHandhelds

open Text

/-- Devices without a parent come first, then those whose ROM block is written first. -/
def Description.precedence (sections : List Section) (d : Description) : Bool ×ₗ ℕ :=
  toLex (d.parent.isSome, (written .rom sections).idxOf d)

/-- The description that comes first among those with a digest. -/
structure Description.IsOwner (ds : List Description) (sections : List Section)
    (sha1 : List Char) (owner : Description) : Prop where
  described : owner ∈ ds
  shares : owner.sha1 = sha1
  first : ∀ d ∈ ds, d.sha1 = sha1 → owner.precedence sections ≤ d.precedence sections

/-- The described profile of a device, with the device that owns its ROM. -/
structure Description.IsProfile (ds : List Description) (d owner : Description)
    (p : Profile) : Prop where
  hardware : d.hardware? = some p.hardware
  portMap : d.Wires ds p.portMap
  release : p.release = some ⟨String.ofList d.year, String.ofList d.company, String.ofList d.title⟩
  rom : p.rom = ⟨String.ofList d.file, none, String.ofList d.sha1,
    if owner = d then none else some owner.device⟩

/-- An extraction that gives back what is described, and reports what is wrong with it. -/
structure Recovers (ds : List Description) (sections : List Section) (e : Extraction) : Prop where
  devices : ∀ device, (∃ profile, e.manifest.get? device = some profile) ↔
    ∃ d ∈ ds, d.device = device
  profiles : ∀ d ∈ ds, ∃ profile owner, e.manifest.get? d.device = some profile ∧
    Description.IsOwner ds sections d.sha1 owner ∧ d.IsProfile ds owner profile
  /-- Faulty statements, then inclusions, then the lines of a constructor after its first. -/
  diagnostics : ∃ included, Description.ReportsInclusions ds included ∧
    e.diagnostics =
      ((written .inputs sections).flatMap fun d => (Entry.faults d.entries).map (⟨d.device, ·⟩)) ++
        included ++
        (written .declaration sections).flatMap fun d =>
          if d.grounded then [⟨d.device, .extraConstructorLines⟩] else []

/-- A description leaves one profile. -/
theorem Description.IsProfile.unique {ds : List Description} {d owner : Description}
    {p p' : Profile} (h : d.IsProfile ds owner p) (h' : d.IsProfile ds owner p') : p = p' := by
  have hhardware : p.hardware = p'.hardware :=
    Option.some.inj (h.hardware.symm.trans h'.hardware)
  have hportMap : p.portMap = p'.portMap := h.portMap.unique h'.portMap
  have hrelease : p.release = p'.release := h.release.trans h'.release.symm
  have hrom : p.rom = p'.rom := h.rom.trans h'.rom.symm
  cases p
  cases p'
  simp_all

theorem Description.IsOwner.unique {ds : List Description} {sections : List Section}
    {sha1 : List Char} {d e : Description} (hd : IsOwner ds sections sha1 d)
    (h : Written ds sections) (he : IsOwner ds sections sha1 e) : d = e := by
  have hprecedence := le_antisymm (hd.first e he.described he.shares)
    (he.first d hd.described hd.shares)
  have hindex := (Prod.mk.inj (toLex_inj.1 hprecedence)).2
  exact (List.idxOf_inj (h.mem_written.2 hd.described)).1 hindex

namespace Written

variable {ds : List Description} {sections : List Section} (h : Written ds sections)

include h

/-- Blocks that are written in an order stand in this order. -/
theorem idxOf_le_idxOf {p q : Nat × Description} (hp : p ∈ located 0 sections)
    (hq : q ∈ located 0 sections) (hle : p.1 ≤ q.1) :
    (written .rom sections).idxOf p.2 ≤ (written .rom sections).idxOf q.2 := by
  have hnodup : (written .rom sections).Nodup := (h.once .rom).nodup_iff.2 h.distinct.of_map
  have hindex : ∀ i (hi : i < (located 0 sections).length),
      (written .rom sections).idxOf (located 0 sections)[i].2 = i := by
    intro i hi
    rw [← map_located 0 sections] at hnodup ⊢
    have hget := hnodup.idxOf_getElem i (by rwa [List.length_map])
    rwa [List.getElem_map] at hget
  obtain ⟨i, hi, rfl⟩ := List.getElem_of_mem hp
  obtain ⟨j, hj, rfl⟩ := List.getElem_of_mem hq
  rw [hindex, hindex]
  by_contra hlt
  have hplaces := List.pairwise_iff_getElem.1 (pairwise_located 0 sections) j i hj hi
    (Nat.lt_of_not_le hlt)
  omega

/-- The precedence of candidates is that of their descriptions. -/
theorem precedence_le_precedence {c c' : Candidate} {d d' : Description}
    (hc : d.Describes ds sections c) (hc' : d'.Describes ds sections c')
    (hle : c.toOwnerCandidate.rank ≤ c'.toOwnerCandidate.rank) :
    d.precedence sections ≤ d'.precedence sections := by
  have hparent : ∀ {c : Candidate} {d : Description}, d.Describes ds sections c →
      c.toOwnerCandidate.hasParent = d.parent.isSome := by
    intro c d hc
    rw [Candidate.toOwnerCandidate, Candidate.hasParent, hc.system]
    simp [Description.systemEntry]
  have hplace := h.idxOf_le_idxOf hc.position hc'.position
  rw [OwnerCandidate.rank, OwnerCandidate.rank, Prod.Lex.toLex_le_toLex, hparent hc,
    hparent hc'] at hle
  rw [Description.precedence, Description.precedence, Prod.Lex.toLex_le_toLex]
  rcases hle with hlt | ⟨heq, hle⟩
  · exact .inl hlt
  · refine .inr ⟨heq, hplace ?_⟩
    rcases Prod.Lex.toLex_le_toLex.1 hle with hlt | ⟨heq, -⟩
    · exact Nat.le_of_lt hlt
    · exact Nat.le_of_eq heq

/-! ### Candidates -/

theorem declarations_eq :
    declarations (sourceText sections) =
      (written .declaration sections).map Description.declaration :=
  declarations_sourceText h.valid_sections

section Candidates

variable {raw : InputTable} (hraw : Description.Fills ds raw)

include hraw

theorem describes_of_mem_candidates {c : Candidate}
    (hc : c ∈ (Survey.ofSource defaultMarker (sourceText sections) raw).candidates) :
    ∃ d ∈ ds, d.Describes ds sections c := by
  obtain ⟨declaration, hdeclared, houtcome⟩ := Survey.mem_candidates_iff.1 hc
  have hmem : declaration ∈ (written .declaration sections).map Description.declaration :=
    h.declarations_eq ▸ hdeclared
  obtain ⟨d, hd, rfl⟩ := List.mem_map.1 hmem
  have hd := h.mem_written.1 hd
  obtain ⟨c', hc', hvisit⟩ := h.exists_visit hraw hd
  rw [hvisit] at houtcome
  cases houtcome
  exact ⟨d, hd, hc'⟩

theorem exists_candidate {d : Description} (hd : d ∈ ds) :
    ∃ c ∈ (Survey.ofSource defaultMarker (sourceText sections) raw).candidates,
      d.Describes ds sections c := by
  obtain ⟨c, hc, hvisit⟩ := h.exists_visit hraw hd
  have hdeclared : d.declaration ∈ declarations (sourceText sections) := by
    rw [h.declarations_eq]
    exact List.mem_map.2 ⟨d, h.mem_written.2 hd, rfl⟩
  exact ⟨c, Survey.mem_candidates_iff.2 ⟨_, hdeclared, by rw [hvisit]⟩, hc⟩

theorem nodup_candidates :
    ((Survey.ofSource defaultMarker (sourceText sections) raw).candidates.map
      (·.device)).Nodup := by
  have hdevices : (Survey.ofSource defaultMarker (sourceText sections) raw).candidates.map
      (·.device) = (written .declaration sections).map Description.device := by
    have hsource : declarations (Survey.ofSource defaultMarker (sourceText sections) raw).source =
        (written .declaration sections).map Description.declaration :=
      h.declarations_eq
    rw [Survey.candidates_eq_filterMap, hsource, List.filterMap_map, List.map_filterMap,
      ← List.filterMap_eq_map]
    refine List.filterMap_congr fun d hd => ?_
    obtain ⟨c, hc, hvisit⟩ := h.exists_visit hraw (h.mem_written.1 hd)
    rw [Function.comp_apply, hvisit]
    exact congrArg some hc.device
  rw [hdevices]
  exact h.nodup_devices .declaration

theorem diagnostics_eq :
    (Survey.ofSource defaultMarker (sourceText sections) raw).diagnostics =
      (written .declaration sections).flatMap fun d =>
        if d.grounded then [⟨d.device, .extraConstructorLines⟩] else [] := by
  have hsource : declarations (Survey.ofSource defaultMarker (sourceText sections) raw).source =
      (written .declaration sections).map Description.declaration :=
    h.declarations_eq
  rw [Survey.diagnostics, Survey.visits, hsource, List.flatMap_map, List.flatMap_map]
  refine List.flatMap_congr fun d hd => ?_
  obtain ⟨c, -, hvisit⟩ := h.exists_visit hraw (h.mem_written.1 hd)
  dsimp only
  rw [hvisit]
  cases d.grounded <;> rfl

theorem eq_of_device_candidates {c c' : Candidate}
    (hc : c ∈ (Survey.ofSource defaultMarker (sourceText sections) raw).candidates)
    (hc' : c' ∈ (Survey.ofSource defaultMarker (sourceText sections) raw).candidates)
    (hdevice : c.device = c'.device) : c = c' :=
  List.inj_on_of_nodup_map (h.nodup_candidates hraw) hc hc' hdevice

theorem countP_candidates_eq_one {c : Candidate}
    (hc : c ∈ (Survey.ofSource defaultMarker (sourceText sections) raw).candidates) :
    (Survey.ofSource defaultMarker (sourceText sections) raw).candidates.countP
      (·.device = c.device) = 1 := by
  have hcount := List.count_eq_one_of_mem (h.nodup_candidates hraw) (List.mem_map.2 ⟨c, hc, rfl⟩)
  rw [List.count, List.countP_map] at hcount
  rw [← hcount]
  exact List.countP_congr fun c' _ => by simp

/-- The owner of a ROM is the description that comes first. -/
theorem exists_owner {c : Candidate} {d : Description} (hd : d ∈ ds)
    (hc : d.Describes ds sections c)
    (hmem : c ∈ (Survey.ofSource defaultMarker (sourceText sections) raw).candidates) :
    ∃ owner, Description.IsOwner ds sections d.sha1 owner ∧
      (romOwners ((Survey.ofSource defaultMarker (sourceText sections) raw).candidates.map
        Candidate.toOwnerCandidate)).get? d.device =
          if owner = d then none else some owner.device := by
  have hsha : ∀ {c : Candidate} {d : Description}, d.Describes ds sections c →
      c.identity.main.sha1 = String.ofList d.sha1 := by
    intro c d hc
    rw [hc.identity]
    rfl
  obtain ⟨o, ho⟩ := OwnerCandidate.exists_owner?
    (List.mem_map_of_mem (f := Candidate.toOwnerCandidate) hmem)
  obtain ⟨⟨homem, hosha⟩, hleast⟩ := OwnerCandidate.owner?_eq_some ho
  obtain ⟨c', hmem', rfl⟩ := List.mem_map.1 homem
  obtain ⟨owner, howner, hc'⟩ := h.describes_of_mem_candidates hraw hmem'
  have hshares : owner.sha1 = d.sha1 := by
    have hstring : String.ofList owner.sha1 = String.ofList d.sha1 :=
      (hsha hc').symm.trans (Eq.trans hosha (hsha hc))
    exact String.ofList_injective hstring
  refine ⟨owner, ⟨howner, hshares, fun other hother hsame => ?_⟩, ?_⟩
  · obtain ⟨c'', hmem'', hc''⟩ := h.exists_candidate hraw hother
    refine h.precedence_le_precedence hc' hc'' (hleast _ (List.mem_map.2 ⟨_, hmem'', rfl⟩) ?_)
    exact (hsha hc'').trans ((congrArg String.ofList hsame).trans (hsha hc).symm)
  · have hget := Survey.get?_romOwners_candidates hmem ho
    have hdevice : c'.toOwnerCandidate.device = owner.device := hc'.device
    have hiff : d.device = owner.device ↔ owner = d :=
      ⟨fun hname => h.eq_of_device howner hd hname.symm, fun heq => heq ▸ rfl⟩
    rw [hc.device, hdevice] at hget
    rw [hget]
    exact if_congr hiff rfl rfl

end Candidates

end Written

/-- Whatever the order of its parts, a source gives back the descriptions it is written from. -/
theorem recovers_of_written {ds : List Description} {sections : List Section}
    (h : Written ds sections) :
    ∃ e, extract defaultMarker (sourceText sections) = .ok e ∧ Recovers ds sections e := by
  obtain ⟨⟨raw, reported⟩, hread, hraw, hreported⟩ := h.exists_ofSource
  dsimp only at hraw hreported
  refine ⟨_, extract_eq_ok_iff.2 ⟨raw, reported, hread, rfl⟩, ?_, ?_, ?_⟩
  · intro device
    constructor
    · rintro ⟨profile, hprofile⟩
      obtain ⟨c, hmem, rfl, -⟩ := Manifest.exists_of_get?_ofCandidates hprofile
      obtain ⟨d, hd, hc⟩ := h.describes_of_mem_candidates hraw hmem
      exact ⟨d, hd, hc.device.symm⟩
    · rintro ⟨d, hd, rfl⟩
      obtain ⟨c, hmem, hc⟩ := h.exists_candidate hraw hd
      rw [← hc.device]
      exact Manifest.exists_get?_ofCandidates hmem
  · intro d hd
    obtain ⟨c, hmem, hc⟩ := h.exists_candidate hraw hd
    obtain ⟨owner, howner, hget⟩ := h.exists_owner hraw hd hc hmem
    obtain ⟨profile, hprofile⟩ := Manifest.exists_get?_ofCandidates hmem
    obtain ⟨c', hmem', hdevice, rfl⟩ := Manifest.exists_of_get?_ofCandidates hprofile
    obtain rfl := h.eq_of_device_candidates hraw hmem' hmem hdevice
    rw [if_pos (h.countP_candidates_eq_one hraw hmem), hc.device, hget] at hprofile
    refine ⟨_, owner, hprofile, howner, hc.hardware, hc.portMap, ?_, ?_⟩
    · rw [Candidate.toProfile, hc.system]
      rfl
    · rw [Candidate.toProfile, hc.identity]
      rfl
  · refine ⟨_, hraw.reportsInclusions h.valid, ?_⟩
    dsimp only
    rw [hreported, h.diagnostics_eq hraw]

/-! ### A board and its revision -/

namespace Description

def board : Description where
  id := "foo".toList
  entries := [.header false "IN.0".toList,
    .bit "0x01".toList "IP_ACTIVE_HIGH".toList "IPT_BUTTON1".toList (some "Left".toList),
    .bit "0x02".toList "IP_ACTIVE_LOW".toList "IPT_BUTTON2".toList none,
    .header false "ACL".toList,
    .bit "0x01".toList "IP_ACTIVE_LOW".toList "IPT_SERVICE1".toList none]
  preset := ⟨"sm5a_common", .sm5a, .single⟩
  sizes := [1671, 1080]
  grounded := false
  file := "foo.program".toList
  sha1 := "ac94e6e4".toList
  year := "1980".toList
  parent := none
  company := "Nintendo".toList
  title := "Foo".toList

/-- A clone, which shares its ROM with the board and lies over its wiring. -/
def revision : Description :=
  { board with
    id := "foo_b".toList
    entries := [.inherit "foo".toList, .header true "IN.0".toList,
      .bit "0x01".toList "IP_ACTIVE_HIGH".toList "IPT_BUTTON3".toList none,
      .header false "IN.2".toList, .setting "0x02".toList "Off".toList]
    grounded := true
    year := "198?".toList
    parent := some "foo".toList
    title := "Foo (revision B)".toList }

/-- The clone is written first, and its parts are mixed with those of the board. -/
def boardSections : List Section :=
  [.note "// roms\n".toList, .part .rom revision, .part .system revision, .part .inputs revision,
    .part .declaration board, .part .inputs board, .part .constructor revision,
    .note ['\n'], .part .rom board, .part .declaration revision, .part .constructor board,
    .part .system board]

theorem written_boardSections : Written [board, revision] boardSections where
  valid := by decide +kernel
  distinct := by decide +kernel
  notes := by decide +kernel
  once kind := by cases kind <;> decide +kernel

theorem isOwner_board : IsOwner [board, revision] boardSections board.sha1 board where
  described := List.mem_cons_self
  shares := rfl
  first := by
    simp only [List.forall_mem_cons]
    exact ⟨fun _ => le_rfl, fun _ => Prod.Lex.toLex_le_toLex.2 (.inl (by decide)),
      List.forall_mem_nil _⟩

def boardPorts : List Port :=
  [.row 0 #v[some ⟨.button1, false, some "Left"⟩, some ⟨.button2, true, none⟩, none, none],
    .line .acl (some ⟨.service1, true, none⟩)]

def revisionPorts : List Port :=
  [.row 0 #v[some ⟨.button3, false, none⟩, none, none, none],
    .row 2 #v[none, some ⟨.unused, false, none⟩, none, none]]

/-- The clone with its first switch, the others of its board, and a row of its own. -/
def revisionWiring : PortMap where
  ports :=
    [.row 0 #v[some ⟨.button3, false, none⟩, some ⟨.button2, true, none⟩, none, none],
      .row 2 #v[none, some ⟨.unused, false, none⟩, none, none],
      .line .acl (some ⟨.service1, true, none⟩)]
  inherits := some "foo"
  groundedRow := some 2

theorem wires_revision : revision.Wires [board, revision] revisionWiring where
  inherits := by decide +kernel
  ports := by
    have hlayered : IsLayered revisionPorts boardPorts revisionWiring.ports := by
      have hlayer := isLayered_layer revisionPorts boardPorts
      rwa [show layer revisionPorts boardPorts = revisionWiring.ports by decide +kernel] at hlayer
    have hboard : revision.included? = some board.device := by decide +kernel
    refine ⟨fun base hbase hincluded => ?_, fun hnone => ?_⟩
    · have hbase : base = board ∨ base = revision := by simpa using hbase
      rcases hbase with rfl | rfl
      · exact ⟨revisionPorts, boardPorts, by decide +kernel, by decide +kernel, hlayered⟩
      · exact absurd hincluded (by decide +kernel)
    · exact absurd hboard (hnone board List.mem_cons_self)
  grounded index := by
    have hsorted : KeySorted revisionWiring.ports := by decide +kernel
    rw [← hsorted.lastRow?_eq_some_iff]
    exact ⟨fun h => ⟨rfl, h⟩, fun h => h.2⟩

def revisionProfile : Profile where
  hardware := ⟨.sm5a, .single ⟨⟨false, 4655063951166406656, by decide⟩,
    ⟨false, 4652464705678344192, by decide⟩⟩⟩
  portMap := revisionWiring
  release := some ⟨"198?", "Nintendo", "Foo (revision B)"⟩
  rom := ⟨"foo.program", none, "ac94e6e4", some "foo"⟩

theorem isProfile_revision :
    revision.IsProfile [board, revision] board revisionProfile where
  hardware := by decide +kernel
  portMap := wires_revision
  release := by decide +kernel
  rom := by decide +kernel

/-- The board owns the ROM, although the block of its clone is written first. -/
theorem recovers_boardSections :
    ∃ e, extract defaultMarker (sourceText boardSections) = .ok e ∧
      Recovers [board, revision] boardSections e ∧
      e.manifest.get? "foo_b" = some revisionProfile := by
  have h := written_boardSections
  obtain ⟨e, he, hrecovers⟩ := recovers_of_written h
  obtain ⟨profile, owner, hprofile, howner, his⟩ :=
    hrecovers.profiles revision (List.mem_cons_of_mem _ List.mem_cons_self)
  obtain rfl := howner.unique h isOwner_board
  obtain rfl := his.unique isProfile_revision
  exact ⟨e, he, hrecovers, hprofile⟩

end Description

end LcdHandhelds
