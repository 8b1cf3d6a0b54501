import LcdHandhelds.Proofs.Machine.CopiedText
import LcdHandhelds.Proofs.Machine.LineEnding
import LcdHandhelds.Proofs.Manifest.Blocks
import LcdHandhelds.Proofs.Manifest.Duplicates
import LcdHandhelds.Proofs.Wiring.Sections

/-!
Extraction of a source whose lines end in carriage return and line feed. It fails where that of the
source with plain line feeds fails, and else gives the same manifest, but for the line ends inside of
texts that are copied from the source. Main statement: `endingsKept_of_extract`.
-/
namespace LcdHandhelds

open Text

/-! ### Input blocks -/

namespace InputBlock

/-- The block as it stands in the written form of its source. -/
def crlf (b : InputBlock) : InputBlock := ⟨crlfText b.name, Text.crlf b.body⟩

theorem ofCall?_crlf (text : List Char) (c : Call) :
    ofCall? (c.crlf text) = (ofCall? c).map crlf := by
  simp only [ofCall?, Call.crlf, @before?_crlf "INPUT_PORTS_END" (by decide) (by decide),
    trim_crlf, Option.bind_eq_bind, Option.bind_map, Function.comp_def, Option.map_bind]
  refine congrArg _ (funext fun body => ?_)
  cases hname : trim c.args with
  | nil => rfl
  | cons d name =>
    obtain ⟨d', name', hwritten⟩ : ∃ d' name', Text.crlf (d :: name) = d' :: name' :=
      List.exists_cons_of_ne_nil fun hnil => List.cons_ne_nil d name (crlf_eq_nil_iff.1 hnil)
    rw [hwritten]
    simp only [Option.map_some, Option.pure_def, crlf, crlfText_ofList, hwritten]

/-- Neither name nor body has a carriage return that the source has not. -/
theorem subset_of_mem_inputBlocks {source : List Char} {b : InputBlock}
    (h : b ∈ inputBlocks source) : b.name.toList ⊆ source ∧ b.body ⊆ source := by
  obtain ⟨c, hc, hb, hbody⟩ := exists_call_of_mem_inputBlocks h
  obtain ⟨hargs, hafter⟩ := args_subset_of_mem_calls hc
  constructor
  · obtain ⟨body, -, hname⟩ := Option.bind_eq_some_iff.1 hb
    split at hname
    · cases hname
    · cases hname
      rw [String.toList_ofList]
      exact fun d hd => hargs (trim_subset _ hd)
  · obtain ⟨tail, htail⟩ := exists_append_of_before? hbody
    intro d hd
    refine hafter ?_
    rw [htail, List.append_assoc]
    exact List.mem_append_left _ hd

/-- A block's lines are the same in either form. -/
theorem wiring_crlf {b : InputBlock} (h : '\r' ∉ b.body) : b.crlf.wiring = b.wiring := by
  have hlines : lines (trim (Text.crlf b.body)) = lines (trim b.body) := by
    rw [trim_crlf, lines_crlf fun hm => h (trim_subset _ hm)]
  rw [wiring, crlf, Block.ofBody, hlines, wiring, Block.ofBody]

end InputBlock

theorem inputBlocks_crlf (source : List Char) :
    inputBlocks (crlf source) = (inputBlocks source).map InputBlock.crlf := by
  rw [inputBlocks, calls_crlf (by decide) (by decide), List.filterMap_map, inputBlocks,
    List.map_filterMap]
  exact List.filterMap_congr fun c _ => InputBlock.ofCall?_crlf source c

/-- Names differ in one form if they differ in the other. -/
theorem nodup_names_crlf {source : List Char} (h : '\r' ∉ source) :
    ((inputBlocks (crlf source)).map (·.name)).Nodup ↔
      ((inputBlocks source).map (·.name)).Nodup := by
  have hnames : (inputBlocks (crlf source)).map (·.name) =
      ((inputBlocks source).map (·.name)).map crlfText := by
    rw [inputBlocks_crlf, List.map_map, List.map_map]
    rfl
  have hreturn : ∀ name ∈ (inputBlocks source).map (·.name), '\r' ∉ name.toList := by
    intro name hname hm
    obtain ⟨b, hb, rfl⟩ := List.mem_map.1 hname
    exact h ((InputBlock.subset_of_mem_inputBlocks hb).1 hm)
  rw [hnames]
  refine ⟨List.Nodup.of_map _, fun hd => hd.map_on fun a ha b hb hab => ?_⟩
  exact String.toList_inj.1 (crlf_injective (hreturn a ha) (hreturn b hb) (String.ofList_inj.1 hab))

/-! ### Wirings -/

/-- Only an inclusion is read as one. -/
theorem Statement.inherit?_of_ofLine? {line : List Char} {device : String}
    (h : ofLine? line = some (.inherit device)) : inherit? line = some (.inherit device) := by
  have hheader : header? line ≠ some (.inherit device) := by
    simp [header?, Option.bind_eq_some_iff]
  have hbit : bit? line ≠ some (.inherit device) := by
    intro hb
    obtain ⟨c, -, hb⟩ := Option.bind_eq_some_iff.1 hb
    repeat' split at hb
    all_goals cases hb
  have hsetting : setting? line ≠ some (.inherit device) := by
    intro hs
    obtain ⟨c, -, hs⟩ := Option.bind_eq_some_iff.1 hs
    repeat' split at hs
    all_goals cases hs
  simp only [ofLine?, Option.orElse_eq_orElse, Option.orElse_eq_or, Option.or_eq_some_iff] at h
  rcases h with h | ⟨-, h | ⟨-, h | ⟨-, h⟩⟩⟩
  · exact absurd h hheader
  · exact absurd h hbit
  · exact absurd h hsetting
  · exact h

/-- A device that a line includes is named on that line. -/
theorem subset_of_inheriting? {line : List Char} {device : String}
    (h : Block.inheriting? line = some device) : device.toList ⊆ line := by
  rw [Block.inheriting?] at h
  split at h
  next found hline =>
    obtain rfl := Option.some.inj h
    obtain ⟨c, hc, hdevice⟩ := Option.bind_eq_some_iff.1 (Statement.inherit?_of_ofLine? hline)
    have hargs := (args_subset_of_mem_calls (List.mem_of_head? hc)).1
    split at hdevice
    · cases hdevice
    · cases hdevice
      rw [String.toList_ofList]
      exact fun d hd => hargs (trim_subset _ hd)
  · cases h

/-- A wiring includes a device whose name is of one line. -/
theorem noFeed_of_inherits {b : InputBlock} {device : String}
    (h : b.wiring.inherits = some device) : '\n' ∉ device.toList := by
  have hmeaning := (Block.tracks_ofLines (lines (trim b.body))).meaning.inherits
  rw [InputBlock.wiring, Block.ofBody, hmeaning] at h
  obtain ⟨line, hline, hdevice⟩ := List.mem_filterMap.1 (List.mem_of_getLast? h)
  exact fun hm => noFeed_of_mem_lines hline (subset_of_inheriting? hdevice hm)

namespace InputTable

/-- Tables that hold the blocks of the two forms of a source. -/
structure Twins (source : List Char) (raw written : InputTable) : Prop where
  wirings : ∀ name m, raw.get? name = some m ↔
    ∃ b ∈ inputBlocks source, b.name = name ∧ b.wiring = m
  get? : ∀ name : String, '\n' ∉ name.toList → written.get? name = raw.get? name

theorem twins_of_holds {source : List Char} (h : '\r' ∉ source) {raw written : InputTable}
    {reported reported' : List Diagnostic} (hraw : Holds (inputBlocks source) (raw, reported))
    (hwritten : Holds (inputBlocks (crlf source)) (written, reported')) :
    Twins source raw written where
  wirings := hraw.wirings
  get? name hname := by
    apply Option.ext
    intro m
    rw [hwritten.wirings, hraw.wirings, inputBlocks_crlf]
    simp only [List.mem_map, exists_exists_and_eq_and]
    refine exists_congr fun b => and_congr_right fun hb => ?_
    have hbody : '\r' ∉ b.body := fun hm => h ((InputBlock.subset_of_mem_inputBlocks hb).2 hm)
    rw [InputBlock.wiring_crlf hbody, InputBlock.crlf, crlfText_eq_iff hname]

/-- Collapsed wirings are the same in either form. -/
theorem Twins.get?_collapse {source : List Char} {raw written : InputTable}
    (h : Twins source raw written) {name : String} (hname : '\n' ∉ name.toList) :
    written.collapse.get? name = raw.collapse.get? name := by
  rw [collapse, collapse, Table.get?_mapValues, Table.get?_mapValues, h.get? name hname]
  cases hm : raw.get? name with
  | none => rfl
  | some m =>
    obtain ⟨b, -, -, rfl⟩ := (h.wirings name m).1 hm
    have hbase : b.wiring.inherits.bind written.get? = b.wiring.inherits.bind raw.get? := by
      cases hi : b.wiring.inherits with
      | none => rfl
      | some device => exact h.get? device (noFeed_of_inherits hi)
    rw [Option.map_some, Option.map_some, resolve, resolve, hbase]

end InputTable

/-! ### Declarations and candidates -/

theorem declarations_crlf (source : List Char) :
    declarations (crlf source) = declarations source := by
  rw [declarations, DriverClass.scan_crlf, List.flatMap_map, declarations]
  refine congrArg (List.flatMap · _) (funext fun c => ?_)
  rw [DriverClass.devices_crlf]
  rfl

/-- Devices, classes and stems are named by identifiers. -/
theorem oneLine_of_mem_declarations {source : List Char} {d : Declaration}
    (h : d ∈ declarations source) :
    OneLine d.device.toList ∧ OneLine d.className.toList ∧ OneLine d.stem.toList := by
  obtain ⟨c, hc, hd⟩ := List.mem_flatMap.1 h
  obtain ⟨device, hdevice, rfl⟩ := List.mem_map.1 hd
  obtain ⟨o, -, ho⟩ := List.mem_filterMap.1 hdevice
  have hname := oneLine_of_mem_scan hc
  refine ⟨oneLine_of_declaredDevice? ho, hname, ?_, ?_⟩
  · intro hm
    rw [DriverClass.stem, String.toList_ofList] at hm
    exact hname.noReturn (List.take_subset _ _ hm)
  · intro hm
    rw [DriverClass.stem, String.toList_ofList] at hm
    exact hname.noFeed (List.take_subset _ _ hm)

/-- The lines of a constructor are the same in either form. -/
theorem ofConstructor_crlf {body : List Char} (h : '\r' ∉ body) :
    Hardware.ofConstructor (crlf body) = Hardware.ofConstructor body := by
  have hlines : constructorLines (crlf body) = constructorLines body := by
    rw [constructorLines, trim_crlf, lines_crlf fun hm => h (trim_subset _ hm), constructorLines]
  rw [Hardware.ofConstructor, hlines, Hardware.ofConstructor]

theorem marks_crlf {marker : String} (h : OneLine marker.toList) (hne : marker.toList ≠ [])
    (body : List Char) : marks marker (crlf body) = marks marker body := by
  rw [marks, calls_crlf h hne, List.any_map, marks]
  exact congrArg (List.any _) (funext fun c => all_isBlank_crlf c.args)

/-- The body of a block is a part of the source. -/
theorem RomBlock.subset_of_get?_index {source : List Char} {device : String} {b : RomBlock}
    (h : (index source).get? device = some b) : b.body ⊆ source := by
  obtain ⟨c, hc, -, hbody⟩ := exists_call_of_get?_index h
  obtain ⟨tail, htail⟩ := exists_append_of_before? hbody
  intro d hd
  refine (args_subset_of_mem_calls hc).2 ?_
  rw [htail, List.append_assoc]
  exact List.mem_append_left _ hd

/-- The ROM of a device is the same one, under the file names of the written form. -/
theorem romOf_crlf {source : List Char} (h : '\r' ∉ source) {device : String}
    (hdevice : '\n' ∉ device.toList) :
    romOf (RomBlock.index (crlf source)) device =
      (romOf (RomBlock.index source) device).map fun p => (p.1.crlf source, p.2.crlf) := by
  rw [romOf, RomBlock.get?_index_crlf source hdevice, romOf]
  cases hb : (RomBlock.index source).get? device with
  | none => rfl
  | some b =>
    have hbody : '\r' ∉ b.body := fun hm => h (RomBlock.subset_of_get?_index hb hm)
    rw [Option.map_some]
    dsimp only
    rw [RomBlock.identity, RomBlock.loads_crlf hbody, RomBlock.identityOf_crlf, RomBlock.identity]
    cases RomBlock.identityOf b.loads <;> rfl

namespace Candidate

/-- The candidate as it is read from the written form of its source. -/
def crlf (source : List Char) (c : Candidate) : Candidate :=
  { c with
    system := c.system.map SystemEntry.crlf
    identity := c.identity.crlf
    position := crlfOffset source c.position }

theorem toOwnerCandidate_crlf (source : List Char) (c : Candidate) :
    (c.crlf source).toOwnerCandidate = c.toOwnerCandidate.move (crlfOffset source) := by
  have hparent : (c.crlf source).hasParent = c.hasParent := by
    rw [hasParent, crlf, hasParent]
    cases c.system with
    | none => rfl
    | some e => exact Option.isSome_map
  rw [toOwnerCandidate, hparent]
  rfl

end Candidate

namespace Survey

variable {marker : String} {source : List Char} {raw written : InputTable}

theorem outcome_crlf (hmarker : OneLine marker.toList) (hne : marker.toList ≠ [])
    (h : '\r' ∉ source) (htwins : InputTable.Twins source raw written) {d : Declaration}
    (hd : d ∈ declarations source) :
    ((ofSource marker (crlf source) written).visit d).outcome =
      ((ofSource marker source raw).visit d).outcome.map (Candidate.crlf source) := by
  obtain ⟨hdevice, hclass, hstem⟩ := oneLine_of_mem_declarations hd
  have hmap : (ofSource marker (crlf source) written).portMap? d =
      (ofSource marker source raw).portMap? d := by
    rw [portMap?, portMap?]
    exact congrArg₂ _ (htwins.get?_collapse hdevice.noFeed) (htwins.get?_collapse hstem.noFeed)
  have hbody : constructorBody? (ofSource marker (crlf source) written).source d.className d.device =
      (constructorBody? (ofSource marker source raw).source d.className d.device).map crlf :=
    constructorBody?_crlf hclass hdevice source
  rw [visit, hbody, visit]
  cases hb : constructorBody? (ofSource marker source raw).source d.className d.device with
  | none => rfl
  | some body =>
    have hreturn : '\r' ∉ body := fun hm => h (subset_of_constructorBody? hb hm)
    rw [Option.map_some]
    dsimp only
    have hrom : romOf (ofSource marker (crlf source) written).roms d.device =
        (romOf (ofSource marker source raw).roms d.device).map
          fun p => (p.1.crlf source, p.2.crlf) :=
      romOf_crlf h hdevice.noFeed
    have hsystem : (ofSource marker (crlf source) written).systems.get? d.device =
        ((ofSource marker source raw).systems.get? d.device).map SystemEntry.crlf :=
      SystemEntry.get?_scan_crlf source hdevice.noFeed
    have hmarks : marks (ofSource marker (crlf source) written).marker (crlf body) =
        marks (ofSource marker source raw).marker body :=
      marks_crlf hmarker hne body
    rw [candidate, ofConstructor_crlf hreturn, hmap, hrom, hsystem, hmarks, candidate]
    cases Hardware.ofConstructor body with
    | error reason => rfl
    | ok hardware =>
      cases romOf (ofSource marker source raw).roms d.device <;> rfl

theorem candidates_crlf (hmarker : OneLine marker.toList) (hne : marker.toList ≠ [])
    (h : '\r' ∉ source) (htwins : InputTable.Twins source raw written) :
    (ofSource marker (crlf source) written).candidates =
      (ofSource marker source raw).candidates.map (Candidate.crlf source) := by
  rw [candidates_eq_filterMap, candidates_eq_filterMap, List.map_filterMap]
  change (declarations (crlf source)).filterMap _ = (declarations source).filterMap _
  rw [declarations_crlf]
  refine List.filterMap_congr fun d hd => ?_
  rw [outcome_crlf hmarker hne h htwins hd]
  cases ((ofSource marker source raw).visit d).outcome <;> rfl

end Survey

/-! ### Manifests -/

namespace Profile

/-- The texts that a profile copies from the source. -/
def copied (p : Profile) : List String :=
  p.release.toList.flatMap (fun r => [r.company, r.name]) ++ p.rom.file :: p.rom.melody.toList

/-- The profile with its copied texts in the written form. -/
def crlf (p : Profile) : Profile :=
  { p with
    release := p.release.map Release.crlf
    rom := { p.rom with file := crlfText p.rom.file, melody := p.rom.melody.map crlfText } }

theorem crlf_eq_self {p : Profile} (h : ∀ text ∈ p.copied, '\n' ∉ text.toList) : p.crlf = p := by
  obtain ⟨hardware, portMap, release, ⟨file, melody, sha1, owner⟩⟩ := p
  simp only [copied, List.forall_mem_append, List.forall_mem_cons] at h
  obtain ⟨hrelease, hfile, hmelody⟩ := h
  have hr : release.map Release.crlf = release := by
    cases release with
    | none => rfl
    | some r =>
      have hboth : '\n' ∉ r.company.toList ∧ '\n' ∉ r.name.toList := by simpa using hrelease
      rw [Option.map_some, Release.crlf, crlfText_eq_self hboth.1, crlfText_eq_self hboth.2]
  have hm : melody.map crlfText = melody := by
    cases melody with
    | none => rfl
    | some text => exact congrArg some (crlfText_eq_self (hmelody text List.mem_cons_self))
  simp only [crlf, hr, hm, crlfText_eq_self hfile]

end Profile

namespace Manifest

/-- Every profile with its copied texts in the written form. -/
def crlf (m : Manifest) : Manifest := m.mapValues fun _ p => p.crlf

theorem ofCandidates_crlf (source : List Char) (candidates : List Candidate) :
    ofCandidates (candidates.map (Candidate.crlf source)) = (ofCandidates candidates).crlf := by
  have howners : (candidates.map (Candidate.crlf source)).map Candidate.toOwnerCandidate =
      (candidates.map Candidate.toOwnerCandidate).map (.move (crlfOffset source)) := by
    rw [List.map_map, List.map_map]
    exact List.map_congr_left fun c _ => c.toOwnerCandidate_crlf source
  apply Table.ext_get?
  intro device
  rw [ofCandidates, howners, OwnerCandidate.romOwners_move fun _ _ => crlfOffset_strictMono source,
    (get?_foldl_addCandidate _ _ device).1, crlf, Table.get?_mapValues, ofCandidates,
    (get?_foldl_addCandidate _ _ device).1, ← List.map_reverse, List.find?_map, List.countP_map,
    Option.map_map, Option.map_map]
  change Option.map _ (candidates.reverse.find? (·.device = device)) = Option.map _ _
  refine congrArg (Option.map · _) (funext fun c => ?_)
  change (c.crlf source).toProfile _ = (c.toProfile _).crlf
  simp only [Candidate.toProfile, Candidate.crlf, Profile.crlf, RomIdentity.crlf, RomFile.crlf,
    Option.map_map, Function.comp_def, SystemEntry.crlf]
  rfl

theorem crlf_eq_self {m : Manifest} (h : ∀ device profile, m.get? device = some profile →
    ∀ text ∈ profile.copied, '\n' ∉ text.toList) : m.crlf = m := by
  apply Table.ext_get?
  intro device
  rw [crlf, Table.get?_mapValues]
  cases hp : m.get? device with
  | none => rfl
  | some p => exact congrArg some (Profile.crlf_eq_self (h device p hp))

end Manifest

/-- What the line endings of a source change of its extraction. -/
structure EndingsKept (marker : String) (source : List Char) : Prop where
  succeeds_iff : (∃ e, extract marker (crlf source) = .ok e) ↔ ∃ e, extract marker source = .ok e
  /-- The texts that are copied from the source are copied with its line ends. -/
  manifest : ∀ e written, extract marker source = .ok e →
    extract marker (crlf source) = .ok written → written.manifest = e.manifest.crlf
  /-- Nothing changes if none of them goes over a line's end. -/
  same : ∀ e written, extract marker source = .ok e →
    extract marker (crlf source) = .ok written →
    (∀ device profile, e.manifest.get? device = some profile →
      ∀ text ∈ profile.copied, '\n' ∉ text.toList) →
    written.manifest = e.manifest

/-- A source is extracted alike with either line ending. -/
theorem endingsKept_of_extract {marker : String} (hmarker : marker.toList.all isWordChar)
    (hne : marker.toList ≠ []) {source : List Char} (h : '\r' ∉ source) :
    EndingsKept marker source := by
  have hmanifest : ∀ e written, extract marker source = .ok e →
      extract marker (crlf source) = .ok written → written.manifest = e.manifest.crlf := by
    intro e written he hwritten
    obtain ⟨raw, reported, hr, rfl⟩ := extract_eq_ok_iff.1 he
    obtain ⟨raw', reported', hr', rfl⟩ := extract_eq_ok_iff.1 hwritten
    have htwins := InputTable.twins_of_holds h (.of_ofBlocks hr) (.of_ofBlocks hr')
    dsimp only
    rw [Survey.candidates_crlf (oneLine_of_all_isWordChar hmarker) hne h htwins,
      Manifest.ofCandidates_crlf]
  refine ⟨?_, hmanifest, fun e written he hwritten hcopied => ?_⟩
  · rw [exists_extract_iff, exists_extract_iff, nodup_names_crlf h]
  · rw [hmanifest e written he hwritten]
    exact Manifest.crlf_eq_self hcopied

/-- A device whose title goes over a line's end. -/
def splitTitle : List Char :=
  classText ['a'] ++ constructorText [] 'a' ++ romText 'a' ++
    "SYST( 1980, a, 0, 0, a, a, x_state, empty_init, \"c\", \"A\nB\" )\n".toList

set_option maxRecDepth 4000 in
theorem endingsKept_splitTitle :
    ∃ e written profile, extract defaultMarker splitTitle = .ok e ∧
      extract defaultMarker (crlf splitTitle) = .ok written ∧
      written.manifest = e.manifest.crlf ∧ written.manifest.get? "a" = some profile ∧
      profile.release = some ⟨"1980", "c", "A\r\nB"⟩ ∧ profile.rom = ⟨"p", none, "e", none⟩ := by
  have hread : (extract defaultMarker splitTitle).toOption.map (fun e =>
      (e.manifest.get? "a").map fun p => (p.release, p.rom)) =
      some (some (some ⟨"1980", "c", "A\nB"⟩, ⟨"p", none, "e", none⟩)) := by
    unfold splitTitle classText constructorText romText
    repeat rw [String.toList_ofList]
    decide +kernel
  have hreturn : '\r' ∉ splitTitle := by
    unfold splitTitle classText constructorText romText
    repeat rw [String.toList_ofList]
    decide +kernel
  have hkept := @endingsKept_of_extract defaultMarker (by decide) (by decide) _ hreturn
  obtain ⟨e, he, hp⟩ := Option.map_eq_some_iff.1 hread
  rw [toOption_eq_some_iff] at he
  obtain ⟨p, hp, hfields⟩ := Option.map_eq_some_iff.1 hp
  obtain ⟨hrelease, hrom⟩ := Prod.mk.inj hfields
  obtain ⟨written, hwritten⟩ := hkept.succeeds_iff.2 ⟨e, he⟩
  have hmanifest := hkept.manifest e written he hwritten
  refine ⟨e, written, p.crlf, he, hwritten, hmanifest, ?_, ?_, ?_⟩
  · rw [hmanifest, Manifest.crlf, Table.get?_mapValues, hp]
    rfl
  · rw [Profile.crlf, hrelease]
    rfl
  · rw [Profile.crlf, hrom]
    rfl

end LcdHandhelds
