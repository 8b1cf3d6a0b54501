import LcdHandhelds.Proofs.Manifest.Duplicates
import LcdHandhelds.Proofs.Manifest.Wiring

/-!
What the marker of a grounded row decides. A declaration is read to a constructor's body and a
candidate before the marker is looked for, so two markers give the same candidates but for their
grounded rows, and a row is grounded by the body of the device's own constructor alone. Main
statement: `extract_of_markers`.
-/
namespace LcdHandhelds

/-- The wiring without its grounded row. -/
def PortMap.ungrounded (m : PortMap) : PortMap := { m with groundedRow := none }

namespace Profile

def ground (observed : Bool) (p : Profile) : Profile :=
  { p with portMap := p.portMap.ground observed }

/-- All of a profile but the grounded row. -/
def ungrounded (p : Profile) : Profile := { p with portMap := p.portMap.ungrounded }

end Profile

def Candidate.ground (observed : Bool) (c : Candidate) : Candidate :=
  { c with portMap := c.portMap.ground observed }

theorem PortMap.ungrounded_ground (m : PortMap) (observed : Bool) :
    (m.ground observed).ungrounded = m.ungrounded := by
  cases observed <;> rfl

theorem Profile.ungrounded_ground (p : Profile) (observed : Bool) :
    (p.ground observed).ungrounded = p.ungrounded := by
  rw [ungrounded, ground, PortMap.ungrounded_ground, ungrounded]

/-! ### Candidates before grounding -/

/-- A candidate with its resolved wiring, and the constructor's body that may hold a marker. -/
structure Reading where
  declaration : Declaration
  body : List Char
  candidate : Candidate

/-- The candidate under a marker. -/
def Reading.marked (marker : String) (r : Reading) : Candidate :=
  r.candidate.ground (marks marker r.body)

namespace Survey

/-- The resolved wiring of a declaration, and the empty one if there is none. -/
def wiring (s : Survey) (d : Declaration) : PortMap := (s.portMap? d).getD default

/-- What a declaration is read to before the marker is looked for. -/
def reading (s : Survey) (d : Declaration) : Except Anomaly Reading :=
  match constructorBody? s.source d.className d.device with
  | none => .error (.missingConstructor d.className)
  | some body => do
    let hardware ← Hardware.ofConstructor body
    let (block, identity) ← romOf s.roms d.device
    return ⟨d, body, ⟨d.device, hardware, s.wiring d, s.systems.get? d.device, identity,
      block.position⟩⟩

/-- The readings of the declarations that are kept. -/
def readings (s : Survey) : List Reading :=
  (declarations s.source).filterMap fun d => (s.reading d).toOption

variable {s : Survey}

theorem outcome_visit (s : Survey) (d : Declaration) :
    (s.visit d).outcome = (s.reading d).map (·.marked s.marker) := by
  rw [visit, reading]
  cases constructorBody? s.source d.className d.device with
  | none => rfl
  | some body =>
    dsimp only
    rw [candidate]
    cases Hardware.ofConstructor body with
    | error reason => rfl
    | ok hardware => cases romOf s.roms d.device <;> rfl

theorem candidates_eq_map (s : Survey) : s.candidates = s.readings.map (·.marked s.marker) := by
  rw [candidates_eq_filterMap, readings, List.map_filterMap]
  refine List.filterMap_congr fun d _ => ?_
  rw [outcome_visit]
  cases s.reading d <;> rfl

/-- A reading is of a declaration, by the body of its own constructor. -/
theorem of_mem_readings {r : Reading} (h : r ∈ s.readings) :
    r.declaration ∈ declarations s.source ∧ r.declaration.device = r.candidate.device ∧
      constructorBody? s.source r.declaration.className r.declaration.device = some r.body ∧
      r.candidate.portMap = s.wiring r.declaration := by
  obtain ⟨d, hd, hr⟩ := List.mem_filterMap.1 h
  rw [toOption_eq_some_iff, reading] at hr
  split at hr
  · cases hr
  next body hbody =>
    obtain ⟨hardware, -, hr⟩ := bind_eq_ok_iff.1 hr
    obtain ⟨⟨block, identity⟩, -, hr⟩ := bind_eq_ok_iff.1 hr
    cases hr
    exact ⟨hd, rfl, hbody, rfl⟩

theorem readings_ofSource (marker marker' : String) (source : List Char) (raw : InputTable) :
    (ofSource marker source raw).readings = (ofSource marker' source raw).readings := rfl

theorem notes_visit (s : Survey) (d : Declaration) :
    (s.visit d).notes = s.inputNotes d ++
      ((constructorBody? s.source d.className d.device).map lineNotes).getD [] := by
  rw [visit]
  cases constructorBody? s.source d.className d.device with
  | none => exact (List.append_nil _).symm
  | some body => rfl

/-- What is reported of a declaration is the same under any marker. -/
theorem anomalies_visit (marker marker' : String) (source : List Char) (raw : InputTable)
    (d : Declaration) :
    ((ofSource marker source raw).visit d).anomalies =
      ((ofSource marker' source raw).visit d).anomalies := by
  have hreading : (ofSource marker source raw).reading d = (ofSource marker' source raw).reading d :=
    rfl
  rw [Visit.anomalies, Visit.anomalies, notes_visit, notes_visit, outcome_visit, outcome_visit,
    hreading]
  cases (ofSource marker' source raw).reading d <;> rfl

theorem diagnostics_ofSource (marker marker' : String) (source : List Char) (raw : InputTable) :
    (ofSource marker source raw).diagnostics = (ofSource marker' source raw).diagnostics := by
  rw [diagnostics, diagnostics, visits, visits, List.flatMap_map, List.flatMap_map]
  exact List.flatMap_congr fun d _ =>
    congrArg (List.map (Diagnostic.mk d.device)) (anomalies_visit marker marker' source raw d)

end Survey

/-! ### Profiles -/

namespace Manifest

/-- The owner that a device is given, whatever the marker. -/
def ownerOf (readings : List Reading) (device : String) : Option String :=
  if readings.countP (·.candidate.device = device) = 1
    then (romOwners (readings.map (·.candidate.toOwnerCandidate))).get? device else none

/-- A device gets its last reading, grounded if the marker stands in its own constructor. -/
theorem get?_ofCandidates_marked (readings : List Reading) (marker device : String) :
    (ofCandidates (readings.map (·.marked marker))).get? device =
      (readings.reverse.find? (·.candidate.device = device)).map fun r =>
        (r.candidate.toProfile (ownerOf readings device)).ground (marks marker r.body) := by
  rw [ofCandidates, (get?_foldl_addCandidate _ _ device).1, ← List.map_reverse, List.find?_map,
    List.countP_map, List.map_map, Option.map_map]
  rfl

end Manifest

/-- What two markers may change of an extraction, where `raw` are the wirings as written. -/
structure GroundingOnly (source : List Char) (raw : InputTable) (marker marker' : String)
    (e e' : Extraction) : Prop where
  diagnostics : e.diagnostics = e'.diagnostics
  keys : e.manifest.keys = e'.manifest.keys
  /-- Profiles agree in all but the grounded row. -/
  profiles : ∀ device p p', e.manifest.get? device = some p → e'.manifest.get? device = some p' →
    p.ungrounded = p'.ungrounded
  /-- A row that is grounded is the last one, which both wirings share. -/
  rows : ∀ device p p', e.manifest.get? device = some p → e'.manifest.get? device = some p' →
    p.portMap.lastRow? = p'.portMap.lastRow? ∧
      (p.portMap.groundedRow = none ∨ p.portMap.groundedRow = p.portMap.lastRow?) ∧
      (p'.portMap.groundedRow = none ∨ p'.portMap.groundedRow = p.portMap.lastRow?)
  /-- A device has the wiring under its name, else that of its class, and its own constructor
  grounds it. -/
  isolated : ∀ device p p', e.manifest.get? device = some p → e'.manifest.get? device = some p' →
    ∃ d ∈ declarations source, d.device = device ∧
      ∃ body, constructorBody? source d.className device = some body ∧
        let wiring := ((raw.collapse.get? device).or (raw.collapse.get? d.stem)).getD default
        p.portMap = wiring.ground (marks marker body) ∧
          p'.portMap = wiring.ground (marks marker' body)
  /-- What the markers do to other devices moves nothing. -/
  unmoved : ∀ device p p', e.manifest.get? device = some p → e'.manifest.get? device = some p' →
    (∀ d ∈ declarations source, d.device = device → ∀ body,
      constructorBody? source d.className device = some body →
        marks marker body = marks marker' body) → p = p'

namespace InputTable

/-- No wiring is grounded before the constructors are read. -/
theorem groundedRow_wiring {source : List Char} {raw : InputTable} {reported : List Diagnostic}
    (h : ofSource source = .ok (raw, reported)) (marker : String) (d : Declaration) :
    ((Survey.ofSource marker source raw).wiring d).groundedRow = none := by
  have hget : ∀ name m, raw.collapse.get? name = some m → m.groundedRow = none := fun name m hm =>
    ((wellFormed_ofSource h).collapse m (Table.mem_values_iff.2 ⟨name, hm⟩)).2
  rw [Survey.wiring]
  cases hp : (Survey.ofSource marker source raw).portMap? d with
  | none => rfl
  | some m =>
    rw [Survey.portMap?, Option.or_eq_some_iff] at hp
    rcases hp with hp | ⟨-, hp⟩
    · exact hget d.device m hp
    · exact hget d.stem m hp

end InputTable

theorem PortMap.lastRow?_ground (m : PortMap) (observed : Bool) :
    (m.ground observed).lastRow? = m.lastRow? := by
  cases observed <;> rfl

theorem PortMap.groundedRow_ground {m : PortMap} (h : m.groundedRow = none) (observed : Bool) :
    (m.ground observed).groundedRow = none ∨ (m.ground observed).groundedRow = m.lastRow? := by
  cases observed with
  | false => exact .inl h
  | true =>
    right
    change m.lastRow?.or m.groundedRow = m.lastRow?
    rw [h, Option.or_none]

namespace Survey

variable {marker marker' : String} {source : List Char} {raw : InputTable} {device : String}

theorem get?_ofCandidates (marker : String) (source : List Char) (raw : InputTable)
    (device : String) :
    (Manifest.ofCandidates (ofSource marker source raw).candidates).get? device =
      ((ofSource marker source raw).readings.reverse.find? (·.candidate.device = device)).map
        fun r => (r.candidate.toProfile
          (Manifest.ownerOf (ofSource marker source raw).readings device)).ground
            (marks marker r.body) := by
  rw [candidates_eq_map]
  exact Manifest.get?_ofCandidates_marked _ marker device

/-- Under two markers, the profiles of a device are from one reading. -/
theorem exists_reading {p p' : Profile}
    (hp : (Manifest.ofCandidates (ofSource marker source raw).candidates).get? device = some p)
    (hp' : (Manifest.ofCandidates (ofSource marker' source raw).candidates).get? device =
      some p') :
    ∃ r ∈ (ofSource marker source raw).readings, r.candidate.device = device ∧ ∃ owner,
      p = (r.candidate.toProfile owner).ground (marks marker r.body) ∧
        p' = (r.candidate.toProfile owner).ground (marks marker' r.body) := by
  rw [get?_ofCandidates, Option.map_eq_some_iff] at hp hp'
  obtain ⟨r, hr, rfl⟩ := hp
  obtain ⟨r', hr', rfl⟩ := hp'
  rw [readings_ofSource marker' marker] at hr'
  obtain rfl : r = r' := by rwa [hr, Option.some.injEq] at hr'
  have hd := List.find?_some hr
  exact ⟨r, List.mem_reverse.1 (List.mem_of_find?_eq_some hr), of_decide_eq_true hd, _, rfl, rfl⟩

theorem mapValues_ungrounded (marker marker' : String) (source : List Char) (raw : InputTable) :
    (Manifest.ofCandidates (ofSource marker source raw).candidates).mapValues
        (fun _ => Profile.ungrounded) =
      (Manifest.ofCandidates (ofSource marker' source raw).candidates).mapValues
        (fun _ => Profile.ungrounded) := by
  apply Table.ext_get?
  intro device
  rw [Table.get?_mapValues, Table.get?_mapValues, get?_ofCandidates, get?_ofCandidates,
    Option.map_map, Option.map_map, readings_ofSource marker' marker]
  refine Option.map_congr fun r _ => ?_
  rw [Function.comp_apply, Function.comp_apply, Profile.ungrounded_ground,
    Profile.ungrounded_ground]

end Survey

theorem groundingOnly_ofSource {source : List Char} {raw : InputTable}
    {reported : List Diagnostic} (h : InputTable.ofSource source = .ok (raw, reported))
    (marker marker' : String) :
    GroundingOnly source raw marker marker'
      ⟨.ofCandidates (Survey.ofSource marker source raw).candidates,
        reported ++ raw.inclusionDiagnostics ++ (Survey.ofSource marker source raw).diagnostics⟩
      ⟨.ofCandidates (Survey.ofSource marker' source raw).candidates,
        reported ++ raw.inclusionDiagnostics ++
          (Survey.ofSource marker' source raw).diagnostics⟩ where
  diagnostics := by rw [Survey.diagnostics_ofSource marker marker']
  keys := by
    have hkeys := congrArg Table.keys (Survey.mapValues_ungrounded marker marker' source raw)
    rwa [Table.keys_mapValues, Table.keys_mapValues] at hkeys
  profiles device p p' hp hp' := by
    obtain ⟨r, -, -, owner, rfl, rfl⟩ := Survey.exists_reading hp hp'
    rw [Profile.ungrounded_ground, Profile.ungrounded_ground]
  rows device p p' hp hp' := by
    obtain ⟨r, hr, -, owner, rfl, rfl⟩ := Survey.exists_reading hp hp'
    have hnone : r.candidate.portMap.groundedRow = none := by
      rw [(Survey.of_mem_readings hr).2.2.2]
      exact InputTable.groundedRow_wiring h marker _
    have hlast : ∀ observed,
        (r.candidate.portMap.ground observed).lastRow? = r.candidate.portMap.lastRow? :=
      PortMap.lastRow?_ground r.candidate.portMap
    refine ⟨(hlast _).trans (hlast _).symm, ?_, ?_⟩
    · exact hlast (marks marker r.body) ▸ PortMap.groundedRow_ground hnone _
    · exact hlast (marks marker r.body) ▸ PortMap.groundedRow_ground hnone _
  isolated device p p' hp hp' := by
    obtain ⟨r, hr, rfl, owner, rfl, rfl⟩ := Survey.exists_reading hp hp'
    obtain ⟨hd, hdevice, hbody, hwiring⟩ := Survey.of_mem_readings hr
    refine ⟨r.declaration, hd, hdevice, r.body, hdevice ▸ hbody, ?_⟩
    rw [← hdevice]
    exact ⟨congrArg (PortMap.ground _) hwiring, congrArg (PortMap.ground _) hwiring⟩
  unmoved device p p' hp hp' hmarks := by
    obtain ⟨r, hr, rfl, owner, rfl, rfl⟩ := Survey.exists_reading hp hp'
    obtain ⟨hd, hdevice, hbody, -⟩ := Survey.of_mem_readings hr
    rw [hmarks r.declaration hd hdevice r.body (hdevice ▸ hbody)]

/-- Two markers fail alike, or give manifests that differ in grounded rows only. -/
theorem extract_of_markers (marker marker' : String) (source : List Char) :
    (∃ d, extract marker source = .error d ∧ extract marker' source = .error d) ∨
      ∃ raw reported e e', InputTable.ofSource source = .ok (raw, reported) ∧
        extract marker source = .ok e ∧ extract marker' source = .ok e' ∧
        GroundingOnly source raw marker marker' e e' := by
  cases hr : InputTable.ofSource source with
  | error d => exact .inl ⟨d, extract_eq_error_iff.2 hr, extract_eq_error_iff.2 hr⟩
  | ok read =>
    obtain ⟨raw, reported⟩ := read
    exact .inr ⟨raw, reported, _, _, rfl, extract_eq_ok_iff.2 ⟨raw, reported, hr, rfl⟩,
      extract_eq_ok_iff.2 ⟨raw, reported, hr, rfl⟩, groundingOnly_ofSource hr marker marker'⟩

end LcdHandhelds
