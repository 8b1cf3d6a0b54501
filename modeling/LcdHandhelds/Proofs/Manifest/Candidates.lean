import LcdHandhelds.Manifest.Extraction
import LcdHandhelds.Proofs.Except
import LcdHandhelds.Proofs.Table

/-!
Which declarations become candidates, what their candidates are made of, and which candidate the
profile of a device is from.
-/
namespace LcdHandhelds

namespace Survey

variable {s : Survey} {d : Declaration} {body : List Char} {c : Candidate}

theorem candidate_eq_ok_iff :
    s.candidate d body = .ok c ↔
      ∃ hardware block identity,
        Hardware.ofConstructor body = .ok hardware ∧
        romOf s.roms d.device = .ok (block, identity) ∧
        c = ⟨d.device, hardware, ((s.portMap? d).getD default).ground (marks s.marker body),
          s.systems.get? d.device, identity, block.position⟩ := by
  rw [candidate, bind_eq_ok_iff]
  constructor
  · rintro ⟨hardware, hh, hc⟩
    obtain ⟨⟨block, identity⟩, hr, hc⟩ := bind_eq_ok_iff.1 hc
    cases hc
    exact ⟨hardware, block, identity, hh, hr, rfl⟩
  · rintro ⟨hardware, block, identity, hh, hr, rfl⟩
    exact ⟨hardware, hh, bind_eq_ok_iff.2 ⟨(block, identity), hr, rfl⟩⟩

theorem outcome_visit_eq_ok_iff :
    (s.visit d).outcome = .ok c ↔
      ∃ body, constructorBody? s.source d.className d.device = some body ∧
        s.candidate d body = .ok c := by
  rw [visit]
  cases constructorBody? s.source d.className d.device with
  | none => simp
  | some body => simp

theorem device_of_outcome (h : (s.visit d).outcome = .ok c) : c.device = d.device := by
  obtain ⟨body, -, hc⟩ := outcome_visit_eq_ok_iff.1 h
  obtain ⟨hardware, block, identity, -, -, rfl⟩ := candidate_eq_ok_iff.1 hc
  rfl

theorem candidates_eq_filterMap (s : Survey) :
    s.candidates = (declarations s.source).filterMap fun d => (s.visit d).outcome.toOption := by
  rw [candidates, visits, List.filterMap_map]
  rfl

theorem mem_candidates_iff :
    c ∈ s.candidates ↔ ∃ d ∈ declarations s.source, (s.visit d).outcome = .ok c := by
  simp only [candidates_eq_filterMap, List.mem_filterMap, toOption_eq_some_iff]

end Survey

theorem romOf_eq_ok_iff {blocks : Table String RomBlock} {device : String} {block : RomBlock}
    {identity : RomIdentity} :
    romOf blocks device = .ok (block, identity) ↔
      blocks.get? device = some block ∧ block.identity = .ok identity := by
  rw [romOf]
  cases blocks.get? device with
  | none => simp
  | some found =>
    rw [map_eq_ok_iff, Option.some.injEq]
    constructor
    · rintro ⟨_, hi, hpair⟩
      cases hpair
      exact ⟨rfl, hi⟩
    · rintro ⟨rfl, hi⟩
      exact ⟨identity, hi, rfl⟩

/-- The declaration has a constructor, of a machine that is known, and a ROM that is identified. -/
def Declaration.isKept (source : List Char) (d : Declaration) : Bool :=
  ((constructorBody? source d.className d.device).any fun body =>
    (Hardware.ofConstructor body).isOk) && (romOf (RomBlock.index source) d.device).isOk

/-- How many declarations of a device are kept. -/
def keptCount (source : List Char) (device : String) : Nat :=
  (declarations source).countP fun d => d.isKept source && d.device = device

namespace Survey

variable {marker : String} {source : List Char} {raw : InputTable} {d : Declaration}

theorem isKept_iff (marker : String) (raw : InputTable) :
    d.isKept source ↔ ∃ c, ((ofSource marker source raw).visit d).outcome = .ok c := by
  rw [Declaration.isKept, Bool.and_eq_true, Option.any_eq_true, isOk_iff]
  simp only [outcome_visit_eq_ok_iff, candidate_eq_ok_iff, isOk_iff]
  constructor
  · rintro ⟨⟨body, hb, hardware, hh⟩, ⟨block, identity⟩, hr⟩
    exact ⟨_, body, hb, hardware, block, identity, hh, hr, rfl⟩
  · rintro ⟨c, body, hb, hardware, block, identity, hh, hr, -⟩
    exact ⟨⟨body, hb, hardware, hh⟩, (block, identity), hr⟩

/-- Candidates for one device differ in hardware and wiring at most. -/
theorem identified_of_mem_candidates {c : Candidate}
    (h : c ∈ (ofSource marker source raw).candidates) :
    c.system = (SystemEntry.scan source).get? c.device ∧
      ∃ block, (RomBlock.index source).get? c.device = some block ∧
        block.identity = .ok c.identity ∧ c.position = block.position := by
  obtain ⟨d, -, ho⟩ := mem_candidates_iff.1 h
  obtain ⟨body, -, hb⟩ := outcome_visit_eq_ok_iff.1 ho
  obtain ⟨hardware, block, identity, -, hr, rfl⟩ := candidate_eq_ok_iff.1 hb
  obtain ⟨hblock, hi⟩ := romOf_eq_ok_iff.1 hr
  exact ⟨rfl, block, hblock, hi, rfl⟩

theorem countP_candidates (marker : String) (source : List Char) (raw : InputTable)
    (device : String) :
    (ofSource marker source raw).candidates.countP (·.device = device) =
      keptCount source device := by
  rw [candidates_eq_filterMap, List.countP_filterMap, keptCount]
  refine List.countP_congr fun d _ => ?_
  rw [Bool.and_eq_true, isKept_iff marker raw, decide_eq_true_iff]
  cases ho : ((ofSource marker source raw).visit d).outcome with
  | error reason => simp [Except.toOption]
  | ok c => simp [Except.toOption, device_of_outcome ho]

end Survey

namespace Manifest

/-- A device gets the profile of its last candidate, and its owner is left to none after it. -/
theorem get?_foldl_addCandidate (owners : Table String String) (candidates : List Candidate)
    (device : String) :
    (candidates.foldl addCandidate (∅, owners)).1.get? device =
        ((candidates.reverse.find? (·.device = device)).map fun c =>
          c.toProfile (if candidates.countP (·.device = device) = 1
            then owners.get? device else none)) ∧
      (candidates.foldl addCandidate (∅, owners)).2.get? device =
        if candidates.countP (·.device = device) = 0 then owners.get? device else none := by
  induction candidates using List.reverseRecOn with
  | nil => exact ⟨rfl, rfl⟩
  | append_singleton candidates c ih =>
    obtain ⟨hprofile, howner⟩ := ih
    rw [List.foldl_append, List.foldl_cons, List.foldl_nil, addCandidate, List.reverse_append,
      List.reverse_singleton, List.singleton_append, List.find?_cons, List.countP_append,
      List.countP_singleton, Table.get?_insert, Table.get?_erase]
    by_cases hd : device = c.device
    · subst hd
      rw [howner]
      simp
    · have hne : ¬ c.device = device := fun h => hd h.symm
      simp [hd, hne, hprofile, howner]

theorem exists_of_get?_ofCandidates {candidates : List Candidate} {device : String}
    {profile : Profile} (h : (ofCandidates candidates).get? device = some profile) :
    ∃ c ∈ candidates, c.device = device ∧
      profile = c.toProfile (if candidates.countP (·.device = device) = 1
        then (romOwners (candidates.map Candidate.toOwnerCandidate)).get? device else none) := by
  rw [ofCandidates, (get?_foldl_addCandidate _ candidates device).1,
    Option.map_eq_some_iff] at h
  obtain ⟨c, hc, rfl⟩ := h
  have hd := List.find?_some hc
  exact ⟨c, List.mem_reverse.1 (List.mem_of_find?_eq_some hc), of_decide_eq_true hd, rfl⟩

theorem exists_get?_ofCandidates {candidates : List Candidate} {c : Candidate}
    (h : c ∈ candidates) : ∃ profile, (ofCandidates candidates).get? c.device = some profile := by
  rw [ofCandidates, (get?_foldl_addCandidate _ candidates c.device).1]
  cases hf : candidates.reverse.find? (·.device = c.device) with
  | none => exact absurd (decide_eq_true rfl) (List.find?_eq_none.1 hf c (List.mem_reverse.2 h))
  | some last => exact ⟨_, rfl⟩

end Manifest

theorem extract_eq_ok_iff {marker : String} {source : List Char} {e : Extraction} :
    extract marker source = .ok e ↔
      ∃ raw reported, InputTable.ofSource source = .ok (raw, reported) ∧
        e = ⟨Manifest.ofCandidates (Survey.ofSource marker source raw).candidates,
          reported ++ raw.inclusionDiagnostics ++
            (Survey.ofSource marker source raw).diagnostics⟩ := by
  rw [extract, bind_eq_ok_iff]
  constructor
  · rintro ⟨⟨raw, reported⟩, hr, he⟩
    cases he
    exact ⟨raw, reported, hr, rfl⟩
  · rintro ⟨raw, reported, hr, rfl⟩
    exact ⟨(raw, reported), hr, rfl⟩

/-! Texts of small sources, with one class and devices of one letter. -/

def classText (devices : List Char) : List Char :=
  "class x_state : y\n\x7b\n".toList ++
    devices.flatMap (fun d => " void ".toList ++ d :: "(machine_config &config);\n".toList) ++
    "\x7d;\n".toList

/-- A constructor of a machine with one screen, and what else it does. -/
def constructorText (statements : List Char) (device : Char) : List Char :=
  "void x_state::".toList ++ device :: "(machine_config &config)\n\x7b\n".toList ++
    " sm510_common(config, 1, 2);\n".toList ++ statements ++ "\x7d\n".toList

def romText (device : Char) : List Char :=
  "ROM_START( ".toList ++ device :: " )\nROM_REGION( 1, \"maincpu\", 0 )\n".toList ++
    "ROM_LOAD( \"p\", 0, 1, SHA1(e) )\nROM_END\n".toList

end LcdHandhelds
