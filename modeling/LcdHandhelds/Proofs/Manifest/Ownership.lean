import LcdHandhelds.Proofs.Machine.Ownership
import LcdHandhelds.Proofs.Manifest.Candidates

/-!
The owners that a manifest names. Devices that share a ROM have one owner among them, and each
other device names it, unless the device was declared again: an owner is handed out once, to the
first declaration, and the profile of the last one is kept.
-/
namespace LcdHandhelds

/-- What decides between devices: parent sets first, then the place of the ROM, then the name. -/
def precedence (source : List Char) (device : String) : Bool ×ₗ ℕ ×ₗ String :=
  toLex (((SystemEntry.scan source).get? device).any (·.parent.isSome),
    toLex (((RomBlock.index source).get? device).elim 0 (·.position), device))

theorem precedence_injective (source : List Char) : Function.Injective (precedence source) :=
  fun _ _ h => congrArg (fun r => (ofLex (ofLex r).2).2) h

namespace Manifest

/-- The devices whose ROM has a digest. -/
def sharing (m : Manifest) (sha1 : String) : Set String :=
  {device | ∃ profile, m.get? device = some profile ∧ profile.rom.sha1 = sha1}

/-- The device that comes first among those with a digest. -/
structure IsOwner (m : Manifest) (source : List Char) (sha1 device : String) : Prop where
  shares : device ∈ m.sharing sha1
  first : ∀ other ∈ m.sharing sha1, precedence source device ≤ precedence source other

theorem IsOwner.unique {m : Manifest} {source : List Char} {sha1 device other : String}
    (h : m.IsOwner source sha1 device) (h' : m.IsOwner source sha1 other) : device = other :=
  precedence_injective source (le_antisymm (h.first other h'.shares) (h'.first device h.shares))

end Manifest

namespace Survey

variable {marker : String} {source : List Char} {raw : InputTable} {c : Candidate}

theorem rank_toOwnerCandidate (h : c ∈ (ofSource marker source raw).candidates) :
    c.toOwnerCandidate.rank = precedence source c.device := by
  obtain ⟨hsystem, block, hblock, -, hposition⟩ := identified_of_mem_candidates h
  rw [precedence, ← hsystem, hblock, Option.elim_some, ← hposition]
  rfl

theorem identity_eq_of_device_eq {c' : Candidate}
    (h : c ∈ (ofSource marker source raw).candidates)
    (h' : c' ∈ (ofSource marker source raw).candidates) (hd : c.device = c'.device) :
    c.identity = c'.identity := by
  obtain ⟨-, block, hblock, hi, -⟩ := identified_of_mem_candidates h
  obtain ⟨-, block', hblock', hi', -⟩ := identified_of_mem_candidates h'
  rw [hd, hblock'] at hblock
  obtain rfl := Option.some.inj hblock
  rw [hi'] at hi
  exact (Except.ok.inj hi).symm

theorem consistent_candidates :
    OwnerCandidate.Consistent
      ((ofSource marker source raw).candidates.map Candidate.toOwnerCandidate) := by
  intro a ha b hb hd
  obtain ⟨c, hc, rfl⟩ := List.mem_map.1 ha
  obtain ⟨c', hc', rfl⟩ := List.mem_map.1 hb
  exact congrArg (·.main.sha1) (identity_eq_of_device_eq hc hc' hd)

theorem get?_romOwners_candidates (h : c ∈ (ofSource marker source raw).candidates)
    {o : OwnerCandidate}
    (ho : OwnerCandidate.owner?
      ((ofSource marker source raw).candidates.map Candidate.toOwnerCandidate)
      c.identity.main.sha1 = some o) :
    (romOwners ((ofSource marker source raw).candidates.map Candidate.toOwnerCandidate)).get?
      c.device = if c.device = o.device then none else some o.device :=
  OwnerCandidate.get?_romOwners consistent_candidates (List.mem_map_of_mem h) ho

theorem mem_sharing_iff (sha1 device : String) :
    device ∈ (Manifest.ofCandidates (ofSource marker source raw).candidates).sharing sha1 ↔
      ∃ c ∈ (ofSource marker source raw).candidates,
        c.device = device ∧ c.identity.main.sha1 = sha1 := by
  constructor
  · rintro ⟨profile, hp, rfl⟩
    obtain ⟨c, hc, hd, rfl⟩ := Manifest.exists_of_get?_ofCandidates hp
    exact ⟨c, hc, hd, rfl⟩
  · rintro ⟨c, hc, rfl, rfl⟩
    obtain ⟨profile, hp⟩ := Manifest.exists_get?_ofCandidates hc
    obtain ⟨last, hl, hd, rfl⟩ := Manifest.exists_of_get?_ofCandidates hp
    exact ⟨_, hp, congrArg (·.main.sha1) (identity_eq_of_device_eq hl hc hd)⟩

/-- The candidate that is elected for a digest is the owner among the profiles. -/
theorem isOwner_of_owner? {sha1 : String} {o : OwnerCandidate}
    (h : OwnerCandidate.owner?
      ((ofSource marker source raw).candidates.map Candidate.toOwnerCandidate) sha1 = some o) :
    (Manifest.ofCandidates (ofSource marker source raw).candidates).IsOwner source sha1
      o.device := by
  obtain ⟨⟨ho, hsha⟩, hleast⟩ := OwnerCandidate.owner?_eq_some h
  obtain ⟨owner, hw, rfl⟩ := List.mem_map.1 ho
  refine ⟨(mem_sharing_iff _ _).2 ⟨owner, hw, rfl, hsha⟩, fun device hd => ?_⟩
  obtain ⟨c, hc, rfl, hs⟩ := (mem_sharing_iff _ _).1 hd
  have hle := hleast c.toOwnerCandidate (List.mem_map_of_mem hc) hs
  rwa [rank_toOwnerCandidate hw, rank_toOwnerCandidate hc] at hle

end Survey

/--
The owner that a profile names. It is missing where the device is the owner itself, and where more
than one declaration of the device is kept.
-/
theorem owner_of_extract {marker : String} {source : List Char} {e : Extraction} {device : String}
    {profile : Profile} (he : extract marker source = .ok e)
    (hp : e.manifest.get? device = some profile) :
    ∃ owner, e.manifest.IsOwner source profile.rom.sha1 owner ∧
      profile.rom.owner =
        if device = owner ∨ 1 < keptCount source device then none else some owner := by
  obtain ⟨raw, reported, -, rfl⟩ := extract_eq_ok_iff.1 he
  obtain ⟨c, hc, rfl, rfl⟩ := Manifest.exists_of_get?_ofCandidates hp
  obtain ⟨o, ho⟩ := OwnerCandidate.exists_owner? (List.mem_map_of_mem hc)
  refine ⟨o.device, Survey.isOwner_of_owner? ho, ?_⟩
  have hpos : 0 < keptCount source c.device := by
    rw [← Survey.countP_candidates marker source raw, List.countP_pos_iff]
    exact ⟨c, hc, decide_eq_true rfl⟩
  rw [Survey.countP_candidates]
  change (if keptCount source c.device = 1 then (romOwners _).get? c.device else none) = _
  by_cases hone : keptCount source c.device = 1
  · rw [if_pos hone, Survey.get?_romOwners_candidates hc ho]
    by_cases hown : c.device = o.device
    · rw [if_pos hown, if_pos (.inl hown)]
    · rw [if_neg hown, if_neg (not_or.2 ⟨hown, by omega⟩)]
  · rw [if_neg hone, if_pos (.inr (by omega))]

/-- Three devices with one ROM. The second is declared twice. -/
def sharedRom : List Char :=
  classText "abbc".toList ++ "abc".toList.flatMap (constructorText []) ++
    "abc".toList.flatMap romText

set_option maxRecDepth 4000 in
theorem extract_sharedRom :
    ∃ e a b c, extract defaultMarker sharedRom = .ok e ∧
      (e.manifest.get? "a" = some a ∧ a.rom = ⟨"p", none, "e", none⟩) ∧
      (e.manifest.get? "b" = some b ∧ b.rom = ⟨"p", none, "e", none⟩) ∧
      e.manifest.get? "c" = some c ∧ c.rom = ⟨"p", none, "e", some "a"⟩ := by
  have h : (extract defaultMarker sharedRom).toOption.map (fun e =>
      ["a", "b", "c"].map fun device => (e.manifest.get? device).map (·.rom)) =
      some [some ⟨"p", none, "e", none⟩, some ⟨"p", none, "e", none⟩,
        some ⟨"p", none, "e", some "a"⟩] := by
    unfold sharedRom classText constructorText romText
    repeat rw [String.toList_ofList]
    decide +kernel
  obtain ⟨e, he, hroms⟩ := Option.map_eq_some_iff.1 h
  simp only [List.map_cons, List.map_nil, List.cons.injEq, Option.map_eq_some_iff] at hroms
  obtain ⟨⟨a, ha⟩, ⟨b, hb⟩, ⟨c, hc⟩, -⟩ := hroms
  exact ⟨e, a, b, c, toOption_eq_some_iff.1 he, ha, hb, hc⟩

/-- The third device names the first. -/
theorem owner_of_extract_sharedRom :
    ∃ e profile, extract defaultMarker sharedRom = .ok e ∧
      e.manifest.get? "c" = some profile ∧ profile.rom.owner = some "a" ∧
      e.manifest.IsOwner sharedRom profile.rom.sha1 "a" := by
  obtain ⟨e, -, -, profile, he, -, -, hp, hrom⟩ := extract_sharedRom
  have hnamed : profile.rom.owner = some "a" := by rw [hrom]
  refine ⟨e, profile, he, hp, hnamed, ?_⟩
  obtain ⟨owner, howner, hif⟩ := owner_of_extract he hp
  rw [hnamed] at hif
  split at hif
  · cases hif
  · rwa [Option.some.inj hif]

/-- The second device shares its ROM with the first, and neither names an owner. -/
theorem not_forall_owner_of_extract :
    ¬ ∀ marker source e device profile, extract marker source = .ok e →
      e.manifest.get? device = some profile →
      ∃ owner, e.manifest.IsOwner source profile.rom.sha1 owner ∧
        profile.rom.owner = if device = owner then none else some owner := by
  intro hall
  obtain ⟨e, a, b, -, he, ⟨ha, harom⟩, ⟨hb, hbrom⟩, -⟩ := extract_sharedRom
  have hown : ∀ device profile, e.manifest.get? device = some profile →
      profile.rom = ⟨"p", none, "e", none⟩ → e.manifest.IsOwner sharedRom "e" device := by
    intro device profile hp hrom
    obtain ⟨owner, howner, hif⟩ := hall _ _ e device profile he hp
    rw [hrom] at howner hif
    split at hif
    next heq => exact heq ▸ howner
    · cases hif
  have heq := (hown "a" a ha harom).unique (hown "b" b hb hbrom)
  exact absurd heq (by decide)

end LcdHandhelds
