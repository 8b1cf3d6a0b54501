import LcdHandhelds.Manifest.Homebrew
import LcdHandhelds.Proofs.Manifest.Ownership

/-!
What titles do to the owners that a manifest names. A title that is added settles the ROM under its
id, whatever was there before, and nothing else changes. So a reference outlives the titles unless
its owner is replaced by a title with another ROM: `ownersShare_overlay_iff`.
-/
namespace LcdHandhelds

/-- The titles that are added: those whose base is known by then, as a device or an earlier title. -/
def addedTitles (known : List String) : List Title → List Title
  | [] => []
  | t :: titles =>
    if t.base ∈ known then t :: addedTitles (t.id :: known) titles else addedTitles known titles

/-- The last title that is added under an id. -/
def lastTitle? (known : List String) (titles : List Title) (id : String) : Option Title :=
  (addedTitles known titles).reverse.find? (·.id = id)

/-- The ROM of a title, which it shares with no one. -/
def Title.romRecord (t : Title) : RomRecord := ⟨t.rom, none, t.sha1, none⟩

@[simp] theorem lastTitle?_nil (known : List String) (id : String) :
    lastTitle? known [] id = none := rfl

theorem lastTitle?_cons_of_mem {known : List String} {t : Title} (h : t.base ∈ known)
    (titles : List Title) (id : String) :
    lastTitle? known (t :: titles) id =
      (lastTitle? (t.id :: known) titles id).or (if t.id = id then some t else none) := by
  rw [lastTitle?, addedTitles, if_pos h, List.reverse_cons, List.find?_append]
  by_cases hid : t.id = id <;> simp [lastTitle?, hid]

theorem lastTitle?_cons_of_notMem {known : List String} {t : Title} (h : t.base ∉ known)
    (titles : List Title) (id : String) :
    lastTitle? known (t :: titles) id = lastTitle? known titles id := by
  rw [lastTitle?, addedTitles, if_neg h, lastTitle?]

theorem addedTitles_congr {known others : List String} (h : ∀ name, name ∈ known ↔ name ∈ others)
    (titles : List Title) : addedTitles known titles = addedTitles others titles := by
  induction titles generalizing known others with
  | nil => rfl
  | cons t titles ih =>
    have hcons : ∀ name, name ∈ t.id :: known ↔ name ∈ t.id :: others := by
      simp only [List.mem_cons, h, implies_true]
    simp only [addedTitles, h t.base, ih h, ih hcons]

namespace Manifest

/-- The ROM of a device. -/
def rom? (m : Manifest) (device : String) : Option RomRecord :=
  (m.get? device).map (·.rom)

/-- Each owner that a profile names is a device with the same ROM. -/
def OwnersShare (m : Manifest) : Prop :=
  ∀ device profile owner, m.get? device = some profile → profile.rom.owner = some owner →
    owner ∈ m.sharing profile.rom.sha1

theorem ownersShare_iff {m : Manifest} :
    m.OwnersShare ↔ ∀ device rom owner, m.rom? device = some rom → rom.owner = some owner →
      ∃ shared, m.rom? owner = some shared ∧ shared.sha1 = rom.sha1 := by
  simp only [rom?, Option.map_eq_some_iff]
  constructor
  · rintro h device _ owner ⟨profile, hp, rfl⟩ ho
    obtain ⟨other, hother, hs⟩ := h device profile owner hp ho
    exact ⟨other.rom, ⟨other, hother, rfl⟩, hs⟩
  · intro h device profile owner hp ho
    obtain ⟨_, ⟨other, hother, rfl⟩, hs⟩ := h device profile.rom owner ⟨profile, hp, rfl⟩ ho
    exact ⟨other, hother, hs⟩

theorem ownersShare_iff_forall_entries {m : Manifest} :
    m.OwnersShare ↔ ∀ e ∈ m.entries, ∀ owner ∈ e.2.rom.owner,
      ∃ other ∈ m.entries, other.1 = owner ∧ other.2.rom.sha1 = e.2.rom.sha1 := by
  constructor
  · rintro h ⟨device, profile⟩ he owner ho
    obtain ⟨other, hother, hs⟩ := h device profile owner (Table.get?_eq_some_iff.2 he) ho
    exact ⟨(owner, other), Table.get?_eq_some_iff.1 hother, rfl, hs⟩
  · intro h device profile owner hp ho
    obtain ⟨⟨_, other⟩, hother, rfl, hs⟩ := h _ (Table.get?_eq_some_iff.1 hp) owner ho
    exact ⟨other, Table.get?_eq_some_iff.2 hother, hs⟩

instance (m : Manifest) : Decidable m.OwnersShare :=
  decidable_of_iff _ ownersShare_iff_forall_entries.symm

theorem mem_keys_insert (m : Manifest) (id : String) (profile : Profile) (name : String) :
    name ∈ (m.insert id profile).keys ↔ name ∈ id :: m.keys := by
  rw [List.mem_cons, Table.mem_keys_iff, Table.mem_keys_iff, Table.get?_insert]
  by_cases hn : name = id <;> simp [hn]

end Manifest

namespace Extraction

theorem manifest_addTitle_of_mem {e : Extraction} {t : Title} (h : t.base ∈ e.manifest.keys) :
    ∃ base, (e.addTitle t).manifest = e.manifest.insert t.id (t.profile base) := by
  obtain ⟨base, hb⟩ := Table.mem_keys_iff.1 h
  exact ⟨base, by rw [addTitle, hb]⟩

theorem manifest_addTitle_of_notMem {e : Extraction} {t : Title} (h : t.base ∉ e.manifest.keys) :
    (e.addTitle t).manifest = e.manifest := by
  rw [addTitle]
  split
  next base hb => exact absurd (Table.mem_keys_iff.2 ⟨base, hb⟩) h
  · rfl

/-- A title settles the ROM under its id. -/
theorem rom?_addTitle_of_mem {e : Extraction} {t : Title} (h : t.base ∈ e.manifest.keys)
    (device : String) :
    (e.addTitle t).manifest.rom? device =
      if t.id = device then some t.romRecord else e.manifest.rom? device := by
  obtain ⟨base, hadd⟩ := manifest_addTitle_of_mem h
  rw [hadd, Manifest.rom?, Table.get?_insert]
  by_cases hid : t.id = device
  · rw [if_pos hid.symm, if_pos hid]
    rfl
  · rw [if_neg (Ne.symm hid), if_neg hid, Manifest.rom?]

/-- After all titles, a device has the ROM of the last title under its id, else its own. -/
theorem rom?_overlay (e : Extraction) (titles : List Title) (device : String) :
    (e.overlay titles).manifest.rom? device =
      ((lastTitle? e.manifest.keys titles device).map Title.romRecord).or
        (e.manifest.rom? device) := by
  induction titles generalizing e with
  | nil => rfl
  | cons t titles ih =>
    change ((e.addTitle t).overlay titles).manifest.rom? device = _
    rw [ih]
    by_cases hb : t.base ∈ e.manifest.keys
    · have hknown : lastTitle? (e.addTitle t).manifest.keys titles device =
          lastTitle? (t.id :: e.manifest.keys) titles device := by
        obtain ⟨base, hadd⟩ := manifest_addTitle_of_mem hb
        rw [hadd, lastTitle?, addedTitles_congr (Manifest.mem_keys_insert _ _ _), lastTitle?]
      rw [hknown, rom?_addTitle_of_mem hb, lastTitle?_cons_of_mem hb]
      cases lastTitle? (t.id :: e.manifest.keys) titles device with
      | some last => rfl
      | none => by_cases hid : t.id = device <;> simp [hid]
    · rw [manifest_addTitle_of_notMem hb, lastTitle?_cons_of_notMem hb]

end Extraction

/--
The references of a manifest outlive the titles exactly if no device that keeps its profile names an
owner that a title gives another ROM.
-/
theorem ownersShare_overlay_iff {e : Extraction} (h : e.manifest.OwnersShare)
    (titles : List Title) :
    (e.overlay titles).manifest.OwnersShare ↔
      ∀ device profile owner, e.manifest.get? device = some profile →
        profile.rom.owner = some owner → lastTitle? e.manifest.keys titles device = none →
        ∀ t, lastTitle? e.manifest.keys titles owner = some t → t.sha1 = profile.rom.sha1 := by
  rw [Manifest.ownersShare_iff] at h ⊢
  simp only [Extraction.rom?_overlay]
  constructor
  · intro hafter device profile owner hp ho hkept t ht
    obtain ⟨shared, hs, hsha⟩ := hafter device profile.rom owner
      (by rw [hkept, Option.map_none, Option.none_or, Manifest.rom?, hp, Option.map_some]) ho
    rw [ht, Option.map_some, Option.some_or, Option.some.injEq] at hs
    rw [← hsha, ← hs]
    rfl
  · intro hkept device rom owner hrom ho
    cases hd : lastTitle? e.manifest.keys titles device with
    | some t =>
      -- a title names no owner
      rw [hd, Option.map_some, Option.some_or, Option.some.injEq] at hrom
      subst hrom
      cases ho
    | none =>
      rw [hd, Option.map_none, Option.none_or] at hrom
      obtain ⟨profile, hp, rfl⟩ := Option.map_eq_some_iff.1 hrom
      cases hw : lastTitle? e.manifest.keys titles owner with
      | some t => exact ⟨t.romRecord, rfl, hkept device profile owner hp ho hd t hw⟩
      | none => exact h device profile.rom owner hrom ho

/-- Two devices with one ROM, which the first one owns. -/
def sharedPair : Extraction where
  manifest := .ofList
    [("a", ⟨⟨.sm510, .single ⟨.zero, .zero⟩⟩, default, none, ⟨"p", none, "e", none⟩⟩),
      ("b", ⟨⟨.sm510, .single ⟨.zero, .zero⟩⟩, default, none, ⟨"p", none, "e", some "a"⟩⟩)]
  diagnostics := []

/-- The owner is replaced by a title that is based on another one and has the same digest. -/
theorem ownersShare_overlay_sharedPair :
    sharedPair.manifest.OwnersShare ∧
      (sharedPair.overlay [⟨"c", "b", "", "", "", "q", "f"⟩,
        ⟨"a", "c", "", "", "", "r", "e"⟩]).manifest.OwnersShare := by
  have h : sharedPair.manifest.OwnersShare := by decide +kernel
  have hentries : ∀ e ∈ sharedPair.manifest.entries,
      e.2.rom.sha1 = "e" ∧ ∀ owner ∈ e.2.rom.owner, owner = "a" := by decide +kernel
  have hlast : lastTitle? sharedPair.manifest.keys [⟨"c", "b", "", "", "", "q", "f"⟩,
      ⟨"a", "c", "", "", "", "r", "e"⟩] "a" = some ⟨"a", "c", "", "", "", "r", "e"⟩ := by
    decide +kernel
  refine ⟨h, (ownersShare_overlay_iff h _).2 fun device profile owner hp ho _ t ht => ?_⟩
  obtain ⟨hsha, hown⟩ := hentries _ (Table.get?_eq_some_iff.1 hp)
  rw [hown owner ho, hlast] at ht
  rw [← Option.some.inj ht]
  exact hsha.symm

/-- A title with another ROM replaces the owner, and the second device still names it. -/
theorem not_forall_ownersShare_overlay :
    ¬ ∀ (e : Extraction) (titles : List Title), e.manifest.OwnersShare →
      (e.overlay titles).manifest.OwnersShare := by
  intro hall
  have hafter := hall sharedPair [⟨"a", "a", "", "", "", "q", "f"⟩] (by decide +kernel)
  revert hafter
  decide +kernel

end LcdHandhelds
