import LcdHandhelds.Proofs.Manifest.Overlay

/-!
What titles add to a manifest, and what of it they borrow. A title is added if its base is known by
then, and it gets its own record on the hardware and the wiring of its base. Titles may build on each
other and replace each other, but by induction over the titles all hardware and wiring is that of a
device which was there before: `borrows_overlay`.
-/
namespace LcdHandhelds

/-- The base is a device of the manifest, or a title that was added before. -/
def Title.Based (t : Title) (m : Manifest) (added : List Title) : Prop :=
  t.base ∈ m.keys ∨ ∃ u ∈ added, u.id = t.base

/-- The titles that are added, and those that are refused, as one after the other is looked at. -/
inductive Admits (m : Manifest) : (titles added refused : List Title) → Prop
  | nil : Admits m [] [] []
  | add {titles added refused : List Title} {t : Title} :
    Admits m titles added refused → t.Based m added → Admits m (titles ++ [t]) (added ++ [t]) refused
  | refuse {titles added refused : List Title} {t : Title} :
    Admits m titles added refused → ¬ t.Based m added →
      Admits m (titles ++ [t]) added (refused ++ [t])

/-- What a manifest becomes by the added titles, and what is reported of the refused ones. -/
structure Borrows (e : Extraction) (added refused : List Title) (after : Extraction) : Prop where
  /-- No device disappears, and no other ones appear than added titles. -/
  keys : ∀ device, device ∈ after.manifest.keys ↔
    device ∈ e.manifest.keys ∨ ∃ t ∈ added, t.id = device
  kept : ∀ device, (∀ t ∈ added, t.id ≠ device) →
    after.manifest.get? device = e.manifest.get? device
  borrowed : ∀ device profile, after.manifest.get? device = some profile →
    ∃ source original, e.manifest.get? source = some original ∧
      profile.hardware = original.hardware ∧ profile.portMap = original.portMap
  /-- The last title that is added under an id says all that is not borrowed. -/
  settled : ∀ front t back, added = front ++ t :: back → (∀ u ∈ back, u.id ≠ t.id) →
    ∃ profile, after.manifest.get? t.id = some profile ∧
      profile.release = some ⟨t.year, t.company, t.name⟩ ∧
      profile.rom = { file := t.rom, melody := none, sha1 := t.sha1, owner := none }
  reports : after.diagnostics =
    e.diagnostics ++ refused.map fun t => ⟨t.id, .missingHomebrewBase t.base⟩

/-! ### Which titles are added -/

section Admits

variable {m : Manifest} {titles added refused : List Title} {t : Title}

theorem admits_nil_iff : Admits m [] added refused ↔ added = [] ∧ refused = [] := by
  constructor
  · intro h
    generalize hnil : ([] : List Title) = none at h
    cases h with
    | nil => exact ⟨rfl, rfl⟩
    | add => simp at hnil
    | refuse => simp at hnil
  · rintro ⟨rfl, rfl⟩
    exact .nil

theorem admits_snoc_iff :
    Admits m (titles ++ [t]) added refused ↔
      (∃ before, Admits m titles before refused ∧ t.Based m before ∧ added = before ++ [t]) ∨
        ∃ before, Admits m titles added before ∧ ¬ t.Based m added ∧ refused = before ++ [t] := by
  constructor
  · intro h
    generalize hall : titles ++ [t] = all at h
    cases h with
    | nil => simp at hall
    | add h hbased =>
      obtain ⟨rfl, ht⟩ := List.append_inj' hall rfl
      obtain rfl := List.singleton_inj.1 ht
      exact .inl ⟨_, h, hbased, rfl⟩
    | refuse h hbased =>
      obtain ⟨rfl, ht⟩ := List.append_inj' hall rfl
      obtain rfl := List.singleton_inj.1 ht
      exact .inr ⟨_, h, hbased, rfl⟩
  · rintro (⟨before, h, hbased, rfl⟩ | ⟨before, h, hbased, rfl⟩)
    · exact .add h hbased
    · exact .refuse h hbased

/-- The bases decide which titles are added. -/
theorem exists_admits (m : Manifest) (titles : List Title) :
    ∃ added refused, ∀ a r, Admits m titles a r ↔ a = added ∧ r = refused := by
  induction titles using List.reverseRecOn with
  | nil => exact ⟨[], [], fun _ _ => admits_nil_iff⟩
  | append_singleton titles t ih =>
    obtain ⟨added, refused, h⟩ := ih
    by_cases hbased : t.Based m added
    · refine ⟨added ++ [t], refused, fun a r => ?_⟩
      simp only [admits_snoc_iff, h]
      constructor
      · rintro (⟨_, ⟨rfl, rfl⟩, -, rfl⟩ | ⟨_, ⟨rfl, -⟩, hnot, -⟩)
        · exact ⟨rfl, rfl⟩
        · exact absurd hbased hnot
      · rintro ⟨rfl, rfl⟩
        exact .inl ⟨added, ⟨rfl, rfl⟩, hbased, rfl⟩
    · refine ⟨added, refused ++ [t], fun a r => ?_⟩
      simp only [admits_snoc_iff, h]
      constructor
      · rintro (⟨_, ⟨rfl, -⟩, hyes, -⟩ | ⟨_, ⟨rfl, rfl⟩, -, rfl⟩)
        · exact absurd hyes hbased
        · exact ⟨rfl, rfl⟩
      · rintro ⟨rfl, rfl⟩
        exact .inr ⟨refused, ⟨rfl, rfl⟩, hbased, rfl⟩

end Admits

/-! ### What a title adds -/

namespace Extraction

variable {e : Extraction} {t : Title}

theorem addTitle_of_base {base : Profile} (h : e.manifest.get? t.base = some base) :
    e.addTitle t = { e with manifest := e.manifest.insert t.id (t.profile base) } := by
  rw [addTitle, h]

theorem addTitle_of_none (h : e.manifest.get? t.base = none) :
    e.addTitle t =
      { e with diagnostics := e.diagnostics ++ [⟨t.id, .missingHomebrewBase t.base⟩] } := by
  rw [addTitle, h]

theorem overlay_snoc (e : Extraction) (titles : List Title) (t : Title) :
    e.overlay (titles ++ [t]) = (e.overlay titles).addTitle t := by
  rw [overlay, List.foldl_append]
  rfl

end Extraction

namespace Borrows

variable {e after : Extraction} {added refused : List Title} {t : Title}

theorem refl (e : Extraction) : Borrows e [] [] e where
  keys device := by simp
  kept _ _ := rfl
  borrowed device profile h := ⟨device, profile, h, rfl, rfl⟩
  settled front t back h := by simp at h
  reports := by simp

/-- The titles that were added before are known as bases. -/
theorem based_iff (h : Borrows e added refused after) :
    t.Based e.manifest added ↔ t.base ∈ after.manifest.keys :=
  (h.keys t.base).symm

theorem add (h : Borrows e added refused after) (hbased : t.Based e.manifest added) :
    Borrows e (added ++ [t]) refused (after.addTitle t) := by
  obtain ⟨base, hbase⟩ := Table.mem_keys_iff.1 (h.based_iff.1 hbased)
  have hget : ∀ device, (after.addTitle t).manifest.get? device =
      if device = t.id then some (t.profile base) else after.manifest.get? device := fun device => by
    rw [Extraction.addTitle_of_base hbase, Table.get?_insert]
  refine
    { keys := fun device => ?keys
      kept := fun device hne => ?kept
      borrowed := fun device profile hp => ?borrowed
      settled := fun front u back hsplit hlast => ?settled
      reports := ?reports }
  case keys =>
    rw [Extraction.addTitle_of_base hbase, Manifest.mem_keys_insert, List.mem_cons, h.keys device]
    simp only [List.mem_append, List.mem_singleton, or_and_right, exists_or, exists_eq_left,
      @eq_comm _ device]
    rw [or_comm, or_assoc]
  case kept =>
    rw [List.forall_mem_append, List.forall_mem_singleton] at hne
    rw [hget, if_neg (Ne.symm hne.2), h.kept device hne.1]
  case borrowed =>
    rw [hget] at hp
    split at hp
    · obtain rfl := Option.some.inj hp
      exact h.borrowed t.base base hbase
    · exact h.borrowed device profile hp
  case settled =>
    rcases List.eq_nil_or_concat' back with rfl | ⟨back, last, rfl⟩
    · obtain ⟨-, ht⟩ := List.append_inj' hsplit rfl
      obtain rfl := List.singleton_inj.1 ht
      exact ⟨t.profile base, by rw [hget, if_pos rfl], rfl, rfl⟩
    · -- an earlier title keeps its id from this one
      rw [← List.cons_append, ← List.append_assoc] at hsplit
      obtain ⟨hbefore, ht⟩ := List.append_inj' hsplit rfl
      obtain rfl := List.singleton_inj.1 ht
      rw [List.forall_mem_append, List.forall_mem_singleton] at hlast
      obtain ⟨profile, hp, hrest⟩ := h.settled front u back hbefore hlast.1
      exact ⟨profile, by rw [hget, if_neg (Ne.symm hlast.2), hp], hrest⟩
  case reports =>
    rw [Extraction.addTitle_of_base hbase]
    exact h.reports

theorem refuse (h : Borrows e added refused after) (hbased : ¬ t.Based e.manifest added) :
    Borrows e added (refused ++ [t]) (after.addTitle t) := by
  have hnone : after.manifest.get? t.base = none := by
    cases hbase : after.manifest.get? t.base with
    | none => rfl
    | some base => exact absurd (h.based_iff.2 (Table.mem_keys_iff.2 ⟨base, hbase⟩)) hbased
  rw [Extraction.addTitle_of_none hnone]
  refine ⟨h.keys, h.kept, h.borrowed, h.settled, ?_⟩
  rw [h.reports, List.map_append, List.append_assoc]
  rfl

end Borrows

theorem borrows_of_admits {e : Extraction} {titles added refused : List Title}
    (h : Admits e.manifest titles added refused) :
    Borrows e added refused (e.overlay titles) := by
  induction h with
  | nil => exact .refl e
  | add _ hbased ih =>
    rw [Extraction.overlay_snoc]
    exact ih.add hbased
  | refuse _ hbased ih =>
    rw [Extraction.overlay_snoc]
    exact ih.refuse hbased

/-- The bases decide which titles are added; these settle their own ids, and borrow all the rest. -/
theorem borrows_overlay (e : Extraction) (titles : List Title) :
    ∃ added refused, (∀ a r, Admits e.manifest titles a r ↔ a = added ∧ r = refused) ∧
      Borrows e added refused (e.overlay titles) := by
  obtain ⟨added, refused, h⟩ := exists_admits e.manifest titles
  exact ⟨added, refused, h, borrows_of_admits ((h added refused).2 ⟨rfl, rfl⟩)⟩

end LcdHandhelds
