import Mathlib.Data.List.Nodup
import LcdHandhelds.Proofs.Manifest.Borrowing

/-!
Titles none of which is based on another one. What such a title gets does not change while they are
added (`profile?_overlay`), so each id goes to its last title with a known base (`get?_overlay`). It
makes no difference then in which order titles of different ids are added, nor whether they are added
once more: `harmless_of_independent`.
-/
namespace LcdHandhelds

/-- No title is based on another one of the list. A title may replace its own base. -/
def Independent (titles : List Title) : Prop :=
  ∀ t ∈ titles, ∀ u ∈ titles, t.base = u.id → t = u

/-- The profile that a title gets, if its base is known. -/
def Title.profile? (t : Title) (m : Manifest) : Option Profile :=
  (m.get? t.base).map t.profile

/-- What a title gives to a device. -/
def Title.given? (m : Manifest) (device : String) (t : Title) : Option Profile :=
  if t.id = device then t.profile? m else none

/-- Titles may be added again, and in any order if their ids differ. -/
structure Harmless (e : Extraction) (titles : List Title) : Prop where
  again : ((e.overlay titles).overlay titles).manifest = (e.overlay titles).manifest
  /-- The second time, what was reported the first time is reported once more. -/
  reports : ∃ reports, (e.overlay titles).diagnostics = e.diagnostics ++ reports ∧
    ((e.overlay titles).overlay titles).diagnostics = (e.overlay titles).diagnostics ++ reports
  reorder : (titles.map Title.id).Nodup → ∀ others, others.Perm titles →
    (e.overlay others).manifest = (e.overlay titles).manifest

/-! ### One title -/

section Step

variable {t u : Title}

/-- A title does not notice that it has replaced its base before. -/
theorem Title.profile_profile (t : Title) (base : Profile) :
    t.profile (t.profile base) = t.profile base :=
  rfl

theorem get?_addTitle (e : Extraction) (t : Title) (device : String) :
    (e.addTitle t).manifest.get? device =
      (t.given? e.manifest device).or (e.manifest.get? device) := by
  rw [Title.given?, Title.profile?]
  cases hbase : e.manifest.get? t.base with
  | none => simp [Extraction.addTitle_of_none hbase]
  | some base =>
    rw [Extraction.addTitle_of_base hbase, Table.get?_insert]
    by_cases hid : t.id = device
    · simp [hid]
    · simp [hid, Ne.symm hid]

theorem diagnostics_addTitle (e : Extraction) (t : Title) :
    (e.addTitle t).diagnostics = e.diagnostics ++
      if (t.profile? e.manifest).isNone then [⟨t.id, .missingHomebrewBase t.base⟩] else [] := by
  rw [Title.profile?]
  cases hbase : e.manifest.get? t.base with
  | none => simp [Extraction.addTitle_of_none hbase]
  | some base => simp [Extraction.addTitle_of_base hbase]

/-- What a title gets does not change by a title that it is not based on. -/
theorem profile?_addTitle (h : t.base = u.id → t = u) (e : Extraction) :
    t.profile? (e.addTitle u).manifest = t.profile? e.manifest := by
  rw [Title.profile?, get?_addTitle, Title.given?]
  by_cases hbase : u.id = t.base
  · -- it is based on itself
    obtain rfl := h hbase.symm
    rw [if_pos hbase, Title.profile?]
    cases e.manifest.get? t.base with
    | none => rfl
    | some base => exact congrArg some (t.profile_profile base)
  · rw [if_neg hbase, Option.none_or, Title.profile?]

end Step

/-! ### All titles -/

theorem profile?_overlay {t : Title} {titles : List Title} (h : ∀ u ∈ titles, t.base = u.id → t = u)
    (e : Extraction) : t.profile? (e.overlay titles).manifest = t.profile? e.manifest := by
  induction titles using List.reverseRecOn with
  | nil => rfl
  | append_singleton titles u ih =>
    rw [List.forall_mem_append, List.forall_mem_singleton] at h
    rw [Extraction.overlay_snoc, profile?_addTitle h.2, ih h.1]

namespace Independent

variable {titles : List Title} (h : Independent titles)

include h

theorem of_append {front back : List Title} (hsplit : titles = front ++ back) :
    Independent front := by
  intro t ht u hu
  exact h t (by simp [hsplit, ht]) u (by simp [hsplit, hu])

/-- The last title with a known base settles its id. -/
theorem get?_overlay (e : Extraction) (device : String) :
    (e.overlay titles).manifest.get? device =
      (titles.reverse.findSome? (Title.given? e.manifest device)).or (e.manifest.get? device) := by
  induction titles using List.reverseRecOn with
  | nil => rfl
  | append_singleton titles t ih =>
    have hlast : ∀ u ∈ titles, t.base = u.id → t = u := fun u hu =>
      h t (by simp) u (by simp [hu])
    rw [Extraction.overlay_snoc, get?_addTitle, ih (h.of_append rfl), Title.given?,
      profile?_overlay hlast, List.reverse_append, List.reverse_singleton, List.singleton_append,
      List.findSome?_cons, Title.given?]
    cases (if t.id = device then t.profile? e.manifest else none) with
    | none => rfl
    | some profile => rfl

/-- Reported are the titles whose base is missing from the start. -/
theorem diagnostics_overlay (e : Extraction) :
    (e.overlay titles).diagnostics = e.diagnostics ++
      (titles.filter fun t => (t.profile? e.manifest).isNone).map
        fun t => ⟨t.id, .missingHomebrewBase t.base⟩ := by
  induction titles using List.reverseRecOn with
  | nil => simp [Extraction.overlay]
  | append_singleton titles t ih =>
    have hlast : ∀ u ∈ titles, t.base = u.id → t = u := fun u hu =>
      h t (by simp) u (by simp [hu])
    rw [Extraction.overlay_snoc, diagnostics_addTitle, ih (h.of_append rfl),
      profile?_overlay hlast, List.filter_append, List.map_append, List.append_assoc]
    cases hbase : t.profile? e.manifest <;> simp [hbase]

theorem profile?_eq (e : Extraction) {t : Title} (ht : t ∈ titles) :
    t.profile? (e.overlay titles).manifest = t.profile? e.manifest :=
  profile?_overlay (h t ht) e

theorem overlay_again (e : Extraction) :
    ((e.overlay titles).overlay titles).manifest = (e.overlay titles).manifest := by
  apply Table.ext_get?
  intro device
  have hgiven : titles.reverse.findSome? (Title.given? (e.overlay titles).manifest device) =
      titles.reverse.findSome? (Title.given? e.manifest device) := by
    rw [← List.head?_filterMap, ← List.head?_filterMap]
    refine congrArg List.head? (List.filterMap_congr fun t ht => ?_)
    rw [Title.given?, h.profile?_eq e (List.mem_reverse.1 ht), Title.given?]
  rw [h.get?_overlay, hgiven, h.get?_overlay, ← Option.or_assoc, Option.or_self]

theorem reports_again (e : Extraction) :
    ∃ reports, (e.overlay titles).diagnostics = e.diagnostics ++ reports ∧
      ((e.overlay titles).overlay titles).diagnostics =
        (e.overlay titles).diagnostics ++ reports := by
  refine ⟨_, h.diagnostics_overlay e, ?_⟩
  rw [h.diagnostics_overlay (e.overlay titles)]
  congr 2
  exact List.filter_congr fun t ht => by rw [h.profile?_eq e ht]

end Independent

/-! ### The order of the titles -/

/-- Of titles with different ids, at most one gives something to a device. -/
theorem findSome?_given?_eq_some_iff {m : Manifest} {device : String} {titles : List Title}
    (h : (titles.map Title.id).Nodup) {profile : Profile} :
    titles.findSome? (Title.given? m device) = some profile ↔
      ∃ t ∈ titles, t.given? m device = some profile := by
  constructor
  · exact List.exists_of_findSome?_eq_some
  · rintro ⟨t, ht, hgiven⟩
    have hid : ∀ {u : Title} {p}, u.given? m device = some p → u.id = device := by
      intro u p hu
      by_contra hne
      rw [Title.given?, if_neg hne] at hu
      cases hu
    cases hfirst : titles.findSome? (Title.given? m device) with
    | none => rw [List.findSome?_eq_none_iff.1 hfirst t ht] at hgiven; cases hgiven
    | some other =>
      obtain ⟨u, hu, hother⟩ := List.exists_of_findSome?_eq_some hfirst
      obtain rfl := List.inj_on_of_nodup_map h hu ht ((hid hother).trans (hid hgiven).symm)
      rw [← hother, hgiven]

theorem Independent.perm {titles others : List Title} (h : Independent titles)
    (hperm : others.Perm titles) : Independent others := fun t ht u hu =>
  h t (hperm.mem_iff.1 ht) u (hperm.mem_iff.1 hu)

theorem Independent.overlay_perm {titles others : List Title} (h : Independent titles)
    (hids : (titles.map Title.id).Nodup) (hperm : others.Perm titles) (e : Extraction) :
    (e.overlay others).manifest = (e.overlay titles).manifest := by
  have hids' : (others.map Title.id).Nodup := (hperm.map Title.id).nodup_iff.2 hids
  have hreverse : ∀ {l : List Title}, (l.map Title.id).Nodup → (l.reverse.map Title.id).Nodup :=
    fun hl => by rwa [List.map_reverse, List.nodup_reverse]
  apply Table.ext_get?
  intro device
  rw [(h.perm hperm).get?_overlay, h.get?_overlay]
  congr 1
  apply Option.ext
  intro profile
  rw [findSome?_given?_eq_some_iff (hreverse hids'), findSome?_given?_eq_some_iff (hreverse hids)]
  simp only [List.mem_reverse, hperm.mem_iff]

/-- Titles that are not based on each other commute, and are added once for all. -/
theorem harmless_of_independent {titles : List Title} (h : Independent titles) (e : Extraction) :
    Harmless e titles where
  again := h.overlay_again e
  reports := h.reports_again e
  reorder hids _ hperm := h.overlay_perm hids hperm e

/-- A title in place of its base, one on a device, and one without a base. -/
def replacingTitles : List Title :=
  [⟨"a", "a", "", "", "", "q", "f"⟩, ⟨"c", "b", "", "", "", "r", "g"⟩,
    ⟨"d", "e", "", "", "", "s", "h"⟩]

theorem harmless_replacingTitles :
    Independent replacingTitles ∧ Harmless sharedPair replacingTitles ∧
      (sharedPair.overlay replacingTitles.reverse).manifest =
        (sharedPair.overlay replacingTitles).manifest := by
  have h : Independent replacingTitles := by
    unfold Independent
    decide
  have hharmless := harmless_of_independent h sharedPair
  exact ⟨h, hharmless, hharmless.reorder (by decide) _ (List.reverse_perm _)⟩

end LcdHandhelds
