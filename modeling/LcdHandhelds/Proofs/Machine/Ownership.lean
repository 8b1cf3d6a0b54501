import Mathlib.Data.Prod.Lex
import Mathlib.Data.String.Basic
import LcdHandhelds.Machine.Ownership
import LcdHandhelds.Proofs.Table

/-!
The owner of a digest is the least of its group, in the lexicographic order of what decides. Where
each device has one digest, the table of owners holds the other devices of a group.
-/
namespace LcdHandhelds.OwnerCandidate

/-- What decides, as one element of a linear order. -/
def rank (c : OwnerCandidate) : Bool ×ₗ ℕ ×ₗ String :=
  toLex (c.hasParent, toLex (c.position, c.device))

theorem isLE_compare_iff (a b : OwnerCandidate) : (compare a b).isLE ↔ a.rank ≤ b.rank := by
  have hc : compare a b = Ord.compare a.rank b.rank := by
    simp [compare, rank, Prod.Lex.compare_def, compareLex, compareOn]
  rw [hc, ← Ordering.ne_gt_iff_isLE, ← compare_le_iff_le]

theorem least_eq (a b : OwnerCandidate) : least a b = if a.rank ≤ b.rank then a else b := by
  simp only [least, isLE_compare_iff]

theorem foldl_least_mem (c : OwnerCandidate) (rest : List OwnerCandidate) :
    rest.foldl least c ∈ c :: rest := by
  induction rest generalizing c with
  | nil => exact List.mem_cons_self
  | cons d rest ih =>
    rw [List.foldl_cons]
    have hd : least c d = c ∨ least c d = d := by
      rw [least_eq]
      split <;> simp
    rcases List.mem_cons.1 (ih (least c d)) with h | h
    · rw [h]
      rcases hd with hd | hd <;> simp [hd]
    · exact List.mem_cons_of_mem _ (List.mem_cons_of_mem _ h)

theorem rank_foldl_least_le (c : OwnerCandidate) (rest : List OwnerCandidate) :
    ∀ x ∈ c :: rest, (rest.foldl least c).rank ≤ x.rank := by
  induction rest generalizing c with
  | nil =>
    intro x hx
    rw [List.mem_singleton.1 hx]
    exact le_rfl
  | cons d rest ih =>
    rw [List.foldl_cons]
    have hfirst := ih (least c d) _ List.mem_cons_self
    have hboth : (least c d).rank ≤ c.rank ∧ (least c d).rank ≤ d.rank := by
      rw [least_eq]
      split
      · exact ⟨le_rfl, ‹_›⟩
      · exact ⟨(not_le.1 ‹_›).le, le_rfl⟩
    intro x hx
    rcases List.mem_cons.1 hx with rfl | hx
    · exact hfirst.trans hboth.1
    rcases List.mem_cons.1 hx with rfl | hx
    · exact hfirst.trans hboth.2
    · exact ih (least c d) x (List.mem_cons_of_mem _ hx)

/-- The owner is of the group and precedes all of it. -/
theorem owner?_eq_some {candidates : List OwnerCandidate} {sha1 : String} {o : OwnerCandidate}
    (h : owner? candidates sha1 = some o) :
    (o ∈ candidates ∧ o.sha1 = sha1) ∧
      ∀ c ∈ candidates, c.sha1 = sha1 → o.rank ≤ c.rank := by
  rw [owner?] at h
  split at h
  · cases h
  next c rest hgroup =>
    cases h
    have hmem : ∀ x, x ∈ c :: rest ↔ x ∈ candidates ∧ x.sha1 = sha1 := by
      intro x
      rw [← hgroup, List.mem_filter, decide_eq_true_iff]
    exact ⟨(hmem _).1 (foldl_least_mem c rest),
      fun x hx hs => rank_foldl_least_le c rest x ((hmem x).2 ⟨hx, hs⟩)⟩

theorem exists_owner? {candidates : List OwnerCandidate} {c : OwnerCandidate}
    (h : c ∈ candidates) : ∃ o, owner? candidates c.sha1 = some o := by
  rw [owner?]
  split
  next hgroup =>
    have hc : c ∈ candidates.filter (·.sha1 = c.sha1) := by simp [h]
    rw [hgroup] at hc
    exact absurd hc List.not_mem_nil
  · exact ⟨_, rfl⟩

/-- Candidates for one device agree on the digest. -/
def Consistent (candidates : List OwnerCandidate) : Prop :=
  ∀ a ∈ candidates, ∀ b ∈ candidates, a.device = b.device → a.sha1 = b.sha1

theorem mem_entries_iff {candidates : List OwnerCandidate} (hc : Consistent candidates)
    {c o : OwnerCandidate} (h : c ∈ candidates) (ho : owner? candidates c.sha1 = some o)
    (name : String) :
    (c.device, name) ∈ candidates.filterMap (referral? candidates) ↔
      c.device ≠ o.device ∧ name = o.device := by
  have hentry : ∀ a ∈ candidates, a.device = c.device →
      referral? candidates a = if c.device = o.device then none else some (c.device, o.device) := by
    intro a ha hd
    rw [referral?, hc a ha c h hd, ho, Option.bind_some, hd]
  rw [List.mem_filterMap]
  constructor
  · rintro ⟨a, ha, hae⟩
    have hd : a.device = c.device := by
      obtain ⟨owner, -, hf⟩ := Option.bind_eq_some_iff.1 hae
      split at hf
      · cases hf
      · exact (Prod.mk.inj (Option.some.inj hf)).1
    rw [hentry a ha hd] at hae
    split at hae
    · cases hae
    · cases hae
      exact ⟨‹_›, rfl⟩
  · rintro ⟨hne, rfl⟩
    exact ⟨c, h, by rw [hentry c h rfl, if_neg hne]⟩

/-- All but the owner of a group are sent to the owner. -/
theorem get?_romOwners {candidates : List OwnerCandidate} (hc : Consistent candidates)
    {c o : OwnerCandidate} (h : c ∈ candidates) (ho : owner? candidates c.sha1 = some o) :
    (romOwners candidates).get? c.device = if c.device = o.device then none else some o.device := by
  have hmem := mem_entries_iff hc h ho
  split
  next hown =>
    exact Table.get?_ofList_eq_none fun name he => ((hmem name).1 he).1 hown
  next hne =>
    exact Table.get?_ofList_eq_some ((hmem _).2 ⟨hne, rfl⟩) fun name he => ((hmem name).1 he).2

end LcdHandhelds.OwnerCandidate
