import LcdHandhelds.Proofs.Machine.Ownership

/-!
The election of owners does not depend on any order. The owner of a digest is the device of the least
candidate of its group, which is fixed by the candidates as a set; the table of owners refers the
other devices of the group to it (`get?_romOwners_iff`). So the candidates may come in any order, and
so may their groups: `election_of_consistent`.
-/
namespace LcdHandhelds.OwnerCandidate

variable {candidates : List OwnerCandidate}

/-- The candidate precedes all others of its digest. -/
structure Leads (candidates : List OwnerCandidate) (sha1 : String) (o : OwnerCandidate) : Prop where
  mem : o ∈ candidates
  sha1_eq : o.sha1 = sha1
  least : ∀ c ∈ candidates, c.sha1 = sha1 → o.rank ≤ c.rank

/-- The device is in a group that another device owns. -/
def Refers (candidates : List OwnerCandidate) (device owner : String) : Prop :=
  device ≠ owner ∧ ∃ c ∈ candidates, c.device = device ∧
    ∃ o, Leads candidates c.sha1 o ∧ o.device = owner

theorem device_eq_of_rank_eq {a b : OwnerCandidate} (h : a.rank = b.rank) : a.device = b.device :=
  congrArg (fun r => (ofLex (ofLex r).2).2) h

/-- Candidates that tie for a group are of one device. -/
theorem Leads.device_eq {sha1 : String} {o o' : OwnerCandidate} (h : Leads candidates sha1 o)
    (h' : Leads candidates sha1 o') : o.device = o'.device :=
  device_eq_of_rank_eq (le_antisymm (h.least o' h'.mem h'.sha1_eq) (h'.least o h.mem h.sha1_eq))

theorem Leads.of_owner? {sha1 : String} {o : OwnerCandidate}
    (h : owner? candidates sha1 = some o) : Leads candidates sha1 o :=
  let ⟨⟨hmem, hsha1⟩, hleast⟩ := owner?_eq_some h
  ⟨hmem, hsha1, hleast⟩

theorem exists_leads {c : OwnerCandidate} (h : c ∈ candidates) :
    ∃ o, Leads candidates c.sha1 o :=
  let ⟨o, ho⟩ := exists_owner? h
  ⟨o, .of_owner? ho⟩

/-- Which candidates there are decides, not their order nor how often they occur. -/
theorem Leads.congr {candidates' : List OwnerCandidate}
    (h : ∀ c, c ∈ candidates' ↔ c ∈ candidates) (sha1 : String) (o : OwnerCandidate) :
    Leads candidates' sha1 o ↔ Leads candidates sha1 o := by
  constructor
  · exact fun ⟨hmem, hsha1, hleast⟩ => ⟨(h o).1 hmem, hsha1, fun c hc => hleast c ((h c).2 hc)⟩
  · exact fun ⟨hmem, hsha1, hleast⟩ => ⟨(h o).2 hmem, hsha1, fun c hc => hleast c ((h c).1 hc)⟩

theorem Refers.congr {candidates' : List OwnerCandidate}
    (h : ∀ c, c ∈ candidates' ↔ c ∈ candidates) (device owner : String) :
    Refers candidates' device owner ↔ Refers candidates device owner := by
  simp only [Refers, h, Leads.congr h]

/-- A device of one digest is referred to one owner. -/
theorem Refers.unique (hc : Consistent candidates) {device owner owner' : String}
    (h : Refers candidates device owner) (h' : Refers candidates device owner') :
    owner = owner' := by
  obtain ⟨-, c, hmem, hdevice, o, ho, rfl⟩ := h
  obtain ⟨-, c', hmem', hdevice', o', ho', rfl⟩ := h'
  rw [hc c' hmem' c hmem (hdevice'.trans hdevice.symm)] at ho'
  exact ho.device_eq ho'

/-! ### The table of owners -/

theorem mem_referrals_iff {device owner : String} :
    (device, owner) ∈ candidates.filterMap (referral? candidates) ↔
      Refers candidates device owner := by
  simp only [List.mem_filterMap, referral?, Option.bind_eq_some_iff]
  constructor
  · rintro ⟨c, hmem, o, ho, hentry⟩
    split at hentry
    · cases hentry
    · cases hentry
      exact ⟨‹_›, c, hmem, rfl, o, .of_owner? ho, rfl⟩
  · rintro ⟨hne, c, hmem, rfl, o, ho, rfl⟩
    obtain ⟨first, hfirst⟩ := exists_owner? hmem
    have hdevice := (Leads.of_owner? hfirst).device_eq ho
    refine ⟨c, hmem, first, hfirst, ?_⟩
    rw [hdevice, if_neg hne]

theorem get?_romOwners_iff (hc : Consistent candidates) {device owner : String} :
    (romOwners candidates).get? device = some owner ↔ Refers candidates device owner := by
  rw [romOwners, Table.get?_ofList_iff, mem_referrals_iff]
  intro d a b ha hb
  exact Refers.unique hc (mem_referrals_iff.1 ha) (mem_referrals_iff.1 hb)

/-- An owner is the first of its own group. -/
theorem Refers.not_owner (hc : Consistent candidates) {device owner owner' : String}
    (h : Refers candidates device owner) : ¬ Refers candidates owner owner' := by
  obtain ⟨-, c, -, -, o, ho, rfl⟩ := h
  rintro ⟨hne, d, hmem, hdevice, o', ho', rfl⟩
  rw [hc d hmem o ho.mem hdevice, ho.sha1_eq] at ho'
  exact hne (ho.device_eq ho')

/-! ### Groups in any order -/

/-- The candidates by digest, each group in their order. -/
def groups (candidates : List OwnerCandidate) : Table String (List OwnerCandidate) :=
  candidates.foldl (fun t c => t.alter c.sha1 fun members => some (members.getD [] ++ [c])) ∅

/-- Refers the members of a group to the first of them by precedence. -/
def refer (owners : Table String String) : List OwnerCandidate → Table String String
  | [] => owners
  | c :: rest =>
    let owner := rest.foldl least c
    (c :: rest).foldl (fun t m =>
      if m.device = owner.device then t else t.insert m.device owner.device) owners

theorem groups_snoc (candidates : List OwnerCandidate) (c : OwnerCandidate) :
    groups (candidates ++ [c]) =
      (groups candidates).alter c.sha1 fun members => some (members.getD [] ++ [c]) := by
  rw [groups, List.foldl_append]
  rfl

/-- The group of a digest is the candidates that have it, if there are any. -/
theorem get?_groups (candidates : List OwnerCandidate) (sha1 : String) :
    (groups candidates).get? sha1 =
      if candidates.filter (·.sha1 = sha1) = [] then none
      else some (candidates.filter (·.sha1 = sha1)) := by
  induction candidates using List.reverseRecOn with
  | nil => rfl
  | append_singleton candidates c ih =>
    rw [groups_snoc, Table.get?_alter, List.filter_append]
    by_cases hs : sha1 = c.sha1
    · subst hs
      rw [if_pos rfl, ih]
      by_cases hnil : candidates.filter (·.sha1 = c.sha1) = []
      · simp [hnil]
      · simp [hnil]
    · have hother : [c].filter (·.sha1 = sha1) = [] := by simp [Ne.symm hs]
      rw [if_neg hs, ih, hother, List.append_nil]

theorem mem_values_groups_iff {members : List OwnerCandidate} :
    members ∈ (groups candidates).values ↔
      members ≠ [] ∧ ∃ sha1, members = candidates.filter (·.sha1 = sha1) := by
  simp only [Table.mem_values_iff, get?_groups, Option.ite_none_left_eq_some]
  constructor
  · rintro ⟨sha1, hne, hmembers⟩
    cases hmembers
    exact ⟨hne, sha1, rfl⟩
  · rintro ⟨hne, sha1, rfl⟩
    exact ⟨sha1, hne, rfl⟩

/-- A group is a list of candidates in its own right. -/
theorem refer_eq {members : List OwnerCandidate} {sha1 : String}
    (h : ∀ m ∈ members, m.sha1 = sha1) (owners : Table String String) :
    refer owners members =
      (members.filterMap (referral? members)).foldl (fun t e => t.insert e.1 e.2) owners := by
  cases members with
  | nil => rfl
  | cons c rest =>
    have howner : owner? (c :: rest) sha1 = some (rest.foldl least c) := by
      have hall : (c :: rest).filter (·.sha1 = sha1) = c :: rest := by simpa using h
      rw [owner?, hall]
    rw [refer, List.foldl_filterMap]
    refine List.foldl_ext _ _ _ fun t m hm => ?_
    rw [referral?, h m hm, howner, Option.bind_some]
    split <;> rfl

theorem foldl_refer_eq {order : List (List OwnerCandidate)}
    (h : ∀ members ∈ order, ∃ sha1, ∀ m ∈ members, m.sha1 = sha1) :
    order.foldl refer ∅ =
      Table.ofList (order.flatMap fun members => members.filterMap (referral? members)) := by
  rw [Table.ofList, List.foldl_flatMap]
  refine List.foldl_ext _ _ _ fun t members hm => ?_
  obtain ⟨sha1, hsha1⟩ := h members hm
  exact refer_eq hsha1 t

theorem leads_filter_iff {sha1 : String} {o : OwnerCandidate} :
    Leads (candidates.filter (·.sha1 = sha1)) sha1 o ↔ Leads candidates sha1 o := by
  constructor
  · rintro ⟨hmem, hsha1, hleast⟩
    exact ⟨List.mem_of_mem_filter hmem, hsha1, fun c hc hs =>
      hleast c (List.mem_filter.2 ⟨hc, decide_eq_true hs⟩) hs⟩
  · rintro ⟨hmem, hsha1, hleast⟩
    exact ⟨List.mem_filter.2 ⟨hmem, decide_eq_true hsha1⟩, hsha1, fun c hc =>
      hleast c (List.mem_of_mem_filter hc)⟩

/-- A device is referred within its group. -/
theorem refers_iff_exists_group {device owner : String} :
    (∃ members ∈ (groups candidates).values, Refers members device owner) ↔
      Refers candidates device owner := by
  simp only [mem_values_groups_iff]
  constructor
  · rintro ⟨_, ⟨-, sha1, rfl⟩, hne, c, hc, hdevice, o, ho, howner⟩
    obtain ⟨hmem, hsha1⟩ := List.mem_filter.1 hc
    obtain rfl := of_decide_eq_true hsha1
    exact ⟨hne, c, hmem, hdevice, o, leads_filter_iff.1 ho, howner⟩
  · rintro ⟨hne, c, hmem, hdevice, o, ho, howner⟩
    have hc : c ∈ candidates.filter (·.sha1 = c.sha1) :=
      List.mem_filter.2 ⟨hmem, decide_eq_true rfl⟩
    exact ⟨_, ⟨List.ne_nil_of_mem hc, c.sha1, rfl⟩, hne, c, hc, hdevice, o,
      leads_filter_iff.2 ho, howner⟩

/-- The groups may be visited in any order. -/
theorem foldl_refer_groups (hc : Consistent candidates) {order : List (List OwnerCandidate)}
    (horder : order.Perm (groups candidates).values) :
    order.foldl refer ∅ = romOwners candidates := by
  -- entries of one device agree, so it does not matter which group writes last
  have hentries : ∀ device owner,
      (device, owner) ∈ order.flatMap (fun members => members.filterMap (referral? members)) ↔
        Refers candidates device owner := by
    intro device owner
    simp only [List.mem_flatMap, mem_referrals_iff, horder.mem_iff, refers_iff_exists_group]
  have hgroup : ∀ members ∈ order, ∃ sha1, ∀ m ∈ members, m.sha1 = sha1 := by
    intro members hm
    obtain ⟨-, sha1, rfl⟩ := mem_values_groups_iff.1 (horder.mem_iff.1 hm)
    exact ⟨sha1, fun m hm => of_decide_eq_true (List.mem_filter.1 hm).2⟩
  rw [foldl_refer_eq hgroup]
  refine Table.ext_get? fun device => Option.ext fun owner => ?_
  rw [get?_romOwners_iff hc, Table.get?_ofList_iff, hentries]
  intro d a b ha hb
  exact Refers.unique hc ((hentries d a).1 ha) ((hentries d b).1 hb)

/-! ### The election -/

theorem Consistent.congr {candidates' : List OwnerCandidate} (hc : Consistent candidates)
    (h : ∀ c, c ∈ candidates' ↔ c ∈ candidates) : Consistent candidates' :=
  fun a ha b hb => hc a ((h a).1 ha) b ((h b).1 hb)

theorem romOwners_congr {candidates' : List OwnerCandidate} (hc : Consistent candidates)
    (h : ∀ c, c ∈ candidates' ↔ c ∈ candidates) : romOwners candidates' = romOwners candidates := by
  refine Table.ext_get? fun device => Option.ext fun owner => ?_
  rw [get?_romOwners_iff hc, get?_romOwners_iff (hc.congr h), Refers.congr h]

/-- What the table of owners holds, and what it does not depend on. -/
structure Election (candidates : List OwnerCandidate) : Prop where
  led : ∀ c ∈ candidates, ∃ o, Leads candidates c.sha1 o
  referred : ∀ device owner,
    (romOwners candidates).get? device = some owner ↔ Refers candidates device owner
  /-- No owner is referred to another one. -/
  owner_free : ∀ device owner, (romOwners candidates).get? device = some owner →
    (romOwners candidates).get? owner = none
  alone : ∀ c ∈ candidates, (∀ d ∈ candidates, d.sha1 = c.sha1 → d.device = c.device) →
    (romOwners candidates).get? c.device = none
  permuted : ∀ other, other.Perm candidates → romOwners other = romOwners candidates
  visited : ∀ other, other.Perm candidates →
    ∀ order : List (List OwnerCandidate), order.Perm (groups other).values →
      order.foldl refer ∅ = romOwners candidates

theorem election_of_consistent (hc : Consistent candidates) : Election candidates where
  led _ := exists_leads
  referred _ _ := get?_romOwners_iff hc
  owner_free device owner h := by
    have hrefers := (get?_romOwners_iff hc).1 h
    exact Option.eq_none_iff_forall_ne_some.2 fun other hother =>
      hrefers.not_owner hc ((get?_romOwners_iff hc).1 hother)
  alone c hmem halone := by
    refine Option.eq_none_iff_forall_ne_some.2 fun owner howner => ?_
    obtain ⟨hne, d, hd, hdevice, o, ho, rfl⟩ := (get?_romOwners_iff hc).1 howner
    rw [hc d hd c hmem hdevice] at ho
    exact hne (halone o ho.mem ho.sha1_eq).symm
  permuted other hperm := romOwners_congr hc fun _ => hperm.mem_iff
  visited other hperm order horder := by
    have hsame : ∀ c, c ∈ other ↔ c ∈ candidates := fun _ => hperm.mem_iff
    rw [foldl_refer_groups (hc.congr hsame) horder, romOwners_congr hc hsame]

/-- A device that is listed twice, a clone before its parent, and a tie that the names decide. -/
def tiedCandidates : List OwnerCandidate :=
  [⟨"clone", "s", true, 0⟩, ⟨"b", "s", false, 4⟩, ⟨"a", "s", false, 4⟩, ⟨"b", "s", false, 9⟩,
    ⟨"single", "t", true, 2⟩]

theorem election_tiedCandidates :
    Consistent tiedCandidates ∧ Election tiedCandidates ∧
      (romOwners tiedCandidates).entries = [("b", "a"), ("clone", "a")] := by
  have hc : Consistent tiedCandidates := by
    unfold Consistent tiedCandidates
    decide
  exact ⟨hc, election_of_consistent hc, by decide +kernel⟩

end LcdHandhelds.OwnerCandidate
