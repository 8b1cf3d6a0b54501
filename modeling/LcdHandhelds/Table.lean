/-!
Tables: finite maps kept in the order of their keys. The order is part of the type, so two tables
with the same look-ups are equal (`Table.ext_get?`), and every change is an `alter` of one key
(`get?_alter`).
-/
namespace LcdHandhelds

/-- Entries in strictly increasing key order. -/
structure Table (κ α : Type) [Ord κ] where
  entries : List (κ × α)
  sorted : entries.Pairwise fun a b => compare a.1 b.1 = .lt

namespace Table

variable {κ α β : Type} [Ord κ]

instance : EmptyCollection (Table κ α) := ⟨[], .nil⟩

instance : Inhabited (Table κ α) := ⟨∅⟩

instance [DecidableEq κ] [DecidableEq α] : DecidableEq (Table κ α) := fun s t =>
  match decEq s.entries t.entries with
  | isTrue h => isTrue (by cases s; cases t; simp_all)
  | isFalse h => isFalse fun e => h (e ▸ rfl)

theorem ext {s t : Table κ α} (h : s.entries = t.entries) : s = t := by
  cases s; cases t; simp_all

def size (t : Table κ α) : Nat := t.entries.length

def keys (t : Table κ α) : List κ := t.entries.map (·.1)

def values (t : Table κ α) : List α := t.entries.map (·.2)

/-- The value under a key, in a list of entries. -/
def getIn? (key : κ) : List (κ × α) → Option α
  | [] => none
  | (k, a) :: rest => if compare key k = .eq then some a else getIn? key rest

def get? (t : Table κ α) (key : κ) : Option α := getIn? key t.entries

def contains (t : Table κ α) (key : κ) : Bool := (t.get? key).isSome

/-- Passes the value under `key` through `f`; a key that `f` gives no value is left out. -/
def alterIn (key : κ) (f : Option α → Option α) : List (κ × α) → List (κ × α)
  | [] => (f none).toList.map (key, ·)
  | (k, a) :: rest =>
    match compare key k with
    | .lt => (f none).toList.map (key, ·) ++ (k, a) :: rest
    | .eq => (f (some a)).toList.map (k, ·) ++ rest
    | .gt => (k, a) :: alterIn key f rest

@[simp] theorem get?_empty (k : κ) : (∅ : Table κ α).get? k = none := rfl

theorem getIn?_eq_some_iff [Std.LawfulEqOrd κ] [DecidableEq κ] {key : κ} {a : α}
    {l : List (κ × α)} (h : l.Pairwise fun a b => compare a.1 b.1 = .lt) :
    getIn? key l = some a ↔ (key, a) ∈ l := by
  induction l with
  | nil => simp [getIn?]
  | cons p rest ih =>
    obtain ⟨k, b⟩ := p
    obtain ⟨hk, hr⟩ := List.pairwise_cons.1 h
    by_cases hkk : key = k
    · subst hkk
      have : (key, a) ∉ rest := fun he => by simpa using hk _ he
      simp [getIn?, this, eq_comm]
    · simp [getIn?, hkk, ih hr]

theorem get?_eq_some_iff [Std.LawfulEqOrd κ] [DecidableEq κ] {t : Table κ α} {key : κ}
    {a : α} :
    t.get? key = some a ↔ (key, a) ∈ t.entries :=
  getIn?_eq_some_iff t.sorted

section Laws

theorem getIn?_eq_none {key : κ} {l : List (κ × α)} (h : ∀ e ∈ l, compare key e.1 = .lt) :
    getIn? key l = none := by
  induction l with
  | nil => rfl
  | cons p rest ih =>
    have hp := h p List.mem_cons_self
    simp only [getIn?, hp, reduceCtorEq, ↓reduceIte]
    exact ih fun e he => h e (List.mem_cons_of_mem _ he)

variable [Std.TransOrd κ]

theorem mem_alterIn {key : κ} {f : Option α → Option α} {l : List (κ × α)} {e : κ × α}
    (h : e ∈ alterIn key f l) : e ∈ l ∨ compare key e.1 = .eq := by
  induction l with
  | nil =>
    obtain ⟨a, _, rfl⟩ := List.mem_map.1 h
    exact .inr Std.ReflCmp.compare_self
  | cons p rest ih =>
    obtain ⟨k, a⟩ := p
    rw [alterIn] at h
    split at h
    · rcases List.mem_append.1 h with h | h
      · obtain ⟨b, _, rfl⟩ := List.mem_map.1 h
        exact .inr Std.ReflCmp.compare_self
      · exact .inl h
    · rename_i hc
      rcases List.mem_append.1 h with h | h
      · obtain ⟨b, _, rfl⟩ := List.mem_map.1 h
        exact .inr hc
      · exact .inl (List.mem_cons_of_mem _ h)
    · rcases List.mem_cons.1 h with rfl | h
      · exact .inl List.mem_cons_self
      · exact (ih h).imp (List.mem_cons_of_mem _) id

theorem pairwise_alterIn (key : κ) (f : Option α → Option α) {l : List (κ × α)}
    (h : l.Pairwise fun a b => compare a.1 b.1 = .lt) :
    (alterIn key f l).Pairwise fun a b => compare a.1 b.1 = .lt := by
  induction l with
  | nil => cases hf : f none <;> simp [alterIn, hf]
  | cons p rest ih =>
    obtain ⟨k, a⟩ := p
    obtain ⟨hk, hr⟩ := List.pairwise_cons.1 h
    rw [alterIn]
    split
    · rename_i hc
      cases f none with
      | none => simpa using h
      | some b =>
        refine List.pairwise_cons.2 ⟨fun e he => ?_, h⟩
        rcases List.mem_cons.1 he with rfl | he
        · exact hc
        · exact Std.TransCmp.lt_trans hc (hk e he)
    · cases f (some a) with
      | none => simpa using hr
      | some b => exact List.pairwise_cons.2 ⟨hk, hr⟩
    · rename_i hc
      refine List.pairwise_cons.2 ⟨fun e he => ?_, ih hr⟩
      rcases mem_alterIn he with he | he
      · exact hk e he
      · exact Std.TransCmp.lt_of_lt_of_eq (Std.OrientedCmp.lt_of_gt hc) he

def alter (t : Table κ α) (key : κ) (f : Option α → Option α) : Table κ α :=
  ⟨alterIn key f t.entries, pairwise_alterIn key f t.sorted⟩

/-- Puts a value under a key, in place of an earlier one. -/
def insert (t : Table κ α) (key : κ) (a : α) : Table κ α :=
  t.alter key fun _ => some a

/-- Keeps an earlier value. -/
def insertIfNew (t : Table κ α) (key : κ) (a : α) : Table κ α :=
  t.alter key fun old => old.or (some a)

def erase (t : Table κ α) (key : κ) : Table κ α :=
  t.alter key fun _ => none

/-- Later entries replace earlier ones with the same key. -/
def ofList (l : List (κ × α)) : Table κ α :=
  l.foldl (fun t e => t.insert e.1 e.2) ∅

variable [Std.LawfulEqOrd κ] [DecidableEq κ]

theorem getIn?_alterIn {key k : κ} {f : Option α → Option α} {l : List (κ × α)}
    (h : l.Pairwise fun a b => compare a.1 b.1 = .lt) :
    getIn? k (alterIn key f l) = if k = key then f (getIn? key l) else getIn? k l := by
  induction l with
  | nil =>
    by_cases hk : k = key
    · subst hk; cases hf : f none <;> simp [alterIn, getIn?, hf]
    · cases hf : f none <;> simp [alterIn, getIn?, hf, hk]
  | cons p rest ih =>
    obtain ⟨q, a⟩ := p
    obtain ⟨hq, hr⟩ := List.pairwise_cons.1 h
    rw [alterIn]
    split
    · rename_i hc
      have hnone : getIn? key ((q, a) :: rest) = none := getIn?_eq_none fun e he => by
        rcases List.mem_cons.1 he with rfl | he
        · exact hc
        · exact Std.TransCmp.lt_trans hc (hq e he)
      by_cases hk : k = key
      · subst hk
        rw [if_pos rfl, hnone]
        cases f none with
        | none => exact hnone
        | some b => simp [getIn?]
      · cases f none with
        | none => simp [hk]
        | some b => simp [getIn?, hk]
    · rename_i hc
      have hkq : key = q := Std.LawfulEqCmp.eq_of_compare hc
      subst hkq
      have hnone : getIn? key rest = none := getIn?_eq_none hq
      by_cases hk : k = key
      · subst hk
        cases hf : f (some a) with
        | none => simp [getIn?, hf, hnone]
        | some b => simp [getIn?, hf]
      · cases f (some a) with
        | none => simp [getIn?, hk]
        | some b => simp [getIn?, hk]
    · rename_i hc
      have hne : ¬ key = q := by rintro rfl; simp at hc
      have hh := ih hr
      by_cases hkq : k = q
      · subst hkq
        have : ¬ k = key := fun e => hne e.symm
        simp [getIn?, this]
      · simp only [getIn?, hh, Std.LawfulEqCmp.compare_eq_iff_eq, hkq, hne, ↓reduceIte]

theorem get?_alter (t : Table κ α) (key k : κ) (f : Option α → Option α) :
    (t.alter key f).get? k = if k = key then f (t.get? key) else t.get? k :=
  getIn?_alterIn t.sorted

theorem get?_insert (t : Table κ α) (key k : κ) (a : α) :
    (t.insert key a).get? k = if k = key then some a else t.get? k :=
  get?_alter ..

theorem get?_insertIfNew (t : Table κ α) (key k : κ) (a : α) :
    (t.insertIfNew key a).get? k = if k = key then (t.get? key).or (some a) else t.get? k :=
  get?_alter ..

theorem get?_erase (t : Table κ α) (key k : κ) :
    (t.erase key).get? k = if k = key then none else t.get? k :=
  get?_alter ..

theorem entries_eq_of_get?_eq {l m : List (κ × α)}
    (hl : l.Pairwise fun a b => compare a.1 b.1 = .lt)
    (hm : m.Pairwise fun a b => compare a.1 b.1 = .lt) (h : ∀ k, getIn? k l = getIn? k m) :
    l = m := by
  induction l generalizing m with
  | nil =>
    cases m with
    | nil => rfl
    | cons p rest => have := h p.1; simp [getIn?] at this
  | cons p rest ih =>
    cases m with
    | nil => have := h p.1; simp [getIn?] at this
    | cons q more =>
      obtain ⟨k, a⟩ := p
      obtain ⟨k', b⟩ := q
      obtain ⟨hk, hr⟩ := List.pairwise_cons.1 hl
      obtain ⟨hk', hm'⟩ := List.pairwise_cons.1 hm
      have hkk : k = k' := by
        cases hc : compare k k' with
        | eq => exact Std.LawfulEqCmp.eq_of_compare hc
        | lt =>
          have hn : getIn? k ((k', b) :: more) = none := getIn?_eq_none fun e he => by
            rcases List.mem_cons.1 he with rfl | he
            · exact hc
            · exact Std.TransCmp.lt_trans hc (hk' e he)
          have := h k
          rw [hn] at this
          simp [getIn?] at this
        | gt =>
          have hc := Std.OrientedCmp.lt_of_gt hc
          have hn : getIn? k' ((k, a) :: rest) = none := getIn?_eq_none fun e he => by
            rcases List.mem_cons.1 he with rfl | he
            · exact hc
            · exact Std.TransCmp.lt_trans hc (hk e he)
          have := h k'
          rw [hn] at this
          simp [getIn?] at this
      subst hkk
      have hab : a = b := by simpa [getIn?] using h k
      subst hab
      congr 1
      refine ih hr hm' fun j => ?_
      by_cases hj : j = k
      · subst hj
        rw [getIn?_eq_none hk, getIn?_eq_none hk']
      · simpa [getIn?, hj] using h j

/-- Tables with the same look-ups are equal. -/
theorem ext_get? {s t : Table κ α} (h : ∀ k, s.get? k = t.get? k) : s = t :=
  ext (entries_eq_of_get?_eq s.sorted t.sorted h)

end Laws

/-- Changes the values and keeps the keys. -/
def mapValues (t : Table κ α) (f : κ → α → β) : Table κ β :=
  ⟨t.entries.map fun e => (e.1, f e.1 e.2), List.pairwise_map.2 t.sorted⟩

@[simp] theorem keys_mapValues (t : Table κ α) (f : κ → α → β) :
    (t.mapValues f).keys = t.keys := by
  simp [mapValues, keys, Function.comp_def]

end Table

end LcdHandhelds
