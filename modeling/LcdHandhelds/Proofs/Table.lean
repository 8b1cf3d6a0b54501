import Mathlib.Data.List.Induction
import LcdHandhelds.Table

/-!
Look-ups in tables that are built entry by entry, and what their entries, keys and values are in
terms of look-ups.
-/
namespace LcdHandhelds.Table

variable {κ α β : Type} [Ord κ]

theorem ofList_snoc [Std.TransOrd κ] (l : List (κ × α)) (e : κ × α) :
    ofList (l ++ [e]) = (ofList l).insert e.1 e.2 := by
  simp [ofList]

variable [Std.LawfulEqOrd κ] [DecidableEq κ]

theorem mem_keys_iff {t : Table κ α} {key : κ} : key ∈ t.keys ↔ ∃ a, t.get? key = some a := by
  simp only [keys, List.mem_map, Prod.exists, get?_eq_some_iff]
  constructor
  · rintro ⟨k, a, h, rfl⟩
    exact ⟨a, h⟩
  · rintro ⟨a, h⟩
    exact ⟨key, a, h, rfl⟩

theorem mem_values_iff {t : Table κ α} {a : α} : a ∈ t.values ↔ ∃ key, t.get? key = some a := by
  simp only [values, List.mem_map, Prod.exists, get?_eq_some_iff]
  constructor
  · rintro ⟨k, b, h, rfl⟩
    exact ⟨k, h⟩
  · rintro ⟨k, h⟩
    exact ⟨k, a, h, rfl⟩

theorem get?_mapValues (t : Table κ α) (f : κ → α → β) (key : κ) :
    (t.mapValues f).get? key = (t.get? key).map (f key) := by
  apply Option.ext
  intro b
  simp only [get?_eq_some_iff, mapValues, List.mem_map, Prod.mk.injEq, Prod.exists,
    Option.map_eq_some_iff]
  constructor
  · rintro ⟨k, a, h, rfl, rfl⟩
    exact ⟨a, h, rfl⟩
  · rintro ⟨a, h, rfl⟩
    exact ⟨key, a, h, rfl, rfl⟩

variable [Std.TransOrd κ]

/-- The last entry of a key counts. -/
theorem get?_ofList (l : List (κ × α)) (key : κ) :
    (ofList l).get? key = (l.reverse.find? (·.1 = key)).map (·.2) := by
  induction l using List.reverseRecOn with
  | nil => rfl
  | append_singleton l e ih =>
    rw [ofList_snoc, get?_insert, List.reverse_append, List.reverse_singleton,
      List.singleton_append, List.find?_cons, ih]
    by_cases hk : key = e.1
    · simp [hk]
    · have hne : ¬ e.1 = key := fun h => hk h.symm
      simp [hk, hne]

/-- Where earlier entries are kept, the first entry of a key counts. -/
theorem get?_foldl_insertIfNew (t : Table κ α) (l : List (κ × α)) (key : κ) :
    (l.foldl (fun t e => t.insertIfNew e.1 e.2) t).get? key =
      (t.get? key).or ((l.find? (·.1 = key)).map (·.2)) := by
  induction l generalizing t with
  | nil => simp
  | cons e l ih =>
    rw [List.foldl_cons, ih, get?_insertIfNew, List.find?_cons]
    by_cases hk : key = e.1
    · simp [hk]
    · have hne : ¬ e.1 = key := fun h => hk h.symm
      simp [hk, hne]

theorem get?_ofList_eq_none {l : List (κ × α)} {key : κ} (h : ∀ a, (key, a) ∉ l) :
    (ofList l).get? key = none := by
  rw [get?_ofList, Option.map_eq_none_iff, List.find?_eq_none]
  rintro ⟨k, a⟩ he hk
  obtain rfl : k = key := of_decide_eq_true hk
  exact h a (List.mem_reverse.1 he)

/-- Entries of one key that agree. -/
theorem get?_ofList_eq_some {l : List (κ × α)} {key : κ} {a : α} (h : (key, a) ∈ l)
    (hall : ∀ b, (key, b) ∈ l → b = a) : (ofList l).get? key = some a := by
  cases hb : (ofList l).get? key with
  | none =>
    rw [get?_ofList, Option.map_eq_none_iff, List.find?_eq_none] at hb
    exact absurd (decide_eq_true rfl) (hb (key, a) (List.mem_reverse.2 h))
  | some b =>
    rw [get?_ofList, Option.map_eq_some_iff] at hb
    obtain ⟨⟨k, c⟩, hf, rfl⟩ := hb
    have hk := List.find?_some hf
    obtain rfl : k = key := of_decide_eq_true hk
    rw [hall c (List.mem_reverse.1 (List.mem_of_find?_eq_some hf))]

/-- Entries that agree where their keys do are those of their table. -/
theorem get?_ofList_iff {l : List (κ × α)} (h : ∀ k a b, (k, a) ∈ l → (k, b) ∈ l → a = b)
    {key : κ} {a : α} : (ofList l).get? key = some a ↔ (key, a) ∈ l := by
  constructor
  · intro hget
    by_contra hnot
    have hnone : ∀ b, (key, b) ∉ l := by
      intro b hb
      rw [get?_ofList_eq_some hb fun c hc => h key c b hc hb] at hget
      exact hnot (Option.some.inj hget ▸ hb)
    rw [get?_ofList_eq_none hnone] at hget
    cases hget
  · exact fun ha => get?_ofList_eq_some ha fun b hb => h key b a hb ha

/-- A table is rebuilt from its entries. -/
theorem ofList_entries (t : Table κ α) : ofList t.entries = t := by
  apply ext_get?
  intro key
  cases hget : t.get? key with
  | none =>
    refine get?_ofList_eq_none fun a ha => ?_
    rw [get?_eq_some_iff.2 ha] at hget
    cases hget
  | some a =>
    refine get?_ofList_eq_some (get?_eq_some_iff.1 hget) fun b hb => ?_
    rw [get?_eq_some_iff.2 hb] at hget
    exact Option.some.inj hget

end LcdHandhelds.Table
