import Mathlib.Data.List.Forall2
import Mathlib.Data.List.TakeWhile

/-!
Lists that are cut in two: at the first member that lacks a property, or at two places at once; and
lists that are related member by member.
-/
namespace LcdHandhelds

variable {α : Type}

section Stop

variable {q : α → Bool} {front rest : List α}

theorem takeWhile_append_of_stop (h : ∀ a ∈ front, q a) (hrest : ∀ a ∈ rest.head?, q a = false) :
    (front ++ rest).takeWhile q = front := by
  have hstop : rest.takeWhile q = [] := by
    cases rest with
    | nil => rfl
    | cons a rest => simp [hrest a rfl]
  rw [List.takeWhile_append_of_pos h, hstop, List.append_nil]

theorem dropWhile_append_of_stop (h : ∀ a ∈ front, q a) (hrest : ∀ a ∈ rest.head?, q a = false) :
    (front ++ rest).dropWhile q = rest := by
  have hcut := List.takeWhile_append_dropWhile (p := q) (l := front ++ rest)
  rw [takeWhile_append_of_stop h hrest] at hcut
  exact List.append_cancel_left hcut

/-- Two cuts at the first member that lacks the property are the same. -/
theorem append_inj_of_stop {front' rest' : List α} (h : ∀ a ∈ front, q a)
    (hrest : ∀ a ∈ rest.head?, q a = false) (h' : ∀ a ∈ front', q a)
    (hrest' : ∀ a ∈ rest'.head?, q a = false) (heq : front ++ rest = front' ++ rest') :
    front = front' ∧ rest = rest' := by
  have hfront := congrArg (List.takeWhile q) heq
  rw [takeWhile_append_of_stop h hrest, takeWhile_append_of_stop h' hrest'] at hfront
  subst hfront
  exact ⟨rfl, List.append_cancel_left heq⟩

theorem not_of_mem_head?_dropWhile (l : List α) : ∀ a ∈ (l.dropWhile q).head?, q a = false := by
  intro a ha
  have h := List.head?_dropWhile_not q l
  rw [Option.mem_def.1 ha] at h
  simpa using h

end Stop

section Cut

variable {s t u v : List α}

/-- Of two cuts through a list, the part between them. -/
theorem exists_middle_of_append_eq (h : s ++ t = u ++ v) (hle : s.length ≤ u.length) :
    ∃ middle, u = s ++ middle ∧ t = middle ++ v := by
  obtain ⟨middle, rfl⟩ : s <+: u := List.prefix_of_prefix_length_le ⟨t, rfl⟩ ⟨v, h.symm⟩ hle
  rw [List.append_assoc, List.append_cancel_left_eq] at h
  exact ⟨middle, rfl, h⟩

/-- The second cut lies behind the first one, or there is a part between them. -/
theorem length_lt_or_append (h : s ++ t = u ++ v) :
    v.length < t.length ∨ ∃ middle, s = u ++ middle ∧ v = middle ++ t := by
  rcases Nat.lt_or_ge v.length t.length with hlt | hge
  · exact .inl hlt
  · have hlength := congrArg List.length h
    rw [List.length_append, List.length_append] at hlength
    exact .inr (exists_middle_of_append_eq h.symm (by omega))

end Cut

theorem any_eq_of_forall₂ {β : Type} {R : α → β → Prop} {p : α → Bool} {q : β → Bool}
    {as : List α} {bs : List β} (h : List.Forall₂ R as bs) (hpq : ∀ a b, R a b → p a = q b) :
    as.any p = bs.any q := by
  induction h with
  | nil => rfl
  | cons h _ ih => rw [List.any_cons, List.any_cons, hpq _ _ h, ih]

end LcdHandhelds
