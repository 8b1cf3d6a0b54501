import Mathlib.Data.List.Forall2

/-!
Computations that may fail, and what is known of their parts when they succeed.
-/
namespace LcdHandhelds

variable {ε α β : Type}

theorem bind_eq_ok_iff {x : Except ε α} {f : α → Except ε β} {b : β} :
    (x >>= f) = .ok b ↔ ∃ a, x = .ok a ∧ f a = .ok b := by
  cases x <;> simp [bind, Except.bind]

theorem bind_eq_error_iff {x : Except ε α} {f : α → Except ε β} {e : ε} :
    (x >>= f) = .error e ↔ x = .error e ∨ ∃ a, x = .ok a ∧ f a = .error e := by
  cases x <;> simp [bind, Except.bind]

theorem map_eq_ok_iff {x : Except ε α} {f : α → β} {b : β} :
    x.map f = .ok b ↔ ∃ a, x = .ok a ∧ f a = b := by
  cases x <;> simp [Except.map]

theorem map_eq_error_iff {x : Except ε α} {f : α → β} {e : ε} :
    x.map f = .error e ↔ x = .error e := by
  cases x <;> simp [Except.map]

theorem toOption_eq_some_iff {x : Except ε α} {a : α} :
    x.toOption = some a ↔ x = .ok a := by
  cases x <;> simp [Except.toOption]

theorem isOk_iff {x : Except ε α} : x.isOk ↔ ∃ a, x = .ok a := by
  cases x <;> simp [Except.isOk, Except.toBool]

theorem mapM_eq_ok_iff {f : α → Except ε β} {l : List α} {bs : List β} :
    l.mapM f = .ok bs ↔ List.Forall₂ (fun a b => f a = .ok b) l bs := by
  induction l generalizing bs with
  | nil =>
    rw [List.mapM_nil, List.forall₂_nil_left_iff]
    exact ⟨fun h => by cases h; rfl, fun h => h ▸ rfl⟩
  | cons a l ih =>
    simp only [List.mapM_cons, bind_eq_ok_iff, List.forall₂_cons_left_iff, ih]
    constructor
    · rintro ⟨b, hb, rest, hrest, h⟩
      cases h
      exact ⟨b, rest, hb, hrest, rfl⟩
    · rintro ⟨b, rest, hb, hrest, rfl⟩
      exact ⟨b, hb, rest, hrest, rfl⟩

/-- A list that fails to be mapped fails at the first of its elements that does. -/
theorem mapM_eq_error_iff {f : α → Except ε β} {l : List α} {e : ε} :
    l.mapM f = .error e ↔
      ∃ front a back, l = front ++ a :: back ∧ (∀ b ∈ front, (f b).isOk) ∧ f a = .error e := by
  induction l with
  | nil =>
    refine ⟨nofun, ?_⟩
    rintro ⟨front, a, back, h, -⟩
    simp at h
  | cons a l ih =>
    rw [List.mapM_cons]
    constructor
    · intro h
      rcases bind_eq_error_iff.1 h with ha | ⟨b, hb, h⟩
      · exact ⟨[], a, l, rfl, nofun, ha⟩
      · rcases bind_eq_error_iff.1 h with hl | ⟨bs, -, hpure⟩
        · obtain ⟨front, a', back, rfl, hfront, he⟩ := ih.1 hl
          exact ⟨a :: front, a', back, rfl,
            List.forall_mem_cons.2 ⟨isOk_iff.2 ⟨b, hb⟩, hfront⟩, he⟩
        · cases hpure
    · rintro ⟨front, a', back, hl, hfront, he⟩
      cases front with
      | nil =>
        obtain ⟨rfl, rfl⟩ := List.cons.inj hl
        exact bind_eq_error_iff.2 (.inl he)
      | cons b front =>
        obtain ⟨rfl, rfl⟩ := List.cons.inj hl
        rw [List.forall_mem_cons] at hfront
        obtain ⟨b, hb⟩ := isOk_iff.1 hfront.1
        refine bind_eq_error_iff.2 (.inr ⟨b, hb, bind_eq_error_iff.2 (.inl ?_)⟩)
        exact ih.2 ⟨front, a', back, rfl, hfront.2, he⟩

/-- A list that fails to be mapped fails at one of its elements. -/
theorem exists_of_mapM_eq_error {f : α → Except ε β} {l : List α} {e : ε}
    (h : l.mapM f = .error e) : ∃ a ∈ l, f a = .error e := by
  obtain ⟨front, a, back, rfl, -, he⟩ := mapM_eq_error_iff.1 h
  exact ⟨a, List.mem_append_right _ List.mem_cons_self, he⟩

/-- A list whose elements fail for one reason only fails for it. -/
theorem mapM_eq_error_of_mem {f : α → Except ε β} {l : List α} {e : ε}
    (h : ∀ a ∈ l, (f a).isOk ∨ f a = .error e) {a : α} (ha : a ∈ l) (he : f a = .error e) :
    l.mapM f = .error e := by
  induction l with
  | nil => cases ha
  | cons a' l ih =>
    rw [List.forall_mem_cons] at h
    rw [List.mapM_cons]
    rcases h.1 with hok | herror
    · obtain ⟨b, hb⟩ := isOk_iff.1 hok
      have hl : a ∈ l := (List.mem_cons.1 ha).resolve_left fun heq => by
        rw [heq, hb] at he
        cases he
      exact bind_eq_error_iff.2 (.inr ⟨b, hb, bind_eq_error_iff.2 (.inl (ih h.2 hl))⟩)
    · exact bind_eq_error_iff.2 (.inl herror)

theorem exists_of_foldlM_eq_error {f : β → α → Except ε β} {l : List α} {b : β} {e : ε}
    (h : l.foldlM f b = .error e) : ∃ b', ∃ a ∈ l, f b' a = .error e := by
  induction l generalizing b with
  | nil => cases h
  | cons a l ih =>
    rw [List.foldlM_cons] at h
    rcases bind_eq_error_iff.1 h with ha | ⟨next, -, hl⟩
    · exact ⟨b, a, List.mem_cons_self, ha⟩
    · obtain ⟨b', a', ha', he⟩ := ih hl
      exact ⟨b', a', List.mem_cons_of_mem _ ha', he⟩

end LcdHandhelds
