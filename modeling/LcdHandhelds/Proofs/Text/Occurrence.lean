import LcdHandhelds.Proofs.Text.Words

/-!
Where a whole word stands. Identifiers share no characters, so the characters that a match covers
hide nothing: the occurrences of a word are the places where it stands as a whole, in order
(`mem_occurrences_iff`, `pairwise_occurrences`).
-/
namespace LcdHandhelds.Text

theorem ended_cons_iff {c : Char} {text : List Char} :
    Ended (c :: text) ↔ (text = [] → isWordChar c = false) ∧ Ended text := by
  cases text with
  | nil => simp [Ended]
  | cons d text => simp [Ended, List.getLast?_cons_cons]

section Occurrences

variable {word : List Char} {o : Occurrence}

theorem lookWord_eq_some_iff {glued : Bool} {text after : List Char} :
    (lookWord word glued text).1 = some after ↔
      text = word ++ after ∧ glued = false ∧ endsWord after := by
  simp only [lookWord, Option.bind_eq_some_iff, List.isPrefixOf?_eq_some_iff_append_eq]
  constructor
  · rintro ⟨tail, rfl, h⟩
    split at h
    next hwhole =>
      cases h
      rw [Bool.and_eq_true, Bool.not_eq_true'] at hwhole
      exact ⟨rfl, hwhole⟩
    · cases h
  · rintro ⟨rfl, rfl, hends⟩
    exact ⟨after, rfl, by rw [hends]; rfl⟩

/-- The scan goes on with the next character, also behind a match. -/
theorem sweep_lookWord_cons (hword : word.all isWordChar) (place : Nat) (glued : Bool) (c : Char)
    (text : List Char) :
    sweep (lookWord word) place glued 0 (c :: text) =
      (lookWord word glued (c :: text)).1.toList.map (place, ·) ++
        sweep (lookWord word) (place + 1) (isWordChar c) 0 text := by
  rw [sweep]
  congr 1
  change sweep _ _ _ (stride word (c :: text)) text = _
  by_cases hstride : stride word (c :: text) = 0
  · rw [hstride]
  · obtain ⟨hc, hpassed⟩ := passed_of_stride hword hstride
    rw [hc, sweep_glued (inWords_lookWord hword) _ hpassed]

theorem mem_sweep_lookWord_iff (hword : word.all isWordChar) (hne : word ≠ []) {place : Nat}
    {glued : Bool} {text : List Char} {p : Nat × List Char} :
    p ∈ sweep (lookWord word) place glued 0 text ↔
      ∃ before, text = before ++ (word ++ p.2) ∧ p.1 = place + before.length ∧
        (before = [] → glued = false) ∧ Ended before ∧ endsWord p.2 := by
  induction text generalizing place glued with
  | nil => simp [sweep, hne]
  | cons c text ih =>
    rw [sweep_lookWord_cons hword, List.mem_append, ih, List.mem_map]
    simp only [Option.mem_toList, lookWord_eq_some_iff]
    constructor
    · rintro (⟨after, ⟨htext, hglued, hends⟩, rfl⟩ | ⟨before, rfl, hplace, hopen, hended, hends⟩)
      · exact ⟨[], htext, rfl, fun _ => hglued, ended_nil, hends⟩
      · refine ⟨c :: before, rfl, ?_, fun h => (List.cons_ne_nil c before h).elim,
          ended_cons_iff.2 ⟨hopen, hended⟩, hends⟩
        rw [hplace, List.length_cons]
        omega
    · rintro ⟨before, htext, hplace, hopen, hended, hends⟩
      cases before with
      | nil => exact .inl ⟨p.2, ⟨htext, hopen rfl, hends⟩, Prod.ext hplace.symm rfl⟩
      | cons d before =>
        obtain ⟨rfl, rfl⟩ := List.cons.inj htext
        rw [ended_cons_iff] at hended
        refine .inr ⟨before, rfl, ?_, hended.1, hended.2, hends⟩
        rw [hplace, List.length_cons]
        omega

/-- A whole word stands where no identifier is open in front of it, and none goes on behind it. -/
theorem mem_occurrences_iff {word : String} (hword : word.toList.all isWordChar)
    (hne : word.toList ≠ []) {text : List Char} :
    o ∈ occurrences word text ↔
      ∃ before, text = before ++ (word.toList ++ o.after) ∧ o.place = before.length ∧
        Ended before ∧ endsWord o.after := by
  rw [occurrences, occurrencesFrom_eq_sweep hne, List.mem_map]
  constructor
  · rintro ⟨p, hp, rfl⟩
    obtain ⟨before, htext, hplace, -, hended, hends⟩ := (mem_sweep_lookWord_iff hword hne).1 hp
    exact ⟨before, htext, by rw [hplace, Nat.zero_add], hended, hends⟩
  · rintro ⟨before, htext, hplace, hended, hends⟩
    exact ⟨(o.place, o.after), (mem_sweep_lookWord_iff hword hne).2
      ⟨before, htext, by rw [hplace, Nat.zero_add], fun _ => rfl, hended, hends⟩, rfl⟩

theorem le_place_of_mem_sweep {α : Type} {look : Look α} {place skip : Nat} {glued : Bool}
    {text : List Char} {p : Nat × α} (h : p ∈ sweep look place glued skip text) : place ≤ p.1 := by
  obtain ⟨read, rest, glued', -, hplace, -⟩ := exists_of_mem_sweep h
  omega

theorem pairwise_sweep {α : Type} (look : Look α) (place : Nat) (glued : Bool) (skip : Nat)
    (text : List Char) : (sweep look place glued skip text).Pairwise fun p q => p.1 < q.1 := by
  induction text generalizing place glued skip with
  | nil => cases skip <;> exact .nil
  | cons c text ih =>
    cases skip with
    | succ skip => exact ih _ _ _
    | zero =>
      rw [sweep, List.pairwise_append]
      refine ⟨?_, ih _ _ _, fun p hp q hq => ?_⟩
      · cases (look glued (c :: text)).1 <;> simp
      · obtain ⟨a, -, rfl⟩ := List.mem_map.1 hp
        exact le_place_of_mem_sweep hq

theorem pairwise_occurrences {word : String} (hne : word.toList ≠ []) (text : List Char) :
    (occurrences word text).Pairwise fun o o' => o.place < o'.place := by
  rw [occurrences, occurrencesFrom_eq_sweep hne, List.pairwise_map]
  exact pairwise_sweep _ _ _ _ _

end Occurrences

end LcdHandhelds.Text
