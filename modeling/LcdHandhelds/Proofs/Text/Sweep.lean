import LcdHandhelds.Proofs.Text.Call
import LcdHandhelds.Text.Word

/-!
One sweep over a text. Calls and whole words are found by the same scan: it looks at a place, and
passes over what it has found or, where it found nothing, over a part of the identifier it is in.
Since nothing is found inside an identifier, only finds matter for where a sweep goes on
(`sweep_cons_of_none`).
-/
namespace LcdHandhelds.Text

variable {α : Type}

/-- What stands at the front of a text, and how many characters after the first are passed over. -/
abbrev Look (α : Type) := (glued : Bool) → List Char → Option α × Nat

/-- The finds of a scan from `place` on. -/
def sweep (look : Look α) : (place : Nat) → (glued : Bool) → (skip : Nat) → List Char → List (Nat × α)
  | _, _, _, [] => []
  | place, _, skip + 1, c :: text => sweep look (place + 1) (isWordChar c) skip text
  | place, glued, 0, c :: text =>
    (look glued (c :: text)).1.toList.map (place, ·) ++
      sweep look (place + 1) (isWordChar c) (look glued (c :: text)).2 text

/-- A look that finds nothing inside an identifier, and passes over identifier characters only. -/
structure Look.InWords (look : Look α) : Prop where
  glued : ∀ text, (look true text).1 = none
  passed : ∀ glued c text, (look glued (c :: text)).1 = none → (look glued (c :: text)).2 ≠ 0 →
    isWordChar c ∧ ∀ d ∈ text.take (look glued (c :: text)).2, isWordChar d

theorem sweep_skip (look : Look α) (place : Nat) (glued : Bool) (read : List Char) (d : Char)
    (text : List Char) :
    sweep look place glued (read.length + 1) (read ++ d :: text) =
      sweep look (place + read.length + 1) (isWordChar d) 0 text := by
  induction read generalizing place glued with
  | nil => rfl
  | cons c read ih =>
    rw [List.length_cons, List.cons_append, sweep, ih]
    congr 1
    omega

/-- Inside an identifier it makes no difference how much is passed over. -/
theorem sweep_glued {look : Look α} (h : look.InWords) (place : Nat) {skip : Nat}
    {text : List Char} (hword : ∀ d ∈ text.take skip, isWordChar d) :
    sweep look place true skip text = sweep look place true 0 text := by
  induction text generalizing place skip with
  | nil => cases skip <;> rfl
  | cons c text ih =>
    cases skip with
    | zero => rfl
    | succ skip =>
      rw [List.take_succ_cons, List.forall_mem_cons] at hword
      rw [sweep, sweep, h.glued, hword.1, ih _ hword.2]
      by_cases hzero : (look true (c :: text)).2 = 0
      · rw [hzero]
        rfl
      · rw [ih _ (h.passed true c text (h.glued _) hzero).2]
        rfl

/-- Where nothing is found, the sweep goes on with the next character. -/
theorem sweep_cons_of_none {look : Look α} (h : look.InWords) {glued : Bool} {c : Char}
    {text : List Char} (hnone : (look glued (c :: text)).1 = none) (place : Nat) :
    sweep look place glued 0 (c :: text) = sweep look (place + 1) (isWordChar c) 0 text := by
  rw [sweep, hnone]
  by_cases hzero : (look glued (c :: text)).2 = 0
  · rw [hzero]
    rfl
  · obtain ⟨hc, hpassed⟩ := h.passed glued c text hnone hzero
    rw [hc, sweep_glued h _ hpassed]
    rfl

/-- A name at the front of a text is passed over but for its first character. -/
theorem passed_of_stride {name : List Char} (h : name.all isWordChar) {c : Char}
    {text : List Char} (hne : stride name (c :: text) ≠ 0) :
    isWordChar c ∧ ∀ d ∈ text.take (stride name (c :: text)), isWordChar d := by
  rw [stride] at hne ⊢
  split at hne
  next hp =>
    obtain ⟨rest, hrest⟩ := hp
    rw [if_pos ⟨rest, hrest⟩]
    cases name with
    | nil => exact absurd rfl hne
    | cons d name =>
      obtain ⟨rfl, rfl⟩ := List.cons.inj hrest
      rw [List.all_cons, Bool.and_eq_true, List.all_eq_true] at h
      simpa using h
  · exact absurd rfl hne

/-- A find is what the look sees at its place. -/
theorem exists_of_mem_sweep {look : Look α} {place skip : Nat} {glued : Bool} {text : List Char}
    {p : Nat × α} (h : p ∈ sweep look place glued skip text) :
    ∃ read rest glued', text = read ++ rest ∧ p.1 = place + read.length ∧ rest ≠ [] ∧
      (look glued' rest).1 = some p.2 := by
  induction text generalizing place skip glued with
  | nil => simp [sweep] at h
  | cons c text ih =>
    have hlater : ∀ {glued skip}, p ∈ sweep look (place + 1) glued skip text →
        ∃ read rest glued', c :: text = read ++ rest ∧ p.1 = place + read.length ∧ rest ≠ [] ∧
          (look glued' rest).1 = some p.2 := by
      intro glued skip hp
      obtain ⟨read, rest, glued', rfl, hplace, hrest⟩ := ih hp
      refine ⟨c :: read, rest, glued', rfl, ?_, hrest⟩
      rw [hplace, List.length_cons]
      omega
    cases skip with
    | succ skip => exact hlater h
    | zero =>
      rw [sweep, List.mem_append] at h
      rcases h with h | h
      · obtain ⟨a, ha, rfl⟩ := List.mem_map.1 h
        exact ⟨[], c :: text, glued, rfl, rfl, List.cons_ne_nil _ _, Option.mem_toList.1 ha⟩
      · exact hlater h

/-! ### Calls -/

/-- Looks for a call of a name. -/
def lookCall (name : List Char) : Look Group := fun glued text =>
  match groupAt? name glued text with
  | some g => (some g, text.length - 1 - g.after.length)
  | none => (none, stride name text)

theorem callsFrom_eq_sweep (name : List Char) (place : Nat) (glued : Bool) (skip : Nat)
    (text : List Char) :
    callsFrom name place glued skip text =
      (sweep (lookCall name) place glued skip text).map fun p => ⟨p.1, p.2.inner, p.2.after⟩ := by
  induction text generalizing place glued skip with
  | nil => simp [callsFrom, sweep]
  | cons c text ih =>
    cases skip with
    | succ skip => exact ih _ _ _
    | zero =>
      rw [callsFrom_cons, sweep, lookCall]
      cases groupAt? name glued (c :: text) with
      | none => simp [ih]
      | some g => simp [ih]

/-- A call stands at its place: name, blanks and group follow. -/
theorem exists_of_mem_calls {name : String} {text : List Char} {c : Call}
    (h : c ∈ calls name text) :
    ∃ blanks, blanks.all isBlank ∧ c.place ≤ text.length ∧
      text = text.take c.place ++
        (name.toList ++ blanks ++ '(' :: c.args ++ ')' :: c.after) := by
  rw [calls, callsFrom_eq_sweep] at h
  obtain ⟨p, hp, rfl⟩ := List.mem_map.1 h
  obtain ⟨read, rest, glued, rfl, hplace, -, hfound⟩ := exists_of_mem_sweep hp
  rw [lookCall] at hfound
  cases hg : groupAt? name.toList glued rest with
  | none => rw [hg] at hfound; cases hfound
  | some g =>
    rw [hg] at hfound
    obtain rfl := Option.some.inj hfound
    obtain ⟨blanks, hblanks, hrest⟩ := eq_of_groupAt? hg
    refine ⟨blanks, hblanks, ?_, ?_⟩
    · simp only [hplace, List.length_append]
      omega
    · rw [hplace, Nat.zero_add, List.take_left, ← hrest]

theorem args_subset_of_mem_calls {name : String} {text : List Char} {c : Call}
    (h : c ∈ calls name text) : c.args ⊆ text ∧ c.after ⊆ text := by
  obtain ⟨blanks, -, -, htext⟩ := exists_of_mem_calls h
  rw [htext]
  constructor
  · intro d hd
    simp [hd]
  · intro d hd
    simp [hd]

theorem inWords_lookCall {name : List Char} (h : name.all isWordChar) :
    (lookCall name).InWords where
  glued text := by
    have hnone : groupAt? name true text = none := by
      rw [groupAt?]
      cases name.isPrefixOf? text <;> rfl
    rw [lookCall, hnone]
  passed glued c text := by
    rw [lookCall]
    cases groupAt? name glued (c :: text) with
    | some g =>
      intro hnone
      cases hnone
    | none => exact fun _ hne => passed_of_stride h hne

/-! ### Words -/

/-- Looks for a whole word, and gives the text after it. -/
def lookWord (word : List Char) : Look (List Char) := fun glued text =>
  ((word.isPrefixOf? text).bind fun after => if !glued && endsWord after then some after else none,
    stride word text)

theorem occurrencesFrom_eq_sweep {word : List Char} (hne : word ≠ []) (place : Nat) (glued : Bool)
    (skip : Nat) (text : List Char) :
    occurrencesFrom word place glued skip text =
      (sweep (lookWord word) place glued skip text).map fun p => ⟨p.1, p.2⟩ := by
  induction text generalizing place glued skip with
  | nil => simp [occurrencesFrom, sweep, hne]
  | cons c text ih =>
    cases skip with
    | succ skip => exact ih _ _ _
    | zero =>
      rw [occurrencesFrom, sweep, lookWord, stride]
      cases hp : word.isPrefixOf? (c :: text) with
      | none =>
        have hn : ¬ word <+: c :: text := by
          rintro ⟨rest, h⟩
          rw [List.isPrefixOf?_eq_some_iff_append_eq.2 h] at hp
          cases hp
        simp [hn, ih]
      | some after =>
        have hn : word <+: c :: text := ⟨after, List.isPrefixOf?_eq_some_iff_append_eq.1 hp⟩
        rw [if_pos hn, Option.bind_some]
        dsimp only
        split
        · simp [ih]
        · simp [ih]

/-- A word stands at its place. -/
theorem eq_of_mem_occurrences {word : String} (hne : word.toList ≠ []) {text : List Char}
    {o : Occurrence} (h : o ∈ occurrences word text) :
    o.place < text.length ∧ text = text.take o.place ++ (word.toList ++ o.after) := by
  rw [occurrences, occurrencesFrom_eq_sweep hne] at h
  obtain ⟨p, hp, rfl⟩ := List.mem_map.1 h
  obtain ⟨read, rest, glued, rfl, hplace, hrest, hfound⟩ := exists_of_mem_sweep hp
  obtain ⟨after, hafter, hp⟩ := Option.bind_eq_some_iff.1 hfound
  split at hp
  · obtain rfl := Option.some.inj hp
    have hlen := List.length_pos_of_ne_nil hrest
    refine ⟨?_, ?_⟩
    · simp only [hplace, List.length_append]
      omega
    · rw [hplace, Nat.zero_add, List.take_left, List.isPrefixOf?_eq_some_iff_append_eq.1 hafter]
  · cases hp

theorem inWords_lookWord {word : List Char} (h : word.all isWordChar) :
    (lookWord word).InWords where
  glued text := by
    rw [lookWord]
    cases word.isPrefixOf? text <;> rfl
  passed glued c text _ hne := passed_of_stride h hne

end LcdHandhelds.Text
