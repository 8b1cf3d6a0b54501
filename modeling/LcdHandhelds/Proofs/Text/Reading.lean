import LcdHandhelds.Proofs.Text.Inert

/-!
Reading a text that goes on with a token, a mark, a call or a line, and one that goes on behind a
part in which nothing is sought.
-/
namespace LcdHandhelds.Text

/-! ### Tokens and marks -/

variable {word : List Char}

theorem IsToken.head?_append (h : IsToken word) (rest : List Char) :
    ∀ c ∈ (word ++ rest).head?, isBlank c = false :=
  isBlank_of_mem_head?_append h.ne_nil h.word rest

theorem IsToken.identifier?_append (h : IsToken word) {d : Char} (hd : isWordChar d = false)
    (rest : List Char) : identifier? (word ++ d :: rest) = some (word, d :: rest) :=
  identifier?_eq_some_iff.2 ⟨rfl, h.word, h.ne_nil, by rw [endsWord, hd]; rfl⟩

theorem IsToken.notMem (h : IsToken word) {c : Char} (hc : isWordChar c = false) : c ∉ word := by
  intro hmem
  rw [List.all_eq_true.1 h.word c hmem] at hc
  cases hc

/-- What goes on behind a name with a character of no identifier needs the whole identifier. -/
theorem bind_isPrefixOf?_word {α : Type} {name : List Char} (hname : name.all isWordChar)
    (hword : word.all isWordChar) {d : Char} (hd : isWordChar d = false) (rest : List Char)
    {next : List Char → Option α} (hnext : ∀ c text, isWordChar c → next (c :: text) = none) :
    (name.isPrefixOf? (word ++ d :: rest)).bind next =
      if name = word then next (d :: rest) else none := by
  by_cases he : name = word
  · subst he
    have hfront : name.isPrefixOf? (name ++ d :: rest) = some (d :: rest) :=
      List.isPrefixOf?_eq_some_iff_append_eq.2 rfl
    rw [hfront, if_pos rfl, Option.bind_some]
  · rw [if_neg he]
    cases hp : name.isPrefixOf? (word ++ d :: rest) with
    | none => rfl
    | some tail =>
      rw [List.isPrefixOf?_eq_some_iff_append_eq, List.append_eq_append_iff] at hp
      rcases hp with ⟨more, rfl, rfl⟩ | ⟨more, rfl, hmore⟩
      · -- the identifier goes on behind the name
        cases more with
        | nil => exact absurd (List.append_nil name).symm he
        | cons c more =>
          rw [List.all_append, List.all_cons, Bool.and_eq_true, Bool.and_eq_true] at hword
          exact hnext c _ hword.2.1
      · cases more with
        | nil => exact absurd (List.append_nil word) he
        | cons c more =>
          obtain ⟨rfl, -⟩ := List.cons.inj hmore
          rw [List.all_append, List.all_cons, Bool.and_eq_true, Bool.and_eq_true, hd] at hname
          cases hname.2.1

theorem splitBefore?_eq_none {c : Char} {mark text : List Char} (h : c ∉ text)
    (before : List Char) : splitBefore? (c :: mark) before text = none := by
  induction text generalizing before with
  | nil => rfl
  | cons e text ih =>
    rw [List.mem_cons, not_or] at h
    have hp : (c :: mark).isPrefixOf (e :: text) = false := by simp [List.isPrefixOf, h.1]
    rw [splitBefore?, if_neg (Bool.eq_false_iff.1 hp), ih h.2]

/-- The text before a mark is found if it lacks the first character of the mark. -/
theorem splitBefore?_of_notMem {c : Char} {mark text : List Char} (h : c ∉ text)
    (before rest : List Char) :
    splitBefore? (c :: mark) before (text ++ (c :: mark ++ rest)) =
      some (before.reverse ++ text, c :: mark ++ rest) := by
  induction text generalizing before with
  | nil =>
    have hp : (c :: mark).isPrefixOf (c :: mark ++ rest) = true :=
      List.isPrefixOf_iff_prefix.2 (List.prefix_append _ _)
    rw [List.nil_append, List.cons_append] at *
    rw [splitBefore?, if_pos hp, List.append_nil]
  | cons e text ih =>
    rw [List.mem_cons, not_or] at h
    have hp : (c :: mark).isPrefixOf (e :: (text ++ (c :: mark ++ rest))) = false := by
      simp [List.isPrefixOf, h.1]
    rw [List.cons_append, splitBefore?, if_neg (Bool.eq_false_iff.1 hp), ih h.2]
    simp

/-! ### Calls -/

/-- What a call says, wherever it stands. -/
def Call.group (c : Call) : Group :=
  ⟨c.args, c.after⟩

theorem word_of_mem_scannedWords :
    ∀ word ∈ scannedWords, word.all isWordChar = true ∧ word ≠ [] := by
  decide

/-- A text without the name holds no call. -/
theorem calls_eq_nil {name : String} (hname : name.toList ∈ scannedWords) {text : List Char}
    (hfree : name.toList ∉ words text) : calls name text = [] := by
  obtain ⟨hword, hne⟩ := word_of_mem_scannedWords _ hname
  have hspace : words (text ++ [' ']) = words text := words_append_blank (by decide) text
  -- a blank behind the text ends its last identifier, and a call would still be found
  have hended : calls name (text ++ [' ']) = [] := by
    have h := calls_append hword hne (ended_append_singleton (by decide) text) (hspace ▸ hfree) []
    rw [List.append_nil] at h
    exact h
  by_contra hcall
  obtain ⟨c, hc, -⟩ := exists_begun [' '] 0 hcall
  have hmem : c ∈ calls name (text ++ [' ']) := hc
  rw [hended] at hmem
  exact List.not_mem_nil hmem

theorem firstCall?_append {name : String} (hname : name.toList ∈ scannedWords) {text : List Char}
    (hend : Ended text) (hfree : name.toList ∉ words text) (rest : List Char) :
    firstCall? name (text ++ rest) = (firstCall? name rest).map (Call.shift text.length) := by
  obtain ⟨hword, hne⟩ := word_of_mem_scannedWords _ hname
  rw [firstCall?, calls_append hword hne hend hfree, List.head?_map, firstCall?]

/-- The first call is the one that is written where the name first stands. -/
theorem firstCall?_spacedCall {name : String} (hname : name.toList ∈ scannedWords)
    {before : List Char} (hend : Ended before) (hfree : name.toList ∉ words before) (gap : Blanks)
    {args : List Padded} (h : ∀ p ∈ args, Balanced p.argument) (rest : List Char) :
    firstCall? name (before ++ (spacedCall name.toList gap args ++ rest)) =
      some ⟨before.length, commaSeparated args, rest⟩ := by
  have hcall := calls_of_groupAt? (groupAt?_spacedCall name.toList gap h rest)
  rw [firstCall?_append hname hend hfree, firstCall?, hcall]
  rfl

/-- A text that begins with a call, after blanks, has it as its first call. -/
theorem firstCall?_callText {name : String} (hname : name.toList ∈ scannedWords)
    {pad left right : List Char} {args : List (List Char)} (hpad : pad.all isBlank)
    (hleft : left.all isBlank) (hright : right.all isBlank) (h : ∀ a ∈ args, Closed a)
    (rest : List Char) :
    firstCall? name (pad ++ (callText name.toList left right args ++ rest)) =
      some ⟨pad.length, left ++ separated args ++ right, rest⟩ := by
  have hfree : name.toList ∉ words pad := by
    rw [words_of_none (noWord_of_blank hpad)]
    exact List.not_mem_nil
  have hcall := firstCall?_spacedCall hname (ended_of_blank hpad) hfree .none
    (forall_argument_padded .nil (fun a ha => (h a ha).balanced) ⟨left, hleft⟩ ⟨right, hright⟩) rest
  rwa [← callText_eq, commaSeparated_padded] at hcall

theorem firstCall?_eq_none {name : String} (hname : name.toList ∈ scannedWords)
    {text : List Char} (hfree : name.toList ∉ words text) : firstCall? name text = none := by
  rw [firstCall?, calls_eq_nil hname hfree]
  rfl

section Reading

variable {α : Type} {f : Call → Option α} {name : String}

/-- What does not depend on the place of a call is read behind a part of a text as without it. -/
theorem filterMap_calls_append (hf : ∀ n c, f (Call.shift n c) = f c)
    (hname : name.toList ∈ scannedWords) {text : List Char} (hend : Ended text)
    (hfree : name.toList ∉ words text) (rest : List Char) :
    (calls name (text ++ rest)).filterMap f = (calls name rest).filterMap f := by
  obtain ⟨hword, hne⟩ := word_of_mem_scannedWords _ hname
  rw [calls_append hword hne hend hfree, List.filterMap_map]
  exact List.filterMap_congr fun c _ => hf _ c

theorem filterMap_calls_callText (hf : ∀ n c, f (Call.shift n c) = f c)
    {left right : List Char} {args : List (List Char)} (hleft : left.all isBlank)
    (hright : right.all isBlank) (h : ∀ a ∈ args, Closed a) (rest : List Char) :
    (calls name (callText name.toList left right args ++ rest)).filterMap f =
      (f ⟨0, left ++ separated args ++ right, rest⟩).toList ++
        (calls name rest).filterMap f := by
  have hlater : ∀ n, ((calls name rest).map (Call.shift n)).filterMap f =
      (calls name rest).filterMap f := by
    intro n
    rw [List.filterMap_map]
    exact List.filterMap_congr fun c _ => hf n c
  rw [calls_of_groupAt? (groupAt?_callText hleft hright h rest), List.filterMap_cons, hlater]
  cases f ⟨0, left ++ separated args ++ right, rest⟩ <;> rfl

end Reading

/-! ### Lines -/

/-- Lines that are written one below the other are read as those lines. -/
theorem lines_append_flatMap {first : List Char} {rest : List (List Char)}
    (hfirst : OneLine first ∧ first ≠ []) (hrest : ∀ l ∈ rest, OneLine l ∧ l ≠ []) :
    lines (first ++ rest.flatMap ('\n' :: ·)) = first :: rest := by
  induction rest generalizing first with
  | nil => rw [List.flatMap_nil, List.append_nil, lines_of_noFeed hfirst.1.noFeed hfirst.2]
  | cons l rest ih =>
    rw [List.forall_mem_cons] at hrest
    rw [List.flatMap_cons, List.cons_append, lines_append_newline hfirst.1.noReturn
      hfirst.1.noFeed, ih hrest.1 hrest.2]

end LcdHandhelds.Text
