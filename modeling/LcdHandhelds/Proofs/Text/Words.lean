import Mathlib.Data.List.Induction
import LcdHandhelds.Proofs.List
import LcdHandhelds.Proofs.Text.Delimited
import LcdHandhelds.Proofs.Text.Sweep

/-!
The identifiers of a text. Calls and whole words are found where an identifier of the text is their
name, so a part of a text without it is passed over (`calls_append`), and a mark is not found in a
part none of whose identifiers holds it (`before?_append_mark`).
-/
namespace LcdHandhelds.Text

/-- The maximal runs of identifier characters; `glued` says that one is open at the front. -/
def wordsFrom : (glued : Bool) → List Char → List (List Char)
  | _, [] => []
  | true, c :: text => wordsFrom (isWordChar c) text
  | false, c :: text =>
    if isWordChar c then (c :: text).takeWhile isWordChar :: wordsFrom true text
    else wordsFrom false text

/-- The identifiers of a text, in order. -/
def words (text : List Char) : List (List Char) :=
  wordsFrom false text

/-- No identifier is open at the end of a text. -/
def Ended (text : List Char) : Prop :=
  ∀ c ∈ text.getLast?, isWordChar c = false

instance (text : List Char) : Decidable (Ended text) :=
  decidable_of_iff (text.getLast?.all fun c => !isWordChar c) (by
    cases h : text.getLast? <;> simp [Ended, h])

theorem ended_nil : Ended [] := fun _ h => nomatch h

theorem ended_append_singleton {d : Char} (hd : isWordChar d = false) (text : List Char) :
    Ended (text ++ [d]) := by
  intro c hc
  rw [List.getLast?_concat, Option.mem_some_iff] at hc
  exact hc ▸ hd

theorem Ended.append {s t : List Char} (hs : Ended s) (ht : Ended t) : Ended (s ++ t) := by
  intro c hc
  rw [List.getLast?_append, Option.mem_def, Option.or_eq_some_iff] at hc
  rcases hc with hc | ⟨-, hc⟩
  · exact ht c hc
  · exact hs c hc

theorem ended_append {t : List Char} (ht : Ended t) (hne : t ≠ []) (s : List Char) :
    Ended (s ++ t) := by
  intro c hc
  rw [List.getLast?_append_of_ne_nil s hne] at hc
  exact ht c hc

theorem Ended.of_append {s t : List Char} (h : Ended (s ++ t)) : Ended t := by
  cases t with
  | nil => exact ended_nil
  | cons d t =>
    intro c hc
    exact h c (by rwa [List.getLast?_append_of_ne_nil s (List.cons_ne_nil d t)])

theorem ended_append_iff {s t : List Char} (h : Ended s) : Ended (s ++ t) ↔ Ended t :=
  ⟨Ended.of_append, h.append⟩

theorem Ended.append_cons {d : Char} {t : List Char} (h : Ended (d :: t)) (s : List Char) :
    Ended (s ++ d :: t) :=
  ended_append h (List.cons_ne_nil d t) s

theorem Ended.cons {d : Char} (hd : isWordChar d = false) {t : List Char} (h : Ended t) :
    Ended (d :: t) :=
  Ended.append (s := [d]) (fun _ hc => Option.some.inj hc ▸ hd) h

theorem ended_flatMap {α : Type} {l : List α} {f : α → List Char} (h : ∀ a ∈ l, Ended (f a)) :
    Ended (l.flatMap f) := by
  induction l with
  | nil => exact ended_nil
  | cons a l ih =>
    rw [List.forall_mem_cons] at h
    exact h.1.append (ih h.2)

theorem eq_nil_or_of_ended {text : List Char} (h : Ended text) :
    text = [] ∨ ∃ front d, text = front ++ [d] ∧ isWordChar d = false := by
  rcases List.eq_nil_or_concat' text with rfl | ⟨front, d, rfl⟩
  · exact .inl rfl
  · exact .inr ⟨front, d, rfl, h d (by simp)⟩

/-- A text is one that has ended, and an identifier that is open at its end. -/
theorem exists_glued (text : List Char) :
    ∃ front glued, text = front ++ glued ∧ Ended front ∧ glued.all isWordChar := by
  induction text using List.reverseRecOn with
  | nil => exact ⟨[], [], rfl, ended_nil, rfl⟩
  | append_singleton text c ih =>
    by_cases hc : isWordChar c
    · obtain ⟨front, glued, rfl, hend, hglued⟩ := ih
      refine ⟨front, glued ++ [c], List.append_assoc _ _ _, hend, ?_⟩
      rw [List.all_append, hglued, List.all_cons, hc]
      rfl
    · exact ⟨text ++ [c], [], (List.append_nil _).symm,
        ended_append_singleton (Bool.eq_false_iff.2 hc) text, rfl⟩

/-! ### Identifiers -/

theorem takeWhile_append_cons {d : Char} (hd : isWordChar d = false) (text rest : List Char) :
    (text ++ d :: rest).takeWhile isWordChar = text.takeWhile isWordChar := by
  induction text with
  | nil => simp [hd]
  | cons c text ih => rw [List.cons_append, List.takeWhile_cons, ih, List.takeWhile_cons]

theorem wordsFrom_append_cons {d : Char} (hd : isWordChar d = false) (glued : Bool)
    (text rest : List Char) :
    wordsFrom glued (text ++ d :: rest) = wordsFrom glued text ++ words rest := by
  induction text generalizing glued with
  | nil => cases glued <;> simp [wordsFrom, words, hd]
  | cons c text ih =>
    cases glued with
    | true => exact ih _
    | false =>
      have hword := takeWhile_append_cons hd (c :: text) rest
      rw [List.cons_append] at hword
      rw [List.cons_append, wordsFrom, wordsFrom, ih, ih, hword]
      split <;> rfl

/-- A character of no identifier parts the identifiers of a text. -/
theorem words_append_cons {d : Char} (hd : isWordChar d = false) (text rest : List Char) :
    words (text ++ d :: rest) = words text ++ words rest :=
  wordsFrom_append_cons hd false text rest

theorem words_append {text : List Char} (h : Ended text) (rest : List Char) :
    words (text ++ rest) = words text ++ words rest := by
  obtain rfl | ⟨front, d, rfl, hd⟩ := eq_nil_or_of_ended h
  · rfl
  · rw [List.append_assoc, List.singleton_append, words_append_cons hd, words_append_cons hd]
    simp [words, wordsFrom]

theorem wordsFrom_true_of_all {word : List Char} (h : word.all isWordChar) :
    wordsFrom true word = [] := by
  induction word with
  | nil => rfl
  | cons c word ih =>
    rw [List.all_cons, Bool.and_eq_true] at h
    rw [wordsFrom, h.1, ih h.2]

theorem words_of_word {word : List Char} (h : word.all isWordChar) (hne : word ≠ []) :
    words word = [word] := by
  obtain ⟨c, rest, rfl⟩ := List.exists_cons_of_ne_nil hne
  have hself : (c :: rest).takeWhile isWordChar = c :: rest :=
    List.takeWhile_eq_self_iff.2 (List.all_eq_true.1 h)
  rw [List.all_cons, Bool.and_eq_true] at h
  rw [words, wordsFrom, if_pos h.1, hself, wordsFrom_true_of_all h.2]

theorem words_of_none {text : List Char} (h : ∀ c ∈ text, isWordChar c = false) :
    words text = [] := by
  induction text with
  | nil => rfl
  | cons c text ih =>
    rw [List.forall_mem_cons] at h
    rw [words, wordsFrom, h.1, if_neg Bool.false_ne_true]
    exact ih h.2

/-- The identifiers behind the first character of a text are identifiers of the text. -/
theorem wordsFrom_subset (glued : Bool) (c : Char) (text : List Char) :
    wordsFrom (isWordChar c) text ⊆ wordsFrom glued (c :: text) := by
  intro word hw
  cases glued with
  | true => exact hw
  | false =>
    rw [wordsFrom]
    split
    next hc => exact List.mem_cons_of_mem _ (hc ▸ hw)
    next hc => exact Bool.eq_false_iff.2 hc ▸ hw

/-- An identifier of a text is a part of it. -/
theorem of_mem_wordsFrom {glued : Bool} {text word : List Char} (h : word ∈ wordsFrom glued text) :
    word ≠ [] ∧ word.all isWordChar ∧ word <:+: text := by
  induction text generalizing glued with
  | nil => exact absurd h List.not_mem_nil
  | cons c text ih =>
    have hlater : ∀ {glued}, word ∈ wordsFrom glued text →
        word ≠ [] ∧ word.all isWordChar ∧ word <:+: c :: text := fun hw =>
      let ⟨hne, hall, hpart⟩ := ih hw
      ⟨hne, hall, hpart.trans (List.suffix_cons c text).isInfix⟩
    cases glued with
    | true => exact hlater h
    | false =>
      rw [wordsFrom] at h
      split at h
      next hc =>
        rcases List.mem_cons.1 h with rfl | h
        · refine ⟨?_, List.all_takeWhile, (List.takeWhile_prefix _).isInfix⟩
          rw [List.takeWhile_cons, if_pos hc]
          exact List.cons_ne_nil _ _
        · exact hlater h
      · exact hlater h

theorem of_mem_words {text word : List Char} (h : word ∈ words text) :
    word ≠ [] ∧ word.all isWordChar ∧ word <:+: text :=
  of_mem_wordsFrom h

theorem isUpper_iff {c : Char} : c.isUpper ↔ 65 ≤ c.toNat ∧ c.toNat ≤ 90 := by
  change decide ('A'.val ≤ c.val ∧ c.val ≤ 'Z'.val) = true ↔ _
  simp [UInt32.le_iff_toNat_le]

theorem isLower_iff {c : Char} : c.isLower ↔ 97 ≤ c.toNat ∧ c.toNat ≤ 122 := by
  change (decide ('a'.val ≤ c.val) && decide (c.val ≤ 'z'.val)) = true ↔ _
  simp [UInt32.le_iff_toNat_le]

theorem isWordChar_iff {c : Char} :
    isWordChar c ↔ c.isUpper ∨ c.isLower ∨ c.isDigit ∨ c = '_' := by
  change (((c.isUpper || c.isLower) || c.isDigit) || c == '_') = true ↔ _
  simp [or_assoc]

/-- No blank is part of an identifier. -/
theorem isWordChar_of_isBlank {c : Char} (h : isBlank c) : isWordChar c = false := by
  have hvalue : ∀ n : Nat, (blankRanges.any fun r => r.1 ≤ n && n ≤ r.2) = true →
      n < 48 ∨ 122 < n := by
    intro n hn
    simp only [blankRanges, List.any_cons, List.any_nil, Bool.or_eq_true, Bool.and_eq_true,
      decide_eq_true_eq, Bool.or_false] at hn
    omega
  have hn : c.toNat < 48 ∨ 122 < c.toNat := hvalue _ h
  rw [Bool.eq_false_iff, Ne, isWordChar_iff, isUpper_iff, isLower_iff]
  rintro (hw | hw | hw | rfl)
  · omega
  · omega
  · have hdigit : 48 ≤ c.toNat ∧ c.toNat ≤ 57 := Char.isDigit_iff_toNat.1 hw
    omega
  · revert hn
    decide

theorem isBlank_of_isWordChar {c : Char} (h : isWordChar c) : isBlank c = false := by
  rw [Bool.eq_false_iff]
  intro hblank
  rw [isWordChar_of_isBlank hblank] at h
  cases h

theorem isWordChar_of_mem_head?_append {word : List Char} (hne : word ≠ [])
    (hword : word.all isWordChar) (rest : List Char) :
    ∀ c ∈ (word ++ rest).head?, isWordChar c := by
  obtain ⟨d, word, rfl⟩ := List.exists_cons_of_ne_nil hne
  intro c hc
  obtain rfl : d = c := Option.some.inj hc
  exact List.all_eq_true.1 hword d List.mem_cons_self

/-- An identifier does not begin with a blank. -/
theorem isBlank_of_mem_head?_append {word : List Char} (hne : word ≠ []) (hword : word.all isWordChar)
    (rest : List Char) : ∀ c ∈ (word ++ rest).head?, isBlank c = false :=
  fun c hc => isBlank_of_isWordChar (isWordChar_of_mem_head?_append hne hword rest c hc)

theorem endsWord_gap {gap : List Char} (hne : gap ≠ []) (hgap : gap.all isBlank)
    (rest : List Char) : endsWord (gap ++ rest) := by
  obtain ⟨c, gap, rfl⟩ := List.exists_cons_of_ne_nil hne
  rw [List.all_cons, Bool.and_eq_true] at hgap
  rw [List.cons_append, endsWord, isWordChar_of_isBlank hgap.1]
  rfl

theorem endsWord_append_of_blank {gap rest : List Char} (hgap : gap.all isBlank)
    (hrest : endsWord rest) : endsWord (gap ++ rest) := by
  by_cases hne : gap = []
  · rwa [hne]
  · exact endsWord_gap hne hgap rest

theorem endsWord_iff {text : List Char} :
    endsWord text ↔ ∀ c ∈ text.head?, isWordChar c = false := by
  cases text <;> simp [endsWord]

/-- An identifier at the front of a text is all of the identifier there. -/
theorem identifier?_eq_some_iff {text name rest : List Char} :
    identifier? text = some (name, rest) ↔
      text = name ++ rest ∧ name.all isWordChar ∧ name ≠ [] ∧ endsWord rest := by
  rw [endsWord_iff]
  constructor
  · intro h
    rw [identifier?] at h
    split at h
    · cases h
    next hne =>
      cases h
      exact ⟨List.takeWhile_append_dropWhile.symm, List.all_takeWhile, hne,
        not_of_mem_head?_dropWhile text⟩
  · rintro ⟨rfl, hname, hne, hstop⟩
    have hall := List.all_eq_true.1 hname
    obtain ⟨c, more, rfl⟩ := List.exists_cons_of_ne_nil hne
    rw [identifier?, takeWhile_append_of_stop hall hstop, dropWhile_append_of_stop hall hstop]

/-! ### Sweeps -/

/-- A look that finds something only where an identifier is its name. -/
structure Look.Names {α : Type} (look : Look α) (name : List Char) : Prop extends look.InWords where
  named : ∀ glued text a, (look glued text).1 = some a → text.takeWhile isWordChar = name

section Sweeps

variable {α : Type} {look : Look α} {name : List Char}

theorem sweep_shift (look : Look α) (n place : Nat) (glued : Bool) (skip : Nat)
    (text : List Char) :
    sweep look (n + place) glued skip text =
      (sweep look place glued skip text).map fun p => (n + p.1, p.2) := by
  induction text generalizing place glued skip with
  | nil => rfl
  | cons c text ih =>
    cases skip with
    | succ skip =>
      rw [sweep, sweep, Nat.add_assoc, ih]
    | zero =>
      rw [sweep, sweep, Nat.add_assoc, ih, List.map_append, List.map_map]
      rfl

theorem sweep_append_cons (h : look.Names name) (hne : name ≠ []) {d : Char}
    (hd : isWordChar d = false) {glued : Bool} {text : List Char}
    (hname : name ∉ wordsFrom glued text) (place : Nat) (rest : List Char) :
    sweep look place glued 0 (text ++ d :: rest) =
      sweep look (place + text.length + 1) false 0 rest := by
  have hnone : ∀ {glued c text}, (glued = false → (c :: text).takeWhile isWordChar ≠ name) →
      (look glued (c :: text)).1 = none := by
    intro glued c text hc
    rw [Option.eq_none_iff_forall_ne_some]
    intro a ha
    cases glued with
    | true =>
      rw [h.glued] at ha
      cases ha
    | false => exact hc rfl (h.named _ _ _ ha)
  induction text generalizing place glued with
  | nil =>
    rw [List.nil_append, sweep_cons_of_none h.toInWords (hnone fun _ hw => ?_), hd]
    · rfl
    · rw [List.takeWhile_cons, hd] at hw
      exact hne hw.symm
  | cons c text ih =>
    have hword : ((c :: text) ++ d :: rest).takeWhile isWordChar =
        (c :: text).takeWhile isWordChar :=
      takeWhile_append_cons hd _ _
    -- the name is no identifier that begins here, nor one that begins later
    have hhere : glued = false → (c :: (text ++ d :: rest)).takeWhile isWordChar ≠ name := by
      rintro rfl he
      rw [← List.cons_append, hword] at he
      rw [wordsFrom] at hname
      split at hname
      · exact hname (he ▸ List.mem_cons_self)
      next hc =>
        rw [List.takeWhile_cons, if_neg hc] at he
        exact hne he.symm
    have hlater : name ∉ wordsFrom (isWordChar c) text := fun hm =>
      hname (wordsFrom_subset glued c text hm)
    rw [List.cons_append, sweep_cons_of_none h.toInWords (hnone hhere), ih hlater,
      List.length_cons]
    congr 1
    omega

/-- A part of a text is passed over if it does not hold the name. -/
theorem sweep_append (h : look.Names name) (hne : name ≠ []) {text : List Char}
    (hend : Ended text) (hname : name ∉ words text) (place : Nat) (rest : List Char) :
    sweep look place false 0 (text ++ rest) = sweep look (place + text.length) false 0 rest := by
  obtain rfl | ⟨front, d, rfl, hd⟩ := eq_nil_or_of_ended hend
  · rfl
  · have hfront : name ∉ wordsFrom false front := by
      rw [words_append_cons hd] at hname
      exact fun hm => hname (List.mem_append_left _ hm)
    rw [List.append_assoc, List.singleton_append, sweep_append_cons h hne hd hfront,
      List.length_append, List.length_singleton, Nat.add_assoc]

end Sweeps

/-! ### Calls -/

/-- The call as it stands behind `n` more characters. -/
def Call.shift (n : Nat) (c : Call) : Call := { c with place := n + c.place }

theorem names_lookCall {name : List Char} (hword : name.all isWordChar) :
    (lookCall name).Names name where
  toInWords := inWords_lookCall hword
  named glued text g hg := by
    rw [lookCall] at hg
    cases hat : groupAt? name glued text with
    | none =>
      rw [hat] at hg
      cases hg
    | some g' =>
      obtain ⟨blanks, hblanks, rfl⟩ := eq_of_groupAt? hat
      have hstop : ∃ c rest, blanks ++ '(' :: g'.inner ++ ')' :: g'.after = c :: rest ∧
          isWordChar c = false := by
        cases blanks with
        | nil => exact ⟨'(', _, rfl, by decide⟩
        | cons c blanks =>
          rw [List.all_cons, Bool.and_eq_true] at hblanks
          exact ⟨c, _, rfl, isWordChar_of_isBlank hblanks.1⟩
      obtain ⟨c, rest, hrest, hc⟩ := hstop
      rw [List.append_assoc, List.append_assoc, ← List.append_assoc blanks, hrest,
        takeWhile_append_cons hc]
      exact List.takeWhile_eq_self_iff.2 (List.all_eq_true.1 hword)

theorem calls_eq_shift (name : String) (n : Nat) (text : List Char) :
    ((sweep (lookCall name.toList) n false 0 text).map fun p =>
        (⟨p.1, p.2.inner, p.2.after⟩ : Call)) =
      (calls name text).map (Call.shift n) := by
  rw [calls, callsFrom_eq_sweep, List.map_map]
  exact (congrArg (List.map _) (sweep_shift _ n 0 false 0 text)).trans (List.map_map ..)

section Calls

variable {name : String}

/-- A part of a text without the name holds no call. -/
theorem calls_append (hword : name.toList.all isWordChar) (hne : name.toList ≠ [])
    {text : List Char} (hend : Ended text) (hname : name.toList ∉ words text) (rest : List Char) :
    calls name (text ++ rest) = (calls name rest).map (Call.shift text.length) := by
  rw [← calls_eq_shift, calls, callsFrom_eq_sweep,
    sweep_append (names_lookCall hword) hne hend hname, Nat.zero_add]

/-- A call at the front of a text is the first one. -/
theorem calls_of_groupAt? {text : List Char} {g : Group}
    (hg : groupAt? name.toList false text = some g) :
    calls name text = ⟨0, g.inner, g.after⟩ ::
      (calls name g.after).map (Call.shift (text.length - g.after.length)) := by
  obtain ⟨c, read, rfl⟩ := exists_read_of_groupAt? hg
  have hskip : (c :: (read ++ ')' :: g.after)).length - 1 - g.after.length = read.length + 1 := by
    simp only [List.length_cons, List.length_append]
    omega
  have hlook : lookCall name.toList false (c :: (read ++ ')' :: g.after)) =
      (some g, read.length + 1) := by
    rw [lookCall, hg]
    exact congrArg (some g, ·) hskip
  have hlength : (c :: (read ++ ')' :: g.after)).length - g.after.length =
      0 + 1 + read.length + 1 := by
    simp only [List.length_cons, List.length_append]
    omega
  rw [← calls_eq_shift, calls, callsFrom_eq_sweep, sweep, hlook, sweep_skip, hlength]
  rfl

/-- A name that no group follows is passed over like any other identifier. -/
theorem calls_of_groupAt?_eq_none (hword : name.toList.all isWordChar) (hne : name.toList ≠ [])
    {d : Char} (hd : isWordChar d = false) {rest : List Char}
    (hnone : groupAt? name.toList false (name.toList ++ d :: rest) = none) :
    calls name (name.toList ++ d :: rest) =
      (calls name rest).map (Call.shift (name.toList.length + 1)) := by
  have hlook := names_lookCall hword
  rw [← calls_eq_shift, calls, callsFrom_eq_sweep]
  generalize name.toList = own at *
  obtain ⟨c, more, rfl⟩ := List.exists_cons_of_ne_nil hne
  rw [List.all_cons, Bool.and_eq_true] at hword
  have hfree : c :: more ∉ wordsFrom true more := by
    rw [wordsFrom_true_of_all hword.2]
    exact List.not_mem_nil
  have hhere : (lookCall (c :: more) false (c :: (more ++ d :: rest))).1 = none := by
    rw [lookCall, ← List.cons_append, hnone]
  rw [List.cons_append, sweep_cons_of_none hlook.toInWords hhere, hword.1,
    sweep_append_cons hlook hne hd hfree, List.length_cons]
  rw [show 0 + 1 + more.length + 1 = more.length + 1 + 1 by omega]

end Calls

/-! ### Whole words -/

/-- The occurrence as it stands behind `n` more characters. -/
def Occurrence.shift (n : Nat) (o : Occurrence) : Occurrence := { o with place := n + o.place }

theorem Occurrence.shift_shift (m n : Nat) (o : Occurrence) :
    (o.shift n).shift m = o.shift (m + n) := by
  rw [shift, shift, shift, Nat.add_assoc]

theorem names_lookWord {word : List Char} (hword : word.all isWordChar) :
    (lookWord word).Names word where
  toInWords := inWords_lookWord hword
  named glued text a ha := by
    obtain ⟨after, hafter, hif⟩ := Option.bind_eq_some_iff.1 ha
    obtain rfl := List.isPrefixOf?_eq_some_iff_append_eq.1 hafter
    have hself : word.takeWhile isWordChar = word :=
      List.takeWhile_eq_self_iff.2 (List.all_eq_true.1 hword)
    by_cases hends : (!glued && endsWord after) = true
    · cases after with
      | nil => rwa [List.append_nil]
      | cons d after =>
        rw [Bool.and_eq_true, endsWord, Bool.not_eq_true'] at hends
        rw [takeWhile_append_cons (by simpa using hends.2), hself]
    · rw [if_neg hends] at hif
      cases hif

/-- Behind its first character, a word that is found is passed over like any other identifier. -/
theorem sweep_lookWord {c : Char} {front : List Char} (hword : (c :: front).all isWordChar)
    {d : Char} (hd : isWordChar d = false) (place : Nat) (rest : List Char) :
    sweep (lookWord (c :: front)) place false 0 ((c :: front) ++ d :: rest) =
      (place, d :: rest) ::
        sweep (lookWord (c :: front)) (place + (front.length + 2)) false 0 rest := by
  have hfound : lookWord (c :: front) false ((c :: front) ++ d :: rest) =
      (some (d :: rest), front.length) := by
    have hfront : (c :: front).isPrefixOf? ((c :: front) ++ d :: rest) = some (d :: rest) :=
      List.isPrefixOf?_eq_some_iff_append_eq.2 rfl
    rw [lookWord, hfront, stride, if_pos (List.prefix_append _ _)]
    simp [endsWord, hd]
  have hall := hword
  rw [List.all_cons, Bool.and_eq_true] at hall
  have hfree : c :: front ∉ wordsFrom true front := by
    rw [wordsFrom_true_of_all hall.2]
    exact List.not_mem_nil
  have hskipped : ∀ e ∈ (front ++ d :: rest).take front.length, isWordChar e := by
    rw [List.take_left]
    exact List.all_eq_true.1 hall.2
  have hlook := names_lookWord hword
  rw [List.cons_append] at hfound ⊢
  rw [sweep, hfound, hall.1, sweep_glued hlook.toInWords _ hskipped,
    sweep_append_cons hlook (List.cons_ne_nil _ _) hd hfree]
  rw [show place + (front.length + 2) = place + 1 + front.length + 1 by omega]
  rfl

theorem occurrences_eq_shift {word : String} (hne : word.toList ≠ []) (n : Nat)
    (text : List Char) :
    ((sweep (lookWord word.toList) n false 0 text).map fun p => (⟨p.1, p.2⟩ : Occurrence)) =
      (occurrences word text).map (Occurrence.shift n) := by
  rw [occurrences, occurrencesFrom_eq_sweep hne, List.map_map]
  exact (congrArg (List.map _) (sweep_shift _ n 0 false 0 text)).trans (List.map_map ..)

section Words

variable {word : String} (hword : word.toList.all isWordChar) (hne : word.toList ≠ [])

include hword hne

theorem occurrences_append {text : List Char} (hend : Ended text)
    (hname : word.toList ∉ words text) (rest : List Char) :
    occurrences word (text ++ rest) =
      (occurrences word rest).map (Occurrence.shift text.length) := by
  rw [← occurrences_eq_shift hne, occurrences, occurrencesFrom_eq_sweep hne,
    sweep_append (names_lookWord hword) hne hend hname, Nat.zero_add]

/-- A word at the front of a text is its first occurrence. -/
theorem occurrences_word {d : Char} (hd : isWordChar d = false) (rest : List Char) :
    occurrences word (word.toList ++ d :: rest) = ⟨0, d :: rest⟩ ::
      (occurrences word rest).map (Occurrence.shift (word.toList.length + 1)) := by
  rw [← occurrences_eq_shift hne, occurrences, occurrencesFrom_eq_sweep hne]
  obtain ⟨c, front, hfront⟩ := List.exists_cons_of_ne_nil hne
  rw [hfront] at hword ⊢
  rw [sweep_lookWord hword hd, Nat.zero_add]
  rfl

theorem occurrences_eq_nil {text : List Char} (hend : Ended text)
    (hname : word.toList ∉ words text) : occurrences word text = [] := by
  have hnil : occurrences word [] = [] := by
    rw [occurrences, occurrencesFrom, if_neg (by simp [hne])]
  have h := occurrences_append hword hne hend hname []
  rwa [List.append_nil, hnil] at h

end Words

/-! ### Marks -/

/-- A mark of identifier characters lies in one identifier of the text. -/
theorem exists_word_of_infix {mark text : List Char} (hmark : mark.all isWordChar) (hne : mark ≠ [])
    (h : mark <:+: text) : ∃ word ∈ words text, mark <:+: word := by
  obtain ⟨before, rest, rfl⟩ := h
  obtain ⟨front, glued, rfl, hend, hglued⟩ := exists_glued before
  have hrun : (glued ++ (mark ++ rest)).takeWhile isWordChar =
      glued ++ mark ++ rest.takeWhile isWordChar := by
    rw [List.takeWhile_append_of_pos (List.all_eq_true.1 hglued),
      List.takeWhile_append_of_pos (List.all_eq_true.1 hmark), List.append_assoc]
  refine ⟨glued ++ mark ++ rest.takeWhile isWordChar, ?_, glued, _, rfl⟩
  rw [List.append_assoc, List.append_assoc, words_append hend, List.mem_append, ← hrun]
  right
  obtain ⟨c, more, hword⟩ :=
    List.exists_cons_of_ne_nil (List.append_ne_nil_of_right_ne_nil glued hne)
  have hc : isWordChar c := by
    have hall : (glued ++ mark).all isWordChar := by rw [List.all_append, hglued, hmark]; rfl
    rw [hword, List.all_cons, Bool.and_eq_true] at hall
    exact hall.1
  rw [← List.append_assoc, hword, List.cons_append, words, wordsFrom, if_pos hc]
  exact List.mem_cons_self

/-- A mark is found behind a text none of whose identifiers holds it. -/
theorem before?_append_mark {mark : String} (hmark : mark.toList.all isWordChar) {c : Char}
    {more : List Char} (hname : mark.toList = c :: more) (hc : c ∉ more) {text : List Char}
    (hwords : ∀ word ∈ words text, ¬ mark.toList <:+: word) (rest : List Char) :
    before? mark (text ++ (mark.toList ++ rest)) = some text := by
  refine before?_append_of_notInfix hname hc (fun h => ?_) rest
  obtain ⟨word, hword, hpart⟩ := exists_word_of_infix hmark (hname ▸ List.cons_ne_nil c more) h
  exact hwords word hword hpart

end LcdHandhelds.Text
