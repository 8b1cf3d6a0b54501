import LcdHandhelds.Proofs.Machine.LineEnding
import LcdHandhelds.Proofs.Text.Occurrence
import LcdHandhelds.Proofs.Text.Printed

/-!
What the readers of class heads and constructor declarations accept. Each reader is turned round: it
gives a result exactly on the texts that are written in one way (`className?_eq_some_iff`,
`declaredDevice?_eq_some_iff`).
-/
namespace LcdHandhelds

open Text

/-! ### Tokens -/

/-- The text is made up of the tokens, with any blanks in front of each. -/
inductive Tokens : List String → List Char → Prop
  | nil : Tokens [] []
  | cons {gap : List Char} {token : String} {tokens : List String} {text : List Char} :
    gap.all isBlank → Tokens tokens text → Tokens (token :: tokens) (gap ++ token.toList ++ text)

/-- The token begins with a character that is no blank. -/
def Solid (token : String) : Prop :=
  ∃ c ∈ token.toList.head?, isBlank c = false

instance (token : String) : Decidable (Solid token) :=
  decidable_of_iff (token.toList.head?.any fun c => !isBlank c) (by
    cases h : token.toList.head? <;> simp [Solid, h])

theorem space?_eq_some_iff {text rest : List Char} :
    space? text = some rest ↔
      ∃ gap, gap ≠ [] ∧ gap.all isBlank ∧ text = gap ++ rest ∧
        ∀ c ∈ rest.head?, isBlank c = false := by
  constructor
  · intro h
    cases text with
    | nil => cases h
    | cons c text =>
      rw [space?] at h
      split at h
      next hc =>
        cases h
        refine ⟨c :: text.takeWhile isBlank, List.cons_ne_nil _ _, ?_, ?_,
          not_of_mem_head?_dropWhile text⟩
        · rw [List.all_cons, hc, List.all_takeWhile]
          rfl
        · rw [List.cons_append, takeWhile_append_skipBlank]
      · cases h
  · rintro ⟨gap, hne, hgap, rfl, hrest⟩
    obtain ⟨c, gap, rfl⟩ := List.exists_cons_of_ne_nil hne
    rw [List.all_cons, Bool.and_eq_true] at hgap
    rw [List.cons_append, space?, if_pos hgap.1,
      skipBlank_append_of_blank (skipBlank_of_all hgap.2), skipBlank_eq_self hrest]

theorem token?_eq_some_iff {token : String} (h : Solid token) {text rest : List Char} :
    token? token text = some rest ↔
      ∃ gap, gap.all isBlank ∧ text = gap ++ (token.toList ++ rest) := by
  rw [token?, List.isPrefixOf?_eq_some_iff_append_eq]
  constructor
  · intro htext
    refine ⟨text.takeWhile isBlank, List.all_takeWhile, ?_⟩
    rw [htext, takeWhile_append_skipBlank]
  · rintro ⟨gap, hgap, rfl⟩
    obtain ⟨c, hc, hsolid⟩ := h
    rw [skipBlank_append_of_blank (skipBlank_of_all hgap), skipBlank_eq_self]
    intro d hd
    rw [List.head?_append, hc, Option.some_or, Option.mem_some_iff] at hd
    exact hd ▸ hsolid

/-- Tokens that are stepped over one after the other stand one behind the other. -/
theorem foldlM_token?_eq_some_iff {tokens : List String} (h : ∀ t ∈ tokens, Solid t)
    {text rest : List Char} :
    tokens.foldlM (fun text token => token? token text) text = some rest ↔
      ∃ front, Tokens tokens front ∧ text = front ++ rest := by
  induction tokens generalizing text with
  | nil =>
    constructor
    · intro h
      exact ⟨[], .nil, Option.some.inj h⟩
    · rintro ⟨front, hfront, rfl⟩
      cases hfront
      rfl
  | cons token tokens ih =>
    rw [List.forall_mem_cons] at h
    rw [List.foldlM_cons, Option.bind_eq_bind, Option.bind_eq_some_iff]
    constructor
    · rintro ⟨middle, htoken, hrest⟩
      obtain ⟨gap, hgap, rfl⟩ := (token?_eq_some_iff h.1).1 htoken
      obtain ⟨front, hfront, rfl⟩ := (ih h.2).1 hrest
      exact ⟨_, .cons hgap hfront, by simp only [List.append_assoc]⟩
    · rintro ⟨front, hfront, rfl⟩
      cases hfront with
      | @cons gap _ _ front hgap hfront =>
        refine ⟨front ++ rest, (token?_eq_some_iff h.1).2 ⟨gap, hgap, ?_⟩,
          (ih h.2).2 ⟨front, hfront, rfl⟩⟩
        simp only [List.append_assoc]

/-- A gap in front of an identifier ends where the identifier begins. -/
theorem space?_append_word {gap name : List Char} (hne : gap ≠ []) (hgap : gap.all isBlank)
    (hname : name ≠ []) (hword : name.all isWordChar) (rest : List Char) :
    space? (gap ++ (name ++ rest)) = some (name ++ rest) := by
  obtain ⟨c, gap, rfl⟩ := List.exists_cons_of_ne_nil hne
  rw [List.all_cons, Bool.and_eq_true] at hgap
  rw [List.cons_append, space?, if_pos hgap.1, skipBlank_append_word hgap.2 hname hword]

/-! ### Heads of classes -/

/-- What stands between the word `class` and the body: a name, and a colon after it. -/
structure IsHead (name text : List Char) : Prop where
  spaced : ∃ gap gap', text = gap ++ name ++ gap' ++ [':'] ∧
    (gap ≠ [] ∧ gap.all isBlank) ∧ gap' ≠ [] ∧ gap'.all isBlank
  word : name.all isWordChar
  state : "_state".toList <:+ name

theorem className?_eq_some_iff {text name rest : List Char} :
    className? text = some (name, rest) ↔ ∃ head, IsHead name head ∧ text = head ++ rest := by
  simp only [className?, Option.bind_eq_bind, Option.bind_eq_some_iff, Prod.exists]
  constructor
  · rintro ⟨t, hspace, own, u, hname, v, hspace', w, hcolon, h⟩
    split at h
    next hstate =>
      cases h
      obtain ⟨gap, hne, hgap, rfl, -⟩ := space?_eq_some_iff.1 hspace
      obtain ⟨rfl, hword, -, -⟩ := identifier?_eq_some_iff.1 hname
      obtain ⟨gap', hne', hgap', rfl, -⟩ := space?_eq_some_iff.1 hspace'
      obtain rfl := List.isPrefixOf?_eq_some_iff_append_eq.1 hcolon
      refine ⟨_, ⟨⟨gap, gap', rfl, ⟨hne, hgap⟩, hne', hgap'⟩, hword,
        List.isSuffixOf_iff_suffix.1 hstate⟩, ?_⟩
      simp only [List.append_assoc]
      rfl
    · cases h
  · rintro ⟨head, ⟨⟨gap, gap', rfl, ⟨hne, hgap⟩, hne', hgap'⟩, hword, hstate⟩, rfl⟩
    have hname : name ≠ [] := fun h => by
      rw [h, List.suffix_nil] at hstate
      exact absurd hstate (by decide)
    have hends : endsWord (gap' ++ ':' :: rest) := endsWord_append_of_blank hgap' rfl
    refine ⟨name ++ (gap' ++ ':' :: rest), ?_, name, gap' ++ ':' :: rest,
      identifier?_eq_some_iff.2 ⟨rfl, hword, hname, hends⟩, ':' :: rest, ?_, rest, rfl, ?_⟩
    · simpa only [List.append_assoc, List.singleton_append] using
        space?_append_word hne hgap hname hword (gap' ++ ':' :: rest)
    · exact space?_eq_some_iff.2 ⟨gap', hne', hgap', rfl,
        fun c hc => Option.some.inj hc ▸ (by decide)⟩
    · rw [if_pos (List.isSuffixOf_iff_suffix.2 hstate)]
      rfl

/-! ### Declarations of constructors -/

/-- The text declares a constructor for the device. -/
def Declares (device : String) (text : List Char) : Prop :=
  ∃ gap parameter, text = "void".toList ++ gap ++ device.toList ++ parameter ∧
    (gap ≠ [] ∧ gap.all isBlank) ∧ (device.toList ≠ [] ∧ device.toList.all isWordChar) ∧
      Tokens ["(", "machine_config", "&", "config"] parameter

theorem declaredDevice?_eq (text : List Char) :
    declaredDevice? text = (space? text).bind fun text =>
      (identifier? text).bind fun p =>
        (["(", "machine_config", "&", "config"].foldlM (fun text token => token? token text)
          p.2).map fun _ => String.ofList p.1 := by
  simp only [declaredDevice?, List.foldlM_cons, List.foldlM_nil, Option.bind_eq_bind,
    Option.pure_def, Option.map_eq_bind, Option.bind_assoc, Option.bind_some, Function.comp_def]

/-- A declaration is read behind its first word. -/
theorem declaredDevice?_eq_some_iff {text : List Char} {device : String} :
    declaredDevice? text = some device ↔
      ∃ declaration rest, Declares device declaration ∧
        "void".toList ++ text = declaration ++ rest := by
  have hsolid : ∀ t ∈ ["(", "machine_config", "&", "config"], Solid t := by decide
  simp only [declaredDevice?_eq, Option.bind_eq_some_iff, Option.map_eq_some_iff, Prod.exists]
  constructor
  · rintro ⟨t, hspace, name, u, hname, rest, htokens, rfl⟩
    obtain ⟨gap, hne, hgap, rfl, -⟩ := space?_eq_some_iff.1 hspace
    obtain ⟨rfl, hword, hname, -⟩ := identifier?_eq_some_iff.1 hname
    obtain ⟨parameter, hparameter, rfl⟩ := (foldlM_token?_eq_some_iff hsolid).1 htokens
    refine ⟨_, rest, ⟨gap, parameter, rfl, ⟨hne, hgap⟩, ⟨?_, ?_⟩, hparameter⟩, ?_⟩
    · rwa [String.toList_ofList]
    · rwa [String.toList_ofList]
    · simp only [String.toList_ofList, List.append_assoc]
  · rintro ⟨declaration, rest, ⟨gap, parameter, rfl, ⟨hne, hgap⟩, ⟨hname, hword⟩, hparameter⟩, htext⟩
    simp only [List.append_assoc, List.append_cancel_left_eq] at htext
    subst htext
    have hends : endsWord (parameter ++ rest) := by
      cases hparameter with
      | cons hblank _ =>
        rw [List.append_assoc, List.append_assoc]
        exact endsWord_append_of_blank hblank rfl
    exact ⟨_, space?_append_word hne hgap hname hword _, device.toList, parameter ++ rest,
      identifier?_eq_some_iff.2 ⟨rfl, hword, hname, hends⟩, rest,
      (foldlM_token?_eq_some_iff hsolid).2 ⟨parameter, hparameter, rfl⟩, String.ofList_toList⟩

end LcdHandhelds
