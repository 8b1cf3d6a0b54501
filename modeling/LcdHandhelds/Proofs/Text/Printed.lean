import LcdHandhelds.Proofs.Text.Pieces
import LcdHandhelds.Proofs.Text.Words

/-!
Calls as they are written: a name with its arguments in parentheses, with any blanks (`spacedCall`)
or with those of one hand (`callText`). A scan reads the same name and arguments from them, whatever
follows (`groupAt?_spacedCall`, `arguments_commaSeparated`).
-/
namespace LcdHandhelds.Text

/-- Blanks, any number of them. -/
structure Blanks where
  text : List Char
  blank : text.all isBlank

def Blanks.none : Blanks := ⟨[], rfl⟩

def Blanks.space : Blanks := ⟨[' '], by decide⟩

@[simp] theorem Blanks.text_none : none.text = [] := rfl

@[simp] theorem Blanks.text_space : space.text = [' '] := rfl

/-- An argument with the blanks around it. -/
structure Padded where
  left : Blanks
  argument : List Char
  right : Blanks

def Padded.text (p : Padded) : List Char :=
  p.left.text ++ p.argument ++ p.right.text

def commaSeparated : List Padded → List Char
  | [] => []
  | [p] => p.text
  | p :: next :: rest => p.text ++ ',' :: commaSeparated (next :: rest)

/-- A call with blanks wherever they may stand. -/
def spacedCall (name : List Char) (gap : Blanks) (args : List Padded) : List Char :=
  name ++ (gap.text ++ '(' :: commaSeparated args) ++ [')']

/-- Arguments with a comma and a space between each two. -/
def separated : List (List Char) → List Char
  | [] => []
  | [argument] => argument
  | argument :: next :: rest => argument ++ ',' :: ' ' :: separated (next :: rest)

/-- A call, with `left` and `right` just inside of the parentheses. -/
def callText (name left right : List Char) (args : List (List Char)) : List Char :=
  name ++ '(' :: (left ++ separated args ++ right) ++ [')']

/-- The arguments of such a call, each with its blanks. -/
def padded (left right : Blanks) : List (List Char) → List Padded
  | [] => [⟨left, [], right⟩]
  | [argument] => [⟨left, argument, right⟩]
  | argument :: next :: rest =>
    ⟨left, argument, .none⟩ :: padded .space right (next :: rest)

/-- A text that can stand as one argument. -/
structure IsArgument (text : List Char) : Prop where
  closed : Closed text
  trimmed : trim text = text
  ne_nil : text ≠ []

/-! ### Blanks at both ends -/

theorem skipBlank_of_all {text : List Char} (h : text.all isBlank) : skipBlank text = [] := by
  rw [skipBlank, List.dropWhile_eq_nil_iff]
  exact List.all_eq_true.1 h

theorem trim_append_blank {left right : List Char} (hl : left.all isBlank)
    (hr : right.all isBlank) (text : List Char) : trim (left ++ text ++ right) = trim text := by
  have hright : (right.reverse).all isBlank := by rwa [List.all_reverse]
  rw [List.append_assoc, trim, skipBlank_append_of_blank (skipBlank_of_all hl), trim]
  by_cases hb : skipBlank text = []
  · rw [skipBlank_append_of_blank hb, skipBlank_of_all hr, hb]
  · rw [skipBlank_append hb, List.reverse_append,
      skipBlank_append_of_blank (skipBlank_of_all hright)]

theorem skipBlank_eq_self {text : List Char} (h : ∀ c ∈ text.head?, isBlank c = false) :
    skipBlank text = text := by
  cases text with
  | nil => rfl
  | cons c text => rw [skipBlank_cons, h c rfl, if_neg Bool.false_ne_true]

/-- Blanks in front of an identifier are skipped. -/
theorem skipBlank_append_word {left name : List Char} (hleft : left.all isBlank) (hne : name ≠ [])
    (hword : name.all isWordChar) (rest : List Char) :
    skipBlank (left ++ (name ++ rest)) = name ++ rest := by
  rw [skipBlank_append_of_blank (skipBlank_of_all hleft),
    skipBlank_eq_self (isBlank_of_mem_head?_append hne hword rest)]

theorem trim_eq_self {text : List Char} (hfirst : ∀ c ∈ text.head?, isBlank c = false)
    (hlast : ∀ c ∈ text.getLast?, isBlank c = false) : trim text = text := by
  rw [trim, skipBlank_eq_self hfirst, skipBlank_eq_self, List.reverse_reverse]
  rwa [List.head?_reverse]

theorem trim_of_ends {text : List Char} {first last : Char} (hfirst : text.head? = some first)
    (hlast : text.getLast? = some last) (hf : isBlank first = false) (hl : isBlank last = false) :
    trim text = text := by
  refine trim_eq_self (fun c hc => ?_) fun c hc => ?_
  · rw [hfirst, Option.mem_some_iff] at hc
    exact hc ▸ hf
  · rw [hlast, Option.mem_some_iff] at hc
    exact hc ▸ hl

theorem trim_literal (inside : List Char) : trim (literal inside) = literal inside :=
  trim_of_ends rfl List.getLast?_concat (by decide) (by decide)

/-! ### Arguments -/

theorem closed_of_blank {text : List Char} (h : text.all isBlank) : Closed text := by
  refine closed_of_forall fun c hc hmem => ?_
  have hblank := List.all_eq_true.1 h c hc
  simp only [List.mem_cons, List.not_mem_nil, or_false] at hmem
  rcases hmem with rfl | rfl | rfl | rfl <;> exact absurd hblank (by decide)

theorem plain_of_isWordChar {c : Char} (h : isWordChar c) :
    isBlank c = false ∧ c ∉ ['(', ')', '"', ','] := by
  refine ⟨isBlank_of_isWordChar h, fun hmem => ?_⟩
  simp only [List.mem_cons, List.not_mem_nil, or_false] at hmem
  rcases hmem with rfl | rfl | rfl | rfl <;> exact absurd h (by decide)

theorem closed_of_word {text : List Char} (h : text.all isWordChar) : Closed text :=
  closed_of_forall fun c hc => (plain_of_isWordChar (List.all_eq_true.1 h c hc)).2

theorem isArgument_of_forall {text : List Char} (hne : text ≠ [])
    (h : ∀ c ∈ text, isBlank c = false ∧ c ∉ ['(', ')', '"', ',']) : IsArgument text where
  closed := closed_of_forall fun c hc => (h c hc).2
  trimmed := trim_eq_self (fun c hc => (h c (List.mem_of_head? hc)).1)
    fun c hc => (h c (List.mem_of_getLast? hc)).1
  ne_nil := hne

theorem trim_of_word {text : List Char} (h : text.all isWordChar) : trim text = text := by
  have hblank : ∀ c ∈ text, isBlank c = false := fun c hc =>
    isBlank_of_isWordChar (List.all_eq_true.1 h c hc)
  exact trim_eq_self (fun c hc => hblank c (List.mem_of_head? hc))
    fun c hc => hblank c (List.mem_of_getLast? hc)

theorem isArgument_of_word {text : List Char} (h : text.all isWordChar) (hne : text ≠ []) :
    IsArgument text :=
  isArgument_of_forall hne fun c hc => plain_of_isWordChar (List.all_eq_true.1 h c hc)

theorem isArgument_literal {inside : List Char} (hq : '"' ∉ inside) (hb : '\\' ∉ inside) :
    IsArgument (literal inside) where
  closed := closed_literal (quotable_of_notMem hq hb)
  trimmed := trim_literal inside
  ne_nil := List.cons_ne_nil _ _

theorem unquote?_literal (inside : List Char) : unquote? (literal inside) = some inside :=
  unquote?_eq_some_iff.2 (trim_literal inside)

theorem IsArgument.not_blank {text : List Char} (h : IsArgument text) :
    text.all isBlank = false := by
  rw [Bool.eq_false_iff]
  intro hblank
  have hnil : trim text = [] := by rw [trim, skipBlank_of_all hblank]; rfl
  exact h.ne_nil (h.trimmed ▸ hnil)

/-! ### Argument lists -/

theorem commaSeparated_cons {p : Padded} {rest : List Padded} (hne : rest ≠ []) :
    commaSeparated (p :: rest) = p.text ++ ',' :: commaSeparated rest := by
  cases rest with
  | nil => exact absurd rfl hne
  | cons next rest => rfl

theorem Padded.trim_text (p : Padded) : trim p.text = trim p.argument :=
  trim_append_blank p.left.blank p.right.blank _

theorem Padded.closed_text {p : Padded} (h : Closed p.argument) : Closed p.text :=
  ((closed_of_blank p.left.blank).append h).append (closed_of_blank p.right.blank)

theorem Padded.balanced_text {p : Padded} (h : Balanced p.argument) : Balanced p.text :=
  ((closed_of_blank p.left.blank).balanced.append h).append
    (closed_of_blank p.right.blank).balanced

theorem balanced_commaSeparated {args : List Padded} (h : ∀ p ∈ args, Balanced p.argument) :
    Balanced (commaSeparated args) := by
  induction args with
  | nil => exact .nil
  | cons p args ih =>
    rw [List.forall_mem_cons] at h
    by_cases hne : args = []
    · subst hne
      exact p.balanced_text h.1
    · rw [commaSeparated_cons hne]
      exact (p.balanced_text h.1).append (.cons (by decide) (ih h.2))

theorem commaSeparated_eq_intercalate (args : List Padded) :
    commaSeparated args = [','].intercalate (args.map Padded.text) := by
  induction args with
  | nil => rfl
  | cons p args ih =>
    cases args with
    | nil => simp [commaSeparated]
    | cons next args =>
      rw [commaSeparated_cons (List.cons_ne_nil next args), ih]
      simp [List.intercalate_cons_cons]

/-- A comma is no blank, so a blank list is one blank argument. -/
theorem all_isBlank_commaSeparated (p : Padded) (rest : List Padded) :
    (commaSeparated (p :: rest)).all isBlank ↔ rest = [] ∧ p.argument.all isBlank := by
  cases rest with
  | nil => simp [commaSeparated, Padded.text, List.all_append, p.left.blank, p.right.blank]
  | cons next rest =>
    have hcomma : isBlank ',' = false := by decide
    rw [commaSeparated_cons (List.cons_ne_nil next rest), List.all_append, List.all_cons, hcomma]
    simp

/-- The arguments of a list are the pieces it was joined from. A blank piece alone is none. -/
theorem arguments_commaSeparated_of_closed {p : Padded} {rest : List Padded}
    (h : ∀ q ∈ p :: rest, Closed q.argument) :
    arguments (commaSeparated (p :: rest)) =
      if rest = [] ∧ p.argument.all isBlank then [] else
        (p :: rest).map fun q => trim q.argument := by
  by_cases hblank : (commaSeparated (p :: rest)).all isBlank
  · rw [if_pos ((all_isBlank_commaSeparated p rest).1 hblank), arguments, if_pos hblank]
  · rw [if_neg (mt (all_isBlank_commaSeparated p rest).2 hblank)]
    have hclosed : ∀ t ∈ (p :: rest).map Padded.text, Closed t := by
      rw [List.forall_mem_map]
      exact fun q hq => q.closed_text (h q hq)
    rw [commaSeparated_eq_intercalate] at hblank ⊢
    rw [List.map_cons] at hclosed hblank ⊢
    rw [arguments_eq_map_trim hclosed hblank, ← List.map_cons, List.map_map]
    exact List.map_congr_left fun q _ => q.trim_text

/-- The arguments of a list are those it was written with. -/
theorem arguments_commaSeparated {args : List Padded} (hne : args ≠ [])
    (h : ∀ p ∈ args, IsArgument p.argument) :
    arguments (commaSeparated args) = args.map (·.argument) := by
  obtain ⟨p, rest, rfl⟩ := List.exists_cons_of_ne_nil hne
  have hblank : ¬ (rest = [] ∧ p.argument.all isBlank) := fun hall =>
    Bool.eq_false_iff.1 (h p List.mem_cons_self).not_blank hall.2
  rw [arguments_commaSeparated_of_closed fun q hq => (h q hq).closed, if_neg hblank]
  exact List.map_congr_left fun q hq => (h q hq).trimmed

/-! ### Calls -/

/-- A call that is written is found, with its arguments and what follows it. -/
theorem groupAt?_spacedCall (name : List Char) (gap : Blanks) {args : List Padded}
    (h : ∀ p ∈ args, Balanced p.argument) (rest : List Char) :
    groupAt? name false (spacedCall name gap args ++ rest) =
      some ⟨commaSeparated args, rest⟩ := by
  have hname : name.isPrefixOf? (spacedCall name gap args ++ rest) =
      some (gap.text ++ '(' :: (commaSeparated args ++ ')' :: rest)) := by
    rw [List.isPrefixOf?_eq_some_iff_append_eq, spacedCall]
    simp
  rw [groupAt?, hname, Option.bind_some, if_neg Bool.false_ne_true,
    skipBlank_append_of_blank (skipBlank_of_all gap.blank), skipBlank_cons, if_neg (by decide)]
  exact close?_balanced (balanced_commaSeparated h) rest

theorem padded_ne_nil (left right : Blanks) (args : List (List Char)) :
    padded left right args ≠ [] := by
  rcases args with _ | ⟨a, _ | ⟨b, rest⟩⟩ <;> exact List.cons_ne_nil _ _

theorem commaSeparated_padded (left right : Blanks) (args : List (List Char)) :
    commaSeparated (padded left right args) = left.text ++ separated args ++ right.text := by
  induction args generalizing left with
  | nil => rfl
  | cons a args ih =>
    cases args with
    | nil => rfl
    | cons next args =>
      rw [padded, commaSeparated_cons (padded_ne_nil _ _ _), ih, separated, Padded.text]
      simp

theorem map_argument_padded (left right : Blanks) {args : List (List Char)} (hne : args ≠ []) :
    (padded left right args).map (·.argument) = args := by
  induction args generalizing left with
  | nil => exact absurd rfl hne
  | cons a args ih =>
    cases args with
    | nil => rfl
    | cons next args => rw [padded, List.map_cons, ih _ (List.cons_ne_nil _ _)]

theorem forall_argument_padded {P : List Char → Prop} {args : List (List Char)} (hnil : P [])
    (h : ∀ a ∈ args, P a) (left right : Blanks) :
    ∀ p ∈ padded left right args, P p.argument := by
  intro p hp
  by_cases hne : args = []
  · subst hne
    exact List.mem_singleton.1 hp ▸ hnil
  · refine h _ ?_
    rw [← map_argument_padded left right hne]
    exact List.mem_map_of_mem hp

theorem callText_eq (name : List Char) (left right : Blanks) (args : List (List Char)) :
    callText name left.text right.text args =
      spacedCall name .none (padded left right args) := by
  rw [callText, spacedCall, commaSeparated_padded]
  rfl

section CallText

variable {name left right : List Char} {args : List (List Char)} (hleft : left.all isBlank)
  (hright : right.all isBlank)

include hleft hright

theorem close?_arguments (h : ∀ a ∈ args, Closed a) (rest : List Char) :
    Group.close? 0 .plain [] (left ++ separated args ++ right ++ ')' :: rest) =
      some ⟨left ++ separated args ++ right, rest⟩ := by
  have hbalanced := balanced_commaSeparated
    (forall_argument_padded .nil (fun a ha => (h a ha).balanced) ⟨left, hleft⟩ ⟨right, hright⟩)
  rw [commaSeparated_padded] at hbalanced
  exact close?_balanced hbalanced rest

theorem groupAt?_callText (h : ∀ a ∈ args, Closed a) (rest : List Char) :
    groupAt? name false (callText name left right args ++ rest) =
      some ⟨left ++ separated args ++ right, rest⟩ := by
  have hgroup := groupAt?_spacedCall name .none
    (forall_argument_padded .nil (fun a ha => (h a ha).balanced) ⟨left, hleft⟩ ⟨right, hright⟩) rest
  rwa [← callText_eq, commaSeparated_padded] at hgroup

/-- The arguments of a call are those it was written with. -/
theorem arguments_callText (hne : args ≠ []) (h : ∀ a ∈ args, IsArgument a) :
    arguments (left ++ separated args ++ right) = args := by
  have hread := arguments_commaSeparated (padded_ne_nil ⟨left, hleft⟩ ⟨right, hright⟩ args)
    fun p hp => h _ (by
      rw [← map_argument_padded ⟨left, hleft⟩ ⟨right, hright⟩ hne]
      exact List.mem_map_of_mem hp)
  rwa [commaSeparated_padded, map_argument_padded _ _ hne] at hread

end CallText

/-- A call can stand as an argument. -/
theorem isArgument_spacedCall {name : List Char} (hname : name.all isWordChar) (hne : name ≠ [])
    (gap : Blanks) {args : List Padded} (h : ∀ p ∈ args, Balanced p.argument) :
    IsArgument (spacedCall name gap args) where
  closed := by
    rw [spacedCall, List.append_assoc, List.append_assoc]
    exact (closed_of_word hname).append
      ((closed_of_blank gap.blank).append (.group (balanced_commaSeparated h) .nil))
  trimmed := by
    obtain ⟨c, rest, rfl⟩ := List.exists_cons_of_ne_nil hne
    rw [List.all_cons, Bool.and_eq_true] at hname
    exact trim_of_ends rfl List.getLast?_concat (isBlank_of_isWordChar hname.1) (by decide)
  ne_nil := List.append_ne_nil_of_right_ne_nil _ (List.cons_ne_nil _ _)

theorem isArgument_callText {name left right : List Char} {arg : List Char}
    (hname : name.all isWordChar) (hne : name ≠ []) (hleft : left.all isBlank)
    (hright : right.all isBlank) (h : Closed arg) :
    IsArgument (callText name left right [arg]) := by
  have hcall := isArgument_spacedCall hname hne .none
    (forall_argument_padded .nil (List.forall_mem_singleton.2 h.balanced) ⟨left, hleft⟩
      ⟨right, hright⟩)
  rwa [← callText_eq] at hcall

theorem notMem_separated {c : Char} (hcomma : c ≠ ',') (hspace : c ≠ ' ')
    {args : List (List Char)} (h : ∀ a ∈ args, c ∉ a) : c ∉ separated args := by
  induction args with
  | nil => exact List.not_mem_nil
  | cons a args ih =>
    rw [List.forall_mem_cons] at h
    cases args with
    | nil => exact h.1
    | cons next args =>
      exact List.not_mem_append h.1 (List.not_mem_cons_of_ne_of_not_mem hcomma
        (List.not_mem_cons_of_ne_of_not_mem hspace (ih h.2)))

theorem notMem_callText {c : Char} (hspecial : c ∉ ['(', ')', ',', ' '])
    {name left right : List Char} {args : List (List Char)} (hname : c ∉ name) (hleft : c ∉ left)
    (hright : c ∉ right) (h : ∀ a ∈ args, c ∉ a) : c ∉ callText name left right args := by
  simp only [List.mem_cons, not_or] at hspecial
  have hinside := List.not_mem_append (List.not_mem_append hleft
    (notMem_separated hspecial.2.2.1 hspecial.2.2.2.1 h)) hright
  refine List.not_mem_append (List.not_mem_append hname
    (List.not_mem_cons_of_ne_of_not_mem hspecial.1 hinside)) ?_
  exact List.not_mem_cons_of_ne_of_not_mem hspecial.2.1 List.not_mem_nil

/-! ### Identifiers of a call -/

theorem ended_callText (name left right : List Char) (args : List (List Char)) :
    Ended (callText name left right args) :=
  ended_append_singleton (by decide) _

theorem noWord_of_blank {text : List Char} (h : text.all isBlank) :
    ∀ c ∈ text, isWordChar c = false :=
  fun c hc => isWordChar_of_isBlank (List.all_eq_true.1 h c hc)

theorem ended_of_blank {text : List Char} (h : text.all isBlank) : Ended text :=
  fun c hc => noWord_of_blank h c (List.mem_of_getLast? hc)

theorem words_blank_append {blanks : List Char} (h : blanks.all isBlank) (text : List Char) :
    words (blanks ++ text) = words text := by
  rw [words_append (ended_of_blank h), words_of_none (noWord_of_blank h), List.nil_append]

theorem words_append_blank {blanks : List Char} (h : blanks.all isBlank) (text : List Char) :
    words (text ++ blanks) = words text := by
  cases blanks with
  | nil => rw [List.append_nil]
  | cons c blanks =>
    have hnone := noWord_of_blank h
    rw [List.forall_mem_cons] at hnone
    rw [words_append_cons hnone.1, words_of_none hnone.2, List.append_nil]

theorem Padded.words_text (p : Padded) : words p.text = words p.argument := by
  rw [Padded.text, words_append_blank p.right.blank, words_blank_append p.left.blank]

theorem words_commaSeparated (args : List Padded) :
    words (commaSeparated args) = args.flatMap fun p => words p.argument := by
  induction args with
  | nil => rfl
  | cons p args ih =>
    by_cases hne : args = []
    · subst hne
      rw [commaSeparated, p.words_text, List.flatMap_singleton]
    · rw [commaSeparated_cons hne, words_append_cons (by decide), p.words_text, ih,
        List.flatMap_cons]

theorem ended_spacedCall (name : List Char) (gap : Blanks) (args : List Padded) :
    Ended (spacedCall name gap args) :=
  ended_append_singleton (by decide) _

/-- The identifiers of a call are its name and those of its arguments. -/
theorem words_spacedCall {name : List Char} (hname : name.all isWordChar) (hne : name ≠ [])
    (gap : Blanks) (args : List Padded) :
    words (spacedCall name gap args) = name :: args.flatMap fun p => words p.argument := by
  have hopen : words (name ++ (gap.text ++ '(' :: commaSeparated args)) =
      words (name ++ gap.text) ++ words (commaSeparated args) := by
    rw [← List.append_assoc, words_append_cons (by decide)]
  have hclose : words [')'] = [] := rfl
  rw [spacedCall, words_append_cons (by decide), hopen, words_append_blank gap.blank,
    words_of_word hname hne, words_commaSeparated]
  exact List.append_nil _

theorem words_separated (args : List (List Char)) :
    words (separated args) = args.flatMap words := by
  by_cases hne : args = []
  · subst hne
    rfl
  · have hwords := words_commaSeparated (padded .none .none args)
    rw [commaSeparated_padded, ← List.flatMap_map, map_argument_padded _ _ hne] at hwords
    simpa using hwords

/-- The identifiers of a call are its name and those of its arguments. -/
theorem words_callText {name left right : List Char} {args : List (List Char)}
    (hname : name.all isWordChar) (hne : name ≠ []) (hleft : left.all isBlank)
    (hright : right.all isBlank) :
    words (callText name left right args) = name :: args.flatMap words := by
  have hinside : words (left ++ separated args ++ right) = args.flatMap words := by
    rw [words_append_blank hright, words_blank_append hleft, words_separated]
  have hwords := words_spacedCall hname hne .none (padded ⟨left, hleft⟩ ⟨right, hright⟩ args)
  rw [← words_commaSeparated, commaSeparated_padded, hinside] at hwords
  rw [← hwords]
  exact congrArg words (callText_eq name ⟨left, hleft⟩ ⟨right, hright⟩ args)

end LcdHandhelds.Text
