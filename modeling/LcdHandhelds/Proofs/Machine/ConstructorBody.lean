import LcdHandhelds.Proofs.Machine.Definition

/-!
The body of a constructor. Heads of definitions do not reach over each other
(`Introduces.exists_middle`), so the blanks of a head make no difference to what is found behind the
first one. All that is known of the body: `bodyFound_constructorBody`.
-/
namespace LcdHandhelds

open Text
open scoped List

/-! ### Definitions in another spelling -/

/-- What tokens are made up of. -/
theorem Tokens.of_mem {tokens : List String} {text : List Char} (h : Tokens tokens text) {c : Char}
    (hc : c ∈ text) : isBlank c ∨ ∃ t ∈ tokens, c ∈ t.toList := by
  induction h with
  | nil => exact absurd hc List.not_mem_nil
  | cons hgap _ ih =>
    rw [List.mem_append, List.mem_append] at hc
    rcases hc with (hc | hc) | hc
    · exact .inl (List.all_eq_true.1 hgap c hc)
    · exact .inr ⟨_, List.mem_cons_self, hc⟩
    · exact (ih hc).imp_right fun ⟨t, ht, hmem⟩ => ⟨t, List.mem_cons_of_mem _ ht, hmem⟩

/-- A character that is no blank and stands in no token. -/
theorem Tokens.notMem {tokens : List String} {text : List Char} (h : Tokens tokens text) {c : Char}
    (hblank : isBlank c = false) (hc : ∀ t ∈ tokens, c ∉ t.toList) : c ∉ text := by
  intro hmem
  rcases h.of_mem hmem with hb | ⟨t, ht, hmem⟩
  · rw [hblank] at hb
    cases hb
  · exact hc t ht hmem

theorem Tokens.exists_last {tokens : List String} {token : String} {text : List Char}
    (h : Tokens (tokens ++ [token]) text) : ∃ front, text = front ++ token.toList := by
  induction tokens generalizing text with
  | nil =>
    cases h with
    | cons _ hnil =>
      cases hnil
      exact ⟨_, List.append_nil _⟩
  | cons t tokens ih =>
    cases h with
    | cons _ hrest =>
      obtain ⟨front, rfl⟩ := ih hrest
      exact ⟨_, (List.append_assoc _ _ _).symm⟩

section Respelling

variable {className device : String} {before head head' tail : List Char}

/-- The head of a definition begins with `v`, ends with a brace, and holds no closing one. -/
theorem Introduces.shape (hclass : IsIdentifier className) (hdevice : IsIdentifier device)
    (h : Introduces className device head) :
    'v' ∈ head.head? ∧ '\x7b' ∈ head.getLast? ∧ '\x7d' ∉ head := by
  obtain ⟨gap, parameter, rfl, ⟨-, hgap⟩, hparameter⟩ := h
  have hbrace : ∀ {name : String}, IsIdentifier name → '\x7d' ∉ name.toList := fun hname hmem =>
    absurd (List.all_eq_true.1 hname.word _ hmem) (by decide)
  have hgap : '\x7d' ∉ gap := fun hmem => absurd (List.all_eq_true.1 hgap _ hmem) (by decide)
  have htokens : parameterTokens = parameterTokens.dropLast ++ ["\x7b"] := rfl
  obtain ⟨front, hlast⟩ := Tokens.exists_last (htokens ▸ hparameter)
  refine ⟨rfl, ?_, ?_⟩
  · rw [hlast, ← List.append_assoc]
    exact List.getLast?_concat
  · have hparameter := hparameter.notMem (c := '\x7d') (by decide) (by decide)
    have hvoid : '\x7d' ∉ "void".toList ∧ '\x7d' ∉ "::".toList := by decide
    simp only [List.mem_append, not_or]
    exact ⟨⟨⟨hvoid.1, hgap⟩, ⟨hbrace hclass, hvoid.2⟩, hbrace hdevice⟩, hparameter⟩

/-- The head of a definition ends no body, and its brace is no blank in front of one. -/
theorem Introduces.hasEnd_append_iff (hclass : IsIdentifier className)
    (hdevice : IsIdentifier device) (h : Introduces className device head)
    (front tail : List Char) :
    HasEnd (front ++ (head ++ tail)) ↔ HasEnd front ∨ HasEnd tail := by
  obtain ⟨hfirst, hlast, hbrace⟩ := h.shape hclass hdevice
  have hhead : (head ++ tail).head? = some 'v' := by rw [List.head?_append, hfirst]; rfl
  have hends : ¬ EndsBlank head := by
    rintro ⟨c, hc, hblank⟩
    rw [hlast] at hc
    obtain rfl := Option.some.inj hc
    exact absurd hblank (by decide)
  have hfree := not_hasEnd_of_notMem hbrace
  have hne : ¬ '\x7d' ∈ some 'v' := by decide
  simp only [LcdHandhelds.hasEnd_append_iff, hhead, hends, hfree, hne, false_and, and_false,
    false_or, or_false]

/-- A piece of a text ends before a place that it does not reach over. -/
theorem exists_rest_of_append_eq {piece rest front back : List Char} {c : Char}
    (h : piece ++ rest = front ++ c :: back) (hpiece : ∀ tail, piece ≠ front ++ c :: tail) :
    ∃ middle, front = piece ++ middle ∧ rest = middle ++ c :: back := by
  rcases List.append_eq_append_iff.1 h with ⟨middle, hfront, hrest⟩ | ⟨more, hmore, hback⟩
  · exact ⟨middle, hfront, hrest⟩
  · cases more with
    | nil => exact ⟨[], by rw [hmore, List.append_nil, List.append_nil], hback.symm⟩
    | cons d more =>
      obtain ⟨rfl, -⟩ := List.cons.inj hback
      exact absurd hmore (hpiece more)

/-- An identifier does not reach over a place where none is open. -/
theorem word_ne_append {word front : List Char} (hword : word.all isWordChar) (hended : Ended front)
    (hne : front ≠ []) (c : Char) (tail : List Char) : word ≠ front ++ c :: tail := by
  rintro rfl
  obtain rfl | ⟨init, d, rfl, hd⟩ := eq_nil_or_of_ended hended
  · exact hne rfl
  · have hmem := List.all_eq_true.1 hword d (by simp)
    rw [hd] at hmem
    cases hmem

theorem ne_append_of_notMem {piece front : List Char} {c : Char} (h : c ∉ piece)
    (tail : List Char) : piece ≠ front ++ c :: tail := by
  rintro rfl
  exact h (by simp)

/-- What stands behind the word that begins a definition: a gap and an identifier. -/
structure GapAndWord (text : List Char) : Prop where
  gap : ∃ c ∈ text.head?, isBlank c
  word : ∃ c ∈ (skipBlank text).head?, isWordChar c

theorem Introduces.exists_gapAndWord (hclass : IsIdentifier className)
    (h : Introduces className device head) (tail : List Char) :
    ∃ behind, head ++ tail = "void".toList ++ behind ∧ GapAndWord behind := by
  obtain ⟨gap, parameter, rfl, ⟨hne, hgap⟩, -⟩ := h
  refine ⟨gap ++ (className.toList ++ ("::".toList ++ (device.toList ++ (parameter ++ tail)))),
    by simp only [List.append_assoc], ?_, ?_⟩
  · obtain ⟨c, gap, rfl⟩ := List.exists_cons_of_ne_nil hne
    exact ⟨c, rfl, List.all_eq_true.1 hgap c List.mem_cons_self⟩
  · rw [skipBlank_append_word hgap hclass.ne_nil hclass.word]
    obtain ⟨c, name, hname⟩ := List.exists_cons_of_ne_nil hclass.ne_nil
    rw [hname]
    exact ⟨c, rfl, List.all_eq_true.1 hclass.word c (hname ▸ List.mem_cons_self)⟩

namespace GapAndWord

variable {behind name rest : List Char}

theorem endsWord (h : GapAndWord behind) : endsWord behind := by
  refine endsWord_iff.2 fun c hc => ?_
  obtain ⟨d, hd, hblank⟩ := h.gap
  obtain rfl : d = c := Option.mem_unique hd hc
  exact isWordChar_of_isBlank hblank

/-- No class begins at the word, as a colon would stand behind it. -/
theorem ne_class (h : GapAndWord behind) (hname : name.all isWordChar) :
    "void".toList ++ behind ≠ name ++ ("::".toList ++ rest) := by
  intro heq
  obtain ⟨-, rfl⟩ := word_append_inj (by decide) h.endsWord hname rfl heq
  obtain ⟨c, hc, hblank⟩ := h.gap
  obtain rfl : ':' = c := Option.some.inj hc
  exact absurd hblank (by decide)

/-- No device begins at the word, as a parenthesis would stand behind it. -/
theorem ne_device (h : GapAndWord behind) (hname : name.all isWordChar) {parameter : List Char}
    (hparameter : Tokens parameterTokens parameter) :
    "void".toList ++ behind ≠ name ++ (parameter ++ rest) := by
  intro heq
  obtain ⟨-, rfl⟩ :=
    word_append_inj (by decide) h.endsWord hname (endsWord_of_tokens hparameter rest) heq
  obtain ⟨next, htoken, -⟩ := Option.bind_eq_some_iff.1 (parameter_foldlM hparameter rest)
  obtain ⟨c, hc, hword⟩ := h.word
  rw [← List.isPrefixOf?_eq_some_iff_append_eq.1 htoken] at hc
  obtain rfl : '(' = c := Option.some.inj hc
  exact absurd hword (by decide)

end GapAndWord

/-- The head of a definition does not reach over the start of another one. -/
theorem Introduces.exists_middle {other front x y : List Char} (hclass : IsIdentifier className)
    (hdevice : IsIdentifier device) (h : Introduces className device head)
    (hother : Introduces className device other) (hended : Ended front) (hne : front ≠ [])
    (heq : head ++ x = front ++ (other ++ y)) : ∃ middle, front = head ++ middle := by
  obtain ⟨behind, hvoid, hbehind⟩ := hother.exists_gapAndWord hclass y
  obtain ⟨gap, parameter, rfl, ⟨-, hgap⟩, hparameter⟩ := h
  have hgap : 'v' ∉ gap := fun hmem => absurd (List.all_eq_true.1 hgap _ hmem) (by decide)
  have hpunct : 'v' ∉ "oid".toList ∧ 'v' ∉ "::".toList := by decide
  have hrest : 'v' ∉ parameter := hparameter.notMem (by decide) (by decide)
  have hword : "void".toList = 'v' :: "oid".toList := rfl
  rw [hvoid, hword] at heq
  rw [hword]
  simp only [List.append_assoc, List.cons_append] at heq
  -- the parts of the head lie in front of the other start, one after the other
  obtain ⟨c, front, rfl⟩ := List.exists_cons_of_ne_nil hne
  rw [List.cons_append] at heq
  obtain ⟨rfl, hvoidText⟩ := List.cons.inj heq
  have hended : Ended front := Ended.of_append (s := ['v']) hended
  obtain ⟨front, rfl, hgapText⟩ :=
    exists_rest_of_append_eq hvoidText (ne_append_of_notMem hpunct.1)
  obtain ⟨front, rfl, hclassText⟩ := exists_rest_of_append_eq hgapText (ne_append_of_notMem hgap)
  have hended : Ended front := hended.of_append.of_append
  have hclassEnd : front ≠ [] := fun h => hbehind.ne_class hclass.word (h ▸ hclassText.symm)
  obtain ⟨front, rfl, hcolonText⟩ :=
    exists_rest_of_append_eq hclassText (word_ne_append hclass.word hended hclassEnd 'v')
  obtain ⟨front, rfl, hdeviceText⟩ :=
    exists_rest_of_append_eq hcolonText (ne_append_of_notMem hpunct.2)
  have hended : Ended front := hended.of_append.of_append
  have hdeviceEnd : front ≠ [] := fun h =>
    hbehind.ne_device hdevice.word hparameter (h ▸ hdeviceText.symm)
  obtain ⟨front, rfl, hparameterText⟩ :=
    exists_rest_of_append_eq hdeviceText (word_ne_append hdevice.word hended hdeviceEnd 'v')
  obtain ⟨front, rfl, -⟩ := exists_rest_of_append_eq hparameterText (ne_append_of_notMem hrest)
  exact ⟨front, by simp only [List.append_assoc, List.cons_append]⟩

/-- A head is read in one way. -/
theorem Introduces.append_inj {x y : List Char} (hclass : IsIdentifier className)
    (h : Introduces className device head) (h' : Introduces className device head')
    (heq : head ++ x = head' ++ y) : x = y := by
  obtain ⟨gap, parameter, rfl, ⟨-, hgap⟩, hparameter⟩ := h
  obtain ⟨gap', parameter', rfl, ⟨-, hgap'⟩, hparameter'⟩ := h'
  have hname := And.intro hclass.ne_nil hclass.word
  simp only [List.append_assoc, List.append_cancel_left_eq] at heq
  obtain ⟨-, hnames⟩ := gap_append_inj hgap hname hgap' hname heq
  simp only [List.append_cancel_left_eq] at hnames
  have hread := parameter_foldlM hparameter x
  rw [hnames, parameter_foldlM hparameter'] at hread
  exact (Option.some.inj hread).symm

/-- Behind its head, the definition at a place has the body that ends first. -/
theorem definedAt_iff (hclass : IsIdentifier className) (hended : Ended before)
    (h : Introduces className device head) {body : List Char} :
    DefinedAt className device (before ++ (head ++ tail)) before.length body ↔
      ∃ rest, tail = body ++ '\x7d' :: rest ∧ IsBody body := by
  constructor
  · intro hat
    obtain ⟨head', rest, hdefined⟩ := hat.exists_defined
    have htext := hdefined.text_eq
    rw [List.append_cancel_left_eq] at htext
    exact ⟨rest, h.append_inj hclass hdefined.head htext, hdefined.body⟩
  · rintro ⟨rest, rfl, hbody⟩
    exact ⟨before, head, rest, ⟨rfl, hended, h, hbody⟩, rfl⟩

/-- Wherever a definition stands behind a head, the head has a body. -/
theorem DefinedAt.exists_le (hclass : IsIdentifier className) (hdevice : IsIdentifier device)
    (hended : Ended before) (h : Introduces className device head) {place : Nat} {body : List Char}
    (hat : DefinedAt className device (before ++ (head ++ tail)) place body) :
    ∃ place' ≤ before.length, ∃ body',
      DefinedAt className device (before ++ (head ++ tail)) place' body' := by
  rcases Nat.le_total place before.length with hle | hle
  · exact ⟨place, hle, body, hat⟩
  · obtain ⟨before', head', rest, hdefined, rfl⟩ := hat
    obtain ⟨middle, rfl, hmiddle⟩ := exists_middle_of_append_eq hdefined.text_eq hle
    have hend : HasEnd ([] ++ (head ++ tail)) := by
      rw [List.nil_append, hmiddle, ← List.append_assoc]
      exact LcdHandhelds.hasEnd_append_iff.2 (.inr (.inl (hdefined.body.hasEnd_append rest)))
    have htail := ((h.hasEnd_append_iff hclass hdevice [] tail).1 hend).resolve_left
      (not_hasEnd_of_notMem List.not_mem_nil)
    obtain ⟨body', rest', rfl, hbody'⟩ := htail.exists_body
    exact ⟨before.length, Nat.le_refl _, body',
      (definedAt_iff hclass hended h).2 ⟨rest', rfl, hbody'⟩⟩

/-- No definition that begins before the place reaches over it. -/
def Unreached (className device : String) (source : List Char) (place : Nat) : Prop :=
  ∀ before head body rest, Defined className device source before head body rest →
    before.length < place → (before ++ (head ++ body)).length < place

theorem unreached_of_first {source : List Char} {place : Nat}
    (h : ∀ place' body, DefinedAt className device source place' body → place ≤ place') :
    Unreached className device source place := by
  intro before head body rest hdefined hlt
  exact absurd (h _ body ⟨before, head, rest, hdefined, rfl⟩) (Nat.not_le.2 hlt)

/-- A definition that ends before a place does not depend on the text from there on. -/
theorem Unreached.definedAt {source : List Char} {place : Nat} {body : List Char}
    (hfree : Unreached className device (before ++ source) before.length)
    (hplace : place < before.length)
    (hat : DefinedAt className device (before ++ source) place body) (more : List Char) :
    DefinedAt className device (before ++ more) place body := by
  obtain ⟨front, other, rest, hdefined, rfl⟩ := hat
  have hreach := hfree front other body rest hdefined hplace
  have htext : (front ++ (other ++ body)) ++ '\x7d' :: rest = before ++ source := by
    rw [hdefined.text_eq]
    simp only [List.append_assoc]
  obtain ⟨middle, rfl, hmiddle⟩ := exists_middle_of_append_eq htext (Nat.le_of_lt hreach)
  cases middle with
  | nil =>
    rw [List.append_nil] at hreach
    exact absurd hreach (Nat.lt_irrefl _)
  | cons c middle =>
    obtain ⟨rfl, -⟩ := List.cons.inj hmiddle
    refine ⟨front, other, middle ++ more, ⟨?_, hdefined.ended, hdefined.head, hdefined.body⟩, rfl⟩
    simp only [List.append_assoc, List.cons_append]

/-- At one place, one body is defined. -/
theorem DefinedAt.unique (hclass : IsIdentifier className) {source : List Char} {place : Nat}
    {body body' : List Char} (hat : DefinedAt className device source place body)
    (hat' : DefinedAt className device source place body') : body = body' := by
  obtain ⟨front, head, rest, hdefined, rfl⟩ := hat
  obtain ⟨front', head', rest', hdefined', hlength⟩ := hat'
  have htext := hdefined.text_eq.symm.trans hdefined'.text_eq
  obtain ⟨rfl, hheads⟩ := List.append_inj htext hlength.symm
  exact hdefined.body.unique hdefined'.body (hdefined.head.append_inj hclass hdefined'.head hheads)

/-- Where a definition begins in front of another one, one begins in each spelling of that. -/
theorem DefinedAt.exists_respelled (hclass : IsIdentifier className)
    (hdevice : IsIdentifier device) (hended : Ended before)
    (h : Introduces className device head) (h' : Introduces className device head') {place : Nat}
    {body : List Char} (hplace : place < before.length)
    (hat : DefinedAt className device (before ++ (head ++ tail)) place body) :
    ∃ body', DefinedAt className device (before ++ (head' ++ tail)) place body' := by
  obtain ⟨front, other, rest, hdefined, rfl⟩ := hat
  obtain ⟨middle, rfl, hmiddle⟩ :=
    exists_middle_of_append_eq hdefined.text_eq.symm (Nat.le_of_lt hplace)
  have hne : middle ≠ [] := by
    rintro rfl
    rw [List.append_nil] at hplace
    exact absurd hplace (Nat.lt_irrefl _)
  obtain ⟨inner, rfl⟩ := hdefined.head.exists_middle hclass hdevice h hended.of_append hne hmiddle
  rw [List.append_assoc, List.append_cancel_left_eq] at hmiddle
  -- the end of the body lies in front of the head, or behind it
  have hend := hdefined.body.hasEnd_append rest
  rw [hmiddle, h.hasEnd_append_iff hclass hdevice] at hend
  obtain ⟨body', rest', hbody, hisBody⟩ :=
    ((h'.hasEnd_append_iff hclass hdevice inner tail).2 hend).exists_body
  refine ⟨body', front, other, rest', ⟨?_, hdefined.ended, hdefined.head, hisBody⟩, rfl⟩
  rw [← hbody]
  simp only [List.append_assoc]

/-- The definitions up to a head are the same in each spelling of the head. -/
theorem Unreached.definedAt_iff (hclass : IsIdentifier className) (hdevice : IsIdentifier device)
    (hended : Ended before) (h : Introduces className device head)
    (h' : Introduces className device head') {place : Nat} {body : List Char}
    (hfree : Unreached className device (before ++ (head ++ tail)) before.length)
    (hplace : place ≤ before.length) :
    DefinedAt className device (before ++ (head ++ tail)) place body ↔
      DefinedAt className device (before ++ (head' ++ tail)) place body := by
  rcases Nat.lt_or_eq_of_le hplace with hlt | rfl
  · constructor
    · exact fun hat => hfree.definedAt hlt hat _
    · intro hat
      obtain ⟨body', hat'⟩ := hat.exists_respelled hclass hdevice hended h' h hlt
      rwa [hat.unique hclass (hfree.definedAt hlt hat' _)]
  · rw [LcdHandhelds.definedAt_iff hclass hended h, LcdHandhelds.definedAt_iff hclass hended h']

/-- The result is settled by the definitions up to a place that the first one does not pass. -/
theorem constructorBody?_of_definedAt (hclass : IsIdentifier className) {source other : List Char}
    {place : Nat} {text : List Char}
    (hsame : ∀ p ≤ place, ∀ body, DefinedAt className device source p body ↔
      DefinedAt className device other p body)
    (hfirst : ∀ p body, DefinedAt className device source p body →
      ∃ p' ≤ place, ∃ body', DefinedAt className device source p' body')
    (h : constructorBody? source className device = some text) :
    constructorBody? other className device = some text := by
  rw [constructorBody?_eq_some_iff hclass] at h ⊢
  obtain ⟨p, body, hat, rfl, hleast⟩ := h
  obtain ⟨p', hp', body', hat'⟩ := hfirst p body hat
  have hp : p ≤ place := Nat.le_trans (hleast p' body' hat') hp'
  refine ⟨p, body, (hsame p hp body).1 hat, rfl, fun q other hq => ?_⟩
  rcases Nat.le_total q place with hle | hle
  · exact hleast q other ((hsame q hle other).2 hq)
  · exact Nat.le_trans hp hle

/-- The blanks of a head make no difference. -/
theorem Unreached.constructorBody?_eq (hclass : IsIdentifier className)
    (hdevice : IsIdentifier device) (hended : Ended before)
    (h : Introduces className device head) (h' : Introduces className device head')
    (hfree : Unreached className device (before ++ (head ++ tail)) before.length) :
    constructorBody? (before ++ (head' ++ tail)) className device =
      constructorBody? (before ++ (head ++ tail)) className device := by
  have hsame : ∀ place ≤ before.length, ∀ body,
      DefinedAt className device (before ++ (head ++ tail)) place body ↔
        DefinedAt className device (before ++ (head' ++ tail)) place body :=
    fun _ hplace _ => hfree.definedAt_iff hclass hdevice hended h h' hplace
  apply Option.ext
  intro text
  constructor
  · exact constructorBody?_of_definedAt hclass (fun p hp body => (hsame p hp body).symm)
      fun p body hat => hat.exists_le hclass hdevice hended h'
  · exact constructorBody?_of_definedAt hclass hsame
      fun p body hat => hat.exists_le hclass hdevice hended h

end Respelling

/-! ### The body that is found -/

/-- How the body that is found for a device's constructor stands to the definitions in a source. -/
structure BodyFound (className device : String) (source : List Char) : Prop where
  /-- It is the body of the first definition, without the blanks around it. -/
  some_iff : ∀ text, constructorBody? source className device = some text ↔
    ∃ place body, DefinedAt className device source place body ∧ text = trim body ∧
      ∀ place' body', DefinedAt className device source place' body' → place ≤ place'
  none_iff : constructorBody? source className device = none ↔
    ∀ place body, ¬ DefinedAt className device source place body
  /-- Where a definition is looked for, its class and its device have to be named in full. -/
  named : ∀ before other other', IsIdentifier other → IsIdentifier other' →
    Names other other' source before → other ≠ className ∨ other' ≠ device →
      ∀ body, ¬ DefinedAt className device source before.length body
  /-- A declaration names no class. -/
  declared : ∀ before declaration rest name, source = before ++ (declaration ++ rest) →
    Declares name declaration → ∀ body, ¬ DefinedAt className device source before.length body
  /--
  Each token has to be the next: with `;` in the place of the brace, or a comma and further
  parameters in the place of the closing parenthesis, nothing is defined.
  -/
  stopped : ∀ before gap read rest earlier token later,
    source = before ++ ("void".toList ++ gap ++ (className.toList ++ "::".toList ++
      device.toList) ++ read ++ rest) → gap.all isBlank →
    parameterTokens = earlier ++ token :: later → Tokens earlier read →
    ¬ token.toList <+: skipBlank rest →
      ∀ body, ¬ DefinedAt className device source before.length body
  /-- The blanks in front of the tokens of the first definition make no difference. -/
  respelled : ∀ before head head' tail, source = before ++ (head ++ tail) → Ended before →
    Introduces className device head → Introduces className device head' →
    (∀ place body, DefinedAt className device source place body → before.length ≤ place) →
      constructorBody? (before ++ (head' ++ tail)) className device =
        constructorBody? source className device
  /-- Those of later ones make none either, but to a body that they belong to. -/
  respelledLater : ∀ before head head' tail, source = before ++ (head ++ tail) → Ended before →
    Introduces className device head → Introduces className device head' →
    Unreached className device source before.length →
      constructorBody? (before ++ (head' ++ tail)) className device =
        constructorBody? source className device

/-- The constructor of a device is found by its own definition and by no other text. -/
theorem bodyFound_constructorBody {className device : String} (hclass : IsIdentifier className)
    (hdevice : IsIdentifier device) (source : List Char) : BodyFound className device source where
  some_iff _ := constructorBody?_eq_some_iff hclass
  none_iff := constructorBody?_eq_none_iff hclass
  named before other other' hother hother' hnames hne body := by
    rintro ⟨before', head, rest, hdefined, hlength⟩
    obtain ⟨gap, more, htext, -⟩ := id hnames
    obtain ⟨rfl, -⟩ := List.append_inj (hdefined.text_eq.symm.trans htext) hlength
    obtain ⟨hsame, hsame'⟩ := hnames.unique hother hother' hclass hdevice hdefined.names
    exact hne.elim (absurd hsame) (absurd hsame')
  declared before declaration rest name htext hdeclares body := by
    rw [htext]
    exact not_definedAt_of_declares hclass hdeclares
  stopped before gap read rest earlier token later htext hgap htokens hread hother body := by
    rw [htext]
    exact not_definedAt_of_not_token hclass hgap htokens hread hother
  respelled before head head' tail htext hended h h' hfirst := by
    subst htext
    exact (unreached_of_first hfirst).constructorBody?_eq hclass hdevice hended h h'
  respelledLater before head head' tail htext hended h h' hfree := by
    subst htext
    exact hfree.constructorBody?_eq hclass hdevice hended h h'

/-- A declaration, a longer name, further parameters, and a body with a brace in a comment. -/
def ballSource : List Char :=
  "class gnw_ball_state : y \x7b\n void gnw_ball(machine_config &config);\n\x7d;\n".toList ++
    "void gnw_ball_state::gnw_ball_b(machine_config &config)\n\x7b\n b();\n\x7d\n".toList ++
    "void gnw_ball_state::gnw_ball(machine_config &config, u16 w)\n\x7b\n c();\n\x7d\n".toList ++
    "void  gnw_ball_state::gnw_ball ( machine_config& config )\x7b a(); //\x7d\n\x7d\n".toList

set_option maxRecDepth 4000 in
theorem bodyFound_ballSource :
    IsIdentifier "gnw_ball_state" ∧ IsIdentifier "gnw_ball" ∧
      BodyFound "gnw_ball_state" "gnw_ball" ballSource ∧
      constructorBody? ballSource "gnw_ball_state" "gnw_ball" = some "a(); //\x7d".toList := by
  have hclass : IsIdentifier "gnw_ball_state" := ⟨by decide, by decide⟩
  have hdevice : IsIdentifier "gnw_ball" := ⟨by decide, by decide⟩
  refine ⟨hclass, hdevice, bodyFound_constructorBody hclass hdevice ballSource, ?_⟩
  unfold ballSource
  repeat rw [String.toList_ofList]
  decide +kernel

end LcdHandhelds
