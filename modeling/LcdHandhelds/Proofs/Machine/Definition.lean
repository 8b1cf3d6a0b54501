import LcdHandhelds.Proofs.Machine.Declaration

/-!
Definitions of constructors. A body is read behind the first definition that stands in a source and
has an end (`constructorBody?_eq_some_iff`). No definition begins where another class or device is
named (`Names.unique`), where a declaration stands, or where a token is another one.
-/
namespace LcdHandhelds

open Text
open scoped List

/-! ### Bodies -/

/-- The last character is an ASCII blank. -/
def EndsBlank (text : List Char) : Prop :=
  ∃ c ∈ text.getLast?, isAsciiBlank c

/-- The text holds a closing brace directly behind an ASCII blank. -/
def HasEnd (text : List Char) : Prop :=
  ∃ c, isAsciiBlank c ∧ [c, '\x7d'] <:+: text

/-- A text as it stands in front of the first closing brace behind an ASCII blank. -/
structure IsBody (body : List Char) : Prop where
  blank : EndsBlank body
  free : ¬ HasEnd body

theorem endsBlank_append_singleton {text : List Char} {c : Char} :
    EndsBlank (text ++ [c]) ↔ isAsciiBlank c := by
  simp [EndsBlank]

/-- The brace and the blank lie on one side of a cut, or the cut parts them. -/
theorem hasEnd_append_iff {s t : List Char} :
    HasEnd (s ++ t) ↔ HasEnd s ∨ HasEnd t ∨ EndsBlank s ∧ '\x7d' ∈ t.head? := by
  constructor
  · rintro ⟨c, hc, h⟩
    rcases List.infix_append_iff.1 h with h | h | ⟨front, back, hpair, hs, ht⟩
    · exact .inl ⟨c, hc, h⟩
    · exact .inr (.inl ⟨c, hc, h⟩)
    · match front, hpair with
      | [], hpair =>
        rw [List.nil_append] at hpair
        exact .inr (.inl ⟨c, hc, hpair ▸ ht.isInfix⟩)
      | [_], hpair =>
        obtain ⟨rfl, rfl⟩ := List.cons.inj hpair
        obtain ⟨init, rfl⟩ := hs
        obtain ⟨rest, rfl⟩ := ht
        exact .inr (.inr ⟨endsBlank_append_singleton.2 hc, rfl⟩)
      | a :: b :: front, hpair =>
        obtain ⟨rfl, rfl, rfl, rfl⟩ : c = a ∧ '\x7d' = b ∧ front = [] ∧ back = [] := by
          simpa using hpair
        exact .inl ⟨c, hc, hs.isInfix⟩
  · rintro (⟨c, hc, h⟩ | ⟨c, hc, h⟩ | ⟨⟨c, hlast, hc⟩, hfirst⟩)
    · exact ⟨c, hc, h.trans (List.prefix_append s t).isInfix⟩
    · exact ⟨c, hc, h.trans (List.suffix_append s t).isInfix⟩
    · obtain ⟨init, rfl⟩ := List.getLast?_eq_some_iff.1 hlast
      obtain ⟨rest, rfl⟩ := List.head?_eq_some_iff.1 hfirst
      exact ⟨c, hc, init, rest, by simp⟩

theorem not_hasEnd_of_notMem {text : List Char} (h : '\x7d' ∉ text) : ¬ HasEnd text :=
  fun ⟨_, _, hpair⟩ => h (hpair.subset (by simp))

theorem not_hasEnd_singleton (c : Char) : ¬ HasEnd [c] := by
  rintro ⟨d, -, hpair⟩
  exact absurd hpair.length_le (by simp)

theorem IsBody.hasEnd_append {body : List Char} (h : IsBody body) (rest : List Char) :
    HasEnd (body ++ '\x7d' :: rest) :=
  hasEnd_append_iff.2 (.inr (.inr ⟨h.blank, rfl⟩))

/-- In one text, two bodies at its front end at the same brace. -/
theorem IsBody.unique {body body' rest rest' : List Char} (h : IsBody body) (h' : IsBody body')
    (heq : body ++ '\x7d' :: rest = body' ++ '\x7d' :: rest') : body = body' := by
  have hends : ∀ {s t more : List Char}, IsBody s → IsBody t → t ≠ s ++ '\x7d' :: more := by
    rintro s t more hs ht rfl
    exact ht.free (hs.hasEnd_append more)
  rcases List.append_eq_append_iff.1 heq with ⟨middle, hbody, hmiddle⟩ | ⟨middle, hbody, hmiddle⟩
  · cases middle with
    | nil => rw [hbody, List.append_nil]
    | cons c middle =>
      obtain ⟨rfl, -⟩ := List.cons.inj hmiddle
      exact absurd hbody (hends h h')
  · cases middle with
    | nil => rw [hbody, List.append_nil]
    | cons c middle =>
      obtain ⟨rfl, -⟩ := List.cons.inj hmiddle
      exact absurd hbody (hends h' h)

/-- The text read so far has no end, and `blank` says whether its last character is a blank. -/
theorem bodyBefore?_eq_some_iff_of_read {read text body : List Char} {blank : Bool}
    (hblank : blank = true ↔ EndsBlank read.reverse) (hfree : ¬ HasEnd read.reverse) :
    bodyBefore? read blank text = some body ↔
      ∃ rest, read.reverse ++ text = body ++ '\x7d' :: rest ∧ IsBody body := by
  induction text generalizing read blank with
  | nil =>
    refine ⟨nofun, ?_⟩
    rintro ⟨rest, hread, hbody⟩
    rw [List.append_nil] at hread
    exact absurd (hread ▸ hbody.hasEnd_append rest) hfree
  | cons c text ih =>
    rw [bodyBefore?_cons]
    split
    next hend =>
      obtain ⟨hb, rfl⟩ := hend
      have hread : IsBody read.reverse := ⟨hblank.1 hb, hfree⟩
      constructor
      · intro h
        exact ⟨text, by rw [Option.some.inj h], Option.some.inj h ▸ hread⟩
      · rintro ⟨rest, htext, hbody⟩
        exact congrArg some (hread.unique hbody htext)
    next hend =>
      have hnext : read.reverse ++ [c] = (c :: read).reverse := List.reverse_cons.symm
      have hfree' : ¬ HasEnd (c :: read).reverse := by
        rw [← hnext, hasEnd_append_iff]
        rintro (h | h | ⟨hlast, hc⟩)
        · exact hfree h
        · exact not_hasEnd_singleton c h
        · exact hend ⟨hblank.2 hlast, Option.some.inj hc⟩
      have hblank' : isAsciiBlank c = true ↔ EndsBlank (c :: read).reverse := by
        rw [← hnext, endsBlank_append_singleton]
      rw [ih hblank' hfree', ← hnext, List.append_assoc, List.singleton_append]

/-- A body is the text in front of the first closing brace behind an ASCII blank. -/
theorem bodyBefore?_eq_some_iff {text body : List Char} :
    bodyBefore? [] false text = some body ↔
      ∃ rest, text = body ++ '\x7d' :: rest ∧ IsBody body := by
  have hread : false = true ↔ EndsBlank [].reverse := by simp [EndsBlank]
  have hfree : ¬ HasEnd [].reverse := not_hasEnd_of_notMem List.not_mem_nil
  exact bodyBefore?_eq_some_iff_of_read hread hfree

/-- Wherever a brace stands behind a blank, a body ends. -/
theorem HasEnd.exists_body {text : List Char} (h : HasEnd text) :
    ∃ body rest, text = body ++ '\x7d' :: rest ∧ IsBody body := by
  induction text using List.reverseRecOn with
  | nil => exact absurd h (not_hasEnd_of_notMem List.not_mem_nil)
  | append_singleton text c ih =>
    by_cases hfront : HasEnd text
    · obtain ⟨body, rest, rfl, hbody⟩ := ih hfront
      exact ⟨body, rest ++ [c], by simp, hbody⟩
    · rcases hasEnd_append_iff.1 h with h | h | ⟨hlast, hc⟩
      · exact absurd h hfront
      · exact absurd h (not_hasEnd_singleton c)
      · obtain rfl : c = '\x7d' := Option.some.inj hc
        exact ⟨text, [], rfl, hlast, hfront⟩

/-! ### Definitions in a source -/

/-- The name of a class or a device: characters of an identifier, at least one. -/
structure IsIdentifier (name : String) : Prop where
  word : name.toList.all isWordChar
  ne_nil : name.toList ≠ []

/-- What stands between the names of a definition and its body. -/
def parameterTokens : List String :=
  ["(", "machine_config", "&", "config", ")", "\x7b"]

theorem solid_of_mem_parameterTokens : ∀ t ∈ parameterTokens, Solid t := by decide

theorem parameter_foldlM {parameter : List Char} (h : Tokens parameterTokens parameter)
    (rest : List Char) :
    parameterTokens.foldlM (fun text token => token? token text) (parameter ++ rest) = some rest :=
  (foldlM_token?_eq_some_iff solid_of_mem_parameterTokens).2 ⟨parameter, h, rfl⟩

/-- The text introduces the body of a device's constructor, from `void` to the opening brace. -/
def Introduces (className device : String) (head : List Char) : Prop :=
  ∃ gap parameter,
    head = "void".toList ++ gap ++ (className.toList ++ "::".toList ++ device.toList) ++ parameter ∧
      (gap ≠ [] ∧ gap.all isBlank) ∧ Tokens parameterTokens parameter

/--
The definition of a device's constructor stands in the source behind `before`: no identifier is open
there, and the head is followed by a body and the brace that ends it.
-/
structure Defined (className device : String) (source before head body rest : List Char) :
    Prop where
  text_eq : source = before ++ (head ++ (body ++ '\x7d' :: rest))
  ended : Ended before
  head : Introduces className device head
  body : IsBody body

/-- A definition with this body begins at the place. -/
def DefinedAt (className device : String) (source : List Char) (place : Nat) (body : List Char) :
    Prop :=
  ∃ before head rest, Defined className device source before head body rest ∧ before.length = place

section Definitions

variable {className device : String} {source text body : List Char} {place : Nat}

theorem definedBody?_eq (className device : String) (text : List Char) :
    definedBody? className device text = (space? text).bind fun text =>
      (className.toList.isPrefixOf? text).bind fun text =>
        ("::".toList.isPrefixOf? text).bind fun text =>
          (device.toList.isPrefixOf? text).bind fun text =>
            (parameterTokens.foldlM (fun text token => token? token text) text).bind
              (bodyBefore? [] false) := by
  simp only [definedBody?, parameterTokens, List.foldlM_cons, List.foldlM_nil, Option.bind_eq_bind,
    Option.pure_def, Option.bind_assoc, Option.bind_some]

/-- A body is read behind the first word of a definition. -/
theorem definedBody?_eq_some_iff (hclass : IsIdentifier className) :
    definedBody? className device text = some body ↔
      ∃ head rest, Introduces className device head ∧
        "void".toList ++ text = head ++ (body ++ '\x7d' :: rest) ∧ IsBody body := by
  simp only [definedBody?_eq, Option.bind_eq_some_iff, List.isPrefixOf?_eq_some_iff_append_eq,
    foldlM_token?_eq_some_iff solid_of_mem_parameterTokens, bodyBefore?_eq_some_iff]
  constructor
  · rintro ⟨_, hspace, _, rfl, _, rfl, _, rfl, _, ⟨parameter, hparameter, rfl⟩, rest, rfl, hbody⟩
    obtain ⟨gap, hne, hgap, rfl, -⟩ := space?_eq_some_iff.1 hspace
    exact ⟨_, rest, ⟨gap, parameter, rfl, ⟨hne, hgap⟩, hparameter⟩,
      by simp only [List.append_assoc], hbody⟩
  · rintro ⟨head, rest, ⟨gap, parameter, rfl, ⟨hne, hgap⟩, hparameter⟩, htext, hbody⟩
    simp only [List.append_assoc, List.append_cancel_left_eq] at htext
    subst htext
    exact ⟨_, space?_append_word hne hgap hclass.ne_nil hclass.word _, _, rfl, _, rfl, _, rfl, _,
      ⟨parameter, hparameter, rfl⟩, rest, rfl, hbody⟩

theorem exists_occurrence_iff_definedAt (hclass : IsIdentifier className) :
    (∃ o ∈ occurrences "void" source, o.place = place ∧
        definedBody? className device o.after = some body) ↔
      DefinedAt className device source place body := by
  have hvoid : ∀ {o : Occurrence}, o ∈ occurrences "void" source ↔ _ :=
    mem_occurrences_iff (by decide) (by decide)
  constructor
  · rintro ⟨o, ho, rfl, hdefined⟩
    obtain ⟨before, htext, hplace, hended, -⟩ := hvoid.1 ho
    obtain ⟨head, rest, hhead, hafter, hbody⟩ := (definedBody?_eq_some_iff hclass).1 hdefined
    exact ⟨before, head, rest, ⟨htext.trans (by rw [hafter]), hended, hhead, hbody⟩, hplace.symm⟩
  · rintro ⟨before, head, rest, h, rfl⟩
    obtain ⟨gap, parameter, hhead, ⟨hne, hgap⟩, -⟩ := h.head
    let o : Occurrence := ⟨before.length, gap ++ (className.toList ++ "::".toList ++
      device.toList ++ parameter ++ (body ++ '\x7d' :: rest))⟩
    have hafter : "void".toList ++ o.after = head ++ (body ++ '\x7d' :: rest) := by
      rw [hhead]
      simp only [o, List.append_assoc]
    exact ⟨o, hvoid.2 ⟨before, by rw [hafter, h.text_eq], rfl, h.ended, endsWord_gap hne hgap _⟩,
      rfl, (definedBody?_eq_some_iff hclass).2 ⟨head, rest, h.head, hafter, h.body⟩⟩

/-- The body of a constructor is that of the first definition. -/
theorem constructorBody?_eq_some_iff (hclass : IsIdentifier className) :
    constructorBody? source className device = some text ↔
      ∃ place body, DefinedAt className device source place body ∧ text = trim body ∧
        ∀ place' body', DefinedAt className device source place' body' → place ≤ place' := by
  have hsorted : (occurrences "void" source).Pairwise fun o o' => o.place < o'.place :=
    pairwise_occurrences (by decide) source
  simp only [constructorBody?, List.findSome?_eq_some_iff, Option.map_eq_some_iff,
    Option.map_eq_none_iff, ← exists_occurrence_iff_definedAt hclass]
  constructor
  · rintro ⟨front, o, back, hall, ⟨body, hbody, rfl⟩, hfront⟩
    refine ⟨o.place, body, ⟨o, by simp [hall], rfl, hbody⟩, rfl, ?_⟩
    rintro _ body' ⟨o', ho', rfl, hbody'⟩
    rw [hall, List.mem_append, List.mem_cons] at ho'
    rw [hall, List.pairwise_append, List.pairwise_cons] at hsorted
    rcases ho' with ho' | rfl | ho'
    · rw [hfront o' ho'] at hbody'
      cases hbody'
    · exact Nat.le_refl _
    · exact Nat.le_of_lt (hsorted.2.1.1 o' ho')
  · rintro ⟨_, body, ⟨o, ho, rfl, hbody⟩, rfl, hfirst⟩
    obtain ⟨front, back, hall⟩ := List.append_of_mem ho
    refine ⟨front, o, back, hall, ⟨body, hbody, rfl⟩, fun o' ho' => ?_⟩
    rw [hall, List.pairwise_append] at hsorted
    have hlt := hsorted.2.2 o' ho' o List.mem_cons_self
    rw [Option.eq_none_iff_forall_ne_some]
    intro body' hbody'
    have hle := hfirst _ body' ⟨o', by simp [hall, ho'], rfl, hbody'⟩
    omega

theorem constructorBody?_eq_none_iff (hclass : IsIdentifier className) :
    constructorBody? source className device = none ↔
      ∀ place body, ¬ DefinedAt className device source place body := by
  simp only [constructorBody?, List.findSome?_eq_none_iff, Option.map_eq_none_iff,
    ← exists_occurrence_iff_definedAt hclass]
  constructor
  · rintro h _ body ⟨o, ho, rfl, hbody⟩
    rw [h o ho] at hbody
    cases hbody
  · intro h o ho
    exact Option.eq_none_iff_forall_ne_some.2 fun body hbody => h o.place body ⟨o, ho, rfl, hbody⟩

end Definitions

/-! ### What is no definition -/

/-- Behind `before` stands `void` with the names of a class and of a device, both in full. -/
def Names (className device : String) (source before : List Char) : Prop :=
  ∃ gap rest, source = before ++ ("void".toList ++ gap ++ (className.toList ++ "::".toList ++
      device.toList) ++ rest) ∧ (gap ≠ [] ∧ gap.all isBlank) ∧ endsWord rest

section Names

variable {className device : String} {source before body : List Char}

/-- A gap in front of an identifier is all of the blanks there. -/
theorem gap_append_inj {gap gap' name name' rest rest' : List Char} (hgap : gap.all isBlank)
    (hname : name ≠ [] ∧ name.all isWordChar) (hgap' : gap'.all isBlank)
    (hname' : name' ≠ [] ∧ name'.all isWordChar)
    (h : gap ++ (name ++ rest) = gap' ++ (name' ++ rest')) :
    gap = gap' ∧ name ++ rest = name' ++ rest' :=
  append_inj_of_stop (List.all_eq_true.1 hgap) (isBlank_of_mem_head?_append hname.1 hname.2 rest)
    (List.all_eq_true.1 hgap') (isBlank_of_mem_head?_append hname'.1 hname'.2 rest') h

/-- An identifier is all of the identifier characters there. -/
theorem word_append_inj {name name' rest rest' : List Char} (hname : name.all isWordChar)
    (hrest : endsWord rest) (hname' : name'.all isWordChar) (hrest' : endsWord rest')
    (h : name ++ rest = name' ++ rest') : name = name' ∧ rest = rest' :=
  append_inj_of_stop (List.all_eq_true.1 hname) (endsWord_iff.1 hrest) (List.all_eq_true.1 hname')
    (endsWord_iff.1 hrest') h

theorem endsWord_of_tokens {tokens : List String} {parameter : List Char}
    (h : Tokens ("(" :: tokens) parameter) (rest : List Char) : endsWord (parameter ++ rest) := by
  cases h with
  | cons hblank _ =>
    rw [List.append_assoc, List.append_assoc]
    exact endsWord_append_of_blank hblank rfl

/-- A definition names its class and its device. -/
theorem Defined.names {head rest : List Char}
    (h : Defined className device source before head body rest) :
    Names className device source before := by
  obtain ⟨gap, parameter, hhead, hgap, hparameter⟩ := h.head
  refine ⟨gap, parameter ++ (body ++ '\x7d' :: rest), ?_, hgap, endsWord_of_tokens hparameter _⟩
  rw [h.text_eq, hhead]
  simp only [List.append_assoc]

/-- The definition at a place stands behind the text that is as long. -/
theorem DefinedAt.exists_defined {after : List Char}
    (h : DefinedAt className device (before ++ after) before.length body) :
    ∃ head rest, Defined className device (before ++ after) before head body rest := by
  obtain ⟨before', head, rest, hdefined, hlength⟩ := h
  obtain ⟨rfl, -⟩ := List.append_inj hdefined.text_eq hlength.symm
  exact ⟨head, rest, hdefined⟩

/-- One class and one device are named in one place. -/
theorem Names.unique {className' device' : String} (hclass : IsIdentifier className)
    (hdevice : IsIdentifier device) (hclass' : IsIdentifier className')
    (hdevice' : IsIdentifier device') (h : Names className device source before)
    (h' : Names className' device' source before) : className = className' ∧ device = device' := by
  obtain ⟨gap, rest, rfl, ⟨-, hgap⟩, hends⟩ := h
  obtain ⟨gap', rest', htext, ⟨-, hgap'⟩, hends'⟩ := h'
  simp only [List.append_assoc, List.append_cancel_left_eq] at htext
  obtain ⟨-, htext⟩ := gap_append_inj hgap ⟨hclass.ne_nil, hclass.word⟩ hgap'
    ⟨hclass'.ne_nil, hclass'.word⟩ htext
  obtain ⟨hname, htext⟩ := word_append_inj hclass.word rfl hclass'.word rfl htext
  rw [List.append_cancel_left_eq] at htext
  obtain ⟨hname', -⟩ := word_append_inj hdevice.word hends hdevice'.word hends' htext
  exact ⟨String.toList_inj.1 hname, String.toList_inj.1 hname'⟩

theorem not_definedAt_of_declares (hclass : IsIdentifier className) {declaration rest : List Char}
    {name : String} (h : Declares name declaration) :
    ¬ DefinedAt className device (before ++ (declaration ++ rest)) before.length body := by
  intro hat
  obtain ⟨head, rest', hdefined⟩ := hat.exists_defined
  obtain ⟨gap, parameter, rfl, ⟨-, hgap⟩, ⟨hne, hword⟩, hparameter⟩ := h
  obtain ⟨gap', after, htext, ⟨-, hgap'⟩, -⟩ := hdefined.names
  simp only [List.append_assoc, List.append_cancel_left_eq] at htext
  obtain ⟨-, htext⟩ := gap_append_inj hgap ⟨hne, hword⟩ hgap' ⟨hclass.ne_nil, hclass.word⟩ htext
  obtain ⟨-, htext⟩ := word_append_inj hword (endsWord_of_tokens hparameter _) hclass.word rfl htext
  -- the parenthesis of the declaration would be the colon behind a class
  have hsolid : ∀ t ∈ ["(", "machine_config", "&", "config"], Solid t := by decide
  have htokens := (foldlM_token?_eq_some_iff hsolid).2 ⟨parameter, hparameter, htext.symm⟩
  cases htokens

/-- Another text in the place of a token. -/
theorem not_definedAt_of_not_token (hclass : IsIdentifier className) {gap read rest : List Char}
    {earlier later : List String} {token : String} (hgap : gap.all isBlank)
    (htokens : parameterTokens = earlier ++ token :: later) (hread : Tokens earlier read)
    (hother : ¬ token.toList <+: skipBlank rest) :
    ¬ DefinedAt className device (before ++ ("void".toList ++ gap ++ (className.toList ++
      "::".toList ++ device.toList) ++ read ++ rest)) before.length body := by
  intro hat
  obtain ⟨head, rest', hdefined⟩ := hat.exists_defined
  obtain ⟨gap', parameter, rfl, ⟨-, hgap'⟩, hparameter⟩ := hdefined.head
  have htext := hdefined.text_eq
  simp only [List.append_assoc, List.append_cancel_left_eq] at htext
  have hname := And.intro hclass.ne_nil hclass.word
  obtain ⟨-, htext⟩ := gap_append_inj hgap hname hgap' hname htext
  simp only [List.append_cancel_left_eq] at htext
  have hsolid := solid_of_mem_parameterTokens
  have hall := parameter_foldlM hparameter (body ++ '\x7d' :: rest')
  rw [htokens] at hsolid
  have hearlier : earlier.foldlM (fun text token => token? token text) (read ++ rest) = some rest :=
    (foldlM_token?_eq_some_iff fun t ht => hsolid t (List.mem_append_left _ ht)).2
      ⟨read, hread, rfl⟩
  rw [← htext, htokens, List.foldlM_append, hearlier, Option.bind_eq_bind, Option.bind_some,
    List.foldlM_cons] at hall
  obtain ⟨next, htoken, -⟩ := Option.bind_eq_some_iff.1 hall
  exact hother ⟨next, List.isPrefixOf?_eq_some_iff_append_eq.1 htoken⟩

end Names

end LcdHandhelds
