import Mathlib.Data.List.Infix
import LcdHandhelds.Proofs.Text.LineEnding
import LcdHandhelds.Proofs.Text.Printed
import LcdHandhelds.Text.Numeric

/-!
Texts that no scan takes for anything: they hold none of the words that open something in a source,
and none of the marks that end it. Tokens and free texts are the two kinds of them that are written
into a source.
-/
namespace LcdHandhelds.Text

/-- The words that the scans of a source look for, whole or in parts. -/
def scannedWords : List (List Char) :=
  ["class", "void", "INPUT_PORTS_START", "PORT_START", "PORT_MODIFY", "PORT_BIT", "PORT_NAME",
    "PORT_CONFSETTING", "PORT_INCLUDE", "ROM_START", "ROM_REGION", "ROM_LOAD", "SHA1",
    "SYST"].map String.toList

/-- The marks that end a block. They count inside of other words too. -/
def endMarks : List (List Char) :=
  ["INPUT_PORTS_END", "ROM_END"].map String.toList

/-- A word that no scan looks for, and in which no block ends. -/
def Unscanned (word : List Char) : Prop :=
  word ∉ scannedWords ∧ ∀ mark ∈ endMarks, ¬ mark <:+: word

instance (word : List Char) : Decidable (Unscanned word) :=
  inferInstanceAs (Decidable (_ ∧ _))

structure Inert (text : List Char) : Prop where
  noWord : ∀ word ∈ words text, word ∉ scannedWords
  noMark : ∀ mark ∈ endMarks, ¬ mark <:+: text

instance (text : List Char) : Decidable (Inert text) :=
  decidable_of_iff ((∀ word ∈ words text, word ∉ scannedWords) ∧
    ∀ mark ∈ endMarks, ¬ mark <:+: text) ⟨fun h => ⟨h.1, h.2⟩, fun h => ⟨h.1, h.2⟩⟩

/-- An identifier or a number. -/
structure IsToken (text : List Char) : Prop where
  word : text.all isWordChar
  ne_nil : text ≠ []
  inert : Inert text

instance (text : List Char) : Decidable (IsToken text) :=
  decidable_of_iff ((text.all isWordChar = true ∧ text ≠ []) ∧ Inert text)
    ⟨fun h => ⟨h.1.1, h.1.2, h.2⟩, fun h => ⟨⟨h.word, h.ne_nil⟩, h.inert⟩⟩

/-- What may stand in a literal. -/
structure IsFreeText (text : List Char) : Prop where
  noQuote : '"' ∉ text
  noBackslash : '\\' ∉ text
  oneLine : OneLine text
  inert : Inert text

instance (text : List Char) : Decidable (IsFreeText text) :=
  decidable_of_iff (('"' ∉ text ∧ '\\' ∉ text) ∧ OneLine text ∧ Inert text)
    ⟨fun h => ⟨h.1.1, h.1.2, h.2.1, h.2.2⟩,
      fun h => ⟨⟨h.noQuote, h.noBackslash⟩, h.oneLine, h.inert⟩⟩

theorem all_of_isInfix {p : Char → Bool} {part text : List Char} (hpart : part <:+: text)
    (h : text.all p) : part.all p :=
  List.all_eq_true.2 fun c hc => List.all_eq_true.1 h c (hpart.subset hc)

/-- Every scanned word and every mark has a character that is of another kind. -/
theorem inert_of_all {p : Char → Bool} {text : List Char} (h : text.all p)
    (hwords : ∀ word ∈ scannedWords ++ endMarks, ¬ word.all p) : Inert text where
  noWord word hword hscanned :=
    hwords word (List.mem_append_left _ hscanned)
      (all_of_isInfix (of_mem_words hword).2.2 h)
  noMark mark hmark hpart :=
    hwords mark (List.mem_append_right _ hmark) (all_of_isInfix hpart h)

theorem isToken_of_all {p : Char → Bool} {text : List Char} (h : text.all p) (hne : text ≠ [])
    (hp : ∀ c, p c = true → isWordChar c = true)
    (hwords : ∀ word ∈ scannedWords ++ endMarks, ¬ word.all p) : IsToken text where
  word := List.all_eq_true.2 fun c hc => hp c (List.all_eq_true.1 h c hc)
  ne_nil := hne
  inert := inert_of_all h hwords

/-- Of the scanned words and the marks, all but two have a capital. -/
theorem inert_of_noCapital {text : List Char} (h : text.all fun c => !c.isUpper)
    (hclass : "class".toList ∉ words text) (hvoid : "void".toList ∉ words text) : Inert text := by
  have hscanned : ∀ word ∈ scannedWords, word = "class".toList ∨ word = "void".toList ∨
      ¬ word.all fun c => !c.isUpper := by
    decide
  have hmarks : ∀ mark ∈ endMarks, ¬ mark.all fun c => !c.isUpper := by
    decide
  refine ⟨fun word hword hs => ?_, fun mark hmark hpart => ?_⟩
  · rcases hscanned word hs with rfl | rfl | hcapital
    · exact hclass hword
    · exact hvoid hword
    · exact hcapital (all_of_isInfix (of_mem_words hword).2.2 h)
  · exact hmarks mark hmark (all_of_isInfix hpart h)

theorem isWordChar_of_isDigit {c : Char} (h : c.isDigit) : isWordChar c :=
  isWordChar_iff.2 (.inr (.inr (.inl h)))

theorem isToken_toDigits (n : Nat) : IsToken (Nat.toDigits 10 n) :=
  isToken_of_all (List.all_eq_true.2 fun _ => Nat.isDigit_of_mem_toDigits (by decide) (by decide))
    Nat.toDigits_ne_nil (fun _ => isWordChar_of_isDigit) (by decide)

theorem isWordChar_of_digit? {base : Nat} {c : Char} (h : (digit? base c).isSome) :
    isWordChar c := by
  rw [digit?] at h
  by_contra hw
  simp only [isWordChar_iff, not_or, Bool.not_eq_true] at hw
  simp [hw.1, hw.2.1, hw.2.2.1] at h

theorem isToken_of_isHexLiteral {mask : List Char} (h : isHexLiteral mask) : IsToken mask := by
  rw [isHexLiteral, Bool.and_eq_true, Bool.not_eq_true', List.isEmpty_eq_false_iff] at h
  refine isToken_of_all h.2 h.1 (fun c hc => ?_) (by decide)
  rw [isHexChar, Bool.or_eq_true, Bool.or_eq_true, beq_iff_eq, beq_iff_eq] at hc
  rcases hc with (hc | rfl) | rfl
  · exact isWordChar_of_digit? hc
  · decide
  · decide

theorem IsToken.words_eq {text : List Char} (h : IsToken text) : words text = [text] :=
  words_of_word h.word h.ne_nil

theorem IsToken.isArgument {text : List Char} (h : IsToken text) : IsArgument text :=
  isArgument_of_word h.word h.ne_nil

theorem IsToken.oneLine {text : List Char} (h : IsToken text) : OneLine text :=
  oneLine_of_all_isWordChar h.word

theorem IsFreeText.isArgument {text : List Char} (h : IsFreeText text) :
    IsArgument (literal text) :=
  isArgument_literal h.noQuote h.noBackslash

theorem words_literal (text : List Char) : words (literal text) = words text := by
  have hquote : words (text ++ ['"']) = words text := by
    rw [words_append_cons (by decide)]
    exact List.append_nil _
  exact (@words_append_cons '"' (by decide) [] (text ++ ['"'])).trans hquote

/-- Of the words of a text, only those in `sought` may be looked for. -/
def Opens (sought : List (List Char)) (text : List Char) : Prop :=
  ∀ word ∈ words text, word ∈ sought ∨ Unscanned word

instance (sought : List (List Char)) (text : List Char) : Decidable (Opens sought text) :=
  inferInstanceAs (Decidable (∀ word ∈ words text, word ∈ sought ∨ Unscanned word))

section Opens

variable {sought : List (List Char)} {s t : List Char}

theorem Opens.append_cons {d : Char} (hd : isWordChar d = false) (hs : Opens sought s)
    (ht : Opens sought t) : Opens sought (s ++ d :: t) := by
  intro word hword
  rw [words_append_cons hd, List.mem_append] at hword
  exact hword.elim (hs word) (ht word)

theorem Opens.append (hend : Ended s) (hs : Opens sought s) (ht : Opens sought t) :
    Opens sought (s ++ t) := by
  intro word hword
  rw [words_append hend, List.mem_append] at hword
  exact hword.elim (hs word) (ht word)

theorem opens_of_word {word : List Char} (hword : word.all isWordChar) (hne : word ≠ [])
    (h : word ∈ sought ∨ Unscanned word) : Opens sought word := by
  rw [Opens, words_of_word hword hne, List.forall_mem_singleton]
  exact h

theorem opens_of_none {text : List Char} (h : text.all fun c => !isWordChar c) :
    Opens sought text := by
  rw [Opens, words_of_none fun c hc => by simpa using List.all_eq_true.1 h c hc]
  exact List.forall_mem_nil _

theorem Opens.nil : Opens sought [] :=
  opens_of_none rfl

theorem Opens.cons {d : Char} (hd : isWordChar d = false) (ht : Opens sought t) :
    Opens sought (d :: t) :=
  Opens.append_cons (s := []) hd .nil ht

theorem opens_flatMap {α : Type} {l : List α} {f : α → List Char} (hend : ∀ a ∈ l, Ended (f a))
    (h : ∀ a ∈ l, Opens sought (f a)) : Opens sought (l.flatMap f) := by
  induction l with
  | nil => exact .nil
  | cons a l ih =>
    rw [List.forall_mem_cons] at h hend
    exact h.1.append hend.1 (ih hend.2 h.2)

theorem Opens.mono {more : List (List Char)} (h : Opens sought s) (hsub : sought ⊆ more) :
    Opens more s :=
  fun word hword => (h word hword).imp (@hsub word) id

theorem Opens.notMem (h : Opens sought s) {word : List Char} (hscanned : word ∈ scannedWords)
    (hword : word ∉ sought) : word ∉ words s :=
  fun hmem => (h word hmem).elim hword fun hu => hu.1 hscanned

theorem Opens.noMark (h : Opens sought s) {mark : List Char} (hmark : mark ∈ endMarks)
    (hsought : ∀ word ∈ sought, ¬ mark <:+: word) : ∀ word ∈ words s, ¬ mark <:+: word :=
  fun word hmem => (h word hmem).elim (hsought word) fun hu => hu.2 mark hmark

theorem Inert.opens (h : Inert s) : Opens sought s := fun word hword =>
  .inr ⟨h.noWord word hword, fun mark hmark hpart =>
    h.noMark mark hmark (hpart.trans (of_mem_words hword).2.2)⟩

theorem IsToken.opens (h : IsToken s) : Opens sought s :=
  h.inert.opens

theorem opens_literal (h : Opens sought s) : Opens sought (literal s) := by
  intro word hword
  rw [words_literal] at hword
  exact h word hword

theorem IsFreeText.opens (h : IsFreeText s) : Opens sought (literal s) :=
  opens_literal h.inert.opens

theorem opens_callText {name left right : List Char} {args : List (List Char)}
    (hname : name.all isWordChar) (hne : name ≠ []) (hopens : name ∈ sought ∨ Unscanned name)
    (hleft : left.all isBlank) (hright : right.all isBlank) (h : ∀ a ∈ args, Opens sought a) :
    Opens sought (callText name left right args) := by
  intro word hword
  rw [words_callText hname hne hleft hright] at hword
  rcases List.mem_cons.1 hword with rfl | hword
  · exact hopens
  · obtain ⟨a, ha, hword⟩ := List.mem_flatMap.1 hword
    exact h a ha word hword

theorem IsToken.unscanned {word : List Char} (h : IsToken word) : Unscanned word :=
  ⟨h.inert.noWord word (by rw [h.words_eq]; exact List.mem_cons_self), h.inert.noMark⟩

theorem IsToken.opens_callText {name left right : List Char} {args : List (List Char)}
    (hname : IsToken name) (hleft : left.all isBlank) (hright : right.all isBlank)
    (h : ∀ a ∈ args, Opens sought a) : Opens sought (callText name left right args) :=
  Text.opens_callText hname.word hname.ne_nil (.inr hname.unscanned) hleft hright h

end Opens

/-! ### Texts of one line -/

theorem OneLine.append {s t : List Char} (hs : OneLine s) (ht : OneLine t) : OneLine (s ++ t) :=
  ⟨fun h => (List.mem_append.1 h).elim hs.noReturn ht.noReturn,
    fun h => (List.mem_append.1 h).elim hs.noFeed ht.noFeed⟩

theorem oneLine_literal {text : List Char} (h : OneLine text) : OneLine (literal text) :=
  (OneLine.append (s := ['"']) (by decide) h).append (by decide)

theorem oneLine_callText {name left right : List Char} {args : List (List Char)}
    (hname : OneLine name) (hleft : OneLine left) (hright : OneLine right)
    (h : ∀ a ∈ args, OneLine a) : OneLine (callText name left right args) where
  noReturn := notMem_callText (by decide) hname.noReturn hleft.noReturn hright.noReturn
    fun a ha => (h a ha).noReturn
  noFeed := notMem_callText (by decide) hname.noFeed hleft.noFeed hright.noFeed
    fun a ha => (h a ha).noFeed

end LcdHandhelds.Text
