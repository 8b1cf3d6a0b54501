import LcdHandhelds.Proofs.Bytewise.Text
import LcdHandhelds.Proofs.Machine.LineEnding
import LcdHandhelds.Proofs.Text.Argument
import LcdHandhelds.Proofs.Text.Words

/-!
The scanners of words and groups by byte offsets. A loop goes from byte to byte; the bytes of a
character outside ASCII leave it where the character leaves the scanner, so the two stay in step
from character to character.
-/
namespace LcdHandhelds.Bytewise

open Text

/-! ### Searches -/

/-- The offset of the first occurrence of `mark`. -/
def find? (mark text : List Char) : Option Nat :=
  (splitBefore? mark [] text).map fun p => byteLength p.1

/--
The offsets of the occurrences of `word` from `offset` on, none of which shares characters with the
one before it: the next `skip` characters belong to that.
-/
def matchOffsetsFrom (word : List Char) : (offset skip : Nat) → List Char → List Nat
  | offset, _, [] => if word.isEmpty then [offset] else []
  | offset, skip + 1, c :: text => matchOffsetsFrom word (offset + c.utf8Size) skip text
  | offset, 0, c :: text =>
    if word.isPrefixOf (c :: text) then
      offset :: matchOffsetsFrom word (offset + c.utf8Size) (word.length - 1) text
    else matchOffsetsFrom word (offset + c.utf8Size) 0 text

def matchOffsets (word text : List Char) : List Nat :=
  matchOffsetsFrom word 0 0 text

/-- What is found is the length of the text before it. -/
theorem rel_find? (mark text : List Char) :
    Option.Rel (fun i p => i = byteLength p.1 ∧ text = p.1 ++ p.2) (find? mark text)
      (splitBefore? mark [] text) := by
  rw [find?]
  cases h : splitBefore? mark [] text with
  | none => exact .none
  | some p => exact .some ⟨rfl, eq_of_splitBefore? h⟩

theorem isPrefixOf_eq_false {word text : List Char} (h : word.isPrefixOf? text = none) :
    word.isPrefixOf text = false := by
  rw [← List.isSome_isPrefixOf?_eq_isPrefixOf, h, Option.isSome_none]

/-! ### Whole words -/

def isWordByte (b : UInt8) : Bool :=
  isWordChar (Char.ofUInt8 b)

/-- No identifier goes on over the offset from the left. -/
def startsWord (text : List Char) (offset : Nat) : Checked Bool :=
  if offset = 0 then return true
  else return !isWordByte (← byteBefore text offset)

/-- No identifier goes on over the offset to the right. -/
def endsWord (text : List Char) (offset : Nat) : Bool :=
  (bytes text)[offset]?.all fun b => !isWordByte b

/-- The offset of a match, if the word is not part of a longer identifier there. -/
def wordAt (word text : List Char) (offset : Nat) : Attempt Nat := do
  if (← startsWord text offset) && endsWord text (offset + byteLength word) then return offset
  else failure

/-- The offsets where `word` is not part of a longer identifier. -/
def wordOffsets (word : String) (text : List Char) : Checked (List Nat) :=
  collect (wordAt word.toList text) (matchOffsets word.toList text)

/-- Whether the last character read has a property, when `start` says so before the first one. -/
def lastIs (q : Char → Bool) (start : Bool) (read : List Char) : Bool :=
  read.foldl (fun _ c => q c) start

theorem lastIs_append (q : Char → Bool) (start : Bool) (s t : List Char) :
    lastIs q start (s ++ t) = lastIs q (lastIs q start s) t :=
  List.foldl_append

theorem lastIs_append_singleton (q : Char → Bool) (start : Bool) (s : List Char) (c : Char) :
    lastIs q start (s ++ [c]) = q c :=
  lastIs_append q start s [c]

theorem onAscii_isWordChar : OnAscii isWordChar := by
  intro c hc
  rw [Bool.eq_false_iff, Ne, isWordChar_iff, isUpper_iff, isLower_iff, Char.isDigit_iff_toNat]
  rintro (h | h | h | rfl)
  · omega
  · omega
  · exact absurd (Nat.le_trans hc h.2) (by decide)
  · exact absurd hc (by decide)

theorem isWordByte_of_mem {c : Char} {b : UInt8} (hb : b ∈ String.utf8EncodeChar c) :
    isWordByte b = isWordChar c :=
  apply_byte onAscii_isWordChar hb

/-- The byte before an offset looks like the character before it. -/
theorem exists_byteBefore {q : Char → Bool} (hq : OnAscii q) {front : List Char} (hne : front ≠ [])
    (rest : List Char) : ∃ b, byteBefore (front ++ rest) (byteLength front) = .ok b ∧
      q (Char.ofUInt8 b) = lastIs q false front := by
  rcases List.eq_nil_or_concat' front with rfl | ⟨front, c, rfl⟩
  · exact absurd rfl hne
  have hpos := c.utf8Size_pos
  have hlt : c.utf8Size - 1 < (String.utf8EncodeChar c).length := by
    rw [String.length_utf8EncodeChar]
    omega
  refine ⟨(String.utf8EncodeChar c)[c.utf8Size - 1], ?_, ?_⟩
  · have hminus : minus (byteLength (front ++ [c])) 1 =
        .ok (byteLength front + (c.utf8Size - 1)) := by
      rw [byteLength_append, byteLength_cons, byteLength_nil, Nat.add_zero, minus,
        if_pos (by omega), Nat.add_sub_assoc hpos]
    rw [byteBefore, hminus, ok_bind]
    apply item_of_getElem?
    rw [List.append_assoc, List.singleton_append, bytes_append, bytes_cons, ← length_bytes,
      List.getElem?_append_right (Nat.le_add_right _ _), Nat.add_sub_cancel_left,
      List.getElem?_append_left hlt, List.getElem?_eq_getElem hlt]
  · rw [lastIs_append_singleton, apply_byte hq (List.getElem_mem hlt)]

theorem startsWord_append (front rest : List Char) :
    startsWord (front ++ rest) (byteLength front) = .ok (!lastIs isWordChar false front) := by
  by_cases hne : front = []
  · subst hne
    rfl
  · obtain ⟨b, hbyte, hb⟩ := exists_byteBefore onAscii_isWordChar hne rest
    rw [startsWord, if_neg (byteLength_ne_zero hne), hbyte, ok_bind, isWordByte, hb]
    rfl

theorem endsWord_of_ahead {text rest : List Char} {offset : Nat} (h : Ahead text offset rest) :
    endsWord text offset = Text.endsWord rest := by
  rw [endsWord, h.getElem?_bytes]
  cases rest with
  | nil => rfl
  | cons c rest =>
    obtain ⟨b, hb, hfirst⟩ := exists_first_byte c rest
    rw [hfirst, Option.all_some, isWordByte_of_mem hb]
    rfl

/-- An offset stands for an occurrence: the word is at its place, and the same text is after it. -/
structure Stands (word text : List Char) (offset : Nat) (o : Occurrence) : Prop where
  place : o.place ≤ text.length
  start : offset = byteOffset text o.place
  ahead : Ahead text (offset + byteLength word) o.after

theorem finds_wordAt (word front after : List Char) :
    Finds (Stands word (front ++ (word ++ after)))
      (wordAt word (front ++ (word ++ after)) (byteLength front))
      (if !lastIs isWordChar false front && Text.endsWord after then some ⟨front.length, after⟩
        else none) := by
  have hahead := (Ahead.of_append front (word ++ after)).forward
  refine .ok_bind (startsWord_append front _) ?_
  rw [endsWord_of_ahead hahead]
  split
  · exact .pure ⟨by simp, by simp [byteOffset], hahead⟩
  · exact .failure

theorem gives_collect_wordAt (word front rest : List Char) (skip : Nat) :
    Gives (List.Forall₂ (Stands word (front ++ rest)))
      (collect (wordAt word (front ++ rest)) (matchOffsetsFrom word (byteLength front) skip rest))
      (occurrencesFrom word front.length (lastIs isWordChar false front) skip rest) := by
  induction rest generalizing front skip with
  | nil =>
    rw [matchOffsetsFrom, occurrencesFrom]
    cases word with
    | nil =>
      have hone := gives_collect_cons (finds_wordAt [] front []) gives_collect_nil
      cases hglued : lastIs isWordChar false front <;> simpa [hglued, Text.endsWord] using hone
    | cons d word => exact gives_ok .nil
  | cons c rest ih =>
    -- the scan goes on with one character more read
    have hnext : ∀ skip, Gives (List.Forall₂ (Stands word (front ++ c :: rest)))
        (collect (wordAt word (front ++ c :: rest))
          (matchOffsetsFrom word (byteLength front + c.utf8Size) skip rest))
        (occurrencesFrom word (front.length + 1) (isWordChar c) skip rest) := by
      intro skip
      have h := ih (front ++ [c]) skip
      rw [List.append_assoc, List.singleton_append, lastIs_append] at h
      simpa [lastIs] using h
    cases skip with
    | succ skip => exact hnext skip
    | zero =>
      rw [matchOffsetsFrom, occurrencesFrom]
      cases hword : word.isPrefixOf? (c :: rest) with
      | none =>
        simpa [isPrefixOf_eq_false hword] using hnext 0
      | some after =>
        have htext := List.isPrefixOf?_eq_some_iff_append_eq.1 hword
        have hone := gives_collect_cons (htext ▸ finds_wordAt word front after)
          (hnext (word.length - 1))
        have hprefix : word.isPrefixOf (c :: rest) = true :=
          List.isPrefixOf_iff_prefix.2 ⟨after, htext⟩
        rw [if_pos hprefix]
        dsimp only
        split
        next h => simpa [h] using hone
        next h => simpa [h] using hone

/-- The offsets of a word are those of its occurrences. -/
theorem gives_wordOffsets (word : String) (text : List Char) :
    Gives (List.Forall₂ (Stands word.toList text)) (wordOffsets word text)
      (occurrences word text) :=
  gives_collect_wordAt word.toList [] text 0

/-! ### Groups -/

/-- The offset of the parenthesis that brings `depth` to zero; the bytes start at `offset`. -/
def closingFrom : (offset depth : Nat) → Quoting → List UInt8 → Checked (Option Nat)
  | _, _, _, [] => return none
  | offset, depth, quoting, b :: rest =>
    if quoting = .plain ∧ Char.ofUInt8 b = '(' then closingFrom (offset + 1) (depth + 1) .plain rest
    else if quoting = .plain ∧ Char.ofUInt8 b = ')' then do
      let depth ← minus depth 1
      if depth = 0 then return some offset else closingFrom (offset + 1) depth .plain rest
    else closingFrom (offset + 1) depth (quoting.next (Char.ofUInt8 b)) rest

/-- The offset of the parenthesis that closes the one at `opening`, if one stands there. -/
def matchingParen (text : List Char) (opening : Nat) : Checked (Option Nat) :=
  if (bytes text)[opening]?.any fun b => Char.ofUInt8 b = '(' then
    closingFrom opening 0 .plain ((bytes text).drop opening)
  else return none

/-- Outside ASCII a character ends no literal, it only undoes a backslash. -/
theorem next_of_le {c : Char} (hc : 128 ≤ c.toNat) (quoting : Quoting) :
    quoting.next c = if quoting = .plain then .plain else .quoted := by
  have hquote : c ≠ '"' := ne_of_le hc (by decide)
  have hslash : c ≠ '\\' := ne_of_le hc (by decide)
  cases quoting with
  | plain => simp [Quoting.next]
  | quoted => simp [Quoting.next]
  | escaped => rfl

/-- A loop that only follows the literals outside ASCII passes a character as it passes a byte. -/
theorem pass_character {ρ : Type} (loop : Nat → Quoting → List UInt8 → ρ)
    (hloop : ∀ offset quoting b rest, 128 ≤ b.toNat →
      loop offset quoting (b :: rest) = loop (offset + 1) (quoting.next (Char.ofUInt8 b)) rest)
    {c : Char} (hc : 128 ≤ c.toNat) (offset : Nat) (quoting : Quoting) (rest : List UInt8) :
    loop offset quoting (String.utf8EncodeChar c ++ rest) =
      loop (offset + c.utf8Size) (quoting.next c) rest := by
  have hhigh : ∀ b ∈ String.utf8EncodeChar c, 128 ≤ b.toNat :=
    fun b hb => le_toNat_of_mem_utf8EncodeChar hc hb
  have hne : String.utf8EncodeChar c ≠ [] := utf8EncodeChar_ne_nil c
  rw [← String.length_utf8EncodeChar, next_of_le hc]
  generalize String.utf8EncodeChar c = bs at hhigh hne
  induction bs generalizing offset quoting with
  | nil => exact absurd rfl hne
  | cons b bs ih =>
    rw [List.forall_mem_cons] at hhigh
    rw [List.cons_append, hloop _ _ _ _ hhigh.1, next_of_le (c := Char.ofUInt8 b) hhigh.1]
    cases bs with
    | nil => rfl
    | cons b' bs =>
      rw [ih _ _ hhigh.2 (List.cons_ne_nil b' bs), Nat.add_assoc offset, Nat.add_comm 1]
      cases quoting <;> rfl

theorem closingFrom_character (offset depth : Nat) (quoting : Quoting) (c : Char)
    (rest : List UInt8) :
    closingFrom offset depth quoting (String.utf8EncodeChar c ++ rest) =
      if quoting = .plain ∧ c = '(' then closingFrom (offset + 1) (depth + 1) .plain rest
      else if quoting = .plain ∧ c = ')' then do
        let depth ← minus depth 1
        if depth = 0 then return some offset else closingFrom (offset + 1) depth .plain rest
      else closingFrom (offset + c.utf8Size) depth (quoting.next c) rest := by
  by_cases hc : c.toNat < 128
  · rw [utf8EncodeChar_of_lt hc, List.singleton_append, closingFrom, ofUInt8_ofNat hc,
      utf8Size_of_lt hc]
  · have hhigh : 128 ≤ c.toNat := Nat.le_of_not_lt hc
    rw [if_neg (fun h => ne_of_le hhigh (by decide) h.2),
      if_neg (fun h => ne_of_le hhigh (by decide) h.2)]
    refine pass_character (closingFrom · depth) (fun offset quoting b rest hb => ?_) hhigh offset
      quoting rest
    have hother : ∀ d : Char, d.toNat < 128 → ¬ (quoting = .plain ∧ Char.ofUInt8 b = d) :=
      fun d hd h => ne_of_le (c := Char.ofUInt8 b) hb hd h.2
    rw [closingFrom, if_neg (hother _ (by decide)), if_neg (hother _ (by decide))]

/-- The depth of the loop is one more than that of the scanner, so it never falls below zero. -/
theorem closingFrom_eq (offset depth : Nat) (quoting : Quoting) (inner rest : List Char) :
    closingFrom (offset + byteLength inner.reverse) (depth + 1) quoting (bytes rest) =
      .ok ((Group.close? depth quoting inner rest).map fun g => offset + byteLength g.inner) := by
  induction rest generalizing depth quoting inner with
  | nil => rfl
  | cons c rest ih =>
    have hnext : ∀ depth quoting, closingFrom (offset + byteLength inner.reverse + c.utf8Size)
        (depth + 1) quoting (bytes rest) =
        .ok ((Group.close? depth quoting (c :: inner) rest).map fun g =>
          offset + byteLength g.inner) := by
      intro depth quoting
      have h := ih depth quoting (c :: inner)
      simpa [Nat.add_assoc] using h
    rw [bytes_cons, closingFrom_character, Group.close?_cons]
    by_cases hopen : quoting = .plain ∧ c = '('
    · obtain ⟨rfl, rfl⟩ := hopen
      exact hnext (depth + 1) .plain
    · rw [if_neg hopen]
      by_cases hclose : quoting = .plain ∧ c = ')'
      · rw [if_pos hclose, if_pos hclose, minus_add, ok_bind]
        obtain ⟨rfl, rfl⟩ := hclose
        cases depth with
        | zero => rfl
        | succ depth => exact hnext depth .plain
      · rw [if_neg hclose, if_neg hclose, if_neg hopen]
        exact hnext depth (quoting.next c)

/-- A group is cut out between its parentheses, and the text goes on behind them. -/
structure Closes (text : List Char) (opening closing : Nat) (g : Group) : Prop where
  inner : slice text (opening + 1) closing = .ok g.inner
  ahead : Ahead text (closing + 1) g.after

theorem matchingParen_eq {text rest : List Char} {opening : Nat} (h : Ahead text opening rest) :
    matchingParen text opening =
      .ok ((Group.ofText? rest).map fun g => opening + 1 + byteLength g.inner) := by
  rw [matchingParen, h.drop_bytes, h.getElem?_bytes]
  cases rest with
  | nil => rfl
  | cons c rest =>
    by_cases hopen : c = '('
    · subst hopen
      have hloop := closingFrom_eq (opening + 1) 0 .plain [] rest
      rw [bytes_cons, closingFrom_character]
      exact hloop
    · obtain ⟨b, hb, hfirst⟩ := exists_first_byte c rest
      have hbyte : Char.ofUInt8 b ≠ '(' := mt (byte_eq_iff (by decide) hb).1 hopen
      rw [hfirst, Group.ofText?]
      · rw [Option.any_some, if_neg (by simpa using hbyte)]
        rfl
      · exact fun _ h => hopen (List.cons.inj h).1

theorem gives_matchingParen {text rest : List Char} {opening : Nat} (h : Ahead text opening rest) :
    Gives (Option.Rel (Closes text opening)) (matchingParen text opening) (Group.ofText? rest) := by
  refine ⟨_, matchingParen_eq h, ?_⟩
  cases hg : Group.ofText? rest with
  | none => exact .none
  | some g =>
    rw [Group.eq_of_ofText? hg] at h
    have hinner := h.forward_ascii (by decide)
    exact .some ⟨hinner.slice_eq, hinner.forward.forward_ascii (by decide)⟩

end LcdHandhelds.Bytewise
