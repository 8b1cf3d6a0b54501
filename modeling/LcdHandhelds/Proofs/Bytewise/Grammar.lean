import LcdHandhelds.Proofs.Bytewise.Scan
import LcdHandhelds.Proofs.Text.CallSearch

/-!
The grammar of groups, over bytes. The loop over bytes finds at every offset what the scanner of
characters finds there (`matchingParen_eq_closingOffset?`), and that is the last byte of a group of
the grammar: `groupFound_closingOffset`.
-/
namespace LcdHandhelds.Bytewise

open Text
open scoped List

/-! ### The grammar -/

/-- `inside ::= ( '\' any-byte | any byte other than '"' and '\' )*` -/
inductive Inside : List UInt8 → Prop
  | nil : Inside []
  | byte {b : UInt8} {bs : List UInt8} :
    b ≠ '"'.toUInt8 → b ≠ '\\'.toUInt8 → Inside bs → Inside (b :: bs)
  | escape {b : UInt8} {bs : List UInt8} : Inside bs → Inside ('\\'.toUInt8 :: b :: bs)

/-- `string ::= '"' inside '"'` -/
def IsString (bs : List UInt8) : Prop :=
  ∃ inside, Inside inside ∧ bs = '"'.toUInt8 :: inside ++ ['"'.toUInt8]

/-- `items ::= ( '(' items ')' | string | any byte other than '(', ')' and '"' )*` -/
inductive Items : List UInt8 → Prop
  | nil : Items []
  | byte {b : UInt8} {bs : List UInt8} :
    b ∉ ['('.toUInt8, ')'.toUInt8, '"'.toUInt8] → Items bs → Items (b :: bs)
  | string {s bs : List UInt8} : IsString s → Items bs → Items (s ++ bs)
  | group {inner bs : List UInt8} :
    Items inner → Items bs → Items ('('.toUInt8 :: inner ++ [')'.toUInt8] ++ bs)

/-- `group ::= '(' items ')'` -/
def IsGroup (bs : List UInt8) : Prop :=
  ∃ items, Items items ∧ bs = '('.toUInt8 :: items ++ [')'.toUInt8]

theorem IsGroup.two_le_length {group : List UInt8} (h : IsGroup group) : 2 ≤ group.length := by
  obtain ⟨items, -, rfl⟩ := h
  simp

theorem IsGroup.ne_nil {group : List UInt8} (h : IsGroup group) : group ≠ [] :=
  List.ne_nil_of_length_pos (Nat.lt_of_lt_of_le Nat.two_pos h.two_le_length)

theorem IsGroup.head?_eq {group : List UInt8} (h : IsGroup group) :
    group.head? = some '('.toUInt8 := by
  obtain ⟨items, -, rfl⟩ := h
  rfl

/-! ### Bytes as characters -/

/-- The bytes as characters, each for itself. -/
def latin (bs : List UInt8) : List Char :=
  bs.map Char.ofUInt8

theorem ofUInt8_eq_iff {b : UInt8} {c : Char} (hc : c.toNat < 128) :
    Char.ofUInt8 b = c ↔ b = c.toUInt8 := by
  have hbyte : c.toUInt8.toNat = c.toNat := by
    have hmod : c.toUInt8.toNat = c.toNat % 256 := rfl
    omega
  rw [← Char.toNat_inj, ← UInt8.toNat_inj, toNat_ofUInt8, hbyte]

theorem ofUInt8_toUInt8 {c : Char} (hc : c.toNat < 128) : Char.ofUInt8 c.toUInt8 = c :=
  (ofUInt8_eq_iff hc).2 rfl

theorem inside_iff {bs : List UInt8} : Inside bs ↔ Quotable (latin bs) := by
  constructor
  · intro h
    induction h with
    | nil => exact .nil
    | byte hquote hslash _ ih =>
      exact .cons (mt (ofUInt8_eq_iff (by decide)).1 hquote)
        (mt (ofUInt8_eq_iff (by decide)).1 hslash) ih
    | escape _ ih => exact .escape ih
  · intro h
    generalize htext : latin bs = text at h
    induction h generalizing bs with
    | nil =>
      obtain rfl := List.map_eq_nil_iff.1 htext
      exact .nil
    | cons hquote hslash _ ih =>
      obtain ⟨b, bs, rfl, rfl, hrest⟩ := List.map_eq_cons_iff.1 htext
      exact .byte (mt (ofUInt8_eq_iff (by decide)).2 hquote)
        (mt (ofUInt8_eq_iff (by decide)).2 hslash) (ih hrest)
    | escape _ ih =>
      obtain ⟨b, bs, rfl, hb, hrest⟩ := List.map_eq_cons_iff.1 htext
      obtain ⟨c, bs, rfl, -, hrest⟩ := List.map_eq_cons_iff.1 hrest
      obtain rfl := (ofUInt8_eq_iff (by decide)).1 hb
      exact .escape (ih hrest)

/-- Bytes between two marks, and what is read for them. -/
theorem latin_eq_enclosed_iff {c d : Char} (hc : c.toNat < 128) (hd : d.toNat < 128)
    {bs : List UInt8} {inside text : List Char} :
    latin bs = c :: inside ++ d :: text ↔
      ∃ inner rest, bs = c.toUInt8 :: inner ++ [d.toUInt8] ++ rest ∧
        latin inner = inside ∧ latin rest = text := by
  constructor
  · intro h
    obtain ⟨first, bs, rfl, hfirst, hrest⟩ := List.map_eq_cons_iff.1 h
    obtain ⟨inner, bs, rfl, hinner, hrest⟩ := List.map_eq_append_iff.1 hrest
    obtain ⟨last, rest, rfl, hlast, htext⟩ := List.map_eq_cons_iff.1 hrest
    obtain rfl := (ofUInt8_eq_iff hc).1 hfirst
    obtain rfl := (ofUInt8_eq_iff hd).1 hlast
    exact ⟨inner, rest, by simp, hinner, htext⟩
  · rintro ⟨inner, rest, rfl, rfl, rfl⟩
    simp [latin, ofUInt8_toUInt8 hc, ofUInt8_toUInt8 hd]

theorem ofUInt8_mem_iff {b : UInt8} :
    Char.ofUInt8 b ∈ ['(', ')', '"'] ↔ b ∈ ['('.toUInt8, ')'.toUInt8, '"'.toUInt8] := by
  have hbyte : ∀ c : Char, c.toNat < 128 → (Char.ofUInt8 b = c ↔ b = c.toUInt8) :=
    fun _ => ofUInt8_eq_iff
  simp only [List.mem_cons, List.not_mem_nil, or_false, hbyte '(' (by decide),
    hbyte ')' (by decide), hbyte '"' (by decide)]

/-- Bytes are items if the characters they are read as are balanced. -/
theorem items_iff {bs : List UInt8} : Items bs ↔ Balanced (latin bs) := by
  constructor
  · intro h
    induction h with
    | nil => exact .nil
    | byte hb _ ih => exact .cons (mt ofUInt8_mem_iff.1 hb) ih
    | @string s bs hs _ ih =>
      obtain ⟨inside, hinside, rfl⟩ := hs
      rw [(latin_eq_enclosed_iff (by decide) (by decide)).2 ⟨inside, bs, rfl, rfl, rfl⟩]
      exact .literal (inside_iff.1 hinside) ih
    | @group inner bs _ _ ihInner ih =>
      rw [(latin_eq_enclosed_iff (by decide) (by decide)).2 ⟨inner, bs, rfl, rfl, rfl⟩]
      exact .group ihInner ih
  · intro h
    generalize htext : latin bs = text at h
    induction h generalizing bs with
    | nil =>
      obtain rfl := List.map_eq_nil_iff.1 htext
      exact .nil
    | cons hc _ ih =>
      obtain ⟨b, bs, rfl, rfl, hrest⟩ := List.map_eq_cons_iff.1 htext
      exact .byte (mt ofUInt8_mem_iff.2 hc) (ih hrest)
    | literal hinside _ ih =>
      obtain ⟨inner, rest, rfl, rfl, rfl⟩ :=
        (latin_eq_enclosed_iff (by decide) (by decide)).1 htext
      exact .string ⟨inner, inside_iff.2 hinside, rfl⟩ (ih rfl)
    | group _ _ ihInside ih =>
      obtain ⟨inner, rest, rfl, rfl, rfl⟩ :=
        (latin_eq_enclosed_iff (by decide) (by decide)).1 htext
      exact .group (ihInside rfl) (ih rfl)

/-- A group stands at the front of bytes if the characters they are read as begin with one. -/
theorem exists_group_prefix_iff {bs : List UInt8} {n : Nat} :
    (∃ group, IsGroup group ∧ group <+: bs ∧ group.length = n + 2) ↔
      ∃ g, Group.ofText? (latin bs) = some g ∧ g.inner.length = n := by
  simp only [Group.ofText?_eq_some_iff]
  constructor
  · rintro ⟨_, ⟨items, hitems, rfl⟩, ⟨rest, rfl⟩, hlength⟩
    refine ⟨⟨latin items, latin rest⟩, ⟨?_, items_iff.1 hitems⟩, ?_⟩
    · exact (latin_eq_enclosed_iff (by decide) (by decide)).2 ⟨items, rest, rfl, rfl, rfl⟩
    · simpa [latin] using hlength
  · rintro ⟨⟨inner, after⟩, ⟨htext, hinner⟩, rfl⟩
    obtain ⟨items, rest, rfl, rfl, rfl⟩ :=
      (latin_eq_enclosed_iff (by decide) (by decide)).1 htext
    exact ⟨_, ⟨items, items_iff.2 hinner, rfl⟩, ⟨rest, rfl⟩, by simp [latin]⟩

/-! ### The loop -/

/-- A byte acts on the loop as the character that it is read as acts on the scanner. -/
theorem closingFrom_latin (offset depth : Nat) (quoting : Quoting) (inner : List Char)
    (bs : List UInt8) :
    closingFrom (offset + inner.length) (depth + 1) quoting bs =
      .ok ((Group.close? depth quoting inner (latin bs)).map fun g => offset + g.inner.length) := by
  induction bs generalizing depth quoting inner with
  | nil => rfl
  | cons b bs ih =>
    have hlatin : latin (b :: bs) = Char.ofUInt8 b :: latin bs := rfl
    have hnext : ∀ depth quoting, closingFrom (offset + inner.length + 1) (depth + 1) quoting bs =
        .ok ((Group.close? depth quoting (Char.ofUInt8 b :: inner) (latin bs)).map fun g =>
          offset + g.inner.length) :=
      fun depth quoting => ih depth quoting (Char.ofUInt8 b :: inner)
    rw [closingFrom, hlatin, Group.close?_cons]
    generalize Char.ofUInt8 b = c at hnext
    by_cases hopen : quoting = .plain ∧ c = '('
    · obtain ⟨rfl, rfl⟩ := hopen
      exact hnext (depth + 1) .plain
    · rw [if_neg hopen]
      by_cases hclose : quoting = .plain ∧ c = ')'
      · rw [if_pos hclose, if_pos hclose, minus_add, ok_bind]
        obtain ⟨rfl, rfl⟩ := hclose
        cases depth with
        | zero =>
          rw [if_pos rfl, Option.map_some, List.length_reverse]
          rfl
        | succ depth => exact hnext depth .plain
      · rw [if_neg hclose, if_neg hclose, if_neg hopen]
        exact hnext depth (quoting.next c)

/-- The loop over bytes closes the group that they are read as. -/
theorem matchingParen_latin (text : List Char) (opening : Nat) :
    matchingParen text opening =
      .ok ((Group.ofText? (latin ((bytes text).drop opening))).map fun g =>
        opening + 1 + g.inner.length) := by
  have hfirst : (bytes text)[opening]? = ((bytes text).drop opening)[0]? := by
    rw [List.getElem?_drop, Nat.add_zero]
  rw [matchingParen, hfirst]
  cases (bytes text).drop opening with
  | nil => rfl
  | cons b bs =>
    have hlatin : latin (b :: bs) = Char.ofUInt8 b :: latin bs := rfl
    rw [List.getElem?_cons_zero, Option.any_some, hlatin]
    by_cases hopen : Char.ofUInt8 b = '('
    · rw [if_pos (by simpa using hopen), closingFrom, if_pos ⟨rfl, hopen⟩, hopen]
      exact closingFrom_latin (opening + 1) 0 .plain [] bs
    · rw [if_neg (by simpa using hopen), Group.ofText?]
      · rfl
      · exact fun _ h => hopen (List.cons.inj h).1

/-- In front of an ASCII byte a text can be cut. -/
theorem exists_ahead_of_ascii {text : List Char} {offset : Nat} {b : UInt8}
    (hb : (bytes text)[offset]? = some b) (hascii : b.toNat < 128) :
    ∃ rest, Ahead text offset rest := by
  induction text generalizing offset with
  | nil => simp at hb
  | cons c text ih =>
    have hsize : (String.utf8EncodeChar c).length = c.utf8Size := String.length_utf8EncodeChar c
    rw [bytes_cons] at hb
    rcases Nat.lt_or_ge offset c.utf8Size with hlt | hge
    · -- an ASCII byte is the only one of its character
      rw [List.getElem?_append_left (by omega)] at hb
      have hchar : c.toNat < 128 := by
        by_contra hhigh
        have hmem := List.mem_of_getElem? hb
        have hle := le_toNat_of_mem_utf8EncodeChar (Nat.le_of_not_lt hhigh) hmem
        omega
      rw [utf8Size_of_lt hchar] at hlt
      obtain rfl : offset = 0 := by omega
      exact ⟨_, .start _⟩
    · rw [List.getElem?_append_right (by omega), hsize] at hb
      obtain ⟨rest, front, rfl, hfront⟩ := ih hb
      exact ⟨rest, c :: front, rfl, by rw [byteLength_cons, ← hfront]; omega⟩

/-- The loop over bytes and the scanner of characters find the same, at every offset. -/
theorem matchingParen_eq_closingOffset? (text : List Char) (opening : Nat) :
    matchingParen text opening = .ok (closingOffset? text opening) := by
  by_cases hcut : ∃ rest, Ahead text opening rest
  · obtain ⟨rest, hahead⟩ := hcut
    rw [matchingParen_eq hahead]
    obtain ⟨front, rfl, rfl⟩ := hahead
    rw [closingOffset?_append]
  · have hplace : placeOf? text opening = none := by
      rw [Option.eq_none_iff_forall_ne_some]
      intro place hplace
      have hoffset := (byteOffset_of_placeOf? hplace).2
      exact hcut ⟨text.drop place, text.take place, (List.take_append_drop place text).symm,
        hoffset.symm⟩
    have hbyte : ¬ (bytes text)[opening]?.any (fun b => Char.ofUInt8 b = '(') := by
      intro hany
      obtain ⟨b, hb, hopen⟩ := (Option.any_eq_true _ _).1 hany
      have hbyte : Char.ofUInt8 b = '(' := by simpa using hopen
      refine hcut (exists_ahead_of_ascii hb ?_)
      rw [← toNat_ofUInt8, hbyte]
      decide
    rw [matchingParen, if_neg hbyte, closingOffset?, hplace]
    rfl

/-- What is found is the last byte of a group. -/
theorem closingOffset?_eq_some_iff {text : List Char} {opening closing : Nat} :
    closingOffset? text opening = some closing ↔
      ∃ group, IsGroup group ∧ group <+: (bytes text).drop opening ∧
        closing + 1 = opening + group.length := by
  have hfound := matchingParen_latin text opening
  rw [matchingParen_eq_closingOffset?] at hfound
  rw [Except.ok.inj hfound, Option.map_eq_some_iff]
  constructor
  · rintro ⟨g, hg, rfl⟩
    obtain ⟨group, hgroup, hfront, hlength⟩ := exists_group_prefix_iff.2 ⟨g, hg, rfl⟩
    exact ⟨group, hgroup, hfront, by omega⟩
  · rintro ⟨group, hgroup, hfront, hclosing⟩
    have hlength := hgroup.two_le_length
    obtain ⟨g, hg, hinner⟩ := exists_group_prefix_iff.1
      ⟨group, hgroup, hfront, (Nat.sub_add_cancel hlength).symm⟩
    exact ⟨g, hg, by omega⟩

/-- The bytes of an inclusive range are a front of those that begin with it. -/
theorem drop_take_eq_iff {bs part : List UInt8} {opening closing : Nat} (hne : part ≠ []) :
    closing < bs.length ∧ (bs.take (closing + 1)).drop opening = part ↔
      part <+: bs.drop opening ∧ closing + 1 = opening + part.length := by
  have hpos : 0 < part.length := List.length_pos_iff.2 hne
  rw [List.drop_take]
  constructor
  · rintro ⟨hlt, rfl⟩
    have hfront := List.take_prefix (closing + 1 - opening) (bs.drop opening)
    rw [List.length_take, List.length_drop] at hpos ⊢
    exact ⟨hfront, by omega⟩
  · rintro ⟨hfront, hclosing⟩
    have hle := hfront.length_le
    have hcount : closing + 1 - opening = part.length := by omega
    rw [List.length_drop] at hle
    exact ⟨by omega, by rw [hcount, ← List.prefix_iff_eq_take.1 hfront]⟩

theorem closingOffset?_eq_some_iff_range {text : List Char} {opening closing : Nat} :
    closingOffset? text opening = some closing ↔ closing < byteLength text ∧
      IsGroup (((bytes text).take (closing + 1)).drop opening) := by
  rw [closingOffset?_eq_some_iff, ← length_bytes]
  constructor
  · rintro ⟨group, hgroup, hfront⟩
    obtain ⟨hlt, rfl⟩ := (drop_take_eq_iff hgroup.ne_nil).2 hfront
    exact ⟨hlt, hgroup⟩
  · rintro ⟨hlt, hgroup⟩
    exact ⟨_, hgroup, (drop_take_eq_iff hgroup.ne_nil).1 ⟨hlt, rfl⟩⟩

theorem closingOffset?_eq_none_iff {text : List Char} {opening : Nat} :
    closingOffset? text opening = none ↔
      ∀ group, group <+: (bytes text).drop opening → ¬ IsGroup group := by
  constructor
  · intro hnone group hfront hgroup
    have hpos := hgroup.two_le_length
    have hfound : closingOffset? text opening = some (opening + group.length - 1) :=
      closingOffset?_eq_some_iff.2 ⟨group, hgroup, hfront, by omega⟩
    rw [hnone] at hfound
    cases hfound
  · intro hfree
    rw [Option.eq_none_iff_forall_ne_some]
    intro closing hclosing
    obtain ⟨group, hgroup, hfront, -⟩ := closingOffset?_eq_some_iff.1 hclosing
    exact hfree group hfront hgroup

/-! ### What is found -/

/-- How the closing parenthesis that is found stands to the groups at an offset. -/
structure GroupFound (text : List Char) (opening : Nat) : Prop where
  /-- The loop over bytes ends with it, and its depth never falls below zero. -/
  loop : matchingParen text opening = .ok (closingOffset? text opening)
  some_iff : ∀ closing, closingOffset? text opening = some closing ↔
    closing < byteLength text ∧ IsGroup (((bytes text).take (closing + 1)).drop opening)
  unique : ∀ closing closing', closing < byteLength text → closing' < byteLength text →
    IsGroup (((bytes text).take (closing + 1)).drop opening) →
    IsGroup (((bytes text).take (closing' + 1)).drop opening) → closing = closing'
  /-- None is found where no group begins, at whatever length. -/
  none_iff : closingOffset? text opening = none ↔
    ∀ group, group <+: (bytes text).drop opening → ¬ IsGroup group
  /-- Inside a character or past the end stands no parenthesis either. -/
  unopened : (bytes text)[opening]? ≠ some '('.toUInt8 → closingOffset? text opening = none

/-- The parenthesis that closes a group is found, wherever one begins, and nothing else. -/
theorem groupFound_closingOffset (text : List Char) (opening : Nat) : GroupFound text opening where
  loop := matchingParen_eq_closingOffset? text opening
  some_iff _ := closingOffset?_eq_some_iff_range
  unique closing closing' hlt hlt' hgroup hgroup' := by
    have hfound := closingOffset?_eq_some_iff_range.2 ⟨hlt, hgroup⟩
    rw [closingOffset?_eq_some_iff_range.2 ⟨hlt', hgroup'⟩] at hfound
    exact (Option.some.inj hfound).symm
  none_iff := closingOffset?_eq_none_iff
  unopened hfirst := by
    refine closingOffset?_eq_none_iff.2 fun group hfront hgroup => hfirst ?_
    obtain ⟨rest, hrest⟩ := hfront
    rw [← Nat.add_zero opening, ← List.getElem?_drop, ← hrest, ← List.head?_eq_getElem?,
      List.head?_append, hgroup.head?_eq]
    rfl

end LcdHandhelds.Bytewise
