import Mathlib.Order.Bounds.Basic
import LcdHandhelds.Proofs.Text.Digits
import LcdHandhelds.Proofs.Text.Inert
import LcdHandhelds.Proofs.Wiring.Sections

/-!
The numbers of an input block: masks with the slots that they reach, and the indexes in the names of
headers. Each is the number that its digits spell, however many there are, or is refused where this
is too large for a machine word (`exactNumbers_read`). None wraps around into another.
-/
namespace LcdHandhelds

open Text

/-! ### Masks -/

/-- What may stand in front of the digits of a mask. -/
def hexMarkers : List (List Char) := [[], "0x".toList, "0X".toList]

/-- A mask as it is written: hexadecimal digits behind a marker or none, with blanks around it. -/
def SpellsMask (text : List Char) (n : Nat) : Prop :=
  ∃ (p : Padded) (digits : List Char), ∃ marker ∈ hexMarkers,
    Spells 16 digits n ∧ p.argument = marker ++ digits ∧ p.text = text

/-- Without the marker in front. -/
def unmarked : List Char → List Char
  | '0' :: 'x' :: rest => rest
  | '0' :: 'X' :: rest => rest
  | text => text

theorem hexValue_eq (text : List Char) :
    hexValue text = .ofNat ((natBelow? 16 UInt32.size (unmarked (trim text))).getD 0) := rfl

theorem unmarked_append {marker digits : List Char} {n : Nat} (hmarker : marker ∈ hexMarkers)
    (h : Spells 16 digits n) : unmarked (marker ++ digits) = digits := by
  have hlower : 'x' ∉ digits := fun hmem => absurd (h.digits 'x' hmem) (by decide +kernel)
  have hupper : 'X' ∉ digits := fun hmem => absurd (h.digits 'X' hmem) (by decide +kernel)
  simp only [hexMarkers, List.mem_cons, List.not_mem_nil, or_false] at hmarker
  rcases hmarker with rfl | rfl | rfl
  · rw [List.nil_append]
    unfold unmarked
    split
    · exact absurd (by simp) hlower
    · exact absurd (by simp) hupper
    · rfl
  · rfl
  · rfl

theorem exists_marker (text : List Char) :
    ∃ marker ∈ hexMarkers, text = marker ++ unmarked text := by
  unfold unmarked
  split
  · exact ⟨"0x".toList, by decide, rfl⟩
  · exact ⟨"0X".toList, by decide, rfl⟩
  · exact ⟨[], by decide, rfl⟩

/-- The digits of any base are characters of identifiers. -/
theorem all_isWordChar_of_spells {base : Nat} (hbase : base ≤ 16) {digits : List Char} {n : Nat}
    (h : Spells base digits n) : digits.all isWordChar :=
  List.all_eq_true.2 fun c hc => isWordChar_of_digit? <|
    Option.isSome_of_eq_some ((digit?_eq_some_iff hbase).2 ⟨h.digits c hc, rfl⟩)

theorem hexValue_of_spellsMask {text : List Char} {n : Nat} (h : SpellsMask text n) :
    hexValue text = .ofNat (if n < UInt32.size then n else 0) := by
  obtain ⟨p, digits, marker, hmarker, hdigits, hargument, rfl⟩ := h
  have hword : (marker ++ digits).all isWordChar := by
    have hmarkers : ∀ marker ∈ hexMarkers, marker.all isWordChar := by decide +kernel
    rw [List.all_append, hmarkers marker hmarker, all_isWordChar_of_spells (by decide) hdigits]
    rfl
  rw [hexValue_eq, p.trim_text, hargument, trim_of_word hword, unmarked_append hmarker hdigits,
    natBelow?_of_spellsSigned (by decide) (.bare hdigits)]
  split <;> rfl

theorem toNat_hexValue {text : List Char} {n : Nat} (h : SpellsMask text n) :
    (hexValue text).toNat = if n < UInt32.size then n else 0 := by
  rw [hexValue_of_spellsMask h]
  split
  next hlt => exact UInt32.toNat_ofNat_of_lt hlt
  next => rfl

example : hexValue " 0X00000000ffffFFFF\t".toList = 0xffffffff := by decide +kernel

example : hexValue "100000000".toList = 0 := by decide +kernel

/-- A mask with a value has digits that spell it. -/
theorem spelled_of_hexValue_ne_zero {text : List Char} (h : hexValue text ≠ 0) :
    ∃ marker ∈ hexMarkers, ∃ digits, trim text = marker ++ digits ∧
      SpellsSigned 16 digits (hexValue text).toNat := by
  obtain ⟨marker, hmarker, htext⟩ := exists_marker (trim text)
  refine ⟨marker, hmarker, unmarked (trim text), htext, ?_⟩
  cases hread : natBelow? 16 UInt32.size (unmarked (trim text)) with
  | none => exact absurd (by rw [hexValue_eq, hread]; rfl) h
  | some n =>
    obtain ⟨hspells, hlt⟩ := (natBelow?_eq_some_iff (by decide)).1 hread
    have hvalue : (hexValue text).toNat = n := by
      rw [hexValue_eq, hread]
      exact UInt32.toNat_ofNat_of_lt hlt
    rwa [hvalue]

/-! ### Slots -/

theorem exists_lowest_bit {n : Nat} (h : n ≠ 0) : ∃ i, IsLeast {i | n.testBit i} i := by
  have hbit : ∃ i, n.testBit i := Nat.exists_testBit_of_ne_zero h
  exact ⟨Nat.find hbit, Nat.find_spec hbit, fun _ => Nat.find_le⟩

/-- A mask reaches the slot of its lowest bit, and the last one if that is the fourth or higher. -/
theorem slotOfMask_of_isLeast {mask : UInt32} {i : Nat}
    (h : IsLeast {i | mask.toNat.testBit i} i) : slotOfMask mask = min 3 i := by
  have hset : mask.toNat.testBit i = true := h.1
  have hbelow : ∀ j < i, mask.toNat.testBit j = false := fun j hj =>
    Bool.eq_false_iff.2 fun hbit => Nat.not_le.2 hj (h.2 hbit)
  unfold slotOfMask
  match i with
  | 0 => simp [hset]
  | 1 => simp [hset, hbelow]
  | 2 => simp [hset, hbelow]
  | i + 3 => simp [hbelow]

theorem slotOfMask_zero : slotOfMask 0 = 3 := by decide

/-! ### Row indexes -/

namespace PortName

/-- A name with an index: decimal digits behind `IN.`, with a plus sign or without. -/
def HasIndex (name : String) (n : Nat) : Prop :=
  ∃ digits, SpellsSigned 10 digits n ∧ name.toList = "IN.".toList ++ digits

theorem ofText_of_append {name : String} {text : List Char}
    (h : name.toList = "IN.".toList ++ text) :
    ofText name = match natBelow? 10 UInt64.size text with
      | some index => known (.row (.ofNat index))
      | none => unknown := by
  have hp : "IN.".toList.isPrefixOf? name.toList = some text :=
    List.isPrefixOf?_eq_some_iff_append_eq.2 h.symm
  rw [ofText]
  split
  next digits hdigits =>
    obtain rfl : digits = text := Option.some.inj (hdigits.symm.trans hp)
    rfl
  next hnone => exact nomatch hnone.symm.trans hp

theorem ofText_ne_row {name : String} (h : ¬ "IN.".toList <+: name.toList) (row : UInt64) :
    ofText name ≠ known (.row row) := by
  have hnone : "IN.".toList.isPrefixOf? name.toList = none :=
    Option.eq_none_iff_forall_ne_some.2 fun text htext =>
      h ⟨text, List.isPrefixOf?_eq_some_iff_append_eq.1 htext⟩
  rw [ofText, hnone]
  dsimp only
  repeat' split
  all_goals exact nofun

theorem ofText_of_hasIndex {name : String} {n : Nat} (h : HasIndex name n) :
    ofText name = if n < UInt64.size then known (.row (.ofNat n)) else unknown := by
  obtain ⟨digits, hspells, hname⟩ := h
  rw [ofText_of_append hname, natBelow?_of_spellsSigned (by decide) hspells]
  by_cases hlt : n < UInt64.size
  · rw [if_pos hlt, if_pos hlt]
  · rw [if_neg hlt, if_neg hlt]

theorem ofText_eq_row_iff {name : String} {row : UInt64} :
    ofText name = known (.row row) ↔ HasIndex name row.toNat := by
  constructor
  · intro h
    obtain ⟨text, htext⟩ : "IN.".toList <+: name.toList := by
      by_contra hp
      exact ofText_ne_row hp row h
    refine ⟨text, ?_, htext.symm⟩
    rw [ofText_of_append htext.symm] at h
    cases hread : natBelow? 10 UInt64.size text with
    | none =>
      rw [hread] at h
      cases h
    | some index =>
      obtain ⟨hspells, hlt⟩ := (natBelow?_eq_some_iff (by decide)).1 hread
      rw [hread] at h
      cases h
      have hindex : (UInt64.ofNat index).toNat = index := UInt64.toNat_ofNat_of_lt hlt
      rwa [hindex]
  · intro h
    rw [ofText_of_hasIndex h, if_pos row.toNat_lt, UInt64.ofNat_toNat]

example : ofText "IN.+0018446744073709551615" = known (.row 0xffffffffffffffff) := by
  decide +kernel

/-- Behind `IN.`, whatever is no index makes a name unknown. -/
theorem ofText_eq_unknown {name : String} (hp : "IN.".toList <+: name.toList)
    (h : ∀ n, ¬ HasIndex name n) : ofText name = unknown := by
  obtain ⟨text, htext⟩ := hp
  have hnone : natBelow? 10 UInt64.size text = none :=
    Option.eq_none_iff_forall_ne_some.2 fun n hn =>
      h n ⟨text, ((natBelow?_eq_some_iff (by decide)).1 hn).1, htext.symm⟩
  rw [ofText_of_append htext.symm, hnone]

end PortName

/-! ### Headers -/

namespace Block

/-- A header opens the port that its name stands for, whatever has been read before. -/
theorem key_opened_header (b : Block) (name : String) :
    (b.header name).opened.map Port.key = (PortName.ofText name).key? := by
  rw [header]
  cases PortName.ofText name with
  | known key => exact congrArg some (key_getD_port? b key)
  | fake => rfl
  | unknown => rfl

/-- A header opens the row of a number. -/
def OpensRow (b : Block) (name : String) (row : UInt64) : Prop :=
  (b.header name).opened.map Port.key = some (.row row)

theorem opensRow_iff {b : Block} {name : String} {row : UInt64} :
    b.OpensRow name row ↔ PortName.HasIndex name row.toNat := by
  rw [OpensRow, key_opened_header, ← PortName.ofText_eq_row_iff]
  cases PortName.ofText name <;> simp [PortName.key?]

theorem opensRow_iff_of_hasIndex {b : Block} {name : String} {row : UInt64} {n : Nat}
    (h : PortName.HasIndex name n) : b.OpensRow name row ↔ row.toNat = n := by
  constructor
  · intro hopens
    have hrow := PortName.ofText_eq_row_iff.2 (opensRow_iff.1 hopens)
    rw [PortName.ofText_of_hasIndex h] at hrow
    split at hrow
    next hlt =>
      cases hrow
      exact UInt64.toNat_ofNat_of_lt hlt
    next => cases hrow
  · rintro rfl
    exact opensRow_iff.2 h

/-- Two headers open the same row if their indexes are equal numbers that a word has room for. -/
theorem exists_opensRow_iff {b b' : Block} {name name' : String} {n n' : Nat}
    (h : PortName.HasIndex name n) (h' : PortName.HasIndex name' n') :
    (∃ row, b.OpensRow name row ∧ b'.OpensRow name' row) ↔ n = n' ∧ n < UInt64.size := by
  simp only [opensRow_iff_of_hasIndex h, opensRow_iff_of_hasIndex h']
  constructor
  · rintro ⟨row, rfl, rfl⟩
    exact ⟨rfl, row.toNat_lt⟩
  · rintro ⟨rfl, hlt⟩
    have hrow : (UInt64.ofNat n).toNat = n := UInt64.toNat_ofNat_of_lt hlt
    exact ⟨.ofNat n, hrow, hrow⟩

end Block

/-- How the numbers of an input block are read from their digits. -/
structure ExactNumbers : Prop where
  /-- A mask has the value that its digits spell, or zero if that is too large. -/
  mask : ∀ text value, SpellsMask text value →
    (hexValue text).toNat = if value < 2 ^ 32 then value else 0
  /-- A value that is not zero is spelled by the mask. -/
  masked : ∀ text, hexValue text ≠ 0 → ∃ marker ∈ hexMarkers, ∃ digits,
    trim text = marker ++ digits ∧ SpellsSigned 16 digits (hexValue text).toNat
  slot : ∀ text value, SpellsMask text value → value < 2 ^ 32 →
    (value = 0 ∧ slotOfMask (hexValue text) = 3) ∨
      ∃ i, IsLeast {i | value.testBit i} i ∧ slotOfMask (hexValue text) = min 3 i
  row : ∀ name index, PortName.HasIndex name index → PortName.ofText name =
    if index < 2 ^ 64 then .known (.row (.ofNat index)) else .unknown
  /-- A name that has no index opens no row. -/
  rowOnly : ∀ name row, PortName.ofText name = .known (.row row) ↔
    PortName.HasIndex name row.toNat
  unknown : ∀ name, "IN.".toList <+: name.toList → (∀ index, ¬ PortName.HasIndex name index) →
    PortName.ofText name = .unknown
  /-- Two headers open the same row, in any two blocks, just if their indexes are equal numbers. -/
  sameRow : ∀ (b b' : Block) name name' index index', PortName.HasIndex name index →
    PortName.HasIndex name' index' →
      ((∃ row, b.OpensRow name row ∧ b'.OpensRow name' row) ↔ index = index' ∧ index < 2 ^ 64)
  /-- A machine word that takes up digit by digit, and stops where one overflows, reads the same. -/
  stepwise : ∀ w base text (n : BitVec w), base ≤ 16 → base < 2 ^ w →
    (checkedDigits? w base text = some n ↔ digits? base text = some n.toNat)

/-- Numbers are read exactly or refused, and none wraps around. -/
theorem exactNumbers_read : ExactNumbers where
  mask text value h := toNat_hexValue h
  masked text h := spelled_of_hexValue_ne_zero h
  slot text value h hlt := by
    have hvalue : (hexValue text).toNat = value := (toNat_hexValue h).trans (if_pos hlt)
    by_cases hzero : value = 0
    · have hmask : hexValue text = 0 := UInt32.toNat_inj.1 (hvalue.trans hzero)
      exact .inl ⟨hzero, hmask ▸ slotOfMask_zero⟩
    · obtain ⟨i, hi⟩ := exists_lowest_bit hzero
      exact .inr ⟨i, hi, slotOfMask_of_isLeast (hvalue ▸ hi)⟩
  row name index h := PortName.ofText_of_hasIndex h
  rowOnly name row := PortName.ofText_eq_row_iff
  unknown name hp h := PortName.ofText_eq_unknown hp h
  sameRow b b' name name' index index' h h' := Block.exists_opensRow_iff h h'
  stepwise w base text n hbase hw := checkedDigits?_eq_some_iff hbase hw

end LcdHandhelds
