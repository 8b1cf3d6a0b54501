import Mathlib.Data.Nat.Digits.Defs
import LcdHandhelds.Proofs.Text.Words
import LcdHandhelds.Text.Numeric

/-!
Numbers by the places of their digits. What is read of a text is the sum of its digits, each times a
power of the base (`digits?_eq_some_iff_spells`), or nothing. A machine word that takes up the digits
one by one, and checks each product and each sum for overflow, ends with the same number
(`checkedDigits?_eq_some_iff`).
-/
namespace LcdHandhelds.Text

/-! ### Digits -/

/-- The digits of all bases up to sixteen. -/
def digitRow : List Char :=
  ['0', '1', '2', '3', '4', '5', '6', '7', '8', '9', 'a', 'b', 'c', 'd', 'e', 'f']

/-- What a digit counts: its place in the row, for letters in either case. -/
def digitRank (c : Char) : Nat := digitRow.idxOf c.toLower

/-- What a digit counts by the range that its code lies in. -/
def rankByCode (c : Char) : Nat :=
  if c.isDigit then c.toNat - 48
  else if c.isLower then min 16 (c.toNat - 87)
  else if c.isUpper then min 16 (c.toNat - 55)
  else 16

theorem digitRank_eq (c : Char) : digitRank c = rankByCode c := by
  by_cases hascii : c.toNat < 128
  · have hall : ∀ n < 128, digitRank (Char.ofNat n) = rankByCode (Char.ofNat n) := by
      decide +kernel
    have hc := hall c.toNat hascii
    rwa [Char.ofNat_toNat] at hc
  · have hdigit : ¬ c.isDigit := fun h =>
      hascii (Nat.lt_of_le_of_lt (Char.isDigit_iff_toNat.1 h).2 (by decide))
    have hlower : ¬ c.isLower := fun h =>
      hascii (Nat.lt_of_le_of_lt (isLower_iff.1 h).2 (by decide))
    have hupper : ¬ c.isUpper := fun h =>
      hascii (Nat.lt_of_le_of_lt (isUpper_iff.1 h).2 (by decide))
    have hcase : c.toLower = c := dif_neg fun h => hupper (isUpper_iff.2 h)
    have hrow : digitRow.all fun d => d.toNat < 128 := by decide
    have hout : c ∉ digitRow := fun h => hascii (of_decide_eq_true (List.all_eq_true.1 hrow c h))
    rw [rankByCode, if_neg hdigit, if_neg hlower, if_neg hupper, digitRank, hcase,
      List.idxOf_eq_length hout]
    rfl

/-- A digit of a base is one whose place in the row is below it. -/
theorem digit?_eq {base : Nat} (hbase : base ≤ 16) (c : Char) :
    digit? base c = if digitRank c < base then some (digitRank c) else none := by
  -- the letters behind the row count sixteen there, and more where they are read
  have hcap : ∀ v : Nat, (if v < base then some v else none) =
      if min 16 v < base then some (min 16 v) else none := by
    intro v
    by_cases hv : v < 16
    · rw [Nat.min_eq_right (Nat.le_of_lt hv)]
    · rw [if_neg (by omega), if_neg (by omega)]
  have hzero : '0'.toNat = 48 := rfl
  have hlower : 'a'.toNat = 97 := rfl
  have hupper : 'A'.toNat = 65 := rfl
  rw [digit?, digitRank_eq, rankByCode, hzero, hlower, hupper]
  split
  · rfl
  · split
    next hc =>
      have hrange := isLower_iff.1 hc
      rw [← hcap, show c.toNat - 97 + 10 = c.toNat - 87 by omega]
    next =>
      split
      next hc =>
        have hrange := isUpper_iff.1 hc
        rw [← hcap, show c.toNat - 65 + 10 = c.toNat - 55 by omega]
      next => rw [if_neg (Nat.lt_irrefl base), if_neg (Nat.not_lt.2 hbase)]

theorem digit?_eq_some_iff {base : Nat} (hbase : base ≤ 16) {c : Char} {d : Nat} :
    digit? base c = some d ↔ digitRank c < base ∧ digitRank c = d := by
  rw [digit?_eq hbase, ite_eq_iff]
  simp

theorem digitRank_lt_ten_iff {c : Char} : digitRank c < 10 ↔ c.isDigit := by
  rw [digitRank_eq, rankByCode]
  by_cases hdigit : c.isDigit
  · have hrange : 48 ≤ c.toNat ∧ c.toNat ≤ 57 := Char.isDigit_iff_toNat.1 hdigit
    rw [if_pos hdigit, iff_true_right hdigit]
    omega
  · rw [if_neg hdigit, iff_false_right hdigit]
    split
    next hlower =>
      have hrange := isLower_iff.1 hlower
      omega
    next =>
      split
      next hupper =>
        have hrange := isUpper_iff.1 hupper
        omega
      next => decide

/-! ### Numbers -/

/-- The number that digits spell: the last one counts ones, and each other one counts the base times
as much as the one behind it. -/
def valueIn (base : Nat) (text : List Char) : Nat :=
  Nat.ofDigits base (text.reverse.map digitRank)

/-- A text of digits of a base, at least one, and the number that they spell. -/
structure Spells (base : Nat) (text : List Char) (n : Nat) : Prop where
  ne_nil : text ≠ []
  digits : ∀ c ∈ text, digitRank c < base
  value : valueIn base text = n

theorem valueIn_eq_foldl (base : Nat) (text : List Char) :
    valueIn base text = text.foldl (fun n c => base * n + digitRank c) 0 := by
  rw [valueIn, Nat.ofDigits_eq_foldr, List.foldr_map, List.foldr_reverse]
  simp [Nat.add_comm]

/-- One more digit behind a number. -/
def pushDigit? (base n : Nat) (c : Char) : Option Nat :=
  (digit? base c).map (base * n + ·)

theorem digits?_eq_foldlM {text : List Char} (hne : text ≠ []) (base : Nat) :
    digits? base text = text.foldlM (pushDigit? base) 0 := by
  cases text with
  | nil => exact absurd rfl hne
  | cons c text => rfl

theorem foldlM_pushDigit?_eq_some_iff {base : Nat} (hbase : base ≤ 16) {text : List Char}
    {m n : Nat} :
    text.foldlM (pushDigit? base) m = some n ↔
      (∀ c ∈ text, digitRank c < base) ∧
        text.foldl (fun n c => base * n + digitRank c) m = n := by
  induction text generalizing m with
  | nil => simp
  | cons c text ih =>
    rw [List.foldlM_cons, List.forall_mem_cons, pushDigit?, digit?_eq hbase, List.foldl_cons]
    split
    next hc => exact ih.trans (by rw [and_iff_right hc])
    next hc => simp [hc]

/-- Digits are read as the number that they spell, and nothing else is read. -/
theorem digits?_eq_some_iff_spells {base : Nat} (hbase : base ≤ 16) {text : List Char} {n : Nat} :
    digits? base text = some n ↔ Spells base text n := by
  by_cases hne : text = []
  · subst hne
    exact iff_of_false nofun fun h => h.ne_nil rfl
  · rw [digits?_eq_foldlM hne, foldlM_pushDigit?_eq_some_iff hbase, ← valueIn_eq_foldl]
    exact ⟨fun h => ⟨hne, h.1, h.2⟩, fun h => ⟨h.digits, h.value⟩⟩

/-! ### Signs and bounds -/

/-- A number in a base, bare or behind a plus sign. -/
inductive SpellsSigned (base : Nat) : List Char → Nat → Prop where
  | bare {text : List Char} {n : Nat} : Spells base text n → SpellsSigned base text n
  | plus {text : List Char} {n : Nat} : Spells base text n → SpellsSigned base ('+' :: text) n

section Signed

variable {base bound n : Nat} {text : List Char}

theorem natBelow?_plus (base bound : Nat) (text : List Char) :
    natBelow? base bound ('+' :: text) = (digits? base text).filter (· < bound) := rfl

theorem natBelow?_bare (h : ∀ rest, text ≠ '+' :: rest) (base bound : Nat) :
    natBelow? base bound text = (digits? base text).filter (· < bound) := by
  rw [natBelow?]
  exact h

theorem Spells.ne_plus (hbase : base ≤ 16) (h : Spells base text n) (rest : List Char) :
    text ≠ '+' :: rest := by
  rintro rfl
  have hrank : digitRank '+' = 16 := by decide +kernel
  have hlt := h.digits '+' List.mem_cons_self
  omega

/-- A number is read exactly, or not at all where it reaches the bound. -/
theorem natBelow?_of_spellsSigned (hbase : base ≤ 16) (h : SpellsSigned base text n) :
    natBelow? base bound text = if n < bound then some n else none := by
  cases h with
  | bare h =>
    rw [natBelow?_bare (h.ne_plus hbase), (digits?_eq_some_iff_spells hbase).2 h]
    simp [Option.filter_some]
  | plus h =>
    rw [natBelow?_plus, (digits?_eq_some_iff_spells hbase).2 h]
    simp [Option.filter_some]

theorem natBelow?_eq_some_iff (hbase : base ≤ 16) :
    natBelow? base bound text = some n ↔ SpellsSigned base text n ∧ n < bound := by
  constructor
  · intro h
    by_cases hplus : ∃ rest, text = '+' :: rest
    · obtain ⟨rest, rfl⟩ := hplus
      obtain ⟨hread, hlt⟩ := Option.filter_eq_some_iff.1 (natBelow?_plus base bound rest ▸ h)
      exact ⟨.plus ((digits?_eq_some_iff_spells hbase).1 hread), of_decide_eq_true hlt⟩
    · rw [natBelow?_bare (not_exists.1 hplus)] at h
      obtain ⟨hread, hlt⟩ := Option.filter_eq_some_iff.1 h
      exact ⟨.bare ((digits?_eq_some_iff_spells hbase).1 hread), of_decide_eq_true hlt⟩
  · rintro ⟨h, hlt⟩
    rw [natBelow?_of_spellsSigned hbase h, if_pos hlt]

end Signed

/-! ### Machine words -/

section Word

variable {w : Nat}

/-- The product of two words, unless it overflows. -/
def checkedMul? (x y : BitVec w) : Option (BitVec w) :=
  if x.umulOverflow y then none else some (x * y)

/-- The sum of two words, unless it overflows. -/
def checkedAdd? (x y : BitVec w) : Option (BitVec w) :=
  if x.uaddOverflow y then none else some (x + y)

/-- One more digit behind the number in a word. -/
def checkedPush? (base : Nat) (n : BitVec w) (c : Char) : Option (BitVec w) := do
  let d ← digit? base c
  let shifted ← checkedMul? (BitVec.ofNat w base) n
  checkedAdd? shifted (BitVec.ofNat w d)

/-- The number in a word that takes up the digits one by one. -/
def checkedDigits? (w base : Nat) : List Char → Option (BitVec w)
  | [] => none
  | text => text.foldlM (checkedPush? base) 0

/-- What is checked for overflow is exact. -/
theorem checked_eq_some_iff {x z : BitVec w} {exact : Nat} {overflow : Bool}
    (hoverflow : overflow = decide (exact ≥ 2 ^ w)) (hexact : ¬ overflow → x.toNat = exact) :
    (if overflow then none else some x) = some z ↔ exact = z.toNat := by
  by_cases hover : overflow
  · have hlarge : 2 ^ w ≤ exact := of_decide_eq_true (hoverflow ▸ hover)
    have hz := z.isLt
    rw [if_pos hover]
    exact iff_of_false nofun fun h => by omega
  · rw [if_neg hover, Option.some_inj, ← hexact hover, BitVec.toNat_inj]

theorem checkedMul?_eq_some_iff {x y z : BitVec w} :
    checkedMul? x y = some z ↔ x.toNat * y.toNat = z.toNat :=
  checked_eq_some_iff rfl BitVec.toNat_mul_of_not_umulOverflow

theorem checkedAdd?_eq_some_iff {x y z : BitVec w} :
    checkedAdd? x y = some z ↔ x.toNat + y.toNat = z.toNat :=
  checked_eq_some_iff rfl BitVec.toNat_add_of_not_uaddOverflow

variable {base : Nat}

theorem exists_toNat_eq {n : Nat} (h : n < 2 ^ w) : ∃ x : BitVec w, x.toNat = n :=
  ⟨BitVec.ofNat w n, Nat.mod_eq_of_lt h⟩

/-- A step in a word is the exact one, as long as that fits. -/
theorem checkedPush?_eq_some_iff (hbase : base ≤ 16) (hw : base < 2 ^ w) {n m : BitVec w}
    {c : Char} :
    checkedPush? base n c = some m ↔ pushDigit? base n.toNat c = some m.toNat := by
  have htoNat : ∀ {k : Nat}, k < 2 ^ w → (BitVec.ofNat w k).toNat = k := Nat.mod_eq_of_lt
  rw [checkedPush?, pushDigit?, Option.bind_eq_bind, Option.bind_eq_some_iff,
    Option.map_eq_some_iff]
  refine exists_congr fun d => and_congr_right fun hd => ?_
  obtain ⟨hlt, hrank⟩ := (digit?_eq_some_iff hbase).1 hd
  rw [Option.bind_eq_bind, Option.bind_eq_some_iff]
  simp only [checkedMul?_eq_some_iff, checkedAdd?_eq_some_iff, htoNat hw,
    htoNat (show d < 2 ^ w by omega)]
  constructor
  · rintro ⟨shifted, hshifted, hsum⟩
    rw [hshifted, hsum]
  · intro hsum
    have hm := m.isLt
    obtain ⟨shifted, hshifted⟩ := exists_toNat_eq (show base * n.toNat < 2 ^ w by omega)
    exact ⟨shifted, hshifted.symm, hshifted ▸ hsum⟩

/-- More digits make no number smaller. -/
theorem le_of_foldlM_pushDigit? (hbase : base ≤ 16) {text : List Char} {m n : Nat}
    (h : text.foldlM (pushDigit? base) m = some n) : m ≤ n := by
  induction text generalizing m with
  | nil => exact Nat.le_of_eq (Option.some.inj h)
  | cons c text ih =>
    rw [List.foldlM_cons, Option.bind_eq_bind, Option.bind_eq_some_iff] at h
    obtain ⟨k, hk, hrest⟩ := h
    obtain ⟨d, hd, rfl⟩ := Option.map_eq_some_iff.1 hk
    have hpos : 0 < base := Nat.zero_lt_of_lt ((digit?_eq_some_iff hbase).1 hd).1
    calc m ≤ base * m := Nat.le_mul_of_pos_left m hpos
      _ ≤ base * m + d := Nat.le_add_right _ _
      _ ≤ n := ih hrest

theorem foldlM_checkedPush?_eq_some_iff (hbase : base ≤ 16) (hw : base < 2 ^ w)
    {text : List Char} {n m : BitVec w} :
    text.foldlM (checkedPush? base) n = some m ↔
      text.foldlM (pushDigit? base) n.toNat = some m.toNat := by
  induction text generalizing n with
  | nil => simp [BitVec.toNat_inj]
  | cons c text ih =>
    rw [List.foldlM_cons, List.foldlM_cons, Option.bind_eq_bind, Option.bind_eq_some_iff,
      Option.bind_eq_bind, Option.bind_eq_some_iff]
    constructor
    · rintro ⟨k, hk, hrest⟩
      exact ⟨k.toNat, (checkedPush?_eq_some_iff hbase hw).1 hk, ih.1 hrest⟩
    · rintro ⟨k, hk, hrest⟩
      -- the word has room for the number so far, since it has room for the whole one
      obtain ⟨x, rfl⟩ := exists_toNat_eq
        (Nat.lt_of_le_of_lt (le_of_foldlM_pushDigit? hbase hrest) m.isLt)
      exact ⟨x, (checkedPush?_eq_some_iff hbase hw).2 hk, ih.2 hrest⟩

/-- A word takes up the digits of a number that fits, and no others. -/
theorem checkedDigits?_eq_some_iff (hbase : base ≤ 16) (hw : base < 2 ^ w) {text : List Char}
    {n : BitVec w} : checkedDigits? w base text = some n ↔ digits? base text = some n.toNat := by
  cases text with
  | nil => exact iff_of_false nofun nofun
  | cons c text => exact foldlM_checkedPush?_eq_some_iff hbase hw

end Word

end LcdHandhelds.Text
