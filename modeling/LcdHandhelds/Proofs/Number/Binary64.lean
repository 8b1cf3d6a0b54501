import Mathlib.Tactic.Linarith
import LcdHandhelds.Number.Binary64

/-!
How large the code of a rounded quotient is: the significand of the chosen exponent field has at most
53 bits, so the code is bounded by the logarithms of the quotient's two sides.
-/
namespace LcdHandhelds.Binary64

theorem fieldSize_pos : 0 < fieldSize := by decide

theorem roundHalfEven_le {num den bound : Nat} (hden : 0 < den) (h : num < bound * den) :
    roundHalfEven num den ≤ bound := by
  have hq : num / den < bound := (Nat.div_lt_iff_lt_mul hden).2 h
  simp only [roundHalfEven]
  split
  · omega
  · split <;> omega

/-- Whether the quotient's significand stays below a bound when the exponent has a field. -/
def Fits (num den bound field : Nat) : Prop :=
  num * Nat.pow 2 (1075 - field) < bound * (den * Nat.pow 2 (field - 1075))

namespace Fits

variable {num den bound field : Nat}

/-- One field less takes one bit more. -/
theorem double_of_succ (h : Fits num den bound (field + 1)) : Fits num den (2 * bound) field := by
  simp only [Fits, Nat.pow_eq] at h ⊢
  by_cases hf : field < 1075
  · obtain ⟨k, hk⟩ : ∃ k, 1075 = field + k + 1 := ⟨1075 - field - 1, by omega⟩
    rw [show 1075 - (field + 1) = k by omega, show field + 1 - 1075 = 0 by omega] at h
    rw [show 1075 - field = k + 1 by omega, show field - 1075 = 0 by omega, Nat.pow_succ]
    linarith
  · obtain ⟨k, rfl⟩ : ∃ k, field = 1075 + k := ⟨field - 1075, by omega⟩
    rw [show 1075 - (1075 + k + 1) = 0 by omega, show 1075 + k + 1 - 1075 = k + 1 by omega,
      Nat.pow_succ] at h
    rw [show 1075 - (1075 + k) = 0 by omega, show 1075 + k - 1075 = k by omega]
    linarith

/-- Enough bits by the logarithms. -/
theorem of_log2 {bits : Nat} (hden : den ≠ 0)
    (h : num.log2 + 1 + (1075 - field) ≤ bits + den.log2 + (field - 1075)) :
    Fits num den (Nat.pow 2 bits) field := by
  simp only [Fits, Nat.pow_eq]
  calc num * 2 ^ (1075 - field)
      < 2 ^ (num.log2 + 1) * 2 ^ (1075 - field) :=
        Nat.mul_lt_mul_of_pos_right Nat.lt_log2_self (Nat.two_pow_pos _)
    _ = 2 ^ (num.log2 + 1 + (1075 - field)) := (Nat.pow_add ..).symm
    _ ≤ 2 ^ (bits + den.log2 + (field - 1075)) := Nat.pow_le_pow_right (by decide) h
    _ = 2 ^ bits * (2 ^ den.log2 * 2 ^ (field - 1075)) := by
        rw [Nat.pow_add, Nat.pow_add, Nat.mul_assoc]
    _ ≤ 2 ^ bits * (den * 2 ^ (field - 1075)) :=
        Nat.mul_le_mul_left _ (Nat.mul_le_mul_right _ (Nat.log2_self_le hden))

end Fits

variable {num den : Nat}

theorem fieldOfRatio_le (num den : Nat) :
    fieldOfRatio num den ≤ max (num.log2 + 1023 - den.log2) 1 := by
  simp only [fieldOfRatio]
  split <;> omega

/-- The chosen field gives a significand of 53 bits at the most. -/
theorem fits_fieldOfRatio (num : Nat) (hden : den ≠ 0) :
    Fits num den (Nat.pow 2 53) (fieldOfRatio num den) := by
  simp only [fieldOfRatio]
  split
  · rename_i short
    have hs : Fits num den fieldSize (num.log2 + 1075 - den.log2 - 52) := short
    -- The least field has room anyway; above it, a significand that is short by a bit gets one.
    by_cases hleast : num.log2 + 1075 - den.log2 - 52 ≤ 1
    · refine Fits.of_log2 hden ?_
      omega
    · obtain ⟨field, hfield⟩ : ∃ field, num.log2 + 1075 - den.log2 - 52 = field + 1 :=
        ⟨num.log2 + 1075 - den.log2 - 52 - 1, by omega⟩
      have hmax : max (field + 1 - 1) 1 = field := by omega
      rw [hfield] at hs ⊢
      rw [hmax]
      exact hs.double_of_succ
  · refine Fits.of_log2 hden ?_
    omega

theorem codeOfRatio_le (hden : den ≠ 0) :
    codeOfRatio num den ≤ (max (num.log2 + 1023 - den.log2) 1 + 1) * fieldSize := by
  have hscaled : 0 < den * Nat.pow 2 (fieldOfRatio num den - 1075) :=
    Nat.mul_pos (Nat.pos_of_ne_zero hden) (Nat.two_pow_pos _)
  have hround := roundHalfEven_le hscaled (fits_fieldOfRatio num hden)
  have hfield : 1 ≤ fieldOfRatio num den := by simp only [fieldOfRatio]; omega
  calc codeOfRatio num den
      ≤ (fieldOfRatio num den - 1) * fieldSize + Nat.pow 2 53 := Nat.add_le_add_left hround _
    _ = (fieldOfRatio num den - 1 + 2) * fieldSize := by rw [Nat.add_mul]; rfl
    _ ≤ (max (num.log2 + 1023 - den.log2) 1 + 1) * fieldSize :=
        Nat.mul_le_mul_right _ (by have := fieldOfRatio_le num den; omega)

theorem exponentField_le_of_ofRatio? {negative : Bool} {x : Binary64} (hden : den ≠ 0)
    (h : ofRatio? negative num den = some x) :
    x.exponentField ≤ max (num.log2 + 1023 - den.log2) 1 + 1 := by
  have hcode : x.code ≤ (max (num.log2 + 1023 - den.log2) 1 + 1) * fieldSize := by
    simp only [ofRatio?] at h
    split at h
    · obtain rfl := Option.some.inj h
      exact Nat.zero_le _
    · split at h
      · obtain rfl := Option.some.inj h
        exact codeOfRatio_le hden
      · cases h
  have hdiv := Nat.div_le_of_le_mul (Nat.mul_comm .. ▸ hcode)
  exact Nat.max_le.2 ⟨hdiv, Nat.le_add_left 1 _⟩

/-- A quotient below the powers of two that are not finite has a double. -/
theorem isSome_ofRatio? (negative : Bool) (hden : den ≠ 0)
    (h : num.log2 < den.log2 + 1023) : (ofRatio? negative num den).isSome := by
  have hcode : codeOfRatio num den < infinityCode :=
    Nat.lt_of_le_of_lt (codeOfRatio_le hden)
      (Nat.mul_lt_mul_of_pos_right (by omega) fieldSize_pos)
  simp only [ofRatio?]
  split <;> rfl

theorem log2_lt_of_lt_size {n : Nat} (h : n < UInt64.size) : n.log2 < 64 := by
  by_cases hn : n = 0
  · subst hn
    decide
  · exact (Nat.log2_lt hn).2 h

/-- A 64-bit number is far below the first magnitude that is not finite. -/
theorem isSome_ofNat? {n : Nat} (h : n < UInt64.size) : (ofNat? n).isSome := by
  have hlog := log2_lt_of_lt_size h
  exact isSome_ofRatio? false (by decide) (by omega)

theorem denominator_ne_zero (x : Binary64) : x.denominator ≠ 0 :=
  Nat.ne_of_gt (Nat.two_pow_pos _)

theorem numerator_lt (x : Binary64) :
    x.numerator < Nat.pow 2 (53 + (x.exponentField - 1075)) := by
  have hsig : x.significand < Nat.pow 2 53 := by
    have hmod : x.code % fieldSize < fieldSize := Nat.mod_lt _ fieldSize_pos
    have hdouble : fieldSize + fieldSize = Nat.pow 2 53 := rfl
    simp only [significand]
    split <;> omega
  calc x.numerator < Nat.pow 2 53 * Nat.pow 2 (x.exponentField - 1075) :=
        Nat.mul_lt_mul_of_pos_right hsig (Nat.two_pow_pos _)
    _ = Nat.pow 2 (53 + (x.exponentField - 1075)) := (Nat.pow_add ..).symm

/-- A product whose exponent leaves room below the first magnitude that is not finite. -/
theorem isSome_mul? {x y : Binary64}
    (h : (x.exponentField - 1075) + (y.exponentField - 1075) ≤ 917) : (x.mul? y).isSome := by
  have hden : x.denominator * y.denominator ≠ 0 :=
    Nat.mul_ne_zero x.denominator_ne_zero y.denominator_ne_zero
  have hnum : x.numerator * y.numerator <
      Nat.pow 2 (53 + (x.exponentField - 1075) + (53 + (y.exponentField - 1075))) :=
    calc x.numerator * y.numerator
        < Nat.pow 2 (53 + (x.exponentField - 1075)) * Nat.pow 2 (53 + (y.exponentField - 1075)) :=
          Nat.mul_lt_mul_of_lt_of_lt x.numerator_lt y.numerator_lt
      _ = Nat.pow 2 (53 + (x.exponentField - 1075) + (53 + (y.exponentField - 1075))) :=
          (Nat.pow_add ..).symm
  have hlog : (x.numerator * y.numerator).log2 < 1023 := by
    by_cases hn : x.numerator * y.numerator = 0
    · rw [hn]; decide
    · exact Nat.lt_of_lt_of_le ((Nat.log2_lt hn).2 hnum) (by omega)
  exact isSome_ofRatio? _ hden (by omega)

theorem numerator_eq_zero {x : Binary64} (h : x.code = 0) : x.numerator = 0 := by
  simp [numerator, significand, h, fieldSize_pos]

theorem code_of_ofRatio?_zero {negative : Bool} {x : Binary64} (hnum : num = 0)
    (h : ofRatio? negative num den = some x) : x.code = 0 := by
  rw [ofRatio?, if_pos hnum] at h
  obtain rfl := Option.some.inj h
  rfl

theorem code_of_mul?_zero {x y z : Binary64} (hx : x.code = 0) (h : x.mul? y = some z) :
    z.code = 0 :=
  code_of_ofRatio?_zero (by rw [numerator_eq_zero hx, Nat.zero_mul]) h

theorem code_of_div?_zero {x y z : Binary64} (hx : x.code = 0) (h : x.div? y = some z) :
    z.code = 0 := by
  rw [div?] at h
  split at h
  · cases h
  · exact code_of_ofRatio?_zero (by rw [numerator_eq_zero hx, Nat.zero_mul]) h

/-! ### Quotients of natural numbers -/

/-- The chosen field follows the logarithm of the quotient. -/
theorem le_fieldOfRatio (num den : Nat) :
    num.log2 + 1022 - den.log2 ≤ fieldOfRatio num den := by
  simp only [fieldOfRatio]
  split <;> omega

/-- A whole number other than zero is not small. -/
theorem le_exponentField_of_ofNat? {n : Nat} {x : Binary64} (hn : n ≠ 0) (h : ofNat? n = some x) :
    1021 * fieldSize ≤ x.code ∧ 1021 ≤ x.exponentField := by
  have hcode : 1021 * fieldSize ≤ x.code := by
    simp only [ofNat?, ofRatio?, if_neg hn] at h
    split at h
    · obtain rfl := Option.some.inj h
      have hfield := le_fieldOfRatio n 1
      rw [show Nat.log2 1 = 0 by decide] at hfield
      exact Nat.le_trans (Nat.mul_le_mul_right _ (by omega)) (Nat.le_add_right _ _)
    · cases h
  refine ⟨hcode, ?_⟩
  exact Nat.le_trans ((Nat.le_div_iff_mul_le fieldSize_pos).2 hcode) (Nat.le_max_left _ _)

theorem numerator_ne_zero {x : Binary64} (h : fieldSize ≤ x.code) : x.numerator ≠ 0 := by
  have hsig : x.significand ≠ 0 := by
    rw [significand, if_neg (Nat.not_lt.2 h)]
    have := fieldSize_pos
    omega
  exact Nat.mul_ne_zero hsig (Nat.ne_of_gt (Nat.two_pow_pos _))

/-- A fraction of 64-bit numbers is finite, if its divisor is not zero. -/
theorem exists_div?_ofNat? {a b : Nat} (ha : a < UInt64.size) (hb : b < UInt64.size) (hne : b ≠ 0) :
    ∃ x y z, ofNat? a = some x ∧ ofNat? b = some y ∧ x.div? y = some z := by
  obtain ⟨x, hx⟩ := Option.isSome_iff_exists.1 (isSome_ofNat? ha)
  obtain ⟨y, hy⟩ := Option.isSome_iff_exists.1 (isSome_ofNat? hb)
  obtain ⟨hcode, hfield⟩ := le_exponentField_of_ofNat? hne hy
  have hsize := fieldSize_pos
  have hden : x.denominator * y.numerator ≠ 0 :=
    Nat.mul_ne_zero x.denominator_ne_zero (numerator_ne_zero (by omega))
  have hxfield : x.exponentField ≤ 1087 := by
    have hle := exponentField_le_of_ofRatio? (by decide) hx
    have hlog := log2_lt_of_lt_size ha
    rw [show Nat.log2 1 = 0 by decide] at hle
    omega
  -- the divisor has few bits behind the point, and the dividend few before it
  have hnum : x.numerator * y.denominator < Nat.pow 2 119 :=
    calc x.numerator * y.denominator
        < Nat.pow 2 (53 + (x.exponentField - 1075)) * Nat.pow 2 (1075 - y.exponentField) :=
          Nat.mul_lt_mul_of_pos_right x.numerator_lt (Nat.two_pow_pos _)
      _ = Nat.pow 2 (53 + (x.exponentField - 1075) + (1075 - y.exponentField)) :=
          (Nat.pow_add ..).symm
      _ ≤ Nat.pow 2 119 := Nat.pow_le_pow_right (by decide) (by omega)
  have hlog : (x.numerator * y.denominator).log2 < 1023 := by
    by_cases hn : x.numerator * y.denominator = 0
    · rw [hn]; decide
    · exact Nat.lt_trans ((Nat.log2_lt hn).2 hnum) (by decide)
  obtain ⟨z, hz⟩ := Option.isSome_iff_exists.1
    (isSome_ofRatio? (x.negative != y.negative) hden (Nat.lt_add_left _ hlog))
  refine ⟨x, y, z, hx, hy, ?_⟩
  rw [div?, if_neg (by omega), hz]

end LcdHandhelds.Binary64
