import Mathlib.Algebra.Order.Field.Basic
import Mathlib.Algebra.Order.Field.Power
import Mathlib.Algebra.Order.Field.Rat
import Mathlib.Algebra.Ring.Parity
import Mathlib.Tactic.FieldSimp
import Mathlib.Tactic.Linarith
import Mathlib.Tactic.NormNum
import Mathlib.Tactic.Ring
import LcdHandhelds.Proofs.Number.Binary64

/-!
Doubles as the rational numbers that they are. Magnitudes grow with their codes, past the finite
ones as before them, and of each number one code is the nearest, the even one where two are as near
(`IsNearest`). A whole number, a product and a quotient are rounded to this code, and have no double
if it is not finite: `ofRatio?_eq_some_iff`, `ofRatio?_eq_none_iff`.
-/
namespace LcdHandhelds.Binary64

/-! ### Magnitudes -/

/-- The exponent field of a code. The field 0 has the exponent of the next one. -/
def codeField (code : Nat) : Nat := max (code / fieldSize) 1

def codeSignificand (code : Nat) : Nat :=
  if code < fieldSize then code else fieldSize + code % fieldSize

/-- The distance of two magnitudes with one exponent field. -/
def spacing (field : Nat) : ℚ := 2 ^ ((field : ℤ) - 1075)

def codeMagnitude (code : Nat) : ℚ := codeSignificand code * spacing (codeField code)

/-- The number without its sign. -/
def magnitude (x : Binary64) : ℚ := codeMagnitude x.code

/-- No code is nearer to the number, and a code that is as near as another is even. -/
structure IsNearest (q : ℚ) (code : Nat) : Prop where
  least : ∀ other, |codeMagnitude code - q| ≤ |codeMagnitude other - q|
  even : ∀ other ≠ code, |codeMagnitude code - q| = |codeMagnitude other - q| → Even code

theorem spacing_pos (field : Nat) : 0 < spacing field := zpow_pos two_pos _

theorem spacing_succ (field : Nat) : spacing (field + 1) = 2 * spacing field := by
  rw [spacing, spacing, Nat.cast_add_one, add_sub_right_comm, zpow_add_one₀ two_ne_zero, mul_comm]

theorem spacing_eq (field : Nat) :
    spacing field = 2 ^ (field - 1075) / 2 ^ (1075 - field) := by
  rw [spacing, eq_div_iff (pow_ne_zero _ two_ne_zero), ← zpow_natCast, ← zpow_natCast,
    ← zpow_add₀ two_ne_zero]
  congr 1
  omega

theorem magnitude_eq (x : Binary64) : x.magnitude = x.numerator / x.denominator := by
  change (x.significand : ℚ) * spacing x.exponentField = _
  rw [spacing_eq, numerator, denominator, Nat.pow_eq, Nat.pow_eq]
  push_cast
  ring

/-- Every code has an exponent field and a significand, of 53 bits or with the least field. -/
theorem exists_split (code : Nat) :
    ∃ k r, code = k * fieldSize + r ∧ r < 2 * fieldSize ∧ (k = 0 ∨ fieldSize ≤ r) := by
  by_cases h : code < fieldSize
  · exact ⟨0, code, by omega, by omega, .inl rfl⟩
  · have hpos := fieldSize_pos
    have hdiv := Nat.div_add_mod code fieldSize
    have hmod := Nat.mod_lt code hpos
    have hone : 1 ≤ code / fieldSize := (Nat.one_le_div_iff hpos).2 (Nat.le_of_not_lt h)
    obtain ⟨k, hk⟩ := Nat.exists_eq_add_of_le' hone
    refine ⟨k, fieldSize + code % fieldSize, ?_, by omega, .inr (Nat.le_add_right _ _)⟩
    rw [hk, Nat.mul_comm, Nat.add_mul, Nat.one_mul] at hdiv
    omega

/-- The significand may be carried over into the next field. -/
theorem codeMagnitude_split {k r : Nat} (hr : r ≤ 2 * fieldSize) (h : k = 0 ∨ fieldSize ≤ r) :
    codeMagnitude (k * fieldSize + r) = r * spacing (k + 1) := by
  have hpos := fieldSize_pos
  rcases Nat.lt_or_ge r fieldSize with hlt | hge
  · obtain rfl : k = 0 := by omega
    rw [Nat.zero_mul, Nat.zero_add, codeMagnitude, codeSignificand, if_pos hlt, codeField,
      Nat.div_eq_of_lt hlt]
    rfl
  · have hcode : ¬ k * fieldSize + r < fieldSize := by
      have := Nat.zero_le (k * fieldSize)
      omega
    rw [codeMagnitude, codeSignificand, if_neg hcode, codeField]
    rcases Nat.lt_or_ge r (2 * fieldSize) with hlt | hfull
    · obtain ⟨m, rfl⟩ := Nat.exists_eq_add_of_le hge
      have hm : m < fieldSize := by omega
      rw [← Nat.add_assoc, ← Nat.succ_mul, Nat.add_comm _ m, Nat.add_mul_mod_self_right,
        Nat.mod_eq_of_lt hm, Nat.add_mul_div_right _ _ hpos, Nat.div_eq_of_lt hm, Nat.zero_add,
        Nat.max_eq_left (Nat.succ_le_succ (Nat.zero_le k)), Nat.add_comm fieldSize m]
    · obtain rfl : r = 2 * fieldSize := by omega
      rw [← Nat.add_mul, Nat.mul_mod_left, Nat.mul_div_cancel _ hpos, Nat.max_eq_left (by omega),
        spacing_succ]
      push_cast
      ring

theorem strictMono_codeMagnitude : StrictMono codeMagnitude := by
  refine strictMono_nat_of_lt_succ fun code => ?_
  obtain ⟨k, r, rfl, hr, hk⟩ := exists_split code
  rw [Nat.add_assoc, codeMagnitude_split hr.le hk, codeMagnitude_split hr (by omega)]
  push_cast
  have := spacing_pos (k + 1)
  linarith

/-! ### Rounding to a whole number -/

theorem le_roundHalfEven (num den : Nat) : num / den ≤ roundHalfEven num den := by
  rw [roundHalfEven]
  split
  · exact le_rfl
  · split
    · exact Nat.le_succ _
    · exact Nat.le_add_right _ _

theorem div_eq_add_mod_div (num : Nat) {den : Nat} (hden : 0 < den) :
    (num : ℚ) / den = (num / den : ℕ) + (num % den : ℕ) / den := by
  have hpos : (0 : ℚ) < den := Nat.cast_pos.2 hden
  have hdiv : ((den * (num / den) + num % den : ℕ) : ℚ) = num := by rw [Nat.div_add_mod]
  push_cast at hdiv
  field_simp
  linarith

theorem div_lt_half_iff (rest : Nat) {den : Nat} (hden : 0 < den) :
    2 * rest < den ↔ (rest : ℚ) / den < 1 / 2 := by
  rw [div_lt_div_iff₀ (Nat.cast_pos.2 hden) two_pos, one_mul, mul_comm (rest : ℚ)]
  exact_mod_cast Iff.rfl

theorem half_lt_div_iff (rest : Nat) {den : Nat} (hden : 0 < den) :
    den < 2 * rest ↔ 1 / 2 < (rest : ℚ) / den := by
  rw [div_lt_div_iff₀ two_pos (Nat.cast_pos.2 hden), one_mul, mul_comm (rest : ℚ)]
  exact_mod_cast Iff.rfl

/-- The nearest whole number is at most a half away, and is even where it is a half away. -/
theorem roundHalfEven_near (num : Nat) {den : Nat} (hden : 0 < den) :
    |(roundHalfEven num den : ℚ) - num / den| ≤ 1 / 2 ∧
      (|(roundHalfEven num den : ℚ) - num / den| = 1 / 2 → Even (roundHalfEven num den)) := by
  have hpos : (0 : ℚ) < den := Nat.cast_pos.2 hden
  rw [div_eq_add_mod_div num hden, roundHalfEven]
  generalize num / den = q
  have hx : ((num % den : ℕ) : ℚ) / den < 1 :=
    (div_lt_one hpos).2 (by exact_mod_cast Nat.mod_lt _ hden)
  have hx0 : (0 : ℚ) ≤ ((num % den : ℕ) : ℚ) / den := by positivity
  have hlt := div_lt_half_iff (num % den) hden
  have hgt := half_lt_div_iff (num % den) hden
  generalize ((num % den : ℕ) : ℚ) / den = x at *
  split
  next h =>
    rw [hlt] at h
    rw [abs_of_nonpos (by linarith)]
    exact ⟨by linarith, fun heq => by linarith⟩
  next h =>
    split
    next h' =>
      rw [hgt] at h'
      push_cast
      rw [abs_of_nonneg (by linarith)]
      exact ⟨by linarith, fun heq => by linarith⟩
    next h' =>
      rw [hlt] at h
      rw [hgt] at h'
      obtain rfl : x = 1 / 2 := by linarith
      have heven : Even (q + q % 2) := by
        rw [Nat.even_iff]
        omega
      refine ⟨?_, fun _ => heven⟩
      rcases Nat.mod_two_eq_zero_or_one q with hq | hq <;> rw [hq] <;> push_cast <;>
        norm_num [abs_le]

/-- No other whole number is nearer, and none is as near unless the result is even. -/
theorem roundHalfEven_least {num den : Nat} (hden : 0 < den) {k : Nat}
    (hk : k ≠ roundHalfEven num den) :
    |(roundHalfEven num den : ℚ) - num / den| ≤ |(k : ℚ) - num / den| ∧
      (|(roundHalfEven num den : ℚ) - num / den| = |(k : ℚ) - num / den| →
        Even (roundHalfEven num den)) := by
  obtain ⟨hnear, heven⟩ := roundHalfEven_near num hden
  have hapart : (1 : ℚ) ≤ |(k : ℚ) - roundHalfEven num den| := by
    have hint : (k : ℤ) - roundHalfEven num den ≠ 0 := by omega
    exact_mod_cast Int.one_le_abs hint
  have htriangle := abs_sub_le (k : ℚ) (num / den) (roundHalfEven num den)
  rw [abs_sub_comm (num / den : ℚ)] at htriangle
  exact ⟨by linarith, fun heq => heven (by linarith)⟩

/-! ### The nearest code -/

/-- Too many bits by the logarithms. -/
theorem not_fits_of_log2 {num den bits field : Nat} (hnum : num ≠ 0)
    (h : bits + den.log2 + 1 + (field - 1075) ≤ num.log2 + (1075 - field)) :
    ¬ Fits num den (Nat.pow 2 bits) field := by
  refine Nat.not_lt.2 ?_
  simp only [Nat.pow_eq]
  calc 2 ^ bits * (den * 2 ^ (field - 1075))
      ≤ 2 ^ bits * (2 ^ (den.log2 + 1) * 2 ^ (field - 1075)) :=
        Nat.mul_le_mul_left _ (Nat.mul_le_mul_right _ Nat.lt_log2_self.le)
    _ = 2 ^ (bits + (den.log2 + 1 + (field - 1075))) := by
        rw [← Nat.pow_add, ← Nat.pow_add]
    _ ≤ 2 ^ (num.log2 + (1075 - field)) := Nat.pow_le_pow_right (by decide) (by omega)
    _ ≤ num * 2 ^ (1075 - field) := by
        rw [Nat.pow_add]
        exact Nat.mul_le_mul_right _ (Nat.log2_self_le hnum)

/-- A field above the least one is full: the significand has its 53 bits. -/
theorem not_fits_fieldOfRatio {num : Nat} (den : Nat) (hnum : num ≠ 0)
    (h : fieldOfRatio num den ≠ 1) :
    ¬ Fits num den fieldSize (fieldOfRatio num den) := by
  simp only [fieldOfRatio] at h ⊢
  split at h
  next hshort =>
    rw [if_pos hshort]
    exact not_fits_of_log2 hnum (by omega)
  next hshort =>
    rw [if_neg hshort, Nat.max_eq_left (by omega)]
    exact hshort

theorem abs_mul_sub_mul (a s : ℚ) {u : ℚ} (hu : 0 < u) : |a * u - s * u| = |a - s| * u := by
  rw [← sub_mul, abs_mul, abs_of_pos hu]

/-- Where a significand belongs to a field, one of the field is as near to it as any code is. -/
theorem exists_near {k : Nat} {s : ℚ} (hupper : s < 2 * fieldSize)
    (hlower : k = 0 ∨ fieldSize ≤ s) (code : Nat) :
    ∃ r : ℕ, |r - s| * spacing (k + 1) ≤ |codeMagnitude code - s * spacing (k + 1)| ∧
      (|r - s| * spacing (k + 1) = |codeMagnitude code - s * spacing (k + 1)| →
        code = k * fieldSize + r) := by
  have hu := spacing_pos (k + 1)
  simp only [← abs_mul_sub_mul _ s hu]
  have hs := mul_lt_mul_of_pos_right hupper hu
  rcases Nat.lt_or_ge code (k * fieldSize + 2 * fieldSize) with hlt | hge
  · by_cases hless : k ≠ 0 ∧ code < k * fieldSize + fieldSize
    · -- a smaller field, and the significand is not below the least one of this field
      have hlow := mul_le_mul_of_nonneg_right (hlower.resolve_left hless.1) hu.le
      have hmag := strictMono_codeMagnitude hless.2
      rw [codeMagnitude_split (by omega) (.inr le_rfl)] at hmag
      refine ⟨fieldSize, ?_⟩
      rw [abs_of_nonpos (by linarith), abs_of_nonpos (by linarith)]
      exact ⟨by linarith, fun heq => by linarith⟩
    · have hfield : k * fieldSize ≤ code ∧ (k = 0 ∨ k * fieldSize + fieldSize ≤ code) := by
        rcases Nat.eq_zero_or_pos k with rfl | hk
        · exact ⟨by omega, .inl rfl⟩
        · exact ⟨by omega, .inr (by omega)⟩
      obtain ⟨r, rfl⟩ := Nat.exists_eq_add_of_le hfield.1
      refine ⟨r, ?_⟩
      rw [codeMagnitude_split (by omega) (by omega)]
      exact ⟨le_rfl, fun _ => rfl⟩
  · have htop : codeMagnitude (k * fieldSize + 2 * fieldSize) =
        (2 * fieldSize : ℕ) * spacing (k + 1) :=
      codeMagnitude_split le_rfl (.inr (by omega))
    have hmag := strictMono_codeMagnitude.monotone hge
    rw [htop] at hmag
    refine ⟨2 * fieldSize, ?_⟩
    push_cast at htop hmag ⊢
    rw [abs_of_nonneg (by linarith), abs_of_nonneg (by linarith)]
    exact ⟨by linarith, fun heq => strictMono_codeMagnitude.injective (by linarith)⟩

/-- A significand that is rounded to nearest is that of the nearest code. -/
theorem isNearest_of_grid {k n d : Nat} (hd : 0 < d) (hupper : n < 2 * fieldSize * d)
    (hlower : k = 0 ∨ fieldSize * d ≤ n) :
    IsNearest (n / d * spacing (k + 1)) (k * fieldSize + roundHalfEven n d) := by
  have hu := spacing_pos (k + 1)
  have hdq : (0 : ℚ) < d := Nat.cast_pos.2 hd
  have hcode : codeMagnitude (k * fieldSize + roundHalfEven n d) =
      roundHalfEven n d * spacing (k + 1) := by
    refine codeMagnitude_split (roundHalfEven_le hd hupper) (hlower.imp_right fun h => ?_)
    exact ((Nat.le_div_iff_mul_le hd).2 h).trans (le_roundHalfEven n d)
  have hnear := exists_near (k := k) (s := n / d) ((div_lt_iff₀ hdq).2 (by exact_mod_cast hupper))
    (hlower.imp_right fun h => (le_div_iff₀ hdq).2 (by exact_mod_cast h))
  have hleast : ∀ r : ℕ, |(roundHalfEven n d : ℚ) - n / d| * spacing (k + 1) ≤
      |(r : ℚ) - n / d| * spacing (k + 1) := by
    intro r
    by_cases hr : r = roundHalfEven n d
    · rw [hr]
    · exact mul_le_mul_of_nonneg_right (roundHalfEven_least hd hr).1 hu.le
  refine ⟨fun other => ?_, fun other hother htie => ?_⟩ <;>
    rw [hcode, abs_mul_sub_mul _ _ hu] at *
  · obtain ⟨r, hle, -⟩ := hnear other
    exact (hleast r).trans hle
  · obtain ⟨r, hle, heq⟩ := hnear other
    have hr : r ≠ roundHalfEven n d := by
      rintro rfl
      exact hother (heq htie)
    have hsame : |(roundHalfEven n d : ℚ) - n / d| = |(r : ℚ) - n / d| :=
      mul_right_cancel₀ hu.ne' ((hleast r).antisymm (hle.trans htie.ge))
    have heven : Even fieldSize := by decide
    exact (heven.mul_left k).add ((roundHalfEven_least hd hr).2 hsame)

theorem isNearest_codeOfRatio {num den : Nat} (hnum : num ≠ 0) (hden : den ≠ 0) :
    IsNearest (num / den) (codeOfRatio num den) := by
  obtain ⟨k, hk⟩ : ∃ k, fieldOfRatio num den = k + 1 :=
    ⟨fieldOfRatio num den - 1, by simp only [fieldOfRatio]; omega⟩
  have hupper := fits_fieldOfRatio num hden
  have hfull := not_fits_fieldOfRatio den hnum
  rw [hk] at hupper hfull
  have hdpos : 0 < den * Nat.pow 2 (k + 1 - 1075) :=
    Nat.mul_pos (Nat.pos_of_ne_zero hden) (Nat.two_pow_pos _)
  have hlower : k = 0 ∨ fieldSize * (den * Nat.pow 2 (k + 1 - 1075)) ≤
      num * Nat.pow 2 (1075 - (k + 1)) := by
    rcases Nat.eq_zero_or_pos k with rfl | hpos
    · exact .inl rfl
    · exact .inr (Nat.le_of_not_lt (hfull (by omega)))
  have hquotient : (num : ℚ) / den = (num * Nat.pow 2 (1075 - (k + 1)) : ℕ) /
      (den * Nat.pow 2 (k + 1 - 1075) : ℕ) * spacing (k + 1) := by
    have hdenq : (den : ℚ) ≠ 0 := Nat.cast_ne_zero.2 hden
    rw [spacing_eq]
    simp only [Nat.pow_eq]
    push_cast
    field_simp
  rw [hquotient, codeOfRatio, hk]
  exact isNearest_of_grid hdpos hupper hlower

/-- Two codes as near as any others are even, and then there is a code between them. -/
theorem IsNearest.unique {q : ℚ} {code other : Nat} (h : IsNearest q code)
    (h' : IsNearest q other) : code = other := by
  by_contra hne
  wlog hlt : code < other generalizing code other
  · exact this h' h (Ne.symm hne) (by omega)
  have hsame := (h.least other).antisymm (h'.least code)
  obtain ⟨a, ha⟩ := h.even other (Ne.symm hne) hsame
  obtain ⟨b, hb⟩ := h'.even code hne hsame.symm
  have hbelow := strictMono_codeMagnitude (Nat.lt_succ_self code)
  have habove := strictMono_codeMagnitude (show code + 1 < other by omega)
  rcases abs_eq_abs.1 hsame with heq | heq
  · linarith
  · refine absurd (h.least (code + 1)) (not_le.2 ?_)
    rw [abs_of_neg (show codeMagnitude code - q < 0 by linarith), abs_lt]
    constructor <;> linarith

theorem codeMagnitude_zero : codeMagnitude 0 = 0 := by
  simp [codeMagnitude, codeSignificand, fieldSize_pos]

theorem isNearest_zero : IsNearest 0 0 := by
  refine ⟨fun other => ?_, fun _ _ _ => Even.zero⟩
  rw [codeMagnitude_zero, sub_zero, abs_zero]
  exact abs_nonneg _

theorem magnitude_eq_zero_iff {x : Binary64} : x.magnitude = 0 ↔ x.code = 0 := by
  rw [magnitude, ← codeMagnitude_zero, strictMono_codeMagnitude.injective.eq_iff]

section Quotients

variable {negative : Bool} {num den : Nat}

/-- A quotient is rounded to the nearest code, which has to be a finite one. -/
theorem ofRatio?_of_isNearest (hden : den ≠ 0) {code : Nat} (h : IsNearest (num / den) code) :
    ofRatio? negative num den =
      if h : code < infinityCode then some ⟨negative, code, h⟩ else none := by
  rw [ofRatio?]
  split
  next hnum =>
    rw [hnum, Nat.cast_zero, zero_div] at h
    obtain rfl := h.unique isNearest_zero
    rw [dif_pos (by decide)]
  next hnum =>
    simp only [h.unique (isNearest_codeOfRatio hnum hden)]

theorem exists_isNearest (num : Nat) (hden : den ≠ 0) : ∃ code, IsNearest (num / den) code := by
  by_cases hnum : num = 0
  · rw [hnum, Nat.cast_zero, zero_div]
    exact ⟨0, isNearest_zero⟩
  · exact ⟨_, isNearest_codeOfRatio hnum hden⟩

/-- The double of a quotient is the nearest one, and the even one of two that are as near. -/
theorem ofRatio?_eq_some_iff (hden : den ≠ 0) {x : Binary64} :
    ofRatio? negative num den = some x ↔
      x.negative = negative ∧ IsNearest (num / den) x.code := by
  obtain ⟨code, hcode⟩ := exists_isNearest num hden
  rw [ofRatio?_of_isNearest hden hcode]
  constructor
  · intro h
    split at h
    · obtain rfl := Option.some.inj h
      exact ⟨rfl, hcode⟩
    · cases h
  · rintro ⟨rfl, hx⟩
    obtain rfl := hcode.unique hx
    rw [dif_pos x.code_lt]

theorem ofRatio?_eq_none_iff (hden : den ≠ 0) :
    ofRatio? negative num den = none ↔
      ∃ code, infinityCode ≤ code ∧ IsNearest (num / den) code := by
  obtain ⟨code, hcode⟩ := exists_isNearest num hden
  rw [ofRatio?_of_isNearest hden hcode]
  constructor
  · intro h
    split at h
    · cases h
    next hlarge => exact ⟨code, Nat.le_of_not_lt hlarge, hcode⟩
  · rintro ⟨other, hlarge, hother⟩
    obtain rfl := hcode.unique hother
    rw [dif_neg (Nat.not_lt.2 hlarge)]

end Quotients

/-! ### Numbers, products and quotients -/

theorem ofNat?_eq_some_iff {n : Nat} {x : Binary64} :
    ofNat? n = some x ↔ x.negative = false ∧ IsNearest n x.code := by
  rw [ofNat?, ofRatio?_eq_some_iff one_ne_zero, Nat.cast_one, div_one]

theorem mul?_eq_some_iff {x y z : Binary64} :
    x.mul? y = some z ↔ z.negative = (x.negative != y.negative) ∧
      IsNearest (x.magnitude * y.magnitude) z.code := by
  rw [mul?, ofRatio?_eq_some_iff (Nat.mul_ne_zero x.denominator_ne_zero y.denominator_ne_zero),
    magnitude_eq, magnitude_eq]
  push_cast
  rw [div_mul_div_comm]

theorem div?_eq_some_iff {x y z : Binary64} :
    x.div? y = some z ↔ y.magnitude ≠ 0 ∧ z.negative = (x.negative != y.negative) ∧
      IsNearest (x.magnitude / y.magnitude) z.code := by
  rw [div?, Ne, magnitude_eq_zero_iff]
  split
  next hzero => simp [hzero]
  next hne =>
    have hmagnitude : (y.numerator : ℚ) / y.denominator ≠ 0 := by
      rwa [← magnitude_eq, Ne, magnitude_eq_zero_iff]
    have hnum : y.numerator ≠ 0 := by
      intro hzero
      rw [hzero, Nat.cast_zero, zero_div] at hmagnitude
      exact hmagnitude rfl
    rw [ofRatio?_eq_some_iff (Nat.mul_ne_zero x.denominator_ne_zero hnum), magnitude_eq,
      magnitude_eq, div_div_div_eq]
    push_cast
    exact (and_iff_right hne).symm

end LcdHandhelds.Binary64
