import LcdHandhelds.Json.Numeral
import LcdHandhelds.Proofs.Number.Binary64

/-!
The numerals that are written: those of 64-bit numbers and of doubles are spelled as JSON allows, a
64-bit number is read back from its numeral, and that numeral is a finite double as well.
-/
namespace LcdHandhelds

/--
The double is what its own shortest numeral is read as. Where the significand has more than 53 bits,
the reader rounds twice, and may miss the double by a step.
-/
def Binary64.ReadsBack (x : Binary64) : Prop := (Numeral.ofBinary64 x).binary64? = some x

instance (x : Binary64) : Decidable x.ReadsBack :=
  inferInstanceAs (Decidable ((Numeral.ofBinary64 x).binary64? = some x))

/-- The double written as `1535.6590919672653`. -/
example : ¬ Binary64.ReadsBack ⟨false, 0x4097FEA2E90131D8, by decide⟩ := by decide +kernel

namespace Numeral

/-- Digits where they have to be, and a zero in front only where it stands alone. -/
structure WellFormed (n : Numeral) : Prop where
  whole_ne_nil : n.whole ≠ []
  whole_digits : ∀ c ∈ n.whole, c.isDigit
  whole_zero : ∀ c rest, n.whole ≠ '0' :: c :: rest
  fraction_digits : ∀ c ∈ n.fraction, c.isDigit
  exponent_ne_nil : ∀ e ∈ n.exponent, e.2 ≠ []
  exponent_digits : ∀ e ∈ n.exponent, ∀ c ∈ e.2, c.isDigit

/-- A numeral without exponent. -/
theorem WellFormed.decimal {negative : Bool} {whole fraction : List Char} (hne : whole ≠ [])
    (hwhole : ∀ c ∈ whole, c.isDigit) (hzero : ∀ c rest, whole ≠ '0' :: c :: rest)
    (hfraction : ∀ c ∈ fraction, c.isDigit) : WellFormed ⟨negative, whole, fraction, none⟩ :=
  ⟨hne, hwhole, hzero, hfraction, by simp, by simp⟩

section Digits

theorem isDigit_of_mem_toDigits {n : Nat} {c : Char} (h : c ∈ Nat.toDigits 10 n) : c.isDigit :=
  Nat.isDigit_of_mem_toDigits (by decide) (by decide) h

/-- Only zero is written with a zero in front. -/
theorem toDigits_eq_zero_cons {n : Nat} {rest : List Char}
    (h : Nat.toDigits 10 n = '0' :: rest) : n = 0 := by
  induction n using Nat.strongRecOn generalizing rest with
  | ind n ih =>
    by_cases hn : n < 10
    · rw [Nat.toDigits_of_lt_base hn] at h
      exact Nat.digitChar_eq_zero.1 (List.cons.inj h).1
    · rw [Nat.toDigits_of_base_le (by decide) (Nat.le_of_not_lt hn)] at h
      have hfront : ∃ more, Nat.toDigits 10 (n / 10) = '0' :: more := by
        cases hd : Nat.toDigits 10 (n / 10) with
        | nil => exact absurd hd Nat.toDigits_ne_nil
        | cons c more =>
          rw [hd, List.cons_append] at h
          exact ⟨more, by rw [(List.cons.inj h).1]⟩
      obtain ⟨more, hmore⟩ := hfront
      have := ih (n / 10) (by omega) hmore
      omega

theorem toDigits_zero : Nat.toDigits 10 0 = ['0'] := rfl

theorem natValue_eq (digits : List Char) : natValue digits = Nat.ofDigitChars 10 digits 0 := by
  unfold natValue Nat.ofDigitChars digitValue
  rfl

theorem natValue_toDigits (n : Nat) : natValue (Nat.toDigits 10 n) = n := by
  rw [natValue_eq, Nat.ofDigitChars_ten_toDigits]

end Digits

section OfNat

theorem WellFormed.ofNat (n : Nat) : (ofNat n).WellFormed := by
  refine .decimal Nat.toDigits_ne_nil (fun _ => isDigit_of_mem_toDigits) ?_ (by simp)
  intro c rest h
  obtain rfl := toDigits_eq_zero_cons h
  cases h

theorem uint64?_ofNat (i : UInt64) : (ofNat i.toNat).uint64? = some i := by
  have hvalue : natValue (ofNat i.toNat).whole = i.toNat := natValue_toDigits _
  have hplain : (ofNat i.toNat).negative = false ∧ (ofNat i.toNat).fraction = [] ∧
      (ofNat i.toNat).exponent = none ∧ i.toNat < UInt64.size :=
    ⟨rfl, rfl, rfl, i.toNat_lt_size⟩
  simp only [uint64?, hvalue]
  rw [if_pos hplain, UInt64.ofNat_toNat]

/-- Where the value has room in 64 bits, every digit goes into the significand. -/
theorem takeWhole_eq {n : Nat} {digits : List Char}
    (h : digits.foldl (fun n c => 10 * n + digitValue c) n < UInt64.size) :
    takeWhole n digits = (digits.foldl (fun n c => 10 * n + digitValue c) n, 0) := by
  induction digits generalizing n with
  | nil => rw [takeWhole, List.foldl_nil]
  | cons c digits ih =>
    rw [List.foldl_cons] at h ⊢
    have hroom : 10 * n + digitValue c < UInt64.size :=
      Nat.lt_of_le_of_lt (le_foldl digits _) h
    have hgrow : grow? n c = some (10 * n + digitValue c) := by
      simp only [grow?, hroom, ↓reduceIte]
    simp only [takeWhole, hgrow]
    exact ih h
where
  le_foldl (digits : List Char) (n : Nat) :
      n ≤ digits.foldl (fun n c => 10 * n + digitValue c) n := by
    induction digits generalizing n with
    | nil => exact Nat.le_refl _
    | cons c digits ih => exact Nat.le_trans (by omega) (ih (10 * n + digitValue c))

theorem parts_ofNat {n : Nat} (h : n < UInt64.size) : (ofNat n).parts = (n, 0) := by
  have hvalue : (Nat.toDigits 10 n).foldl (fun n c => 10 * n + digitValue c) 0 = n :=
    natValue_toDigits n
  have hwhole : takeWhole 0 (Nat.toDigits 10 n) = (n, 0) := by
    rw [takeWhole_eq (hvalue.symm ▸ h), hvalue]
  simp [parts, hwhole, ofNat, takeFraction]

theorem scaled?_ofNat {significand k : Nat} (h : k ≤ 308) :
    scaled? significand (Int.ofNat k) =
      (Binary64.ofNat? significand).bind fun x => x.mul? (powerOfTen k) := by
  simp only [scaled?, h, ↓reduceIte, Option.bind_eq_bind]

theorem isSome_binary64?_ofNat {n : Nat} (h : n < UInt64.size) :
    (ofNat n).binary64?.isSome := by
  have hlog := Binary64.log2_lt_of_lt_size h
  obtain ⟨x, hx⟩ := Option.isSome_iff_exists.1 (Binary64.isSome_ofNat? h)
  have hfield := Binary64.exponentField_le_of_ofRatio? (by decide) hx
  have hone : (powerOfTen 0).exponentField = 1023 := by decide +kernel
  have hroom : (x.exponentField - 1075) + ((powerOfTen 0).exponentField - 1075) ≤ 917 := by
    rw [hone]
    omega
  obtain ⟨y, hy⟩ := Option.isSome_iff_exists.1 (Binary64.isSome_mul? hroom)
  have hscaled : scaled? n (Int.ofNat 0) = some y := by
    rw [scaled?_ofNat (Nat.zero_le _), hx, Option.bind_some, hy]
  have hparts : (ofNat n).parts = (n, Int.ofNat 0) := parts_ofNat h
  simp only [binary64?, hparts, hscaled, Option.bind_eq_bind, Option.bind_some, Option.pure_def,
    Option.isSome_some]

end OfNat

section Zero

theorem code_of_scaleDown {times : Nat} {x y : Binary64} (hx : x.code = 0)
    (h : scaleDown times x = some y) : y.code = 0 := by
  cases times with
  | zero =>
    obtain rfl := Option.some.inj h
    exact hx
  | succ times =>
    rw [scaleDown, if_pos hx] at h
    obtain rfl := Option.some.inj h
    exact hx

/-- No power of ten makes zero anything else. -/
theorem code_of_scaled?_zero {exponent : Int} {y : Binary64} (h : scaled? 0 exponent = some y) :
    y.code = 0 := by
  rw [scaled?] at h
  obtain ⟨x, hx, h⟩ := Option.bind_eq_some_iff.1 h
  have hcode : x.code = 0 := Binary64.code_of_ofRatio?_zero rfl hx
  cases exponent with
  | ofNat k =>
    simp only [hcode, ↓reduceIte] at h
    split at h
    · exact Binary64.code_of_mul?_zero hcode h
    · obtain rfl := Option.some.inj h
      exact hcode
  | negSucc k =>
    obtain ⟨z, hz, h⟩ := Option.bind_eq_some_iff.1 h
    exact Binary64.code_of_div?_zero (code_of_scaleDown hcode hz) h

theorem grow?_zero : grow? 0 '0' = some 0 := by decide +kernel

theorem takeWhole_zeros {digits : List Char} (h : ∀ c ∈ digits, c = '0') :
    (takeWhole 0 digits).1 = 0 := by
  induction digits with
  | nil => rw [takeWhole]
  | cons c digits ih =>
    obtain ⟨rfl, hdigits⟩ := List.forall_mem_cons.1 h
    simpa only [takeWhole, grow?_zero] using ih hdigits

theorem takeFraction_zeros {digits : List Char} (h : ∀ c ∈ digits, c = '0') :
    (takeFraction 0 digits).1 = 0 := by
  induction digits with
  | nil => rw [takeFraction]
  | cons c digits ih =>
    obtain ⟨rfl, hdigits⟩ := List.forall_mem_cons.1 h
    simpa only [takeFraction, grow?_zero] using ih hdigits

/-- A numeral without another digit than zero before its exponent is read as zero. -/
theorem code_of_binary64?_zeros {n : Numeral} {x : Binary64}
    (hwhole : ∀ c ∈ n.whole, c = '0') (hfraction : ∀ c ∈ n.fraction, c = '0')
    (h : n.binary64? = some x) : x.code = 0 := by
  obtain ⟨y, hy, hx⟩ := Option.bind_eq_some_iff.1 h
  have hsignificand : n.parts.1 = 0 := by
    simp only [parts, takeWhole_zeros hwhole, takeFraction_zeros hfraction]
  rw [hsignificand] at hy
  have hcode := code_of_scaled?_zero hy
  obtain rfl := Option.some.inj hx
  split
  · exact hcode
  · exact hcode

end Zero

section OfBinary64

variable {digits : List Char}

theorem isDigit_zero : ∀ c ∈ ['0'], c.isDigit := List.forall_mem_singleton.2 (by decide)

theorem wellFormed_plain (negative : Bool) (exponent : Int) (hne : digits ≠ [])
    (hdigits : ∀ c ∈ digits, c.isDigit) (hlead : ∀ rest, digits ≠ '0' :: rest) :
    (plain negative digits exponent).WellFormed := by
  have hzeros : ∀ {n : Nat}, ∀ c ∈ List.replicate n '0', c.isDigit := by
    intro n c hc
    rw [List.eq_of_mem_replicate hc]
    decide
  simp only [plain]
  split
  · refine .decimal (by simp [hne]) (List.forall_mem_append.2 ⟨hdigits, hzeros⟩) ?_ isDigit_zero
    intro c rest h
    obtain ⟨d, more, rfl⟩ := List.exists_cons_of_ne_nil hne
    exact hlead more (by rw [(List.cons.inj h).1])
  · split
    · refine .decimal ?_ (fun c hc => hdigits c (List.mem_of_mem_take hc)) ?_
        fun c hc => hdigits c (List.mem_of_mem_drop hc)
      · exact fun h => (List.take_eq_nil_iff.1 h).elim (by omega) hne
      · intro c rest h
        have happ := List.take_append_drop (digits.length - (-exponent).toNat) digits
        rw [h] at happ
        exact hlead _ happ.symm
    · exact .decimal (by simp) isDigit_zero (by simp)
        (List.forall_mem_append.2 ⟨hzeros, hdigits⟩)

theorem wellFormed_scientific (negative : Bool) (leading : Int) (hne : digits ≠ [])
    (hdigits : ∀ c ∈ digits, c.isDigit) : (scientific negative digits leading).WellFormed where
  whole_ne_nil := by simp [scientific, hne]
  whole_digits c hc := hdigits c (List.mem_of_mem_take hc)
  whole_zero c rest h := by
    have hlength := congrArg List.length h
    simp [scientific] at hlength
    omega
  fraction_digits c hc := hdigits c (List.mem_of_mem_drop hc)
  exponent_ne_nil := by simp [scientific, Nat.toDigits_ne_nil]
  exponent_digits e he := by
    obtain rfl := Option.some.inj he
    exact fun c => isDigit_of_mem_toDigits

/-- The shortest decimal has no digit but zero only for zero, if it reads back. -/
theorem shortest_of_digits_zero {x : Binary64} (h : x.ReadsBack)
    (hzero : x.shortest.digits = 0) : x.shortest = ⟨0, 0⟩ := by
  have hall : (∀ c ∈ (ofBinary64 x).whole, c = '0') ∧ ∀ c ∈ (ofBinary64 x).fraction, c = '0' := by
    have hz : ∀ c ∈ ['0'], c = '0' := by simp
    simp only [ofBinary64, hzero, toDigits_zero, plain, scientific]
    split
    · split
      · simp
      · split
        · exact ⟨fun c hc => hz c (List.mem_of_mem_take hc),
            fun c hc => hz c (List.mem_of_mem_drop hc)⟩
        · exact ⟨hz, List.forall_mem_append.2 ⟨fun _ => List.eq_of_mem_replicate, hz⟩⟩
    · simp
  have hcode := code_of_binary64?_zeros hall.1 hall.2 h
  rw [Binary64.shortest, if_pos hcode]

theorem WellFormed.ofBinary64 {x : Binary64} (h : x.ReadsBack) : (ofBinary64 x).WellFormed := by
  by_cases hzero : x.shortest.digits = 0
  · have hshortest := shortest_of_digits_zero h hzero
    have hnumeral : Numeral.ofBinary64 x = ⟨x.negative, ['0'], ['0'], none⟩ := by
      simp [Numeral.ofBinary64, hshortest, plainRange, plain]
    rw [hnumeral]
    exact .decimal (by simp) isDigit_zero (by simp) isDigit_zero
  · have hlead : ∀ rest, Nat.toDigits 10 x.shortest.digits ≠ '0' :: rest :=
      fun _ hd => hzero (toDigits_eq_zero_cons hd)
    simp only [Numeral.ofBinary64]
    split
    · exact wellFormed_plain _ _ Nat.toDigits_ne_nil (fun _ => isDigit_of_mem_toDigits) hlead
    · exact wellFormed_scientific _ _ Nat.toDigits_ne_nil fun _ => isDigit_of_mem_toDigits

end OfBinary64

end Numeral

end LcdHandhelds
