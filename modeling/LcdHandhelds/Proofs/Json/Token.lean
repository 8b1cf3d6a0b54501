import LcdHandhelds.Json.Printer
import LcdHandhelds.Json.Reader
import LcdHandhelds.Proofs.Json.Numeral
import LcdHandhelds.Proofs.List

/-!
Numerals and strings are read back from the texts that are written for them: a string before any
text, a numeral before a text that does not go on like a numeral.
-/
namespace LcdHandhelds

namespace Numeral

/-- The point and what stands behind it. -/
def fractionText (n : Numeral) : List Char :=
  if n.fraction = [] then [] else '.' :: n.fraction

/-- The exponent with its letter and its sign. -/
def exponentText (n : Numeral) : List Char :=
  match n.exponent with
  | none => []
  | some (negative, digits) => 'e' :: (if negative then '-' else '+') :: digits

theorem text_eq (n : Numeral) :
    n.text = (if n.negative then ['-'] else []) ++ n.whole ++ n.fractionText ++ n.exponentText :=
  rfl

/-- A numeral begins with its sign or a digit. -/
theorem WellFormed.exists_text {n : Numeral} (h : n.WellFormed) :
    ∃ c more, n.text = c :: more ∧ ∀ d : Char, d ≠ '-' → d.isDigit = false → c ≠ d := by
  obtain ⟨c, more, hwhole⟩ := List.exists_cons_of_ne_nil h.whole_ne_nil
  rw [text_eq, hwhole]
  cases n.negative with
  | true => exact ⟨'-', _, rfl, fun d hminus _ => hminus.symm⟩
  | false =>
    refine ⟨c, _, rfl, ?_⟩
    rintro d - hd rfl
    rw [h.whole_digits c (by simp [hwhole])] at hd
    cases hd

end Numeral

namespace Json.Reader

/-- The text is at its end or goes on with a character outside the class. -/
def Stops (p : Char → Bool) (text : List Char) : Prop := ∀ c ∈ text.head?, p c = false

@[simp] theorem stops_nil (p : Char → Bool) : Stops p [] := by simp [Stops]

@[simp] theorem stops_cons {p : Char → Bool} {c : Char} {text : List Char} :
    Stops p (c :: text) ↔ p c = false := by
  simp [Stops]

theorem Stops.mono {p q : Char → Bool} {text : List Char} (h : Stops q text)
    (hpq : ∀ c, q c = false → p c = false) : Stops p text :=
  fun c hc => hpq c (h c hc)

section Numerals

/-- What a numeral could go on with. -/
def inNumeral (c : Char) : Bool := c.isDigit || c == '.' || c == 'e' || c == 'E'

theorem inNumeral_eq_false {c : Char} (h : inNumeral c = false) :
    c.isDigit = false ∧ c ≠ '.' ∧ c ≠ 'e' ∧ c ≠ 'E' := by
  simpa [inNumeral, and_assoc] using h

theorem digits?_append {digits text : List Char} (hne : digits ≠ [])
    (hdigits : ∀ c ∈ digits, c.isDigit) (htext : Stops Char.isDigit text) :
    digits? (digits ++ text) = some (digits, text) := by
  obtain ⟨c, more, rfl⟩ := List.exists_cons_of_ne_nil hne
  simp only [digits?, takeWhile_append_of_stop hdigits htext, dropWhile_append_of_stop hdigits htext]

variable {n : Numeral} {text : List Char}

theorem whole?_append (h : n.WellFormed) (htext : Stops Char.isDigit text) :
    whole? (n.whole ++ text) = some (n.whole, text) := by
  rw [whole?, digits?_append h.whole_ne_nil h.whole_digits htext]
  split
  · rename_i c more _ heq
    exact absurd (Prod.mk.inj (Option.some.inj heq)).1 (h.whole_zero c more)
  · rfl

theorem fraction?_append (h : n.WellFormed) (htext : Stops Char.isDigit text)
    (hpoint : Stops (· == '.') text) :
    fraction? (n.fractionText ++ text) = some (n.fraction, text) := by
  rw [Numeral.fractionText]
  split
  · rename_i hnone
    cases text with
    | nil => rw [hnone]; rfl
    | cons c text =>
      have hc : c ≠ '.' := by simpa using hpoint
      simp [fraction?, hc, hnone]
  · rename_i hsome
    rw [List.cons_append, fraction?, digits?_append hsome h.fraction_digits htext]

theorem exponent?_append (h : n.WellFormed) (htext : Stops inNumeral text) :
    exponent? (n.exponentText ++ text) = some (n.exponent, text) := by
  have hdigit : Stops Char.isDigit text := htext.mono fun c hc => (inNumeral_eq_false hc).1
  rw [Numeral.exponentText]
  split
  · rename_i hnone
    cases text with
    | nil => rw [hnone]; rfl
    | cons c text =>
      obtain ⟨-, -, hlower, hupper⟩ := inNumeral_eq_false (stops_cons.1 htext)
      simp [exponent?, hlower, hupper, hnone]
  · rename_i negative digits hsome
    have hread : digits? (digits ++ text) = some (digits, text) :=
      digits?_append (h.exponent_ne_nil _ hsome) (h.exponent_digits _ hsome) hdigit
    cases negative with
    | false => simp [exponent?, exponentTail?, exponentDigits?, hread, hsome]
    | true => simp [exponent?, exponentTail?, exponentDigits?, hread, hsome]

theorem unsigned?_append (h : n.WellFormed) (htext : Stops inNumeral text) :
    unsigned? n.negative (n.whole ++ (n.fractionText ++ (n.exponentText ++ text))) =
      some (n, text) := by
  have hexponent : Stops (fun c => c.isDigit || c == '.') (n.exponentText ++ text) := by
    rw [Numeral.exponentText]
    split
    · exact htext.mono fun c hc => by simp_all [inNumeral]
    · simp
  have hfraction : Stops Char.isDigit (n.fractionText ++ (n.exponentText ++ text)) := by
    rw [Numeral.fractionText]
    split
    · exact hexponent.mono fun c hc => by simp_all
    · simp
  have hread := fraction?_append h (hexponent.mono fun c hc => by simp_all)
    (hexponent.mono fun c hc => by simp_all)
  simp [unsigned?, whole?_append h hfraction, hread, exponent?_append h htext]

theorem numeral?_text (h : n.WellFormed) (htext : Stops inNumeral text) :
    numeral? (n.text ++ text) = some (n, text) := by
  have hunsigned := unsigned?_append h htext
  rw [Numeral.text_eq]
  cases hnegative : n.negative with
  | true =>
    rw [hnegative] at hunsigned
    simp [numeral?, hunsigned]
  | false =>
    rw [hnegative] at hunsigned
    obtain ⟨c, more, hwhole⟩ := List.exists_cons_of_ne_nil h.whole_ne_nil
    have hc : c ≠ '-' := by
      rintro rfl
      exact absurd (h.whole_digits '-' (by simp [hwhole])) (by decide)
    rw [hwhole] at hunsigned ⊢
    simpa [numeral?, hc] using hunsigned

end Numerals

section Strings

theorem unit?_controlUnit : ∀ n < 0x20,
    unit? '0' '0' (Nat.digitChar (n / 16)) (Nat.digitChar (n % 16)) = some n := by
  decide

theorem stringTail?_escapeChar (s : Spelled) (c : Char) (text : List Char) :
    stringTail? s (escapeChar c ++ text) = stringTail? (s.push c) text := by
  rw [escapeChar]
  split_ifs with hquote hback hb hf hn hr ht hcontrol
  · subst hquote; simp [stringTail?, escape?]
  · subst hback; simp [stringTail?, escape?]
  · subst hb; simp [stringTail?, escape?]
  · subst hf; simp [stringTail?, escape?]
  · subst hn; simp [stringTail?, escape?]
  · subst hr; simp [stringTail?, escape?]
  · subst ht; simp [stringTail?, escape?]
  · have hunit := unit?_controlUnit c.toNat hcontrol
    have hpush : s.addUnit c.toNat = s.push c := by
      rw [Spelled.addUnit, if_neg (by omega), if_neg (by omega), Char.ofNat_toNat]
    simp [controlUnit, stringTail?, hunit, hpush]
  · simp [stringTail?, hback, hcontrol]

/-- By induction on the string, behind whatever has been read. -/
theorem stringTail?_flatMap (read cs rest : List Char) :
    stringTail? ⟨read, none, true⟩ (cs.flatMap escapeChar ++ '"' :: rest) =
      some (some (String.ofList (read.reverse ++ cs)), rest) := by
  induction cs generalizing read with
  | nil => simp [stringTail?, Spelled.toText?]
  | cons c cs ih =>
    rw [List.flatMap_cons, List.append_assoc, stringTail?_escapeChar]
    have hpush : Spelled.push ⟨read, none, true⟩ c = ⟨c :: read, none, true⟩ := rfl
    rw [hpush, ih, List.reverse_cons, List.append_assoc, List.singleton_append]

theorem string?_quote (s : String) (rest : List Char) :
    string? (quote s ++ rest) = some (some s, rest) := by
  have h := stringTail?_flatMap [] s.toList rest
  simpa [quote, string?] using h

end Strings

end Json.Reader

end LcdHandhelds
