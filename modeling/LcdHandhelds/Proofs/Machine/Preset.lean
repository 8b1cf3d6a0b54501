import LcdHandhelds.Machine.Preset
import LcdHandhelds.Proofs.Number.Binary64
import LcdHandhelds.Proofs.Text.Digits
import LcdHandhelds.Proofs.Text.Reading

/-!
Preset calls as they are written. Decimal digits are read as the number they spell, and a line that
calls a preset with as many sizes as it takes gives the preset's hardware with these sizes.
-/
namespace LcdHandhelds

open Text

/-! ### Sizes -/

/-- The place of a decimal digit by its code. -/
theorem digitRank_of_isDigit {c : Char} (h : c.isDigit) : digitRank c = c.toNat - '0'.toNat :=
  (digitRank_eq c).trans (if_pos h)

/-- Decimal digits are read as the number that they spell. -/
theorem digits?_eq_some_iff {text : List Char} {n : Nat} :
    digits? 10 text = some n ↔
      text ≠ [] ∧ (∀ c ∈ text, c.isDigit) ∧ Nat.ofDigitChars 10 text 0 = n := by
  have hvalue : (∀ c ∈ text, c.isDigit) → valueIn 10 text = Nat.ofDigitChars 10 text 0 := by
    intro hdigits
    rw [valueIn_eq_foldl, Nat.ofDigitChars]
    exact List.foldl_ext _ _ _ fun m c hc => by rw [digitRank_of_isDigit (hdigits c hc)]
  rw [digits?_eq_some_iff_spells (by decide)]
  constructor
  · intro h
    have hdigits : ∀ c ∈ text, c.isDigit := fun c hc => digitRank_lt_ten_iff.1 (h.digits c hc)
    exact ⟨h.ne_nil, hdigits, hvalue hdigits ▸ h.value⟩
  · rintro ⟨hne, hdigits, hn⟩
    exact ⟨hne, fun c hc => digitRank_lt_ten_iff.2 (hdigits c hc), (hvalue hdigits).trans hn⟩

theorem digits?_toDigits (n : Nat) : digits? 10 (Nat.toDigits 10 n) = some n :=
  digits?_eq_some_iff.2 ⟨Nat.toDigits_ne_nil,
    fun _ hc => Nat.isDigit_of_mem_toDigits (by decide) (by decide) hc,
    Nat.ofDigitChars_ten_toDigits⟩

theorem sizeArgument?_toDigits {n : Nat} (h : n < UInt64.size) :
    sizeArgument? (Nat.toDigits 10 n) = Binary64.ofNat? n := by
  have htoken := isToken_toDigits n
  have hwhole : splitBefore? ['/'] [] (Nat.toDigits 10 n) = none :=
    splitBefore?_eq_none (htoken.notMem (by decide)) []
  have hvalue : uintArgument? (Nat.toDigits 10 n) = some n := by
    rw [uintArgument?, digits?_toDigits, Option.filter_some, if_pos (decide_eq_true h)]
  obtain ⟨c, rest, hcons⟩ := List.exists_cons_of_ne_nil (@Nat.toDigits_ne_nil n 10)
  have hminus : '-' ≠ c := by
    rintro rfl
    exact htoken.notMem (c := '-') (by decide) (hcons ▸ List.mem_cons_self)
  rw [hcons] at hwhole hvalue ⊢
  rw [sizeArgument?, hwhole]
  · dsimp only
    rw [hvalue]
    rfl
  · exact fun _ hc => hminus (List.cons.inj hc).1.symm

theorem mapM_sizeArgument?_toDigits {sizes : List Nat} (h : ∀ n ∈ sizes, n < UInt64.size) :
    ∃ values, sizes.mapM Binary64.ofNat? = some values ∧ values.length = sizes.length ∧
      sizesOf (sizes.map (Nat.toDigits 10)) = .ok values := by
  induction sizes with
  | nil => exact ⟨[], rfl, rfl, rfl⟩
  | cons n sizes ih =>
    rw [List.forall_mem_cons] at h
    obtain ⟨value, hvalue⟩ := Option.isSome_iff_exists.1 (Binary64.isSome_ofNat? h.1)
    obtain ⟨values, hvalues, hlength, hread⟩ := ih h.2
    refine ⟨value :: values, ?_, by rw [List.length_cons, List.length_cons, hlength], ?_⟩
    · simp [List.mapM_cons, hvalue, hvalues]
    · rw [sizesOf] at hread ⊢
      rw [List.map_cons, List.mapM_cons, sizeArgument?_toDigits h.1, hvalue, hread]
      rfl

/-! ### Presets -/

namespace Preset

theorem find?_name : ∀ p ∈ all, find? p.name = some p := by
  decide

theorem exists_build? {p : Preset} {sizes : List Binary64} (h : sizes.length = p.layout.arity) :
    ∃ hardware, p.build? sizes = some hardware := by
  obtain ⟨screen, hscreen⟩ := Option.isSome_iff_exists.1 ((p.layout.isSome_screen? sizes).2 h)
  exact ⟨⟨p.cpu, screen⟩, by rw [build?, hscreen, Option.map_some]⟩

end Preset

theorem presetCall?_callText {name : List Char} (hname : IsToken name) {args : List (List Char)}
    (h : ∀ a ∈ args, IsArgument a) (rest : List Char) :
    presetCall? (callText name [] [] ("config".toList :: args) ++ rest) =
      some (String.ofList name, args) := by
  have hargs : ∀ a ∈ "config".toList :: args, IsArgument a :=
    List.forall_mem_cons.2 ⟨isArgument_of_word (by decide) (by decide), h⟩
  have hread := @arguments_callText [] [] _ rfl rfl (List.cons_ne_nil _ _) hargs
  have hgroup := @close?_arguments [] [] _ rfl rfl (fun a ha => (hargs a ha).closed) rest
  have htext : callText name [] [] ("config".toList :: args) ++ rest =
      name ++ '(' :: ([] ++ separated ("config".toList :: args) ++ [] ++ ')' :: rest) := by
    rw [callText, List.append_assoc, List.append_assoc, List.cons_append, List.singleton_append]
  have hopen : skipBlank ('(' :: ([] ++ separated ("config".toList :: args) ++ [] ++ ')' :: rest)) =
      '(' :: ([] ++ separated ("config".toList :: args) ++ [] ++ ')' :: rest) :=
    skipBlank_eq_self fun c hc => by
      obtain rfl : '(' = c := Option.some.inj hc
      decide
  rw [presetCall?, htext, skipBlank_eq_self (hname.head?_append _),
    hname.identifier?_append (by decide)]
  simp only [Option.bind_eq_bind, Option.bind_some, hopen, Group.ofText?, hgroup, hread, if_true]
  rfl

end LcdHandhelds
