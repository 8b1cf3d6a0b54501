import LcdHandhelds.Proofs.Except
import LcdHandhelds.Proofs.Machine.Preset
import LcdHandhelds.Proofs.Text.Pieces

/-!
Which constructors set up hardware. A constructor is accepted exactly if its first line calls a preset
with `config` and as many numbers as the preset takes, where a number is decimal digits, a negative
number, or a fraction whose divisor is not zero; all of them have a finite value. Otherwise the first
thing that is wrong with the call is reported: `resolution_ofConstructor`.
-/
namespace LcdHandhelds

open Text

/-! ### Sizes -/

/-- Decimal digits that spell a 64-bit number. -/
structure Uint (text : List Char) (n : Nat) : Prop where
  ne_nil : text ≠ []
  digits : ∀ c ∈ text, c.isDigit
  value : Nat.ofDigitChars 10 text 0 = n
  lt_size : n < UInt64.size

/-- The numbers that may be given as sizes, with the double of each, if it is finite. -/
inductive Numeric : List Char → Option Binary64 → Prop
  | whole {digits : List Char} {n : Nat} : Uint digits n → Numeric digits (Binary64.ofNat? n)
  | negative {digits : List Char} {n : Nat} :
    Uint digits n → Numeric ('-' :: digits) ((Binary64.ofNat? n).map Binary64.neg)
  | fraction {dividend divisor rest : List Char} {a b : Nat} :
    Uint dividend a → Uint divisor b → b ≠ 0 → (∀ c ∈ rest.head?, c.isDigit = false) →
      Numeric (dividend ++ '/' :: (divisor ++ rest))
        ((Binary64.ofNat? a).bind fun x => (Binary64.ofNat? b).bind x.div?)

/-- A text that spells some number. -/
def IsNumeric (text : List Char) : Prop := ∃ value, Numeric text value

theorem Uint.notMem {text : List Char} {n : Nat} (h : Uint text n) {c : Char}
    (hc : c.isDigit = false) : c ∉ text := fun hmem => by
  rw [h.digits c hmem] at hc
  cases hc

theorem uintArgument?_eq_some_iff {text : List Char} {n : Nat} :
    uintArgument? text = some n ↔ Uint text n := by
  rw [uintArgument?, Option.filter_eq_some_iff, digits?_eq_some_iff, decide_eq_true_eq]
  constructor
  · rintro ⟨⟨hne, hdigits, hvalue⟩, hlt⟩
    exact ⟨hne, hdigits, hvalue, hlt⟩
  · exact fun h => ⟨⟨h.ne_nil, h.digits, h.value⟩, h.lt_size⟩

/-- The double of a number is finite, also that of a fraction. -/
theorem Numeric.exists_value {text : List Char} {value : Option Binary64}
    (h : Numeric text value) : ∃ x, value = some x := by
  cases h with
  | whole h => exact Option.isSome_iff_exists.1 (Binary64.isSome_ofNat? h.lt_size)
  | negative h =>
    obtain ⟨x, hx⟩ := Option.isSome_iff_exists.1 (Binary64.isSome_ofNat? h.lt_size)
    exact ⟨x.neg, by rw [hx, Option.map_some]⟩
  | fraction ha hb hne _ =>
    obtain ⟨x, y, z, hx, hy, hz⟩ := Binary64.exists_div?_ofNat? ha.lt_size hb.lt_size hne
    exact ⟨z, by rw [hx, hy, Option.bind_some, Option.bind_some, hz]⟩

theorem sizeArgument?_minus {digits : List Char} (h : '/' ∉ digits) :
    sizeArgument? ('-' :: digits) =
      ((uintArgument? digits).bind Binary64.ofNat?).map Binary64.neg := by
  have hslash : '/' ∉ '-' :: digits := by
    rw [List.mem_cons, not_or]
    exact ⟨by decide, h⟩
  unfold sizeArgument?
  rw [splitBefore?_eq_none hslash]
  change ((uintArgument? digits).bind fun n => (Binary64.ofNat? n).bind (some ∘ Binary64.neg)) = _
  simp only [Option.map_eq_bind, Option.bind_assoc]

theorem sizeArgument?_of_ne {text : List Char} (h : '/' ∉ text)
    (hminus : ∀ digits, text ≠ '-' :: digits) :
    sizeArgument? text = (uintArgument? text).bind Binary64.ofNat? := by
  unfold sizeArgument?
  rw [splitBefore?_eq_none h]
  dsimp only
  split
  next => exact absurd rfl (hminus _)
  next => rfl

theorem sizeArgument?_fraction {dividend : List Char} (h : '/' ∉ dividend) (divisor : List Char) :
    sizeArgument? (dividend ++ '/' :: divisor) =
      (uintArgument? dividend).bind fun a =>
        (uintArgument? (divisor.takeWhile Char.isDigit)).bind fun b =>
          if b = 0 then none
          else (Binary64.ofNat? a).bind fun x => (Binary64.ofNat? b).bind x.div? := by
  have hsplit := @splitBefore?_of_notMem '/' [] dividend h [] divisor
  rw [List.reverse_nil, List.nil_append, List.singleton_append] at hsplit
  unfold sizeArgument?
  rw [hsplit]
  rfl

theorem sizeArgument?_of_numeric {text : List Char} {value : Option Binary64}
    (h : Numeric text value) : sizeArgument? text = value := by
  cases h with
  | whole h =>
    have hminus : ∀ rest, text ≠ '-' :: rest := by
      rintro rest rfl
      exact h.notMem (c := '-') (by decide) List.mem_cons_self
    rw [sizeArgument?_of_ne (h.notMem (by decide)) hminus, uintArgument?_eq_some_iff.2 h,
      Option.bind_some]
  | @negative digits n h =>
    rw [sizeArgument?_minus (h.notMem (by decide)), uintArgument?_eq_some_iff.2 h,
      Option.bind_some]
  | @fraction dividend divisor rest a b ha hb hne hrest =>
    rw [sizeArgument?_fraction (ha.notMem (by decide)), takeWhile_append_of_stop hb.digits hrest,
      uintArgument?_eq_some_iff.2 ha, uintArgument?_eq_some_iff.2 hb, Option.bind_some,
      Option.bind_some, if_neg hne]

theorem numeric_of_sizeArgument? {text : List Char} {x : Binary64}
    (h : sizeArgument? text = some x) : Numeric text (some x) := by
  by_cases hslash : '/' ∈ text
  · obtain ⟨dividend, divisor, rfl, hdividend⟩ := List.eq_append_cons_of_mem hslash
    rw [sizeArgument?_fraction hdividend] at h
    obtain ⟨a, ha, h⟩ := Option.bind_eq_some_iff.1 h
    obtain ⟨b, hb, h⟩ := Option.bind_eq_some_iff.1 h
    split at h
    · cases h
    next hne =>
      have hnumeric := Numeric.fraction (uintArgument?_eq_some_iff.1 ha)
        (uintArgument?_eq_some_iff.1 hb) hne (not_of_mem_head?_dropWhile divisor)
      rwa [List.takeWhile_append_dropWhile, h] at hnumeric
  · by_cases hminus : ∃ digits, text = '-' :: digits
    · obtain ⟨digits, rfl⟩ := hminus
      rw [sizeArgument?_minus fun hmem => hslash (List.mem_cons_of_mem _ hmem)] at h
      obtain ⟨y, hy, rfl⟩ := Option.map_eq_some_iff.1 h
      obtain ⟨n, hn, hy⟩ := Option.bind_eq_some_iff.1 hy
      have hnumeric := Numeric.negative (uintArgument?_eq_some_iff.1 hn)
      rwa [hy] at hnumeric
    · rw [sizeArgument?_of_ne hslash (not_exists.1 hminus)] at h
      obtain ⟨n, hn, hx⟩ := Option.bind_eq_some_iff.1 h
      exact hx ▸ Numeric.whole (uintArgument?_eq_some_iff.1 hn)

theorem sizeArgument?_eq_some_iff {text : List Char} {x : Binary64} :
    sizeArgument? text = some x ↔ Numeric text (some x) :=
  ⟨numeric_of_sizeArgument?, sizeArgument?_of_numeric⟩

theorem sizeArgument?_eq_none_iff {text : List Char} :
    sizeArgument? text = none ↔ ¬ IsNumeric text := by
  rw [Option.eq_none_iff_forall_ne_some]
  constructor
  · rintro h ⟨value, hvalue⟩
    obtain ⟨x, rfl⟩ := hvalue.exists_value
    exact h x (sizeArgument?_of_numeric hvalue)
  · exact fun h x hx => h ⟨some x, numeric_of_sizeArgument? hx⟩

theorem isSome_sizeArgument?_iff {text : List Char} :
    (sizeArgument? text).isSome ↔ IsNumeric text := by
  rw [← not_iff_not, ← sizeArgument?_eq_none_iff, Option.not_isSome_iff_eq_none]

section Sizes

variable {args : List (List Char)}

theorem length_eq_of_sizes {sizes : List Binary64} (h : List.Forall₂ Numeric args (sizes.map some)) :
    args.length = sizes.length := by
  rw [h.length_eq, List.length_map]

theorem sizesOf_eq_ok_iff {sizes : List Binary64} :
    sizesOf args = .ok sizes ↔ List.Forall₂ Numeric args (sizes.map some) := by
  rw [sizesOf, mapM_eq_ok_iff, List.forall₂_map_right_iff]
  refine iff_of_eq (congrFun₂ (congrArg List.Forall₂ ?_) args sizes)
  funext a x
  rw [← sizeArgument?_eq_some_iff, eq_iff_iff]
  cases sizeArgument? a <;> simp

/-- The first argument that is no number is reported. -/
theorem sizesOf_eq_error_iff {anomaly : Anomaly} :
    sizesOf args = .error anomaly ↔
      ∃ front a back, args = front ++ a :: back ∧ (∀ b ∈ front, IsNumeric b) ∧ ¬ IsNumeric a ∧
        anomaly = .unhandledArgument (String.ofList a) := by
  rw [sizesOf, mapM_eq_error_iff]
  refine exists_congr fun front => exists_congr fun a => exists_congr fun back =>
    and_congr_right fun _ => and_congr (forall₂_congr fun b _ => ?_) ?_
  · rw [← isSome_sizeArgument?_iff]
    cases sizeArgument? b <;> simp [Except.isOk, Except.toBool]
  · rw [← sizeArgument?_eq_none_iff]
    cases sizeArgument? a <;> simp [eq_comm]

end Sizes

/-! ### Calls of presets -/

/--
Behind blanks, the line calls a name with `config` and the arguments after it. These stand between
parentheses with commas between them; each closes what it opens, and blanks around it do not count.
-/
def CallsWithConfig (line name : List Char) (args : List (List Char)) : Prop :=
  ∃ left gap pieces rest,
    line = left ++ name ++ gap ++ '(' :: [','].intercalate pieces ++ ')' :: rest ∧
      left.all isBlank ∧ name ≠ [] ∧ name.all isWordChar ∧ gap.all isBlank ∧
      (∀ p ∈ pieces, Closed p) ∧ pieces.map trim = "config".toList :: args

theorem callsWithConfig_of_presetCall? {line : List Char} {name : String}
    {args : List (List Char)} (h : presetCall? line = some (name, args)) :
    CallsWithConfig line name.toList args := by
  simp only [presetCall?, Option.bind_eq_bind, Option.bind_eq_some_iff, Prod.exists] at h
  obtain ⟨own, rest, hown, g, hgroup, h⟩ := h
  obtain ⟨hline, hword, hne, -⟩ := identifier?_eq_some_iff.1 hown
  have hrest := eq_of_ofText?_skipBlank hgroup
  obtain ⟨piece, pieces, hclosed, hinner⟩ := (Group.ofText?_eq_some_iff.1 hgroup).2.exists_pieces
  split at h
  next first others hargs =>
    split at h
    next hconfig =>
      cases h
      have hblank : ¬ ([','].intercalate (piece :: pieces)).all isBlank := by
        intro hall
        rw [hinner, arguments, if_pos hall] at hargs
        cases hargs
      rw [hinner, arguments_eq_map_trim hclosed hblank, hconfig] at hargs
      refine ⟨line.takeWhile isBlank, rest.takeWhile isBlank, piece :: pieces, g.after, ?_,
        List.all_takeWhile, by simpa using hne, by simpa using hword, List.all_takeWhile, hclosed,
        hargs⟩
      rw [String.toList_ofList, ← hinner]
      conv_lhs => rw [← takeWhile_append_skipBlank line, hline, hrest]
      simp only [List.append_assoc]
    · cases h
  · cases h

theorem ofText?_skipBlank_append {gap inner : List Char} (hgap : gap.all isBlank)
    (hinner : Balanced inner) (rest : List Char) :
    Group.ofText? (skipBlank (gap ++ ('(' :: inner ++ ')' :: rest))) = some ⟨inner, rest⟩ := by
  have hopen : skipBlank ('(' :: inner ++ ')' :: rest) = '(' :: inner ++ ')' :: rest :=
    skipBlank_eq_self fun c hc => Option.some.inj hc ▸ (by decide)
  rw [skipBlank_append_of_blank (skipBlank_of_all hgap), hopen]
  exact Group.ofText?_eq_some_iff.2 ⟨rfl, hinner⟩

/-- A list is not blank if its first piece is not. -/
theorem not_blank_intercalate {piece : List Char} (h : trim piece ≠ [])
    (pieces : List (List Char)) : ¬ ([','].intercalate (piece :: pieces)).all isBlank := by
  have hfront : piece <+: [','].intercalate (piece :: pieces) := by
    have hcut := intercalate_append_cons [','] piece [] pieces
    rw [List.append_nil] at hcut
    exact ⟨_, hcut.symm⟩
  intro hall
  have hpiece : piece.all isBlank := List.all_eq_true.2 fun c hc =>
    List.all_eq_true.1 hall c (hfront.subset hc)
  rw [trim, skipBlank_of_all hpiece] at h
  exact h rfl

theorem presetCall?_of_callsWithConfig {line name : List Char} {args : List (List Char)}
    (h : CallsWithConfig line name args) : presetCall? line = some (String.ofList name, args) := by
  obtain ⟨left, gap, pieces, rest, rfl, hleft, hne, hword, hgap, hclosed, hargs⟩ := h
  cases pieces with
  | nil => cases hargs
  | cons piece pieces =>
    have hpiece : trim piece = "config".toList := (List.cons.inj hargs).1
    have hblank : ¬ ([','].intercalate (piece :: pieces)).all isBlank :=
      not_blank_intercalate (by rw [hpiece]; decide) pieces
    simp only [List.append_assoc]
    rw [presetCall?, skipBlank_append_word hleft hne hword,
      identifier?_eq_some_iff.2 ⟨rfl, hword, hne, endsWord_append_of_blank hgap rfl⟩]
    simp only [Option.bind_eq_bind, Option.bind_some]
    rw [ofText?_skipBlank_append hgap (balanced_intercalate hclosed), Option.bind_some]
    dsimp only
    rw [arguments_eq_map_trim hclosed hblank, hargs]
    exact if_pos rfl

theorem presetCall?_eq_some_iff {line : List Char} {name : String} {args : List (List Char)} :
    presetCall? line = some (name, args) ↔ CallsWithConfig line name.toList args := by
  refine ⟨callsWithConfig_of_presetCall?, fun h => ?_⟩
  rw [presetCall?_of_callsWithConfig h, String.ofList_toList]

/-! ### Hardware -/

namespace Screen

def layout : Screen → Layout
  | single _ => .single
  | dualVertical _ _ => .dualVertical
  | dualHorizontal _ _ => .dualHorizontal

/-- The widths and heights, left or top first. -/
def sizes : Screen → List Binary64
  | single s => [s.width, s.height]
  | dualVertical top bottom => [top.width, top.height, bottom.width, bottom.height]
  | dualHorizontal left right => [left.width, left.height, right.width, right.height]

theorem length_sizes (s : Screen) : s.sizes.length = s.layout.arity := by
  cases s <;> rfl

end Screen

theorem Layout.screen?_eq_some_iff {l : Layout} {sizes : List Binary64} {s : Screen} :
    l.screen? sizes = some s ↔ s.layout = l ∧ s.sizes = sizes := by
  constructor
  · intro h
    unfold screen? at h
    split at h
    · cases h; exact ⟨rfl, rfl⟩
    · cases h; exact ⟨rfl, rfl⟩
    · cases h; exact ⟨rfl, rfl⟩
    · cases h
  · rintro ⟨rfl, rfl⟩
    cases s <;> rfl

theorem Preset.build?_eq_some_iff {p : Preset} {sizes : List Binary64} {h : Hardware} :
    p.build? sizes = some h ↔
      h.cpu = p.cpu ∧ h.screen.layout = p.layout ∧ h.screen.sizes = sizes := by
  simp only [build?, Option.map_eq_some_iff, Layout.screen?_eq_some_iff]
  constructor
  · rintro ⟨screen, hscreen, rfl⟩
    exact ⟨rfl, hscreen⟩
  · rintro ⟨hcpu, hscreen⟩
    exact ⟨h.screen, hscreen, by rw [← hcpu]⟩

theorem Preset.build?_eq_none_iff {p : Preset} {sizes : List Binary64} :
    p.build? sizes = none ↔ sizes.length ≠ p.layout.arity := by
  rw [build?, Option.map_eq_none_iff, ← Option.not_isSome_iff_eq_none, Layout.isSome_screen?]

theorem Preset.find?_eq_some_iff {name : String} {p : Preset} :
    find? name = some p ↔ p ∈ all ∧ p.name = name := by
  constructor
  · intro h
    have hname := List.find?_some (p := fun q : Preset => decide (q.name = name)) h
    exact ⟨List.mem_of_find?_eq_some h, of_decide_eq_true hname⟩
  · rintro ⟨hp, rfl⟩
    exact find?_name p hp

theorem Preset.find?_eq_none_iff {name : String} :
    find? name = none ↔ ∀ p ∈ all, p.name ≠ name := by
  simp [find?, List.find?_eq_none]

/-- The line calls the preset with `config` and the arguments. -/
def CallsPreset (line : List Char) (p : Preset) (args : List (List Char)) : Prop :=
  p ∈ Preset.all ∧ CallsWithConfig line p.name.toList args

/-- What the first line of a constructor comes to: hardware, or the first thing that is wrong. -/
inductive Resolves (line : List Char) : Except Anomaly Hardware → Prop
  | malformed : (∀ name args, ¬ CallsWithConfig line name args) →
    Resolves line (.error .malformedConstructor)
  | unknown {name : String} {args : List (List Char)} :
    CallsWithConfig line name.toList args → (∀ p ∈ Preset.all, p.name ≠ name) →
      Resolves line (.error (.unknownPreset name))
  | unhandled {p : Preset} {front back : List (List Char)} {a : List Char} :
    CallsPreset line p (front ++ a :: back) → (∀ b ∈ front, IsNumeric b) → ¬ IsNumeric a →
      Resolves line (.error (.unhandledArgument (String.ofList a)))
  | arity {p : Preset} {args : List (List Char)} :
    CallsPreset line p args → (∀ a ∈ args, IsNumeric a) → args.length ≠ p.layout.arity →
      Resolves line (.error (.presetArity p.name p.layout.arity args.length))
  | hardware {p : Preset} {args : List (List Char)} {hardware : Hardware} :
    CallsPreset line p args → hardware.cpu = p.cpu → hardware.screen.layout = p.layout →
      List.Forall₂ Numeric args (hardware.screen.sizes.map some) → Resolves line (.ok hardware)

/-- What is made of a constructor's body, and what is reported of it. -/
structure Resolution (body line : List Char) : Prop where
  result_iff : ∀ result, Hardware.ofConstructor body = result ↔ Resolves line result
  /-- Every number has a finite value, so the shape of the call decides. -/
  isOk_iff : (Hardware.ofConstructor body).isOk ↔
    ∃ p args, CallsPreset line p args ∧ (∀ a ∈ args, IsNumeric a) ∧ args.length = p.layout.arity
  reported : ∃ faults, .extraConstructorLines ∉ faults ∧
    constructorAnomalies body =
      (if 1 < (lines (trim body)).length then [.extraConstructorLines] else []) ++ faults ∧
    (∀ hardware, Hardware.ofConstructor body = .ok hardware → faults = []) ∧
    (∀ anomaly, Hardware.ofConstructor body = .error anomaly → faults = [anomaly])

section Constructor

variable {body : List Char} {p : Preset} {args : List (List Char)}

theorem ofConstructor_of_calls
    (h : CallsPreset ((constructorLines body).headD []) p args) :
    Hardware.ofConstructor body = sizesOf args >>= fun sizes =>
      match p.build? sizes with
      | some hardware => .ok hardware
      | none => .error (.presetArity p.name p.layout.arity sizes.length) := by
  rw [Hardware.ofConstructor, presetCall?_eq_some_iff.2 h.2]
  dsimp only
  rw [Preset.find?_name p h.1]
  rfl

theorem ofConstructor_of_sizes {sizes : List Binary64}
    (h : CallsPreset ((constructorLines body).headD []) p args)
    (hsizes : List.Forall₂ Numeric args (sizes.map some)) :
    Hardware.ofConstructor body =
      match p.build? sizes with
      | some hardware => .ok hardware
      | none => .error (.presetArity p.name p.layout.arity args.length) := by
  rw [ofConstructor_of_calls h, sizesOf_eq_ok_iff.2 hsizes, length_eq_of_sizes hsizes]
  rfl

theorem exists_sizes (h : ∀ a ∈ args, IsNumeric a) :
    ∃ sizes : List Binary64, List.Forall₂ Numeric args (sizes.map some) := by
  induction args with
  | nil => exact ⟨[], .nil⟩
  | cons a args ih =>
    rw [List.forall_mem_cons] at h
    obtain ⟨value, hvalue⟩ := h.1
    obtain ⟨x, rfl⟩ := hvalue.exists_value
    obtain ⟨sizes, hsizes⟩ := ih h.2
    exact ⟨x :: sizes, .cons hvalue hsizes⟩

theorem isNumeric_of_sizes {values : List (Option Binary64)} (h : List.Forall₂ Numeric args values) :
    ∀ a ∈ args, IsNumeric a := by
  induction h with
  | nil => exact nofun
  | cons ha _ ih => exact List.forall_mem_cons.2 ⟨⟨_, ha⟩, ih⟩

theorem ofConstructor_of_resolves {result : Except Anomaly Hardware}
    (h : Resolves ((constructorLines body).headD []) result) :
    Hardware.ofConstructor body = result := by
  cases h with
  | malformed hnot =>
    have hcall : presetCall? ((constructorLines body).headD []) = none :=
      Option.eq_none_iff_forall_ne_some.2 fun ⟨name, args⟩ hcall =>
        hnot name.toList args (presetCall?_eq_some_iff.1 hcall)
    rw [Hardware.ofConstructor, hcall]
  | unknown hcall hname =>
    rw [Hardware.ofConstructor, presetCall?_eq_some_iff.2 hcall]
    dsimp only
    rw [Preset.find?_eq_none_iff.2 hname]
  | @unhandled p front back a hcall hfront ha =>
    rw [ofConstructor_of_calls hcall,
      sizesOf_eq_error_iff.2 ⟨front, a, back, rfl, hfront, ha, rfl⟩]
    rfl
  | arity hcall hnumeric harity =>
    obtain ⟨sizes, hsizes⟩ := exists_sizes hnumeric
    rw [ofConstructor_of_sizes hcall hsizes,
      Preset.build?_eq_none_iff.2 (length_eq_of_sizes hsizes ▸ harity)]
  | hardware hcall hcpu hlayout hsizes =>
    rw [ofConstructor_of_sizes hcall hsizes,
      Preset.build?_eq_some_iff.2 ⟨hcpu, hlayout, rfl⟩]

/-- Every line comes to hardware or to a fault. -/
theorem exists_resolves (line : List Char) : ∃ result, Resolves line result := by
  cases hcall : presetCall? line with
  | none =>
    refine ⟨_, .malformed fun name args h => ?_⟩
    rw [presetCall?_of_callsWithConfig h] at hcall
    cases hcall
  | some call =>
    obtain ⟨name, args⟩ := call
    have hline := presetCall?_eq_some_iff.1 hcall
    cases hfind : Preset.find? name with
    | none => exact ⟨_, .unknown hline (Preset.find?_eq_none_iff.1 hfind)⟩
    | some p =>
      obtain ⟨hp, rfl⟩ := Preset.find?_eq_some_iff.1 hfind
      cases hsizes : sizesOf args with
      | error anomaly =>
        obtain ⟨front, a, back, rfl, hfront, ha, -⟩ := sizesOf_eq_error_iff.1 hsizes
        exact ⟨_, .unhandled ⟨hp, hline⟩ hfront ha⟩
      | ok sizes =>
        have hnumeric := sizesOf_eq_ok_iff.1 hsizes
        cases hbuild : p.build? sizes with
        | none =>
          exact ⟨_, .arity ⟨hp, hline⟩ (isNumeric_of_sizes hnumeric)
            (length_eq_of_sizes hnumeric ▸ Preset.build?_eq_none_iff.1 hbuild)⟩
        | some hardware =>
          obtain ⟨hcpu, hlayout, rfl⟩ := Preset.build?_eq_some_iff.1 hbuild
          exact ⟨_, .hardware ⟨hp, hline⟩ hcpu hlayout hnumeric⟩

theorem resolves_ofConstructor (body : List Char) :
    Resolves ((constructorLines body).headD []) (Hardware.ofConstructor body) := by
  obtain ⟨result, h⟩ := exists_resolves ((constructorLines body).headD [])
  rwa [ofConstructor_of_resolves h]

theorem isOk_ofConstructor_iff :
    (Hardware.ofConstructor body).isOk ↔
      ∃ p args, CallsPreset ((constructorLines body).headD []) p args ∧
        (∀ a ∈ args, IsNumeric a) ∧ args.length = p.layout.arity := by
  rw [isOk_iff]
  constructor
  · rintro ⟨hardware, h⟩
    have hresolves := resolves_ofConstructor body
    rw [h] at hresolves
    cases hresolves with
    | hardware hcall _ hlayout hsizes =>
      have hlength := length_eq_of_sizes hsizes
      rw [Screen.length_sizes, hlayout] at hlength
      exact ⟨_, _, hcall, isNumeric_of_sizes hsizes, hlength⟩
  · rintro ⟨p, args, hcall, hnumeric, harity⟩
    obtain ⟨sizes, hsizes⟩ := exists_sizes hnumeric
    obtain ⟨hardware, hbuild⟩ :=
      Preset.exists_build? ((length_eq_of_sizes hsizes).symm.trans harity)
    exact ⟨hardware, by rw [ofConstructor_of_sizes hcall hsizes, hbuild]⟩

/-- Further lines are reported, and the fault of the first one. -/
theorem exists_faults (body : List Char) :
    ∃ faults, .extraConstructorLines ∉ faults ∧
      constructorAnomalies body =
        (if 1 < (lines (trim body)).length then [.extraConstructorLines] else []) ++ faults ∧
      (∀ hardware, Hardware.ofConstructor body = .ok hardware → faults = []) ∧
      (∀ anomaly, Hardware.ofConstructor body = .error anomaly → faults = [anomaly]) := by
  have hresolves := resolves_ofConstructor body
  rw [constructorAnomalies, lineNotes, constructorLines]
  cases hresult : Hardware.ofConstructor body with
  | ok hardware => exact ⟨[], List.not_mem_nil, rfl, fun _ _ => rfl, nofun⟩
  | error anomaly =>
    have hother : anomaly ≠ .extraConstructorLines := by
      rintro rfl
      rw [hresult] at hresolves
      cases hresolves
    exact ⟨[anomaly], by simpa using hother.symm, rfl, nofun, fun _ h => by cases h; rfl⟩

end Constructor

/-- The first line of a constructor decides on its hardware, by its shape alone. -/
theorem resolution_ofConstructor (body : List Char) :
    Resolution body ((lines (trim body)).headD []) where
  result_iff _ := ⟨fun h => h ▸ resolves_ofConstructor body, ofConstructor_of_resolves⟩
  isOk_iff := isOk_ofConstructor_iff
  reported := exists_faults body

end LcdHandhelds
