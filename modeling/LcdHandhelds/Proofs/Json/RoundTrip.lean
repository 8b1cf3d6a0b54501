import LcdHandhelds.Proofs.Json.Token

/-!
What is written for a JSON value is read as the value again (`parse?_toText`), if every string in it
is a text and every numeral is spelled as JSON allows.
-/
namespace LcdHandhelds.Json

/-- A value of texts and of well-spelled numerals that are finite doubles. -/
inductive Printable : Json → Prop
  | null : Printable null
  | bool (b : Bool) : Printable (bool b)
  | number {n : Numeral} (wellFormed : n.WellFormed) (finite : n.binary64?.isSome) :
    Printable (number n)
  | string (s : String) : Printable (string (some s))
  | array {items : List Json} (each : ∀ j ∈ items, Printable j) : Printable (array items)
  | object {fields : List (Option String × Json)} (keys : ∀ f ∈ fields, f.1.isSome)
    (each : ∀ f ∈ fields, Printable f.2) : Printable (object fields)

namespace Reader

section Space

theorem skipSpace_cons {c : Char} {text : List Char} (h : isSpace c = false) :
    skipSpace (c :: text) = c :: text := by
  simp [skipSpace, h]

theorem skipSpace_newline (level : Nat) (text : List Char) :
    skipSpace (newline level ++ text) = skipSpace text := by
  have hspace : ∀ c ∈ newline level, isSpace c := by
    intro c hc
    rcases List.mem_cons.1 hc with rfl | hc
    · decide
    · rw [List.eq_of_mem_replicate hc]
      decide
  exact List.dropWhile_append_of_pos hspace

theorem value?_newline (fuel level : Nat) (text : List Char) :
    value? fuel (newline level ++ text) = value? fuel text := by
  cases fuel with
  | zero => rfl
  | succ fuel => rw [value?, value?, skipSpace_newline]

theorem items?_newline (fuel level : Nat) (text : List Char) :
    items? fuel (newline level ++ text) = items? fuel text := by
  cases fuel with
  | zero => rfl
  | succ fuel => rw [items?, items?, value?_newline]

theorem fields?_newline (fuel level : Nat) (text : List Char) :
    fields? fuel (newline level ++ text) = fields? fuel text := by
  cases fuel with
  | zero => rfl
  | succ fuel => rw [fields?, fields?, skipSpace_newline]

end Space

/--
The value is read from its text, whatever follows. Its length bounds the fuel: for each item or field
the reader makes two calls, and the printer writes a separator and at least one character.
-/
def Returns (j : Json) : Prop :=
  ∀ (level fuel : Nat) (rest : List Char), Stops inNumeral rest →
    2 * (render level j).length ≤ fuel →
      value? (fuel + 1) (render level j ++ rest) = some (j, rest)

section Scalars

theorem value?_scalar {c : Char} {text : List Char} (fuel : Nat) (hspace : isSpace c = false)
    (harray : c ≠ '[') (hobject : c ≠ '\x7b') :
    value? (fuel + 1) (c :: text) = scalar? (c :: text) := by
  simp [value?, skipSpace_cons hspace, harray, hobject]

theorem isPrefixOf?_cons_eq_none {c d : Char} (word text : List Char) (h : c ≠ d) :
    (d :: word).isPrefixOf? (c :: text) = none := by
  have hcons : (d :: word).isPrefixOf? (c :: text) =
      if d == c then word.isPrefixOf? text else none := rfl
  rw [hcons, if_neg (by simpa using h.symm)]

/-- A text that begins like none of the words. -/
theorem word?_eq_none {c : Char} (text : List Char) (hnull : c ≠ 'n') (htrue : c ≠ 't')
    (hfalse : c ≠ 'f') : word? (c :: text) = none := by
  have hnull := isPrefixOf?_cons_eq_none "ull".toList text hnull
  have htrue := isPrefixOf?_cons_eq_none "rue".toList text htrue
  have hfalse := isPrefixOf?_cons_eq_none "alse".toList text hfalse
  simp only [String.reduceToList] at hnull htrue hfalse
  simp [word?, hnull, htrue, hfalse]

theorem returns_number {n : Numeral} (h : n.WellFormed) : Returns (Json.number n) := by
  intro level fuel rest hrest _
  have hread := numeral?_text h hrest
  obtain ⟨c, more, htext, hne⟩ := h.exists_text
  have hspace : isSpace c = false := by simp [isSpace, hne]
  have hquote : c ≠ '"' := hne _ (by decide) (by decide)
  rw [render]
  rw [htext, List.cons_append] at hread ⊢
  have hword : word? (c :: (more ++ rest)) = none :=
    word?_eq_none _ (hne _ (by decide) (by decide)) (hne _ (by decide) (by decide))
      (hne _ (by decide) (by decide))
  rw [value?_scalar fuel hspace (hne _ (by decide) (by decide)) (hne _ (by decide) (by decide))]
  simp [scalar?, hquote, hword, hread]

theorem returns_string (s : String) : Returns (Json.string (some s)) := by
  intro level fuel rest _ _
  have hread := string?_quote s rest
  obtain ⟨text, htext⟩ : ∃ text, quote s = '"' :: text := ⟨_, rfl⟩
  rw [render, quoteSound, Option.getD_some]
  rw [htext, List.cons_append] at hread ⊢
  rw [value?_scalar fuel (by decide) (by decide) (by decide)]
  simp [scalar?, hread]

end Scalars

section Lists

variable {out level : Nat} {rest : List Char}

theorem stops_renderItems (level out : Nat) (items : List Json) (rest : List Char) :
    Stops inNumeral (renderItems level items ++ (newline out ++ ']' :: rest)) := by
  cases items <;> simp [renderItems, newline, inNumeral]

theorem stops_renderFields (level out : Nat) (fields : List (Option String × Json))
    (rest : List Char) :
    Stops inNumeral (renderFields level fields ++ (newline out ++ '\x7d' :: rest)) := by
  cases fields with
  | nil => simp [renderFields, newline, inNumeral]
  | cons f fields => obtain ⟨key, j⟩ := f; simp [renderFields, newline, inNumeral]

/-- By induction on the items after the first. -/
theorem items?_render (fuel : Nat) (j : Json) (items : List Json)
    (hread : ∀ k ∈ j :: items, Returns k)
    (hfuel : 2 * ((render level j).length + (renderItems level items).length) ≤ fuel) :
    items? (fuel + 2) (render level j ++ (renderItems level items ++
        (newline out ++ ']' :: rest))) = some (j :: items, rest) := by
  induction items generalizing j fuel with
  | nil =>
    have hj := hread j List.mem_cons_self level fuel _ (stops_renderItems level out [] rest)
      (by omega)
    have hend : skipSpace (newline out ++ ']' :: rest) = ']' :: rest := by
      rw [skipSpace_newline, skipSpace_cons (by decide)]
    rw [renderItems, List.nil_append] at hj ⊢
    simp [items?, hj, hend]
  | cons k items ih =>
    have hj := hread j List.mem_cons_self level fuel _
      (stops_renderItems level out (k :: items) rest) (by omega)
    simp only [renderItems, List.length_cons, List.length_append, List.cons_append,
      List.append_assoc] at hfuel hj ⊢
    obtain ⟨less, rfl⟩ : ∃ less, fuel = less + 1 := ⟨fuel - 1, by omega⟩
    have hitems := ih less k (fun l hl => hread l (List.mem_cons_of_mem _ hl)) (by omega)
    rw [items?]
    simp [hj, skipSpace_cons, isSpace, items?_newline, hitems]

theorem skipSpace_quote (key : String) (text : List Char) :
    skipSpace (quote key ++ text) = quote key ++ text :=
  skipSpace_cons (by decide)

theorem value?_space (fuel : Nat) (text : List Char) :
    value? fuel (' ' :: text) = value? fuel text := by
  cases fuel with
  | zero => rfl
  | succ fuel => simp [value?, skipSpace, isSpace]

/-- A field at the front: the rest is what its value leaves. -/
theorem fields?_quote (key : String) {j : Json} {text : List Char} (fuel : Nat)
    (hread : value? fuel text = some (j, rest)) :
    fields? (fuel + 1) (quote key ++ (": ".toList ++ text)) =
      match skipSpace rest with
      | ',' :: more => (fields? fuel more).bind fun tail => some ((some key, j) :: tail.1, tail.2)
      | '\x7d' :: more => some ([(some key, j)], more)
      | _ => none := by
  have hcolon : ": ".toList = [':', ' '] := rfl
  rw [fields?, skipSpace_quote, string?_quote, hcolon]
  simp only [Option.bind_eq_bind, Option.bind_some, List.cons_append, List.nil_append]
  rw [skipSpace_cons (by decide)]
  simp only [value?_space, hread, Option.bind_some]
  rfl

/-- By induction on the fields after the first. -/
theorem fields?_render (fuel : Nat) (key : Option String) (j : Json)
    (fields : List (Option String × Json)) (hkeys : ∀ f ∈ (key, j) :: fields, f.1.isSome)
    (hread : ∀ f ∈ (key, j) :: fields, Returns f.2)
    (hfuel : 2 * ((render level j).length + (renderFields level fields).length) ≤ fuel) :
    fields? (fuel + 2) (quoteSound key ++ (": ".toList ++ (render level j ++
        (renderFields level fields ++ (newline out ++ '\x7d' :: rest))))) =
      some ((key, j) :: fields, rest) := by
  induction fields generalizing key j fuel with
  | nil =>
    obtain ⟨key, rfl⟩ := Option.isSome_iff_exists.1 (hkeys _ List.mem_cons_self)
    have hj : value? _ _ = _ := hread (some key, j) List.mem_cons_self level fuel _
      (stops_renderFields level out [] rest) (Nat.le_trans (by simp only; omega) hfuel)
    have hend : skipSpace (newline out ++ '\x7d' :: rest) = '\x7d' :: rest := by
      rw [skipSpace_newline, skipSpace_cons (by decide)]
    rw [quoteSound, Option.getD_some, fields?_quote key _ hj, renderFields, List.nil_append, hend]
    simp
  | cons f fields ih =>
    obtain ⟨key, rfl⟩ := Option.isSome_iff_exists.1 (hkeys _ List.mem_cons_self)
    obtain ⟨next, k⟩ := f
    have hj : value? _ _ = _ := hread (some key, j) List.mem_cons_self level fuel _
      (stops_renderFields level out ((next, k) :: fields) rest)
      (Nat.le_trans (by simp only; omega) hfuel)
    rw [quoteSound, Option.getD_some, fields?_quote key _ hj]
    simp only [renderFields, List.length_cons, List.length_append, List.cons_append,
      List.append_assoc] at hfuel ⊢
    obtain ⟨less, rfl⟩ : ∃ less, fuel = less + 1 := ⟨fuel - 1, by omega⟩
    have hfields := ih less next k (fun l hl => hkeys l (List.mem_cons_of_mem _ hl))
      (fun l hl => hread l (List.mem_cons_of_mem _ hl)) (by omega)
    rw [skipSpace_cons (by decide)]
    simp only [fields?_newline]
    rw [hfields, Option.bind_some]

/-- What a value begins with, as far as the reader of arrays looks at it. -/
theorem exists_render {j : Json} (h : j.Printable) (level : Nat) :
    ∃ c more, render level j = c :: more ∧ isSpace c = false ∧ c ≠ ']' := by
  cases h with
  | null => exact ⟨'n', _, rfl, by decide, by decide⟩
  | bool b => cases b with
    | false => exact ⟨'f', _, rfl, by decide, by decide⟩
    | true => exact ⟨'t', _, rfl, by decide, by decide⟩
  | number wellFormed =>
    obtain ⟨c, more, htext, hne⟩ := wellFormed.exists_text
    exact ⟨c, more, htext, by simp [isSpace, hne], hne _ (by decide) (by decide)⟩
  | string s => exact ⟨'"', _, rfl, by decide, by decide⟩
  | @array items =>
    cases items with
    | nil => exact ⟨'[', _, rfl, by decide, by decide⟩
    | cons => exact ⟨'[', _, rfl, by decide, by decide⟩
  | @object fields =>
    cases fields with
    | nil => exact ⟨'\x7b', _, rfl, by decide, by decide⟩
    | cons => exact ⟨'\x7b', _, rfl, by decide, by decide⟩

theorem value?_array {text : List Char} (fuel : Nat)
    (hitems : ∀ more, skipSpace text ≠ ']' :: more) :
    value? (fuel + 1) ('[' :: text) =
      (items? fuel text).map fun read => (array read.1, read.2) := by
  rw [value?, skipSpace_cons (by decide)]
  simp only

theorem value?_object {text : List Char} (fuel : Nat)
    (hfields : ∀ more, skipSpace text ≠ '\x7d' :: more) :
    value? (fuel + 1) ('\x7b' :: text) =
      (fields? fuel text).map fun read => (object read.1, read.2) := by
  rw [value?, skipSpace_cons (by decide)]
  simp only

theorem returns_array {items : List Json} (hprint : ∀ j ∈ items, j.Printable)
    (hread : ∀ j ∈ items, Returns j) : Returns (Json.array items) := by
  intro level fuel rest _ hfuel
  cases items with
  | nil => rfl
  | cons j items =>
    obtain ⟨c, more, hj, hspace, hend⟩ := exists_render (hprint j List.mem_cons_self) (level + 1)
    simp only [render, List.cons_append, List.append_assoc, List.length_cons,
      List.length_append] at hfuel ⊢
    obtain ⟨less, rfl⟩ : ∃ less, fuel = less + 2 := ⟨fuel - 2, by omega⟩
    have hitems : items? (less + 2) (render (level + 1) j ++
        (renderItems (level + 1) items ++ (newline level ++ ']' :: rest))) = _ :=
      items?_render less j items hread (by omega)
    rw [List.nil_append, value?_array, items?_newline, hitems, Option.map_some]
    rw [skipSpace_newline, hj, List.cons_append, skipSpace_cons hspace]
    exact fun _ h => hend (List.cons.inj h).1

theorem returns_object {fields : List (Option String × Json)}
    (hkeys : ∀ f ∈ fields, f.1.isSome) (hread : ∀ f ∈ fields, Returns f.2) :
    Returns (Json.object fields) := by
  intro level fuel rest _ hfuel
  cases fields with
  | nil => rfl
  | cons f fields =>
    obtain ⟨key, j⟩ := f
    simp only [render, List.cons_append, List.append_assoc, List.length_cons,
      List.length_append] at hfuel ⊢
    obtain ⟨less, rfl⟩ : ∃ less, fuel = less + 2 := ⟨fuel - 2, by omega⟩
    have hfields : fields? (less + 2) (quoteSound key ++ (": ".toList ++
        (render (level + 1) j ++ (renderFields (level + 1) fields ++
          (newline level ++ '\x7d' :: rest))))) = _ :=
      fields?_render less key j fields hkeys hread (by omega)
    rw [List.nil_append, value?_object, fields?_newline, hfields, Option.map_some]
    rw [skipSpace_newline, quoteSound, skipSpace_quote]
    exact fun _ h => absurd (List.cons.inj h).1 (by decide)

end Lists

end Reader

theorem Printable.returns {j : Json} (h : j.Printable) : Reader.Returns j := by
  induction h with
  | null => exact fun _ _ _ _ _ => rfl
  | bool b =>
    cases b with
    | false => exact fun _ _ _ _ _ => rfl
    | true => exact fun _ _ _ _ _ => rfl
  | number wellFormed _ => exact Reader.returns_number wellFormed
  | string s => exact Reader.returns_string s
  | array each ih => exact Reader.returns_array each ih
  | object keys _ ih => exact Reader.returns_object keys ih

theorem parse?_toText {j : Json} (h : j.Printable) : parse? j.toText.toList = some j := by
  have hread := h.returns 0 (2 * (render 0 j).length + 1) [] (Reader.stops_nil _) (by omega)
  rw [List.append_nil] at hread
  simp [parse?, toText, hread, Reader.skipSpace]

end LcdHandhelds.Json
