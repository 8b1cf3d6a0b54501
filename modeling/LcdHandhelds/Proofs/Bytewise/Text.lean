import Mathlib.Data.List.Forall2
import LcdHandhelds.Text.Offset
import LcdHandhelds.Text.Word

/-!
Texts read by byte offsets. A text is cut at offsets of its UTF-8 form and its bytes are taken by
index, and either fails when an offset does not fit the text. The scanners of the library know no
offsets and cannot fail; here they are written again by offsets, each with the theorem that no cut
of it fails and that it finds what the scanner finds. Where only the first of several finds is used
all of them are made, which fails no less often. Sums of offsets are not checked: one past the end
of a text fails when the text is cut there.
-/
namespace LcdHandhelds.Bytewise

open Text

/-- Why a reading by offsets stops. -/
inductive Fault where
  /-- An offset past the end of a text, or an index past the end of a list. -/
  | pastEnd
  /-- A cut between the bytes of one character. -/
  | insideCharacter
  /-- A cut whose end lies before its start. -/
  | reversed
  /-- A difference below zero. -/
  | belowZero
  /-- A search that never comes to the end of its text. -/
  | endless
  deriving DecidableEq, Repr

/-- A reading that may stop at a fault. -/
abbrev Checked := Except Fault

/-- A reading that may stop at a fault, and may find nothing. -/
abbrev Attempt := OptionT Checked

variable {α β γ δ : Type}

/-- An attempt at something that cannot fault. -/
def maybe (o : Option α) : Attempt α :=
  OptionT.mk (.ok o)

/-! ### Outcomes -/

/-- The reading comes to an end, with a result that stands for `b`. -/
def Gives (R : α → β → Prop) (x : Checked α) (b : β) : Prop :=
  ∃ a, x = .ok a ∧ R a b

/-- The attempt comes to an end, and finds what stands for `y`, or nothing where `y` is nothing. -/
def Finds (R : α → β → Prop) (x : Attempt α) (y : Option β) : Prop :=
  Gives (Option.Rel R) x.run y

@[simp] theorem ok_bind (a : α) (f : α → Checked β) : ((.ok a : Checked α) >>= f) = f a := rfl

theorem gives_ok {R : α → β → Prop} {a : α} {b : β} (h : R a b) : Gives R (.ok a) b :=
  ⟨a, rfl, h⟩

theorem gives_eq_iff {x : Checked α} {a : α} : Gives Eq x a ↔ x = .ok a := by
  simp [Gives]

namespace Finds

variable {R : α → β → Prop} {S : γ → δ → Prop}

theorem pure {a : α} {b : β} (h : R a b) : Finds R (Pure.pure a) (some b) :=
  gives_ok (.some h)

theorem failure : Finds R failure none :=
  gives_ok .none

theorem maybe {o : Option α} {y : Option β} (h : Option.Rel R o y) : Finds R (maybe o) y :=
  gives_ok h

theorem bind {x : Attempt α} {y : Option β} {f : α → Attempt γ} {g : β → Option δ}
    (hx : Finds R x y) (hf : ∀ a b, R a b → Finds S (f a) (g b)) :
    Finds S (x >>= f) (y >>= g) := by
  obtain ⟨o, ho, hrel⟩ := hx
  rw [Finds, OptionT.run_bind, ho]
  cases hrel with
  | none => exact gives_ok .none
  | some h => exact hf _ _ h

theorem ok_bind {x : Checked α} {a : α} {f : α → Attempt γ} {y : Option δ} (hx : x = .ok a)
    (hf : Finds S (f a) y) : Finds S ((liftM x : Attempt α) >>= f) y := by
  rw [hx]
  exact hf

theorem lift_bind {x : Checked α} {b : β} {f : α → Attempt γ} {y : Option δ}
    (hx : Gives R x b) (hf : ∀ a, R a b → Finds S (f a) y) :
    Finds S ((liftM x : Attempt α) >>= f) y := by
  obtain ⟨a, rfl, ha⟩ := hx
  exact hf a ha

theorem mk {x : Checked (Option α)} {y : Option β} (h : Gives (Option.Rel R) x y) :
    Finds R (OptionT.mk x) y :=
  h

theorem map {ε : Type} {T : α → ε → Prop} {x : Attempt α} {y : Option β} {g : β → ε}
    (h : Finds R x y) (hg : ∀ a, ∀ b ∈ y, R a b → T a (g b)) : Finds T x (y.map g) := by
  obtain ⟨o, ho, hrel⟩ := h
  refine ⟨o, ho, ?_⟩
  cases hrel with
  | none => exact .none
  | some hab => exact .some (hg _ _ rfl hab)

theorem maybe_self (o : Option α) : Finds Eq (Bytewise.maybe o) o := by
  cases o with
  | none => exact .maybe .none
  | some a => exact .maybe (.some rfl)

theorem orElse {x x' : Attempt α} {y y' : Option β} (h : Finds R x y) (h' : Finds R x' y') :
    Finds R (x <|> x') (y <|> y') := by
  obtain ⟨o, ho, hrel⟩ := h
  rw [Finds, OptionT.run_orElse, ho]
  cases hrel with
  | none => exact h'
  | some h => exact gives_ok (.some h)

theorem eq_iff {x : Attempt α} {y : Option α} : Finds Eq x y ↔ x.run = .ok y := by
  rw [Finds, Gives]
  constructor
  · rintro ⟨o, ho, hrel⟩
    cases hrel with
    | none => exact ho
    | some h => rw [ho, h]
  · intro h
    refine ⟨y, h, ?_⟩
    cases y with
    | none => exact .none
    | some a => exact .some rfl

end Finds

/-- What the attempts find in the elements of a list, one by one. -/
def collect (f : α → Attempt β) : List α → Checked (List β)
  | [] => return []
  | a :: as => do
    match ← (f a).run with
    | some b => return b :: (← collect f as)
    | none => collect f as

/-- What the first attempt that finds something finds. -/
def firstFound (f : α → Attempt β) : List α → Attempt β
  | [] => failure
  | a :: as => f a <|> firstFound f as

theorem gives_collect_nil {R : β → δ → Prop} {f : α → Attempt β} :
    Gives (List.Forall₂ R) (collect f []) [] :=
  gives_ok .nil

theorem gives_collect_cons {R : β → δ → Prop} {f : α → Attempt β} {a : α} {as : List α}
    {o : Option δ} {ds : List δ} (ha : Finds R (f a) o)
    (has : Gives (List.Forall₂ R) (collect f as) ds) :
    Gives (List.Forall₂ R) (collect f (a :: as)) (o.toList ++ ds) := by
  obtain ⟨x, hx, hrel⟩ := ha
  obtain ⟨bs, hbs, hall⟩ := has
  rw [collect, hx, ok_bind]
  cases hrel with
  | none => exact ⟨bs, hbs, hall⟩
  | some h =>
    dsimp only
    rw [hbs]
    exact gives_ok (.cons h hall)

theorem gives_collect {R : α → γ → Prop} {S : β → δ → Prop} {f : α → Attempt β}
    {g : γ → Option δ} {as : List α} {cs : List γ} (h : List.Forall₂ R as cs)
    (hf : ∀ a c, R a c → Finds S (f a) (g c)) :
    Gives (List.Forall₂ S) (collect f as) (cs.filterMap g) := by
  induction h with
  | nil => exact gives_collect_nil
  | @cons a c as cs ha _ ih =>
    have hcons := gives_collect_cons (hf a c ha) ih
    rw [List.filterMap_cons]
    cases hc : g c with
    | none => simpa [hc] using hcons
    | some d => simpa [hc] using hcons

theorem collect_eq {R : α → γ → Prop} {f : α → Attempt β} {g : γ → Option β} {as : List α}
    {cs : List γ} (h : List.Forall₂ R as cs) (hf : ∀ a c, R a c → Finds Eq (f a) (g c)) :
    collect f as = .ok (cs.filterMap g) := by
  have hall := gives_collect h hf
  rwa [List.forall₂_eq_eq_eq, gives_eq_iff] at hall

theorem finds_firstFound {R : α → γ → Prop} {S : β → δ → Prop} {f : α → Attempt β}
    {g : γ → Option δ} {as : List α} {cs : List γ} (h : List.Forall₂ R as cs)
    (hf : ∀ a c, R a c → Finds S (f a) (g c)) :
    Finds S (firstFound f as) (cs.findSome? g) := by
  induction h with
  | nil => exact .failure
  | @cons a c as cs ha _ ih =>
    rw [List.findSome?_cons, firstFound]
    have hfirst := (hf a c ha).orElse ih
    cases hc : g c <;> simpa [hc] using hfirst

/-! ### Cuts and bytes -/

/-- The UTF-8 form of a text. -/
def bytes (text : List Char) : List UInt8 :=
  text.flatMap String.utf8EncodeChar

/-- The place at an offset, which has to lie between two characters or at an end. -/
def boundary (text : List Char) (offset : Nat) : Checked Nat :=
  match placeOf? text offset with
  | some place => .ok place
  | none => .error (if byteLength text < offset then .pastEnd else .insideCharacter)

/-- The text between two offsets. -/
def slice (text : List Char) (start stop : Nat) : Checked (List Char) :=
  if stop < start then .error .reversed
  else do
    let first ← boundary text start
    let last ← boundary text stop
    return (text.take last).drop first

/-- The text from an offset on. -/
def sliceFrom (text : List Char) (start : Nat) : Checked (List Char) :=
  slice text start (byteLength text)

/-- The item at an index, which the list has to have. -/
def item (l : List α) (i : Nat) : Checked α :=
  match l[i]? with
  | some a => .ok a
  | none => .error .pastEnd

/-- A difference that has to be at least zero. -/
def minus (m n : Nat) : Checked Nat :=
  if n ≤ m then .ok (m - n) else .error .belowZero

/-- The byte before an offset. -/
def byteBefore (text : List Char) (offset : Nat) : Checked UInt8 := do
  item (bytes text) (← minus offset 1)

theorem minus_add (m n : Nat) : minus (m + n) n = .ok m := by
  rw [minus, if_pos (Nat.le_add_left n m), Nat.add_sub_cancel]

theorem item_of_getElem? {l : List α} {i : Nat} {a : α} (h : l[i]? = some a) :
    item l i = .ok a := by
  rw [item, h]

@[simp] theorem bytes_nil : bytes [] = [] := rfl

@[simp] theorem bytes_cons (c : Char) (text : List Char) :
    bytes (c :: text) = String.utf8EncodeChar c ++ bytes text := rfl

@[simp] theorem bytes_append (s t : List Char) : bytes (s ++ t) = bytes s ++ bytes t :=
  List.flatMap_append

@[simp] theorem length_bytes (text : List Char) : (bytes text).length = byteLength text := by
  induction text with
  | nil => rfl
  | cons c text ih => rw [bytes_cons, List.length_append, String.length_utf8EncodeChar, ih,
      byteLength_cons]

theorem byteLength_ne_zero {text : List Char} (h : text ≠ []) : byteLength text ≠ 0 := by
  cases text with
  | nil => exact absurd rfl h
  | cons c text =>
    have hpos := c.utf8Size_pos
    rw [byteLength_cons]
    omega

theorem placeOf?_append (front rest : List Char) :
    placeOf? (front ++ rest) (byteLength front) = some front.length := by
  induction front with
  | nil => cases rest <;> simp [placeOf?]
  | cons c front ih =>
    have hpos := c.utf8Size_pos
    obtain ⟨n, hn⟩ : ∃ n, byteLength (c :: front) = n + 1 :=
      ⟨byteLength (c :: front) - 1, by rw [byteLength_cons]; omega⟩
    have hrest : n + 1 - c.utf8Size = byteLength front := by
      rw [byteLength_cons] at hn
      omega
    rw [List.cons_append, hn, placeOf?, if_pos (by rw [byteLength_cons] at hn; omega), hrest, ih]
    rfl

theorem boundary_append (front rest : List Char) :
    boundary (front ++ rest) (byteLength front) = .ok front.length := by
  rw [boundary, placeOf?_append]

/-! ### The text ahead of an offset -/

/-- From the offset on, the text is `rest`. -/
def Ahead (text : List Char) (offset : Nat) (rest : List Char) : Prop :=
  ∃ front, text = front ++ rest ∧ offset = byteLength front

namespace Ahead

variable {text rest : List Char} {offset : Nat}

theorem start (text : List Char) : Ahead text 0 text := ⟨[], rfl, rfl⟩

theorem of_append (front rest : List Char) : Ahead (front ++ rest) (byteLength front) rest :=
  ⟨front, rfl, rfl⟩

/-- Past the text that is read next. -/
theorem forward {read : List Char} (h : Ahead text offset (read ++ rest)) :
    Ahead text (offset + byteLength read) rest := by
  obtain ⟨front, rfl, rfl⟩ := h
  exact ⟨front ++ read, by rw [List.append_assoc], by rw [byteLength_append]⟩

theorem slice_eq {read : List Char} (h : Ahead text offset (read ++ rest)) :
    slice text offset (offset + byteLength read) = .ok read := by
  obtain ⟨front, rfl, rfl⟩ := h
  have hlast : boundary (front ++ (read ++ rest)) (byteLength front + byteLength read) =
      .ok (front.length + read.length) := by
    rw [← List.append_assoc, ← byteLength_append, boundary_append, List.length_append]
  rw [slice, if_neg (Nat.not_lt.2 (Nat.le_add_right _ _)), boundary_append, ok_bind, hlast]
  simp [List.take_append]

theorem sliceFrom_eq (h : Ahead text offset rest) : sliceFrom text offset = .ok rest := by
  have hcut : slice text offset (offset + byteLength rest) = .ok rest :=
    slice_eq (by rwa [List.append_nil])
  obtain ⟨front, rfl, rfl⟩ := h
  rwa [sliceFrom, byteLength_append]

theorem getElem?_bytes (h : Ahead text offset rest) : (bytes text)[offset]? = (bytes rest)[0]? := by
  obtain ⟨front, rfl, rfl⟩ := h
  rw [bytes_append, List.getElem?_append_right (Nat.le_of_eq (length_bytes front)), length_bytes,
    Nat.sub_self]

theorem drop_bytes (h : Ahead text offset rest) : (bytes text).drop offset = bytes rest := by
  obtain ⟨front, rfl, rfl⟩ := h
  rw [bytes_append, ← length_bytes, List.drop_left]

/-- The offset is that of the place before what lies ahead. -/
theorem eq_byteOffset (h : Ahead text offset rest) :
    offset = byteOffset text (text.length - rest.length) := by
  obtain ⟨front, rfl, rfl⟩ := h
  rw [byteOffset, List.length_append, Nat.add_sub_cancel, List.take_left]

theorem unique {offset' : Nat} (h : Ahead text offset rest) (h' : Ahead text offset' rest) :
    offset = offset' :=
  h.eq_byteOffset.trans h'.eq_byteOffset.symm

end Ahead

/-- The front of a text is cut off at its length. -/
theorem slice_append (front rest : List Char) :
    slice (front ++ rest) 0 (byteLength front) = .ok front := by
  simpa using Ahead.slice_eq (Ahead.start (front ++ rest))

example : slice "aé".toList 1 3 = .ok ['é'] := by decide

example : slice "aé".toList 1 2 = .error .insideCharacter := by decide

/-- Later places have later offsets. -/
theorem byteOffset_lt_iff {text : List Char} {p q : Nat} (hp : p ≤ text.length)
    (hq : q ≤ text.length) : byteOffset text p < byteOffset text q ↔ p < q := by
  have hlt : ∀ {p q}, p < q → q ≤ text.length → byteOffset text p < byteOffset text q := by
    intro p q hpq hq
    obtain ⟨k, rfl⟩ := Nat.exists_eq_add_of_lt hpq
    have hne : (text.drop p).take (k + 1) ≠ [] := by
      apply List.ne_nil_of_length_pos
      rw [List.length_take, List.length_drop]
      omega
    have hpos := byteLength_ne_zero hne
    rw [byteOffset, byteOffset, Nat.add_assoc, List.take_add, byteLength_append]
    omega
  constructor
  · intro h
    by_contra hn
    rcases Nat.eq_or_lt_of_le (Nat.le_of_not_lt hn) with rfl | hqp
    · omega
    · have := hlt hqp hp
      omega
  · exact fun h => hlt h hq

/-! ### Characters of one byte -/

/-- A property that no character outside ASCII has. -/
def OnAscii (q : Char → Bool) : Prop :=
  ∀ c : Char, 128 ≤ c.toNat → q c = false

theorem toNat_ofUInt8 (b : UInt8) : (Char.ofUInt8 b).toNat = b.toNat := rfl

theorem utf8EncodeChar_of_lt {c : Char} (h : c.toNat < 128) :
    String.utf8EncodeChar c = [UInt8.ofNat c.toNat] := by
  have hle : c.toNat ≤ 127 := Nat.le_of_lt_succ h
  simp [String.utf8EncodeChar, hle]

theorem utf8Size_of_lt {c : Char} (h : c.toNat < 128) : c.utf8Size = 1 := by
  rw [← String.length_utf8EncodeChar, utf8EncodeChar_of_lt h, List.length_singleton]

theorem utf8EncodeChar_ne_nil (c : Char) : String.utf8EncodeChar c ≠ [] := by
  have hpos := c.utf8Size_pos
  rw [← String.length_utf8EncodeChar] at hpos
  exact List.ne_nil_of_length_pos hpos

theorem exists_first_byte (c : Char) (text : List Char) :
    ∃ b ∈ String.utf8EncodeChar c, (bytes (c :: text))[0]? = some b := by
  obtain ⟨b, bs, hb⟩ := List.exists_cons_of_ne_nil (utf8EncodeChar_ne_nil c)
  rw [bytes_cons, hb]
  exact ⟨b, List.mem_cons_self, rfl⟩

/-- A character outside ASCII is none of ASCII. -/
theorem ne_of_le {c d : Char} (hc : 128 ≤ c.toNat) (hd : d.toNat < 128) : c ≠ d := by
  rintro rfl
  omega

theorem ofUInt8_ofNat {c : Char} (h : c.toNat < 128) : Char.ofUInt8 (UInt8.ofNat c.toNat) = c := by
  apply Char.toNat_inj.1
  rw [toNat_ofUInt8, UInt8.toNat_ofNat']
  omega

/-- Past an ASCII character. -/
theorem Ahead.forward_ascii {text rest : List Char} {offset : Nat} {c : Char}
    (h : Ahead text offset (c :: rest)) (hc : c.toNat < 128) : Ahead text (offset + 1) rest := by
  have hnext : Ahead text (offset + byteLength [c]) rest := Ahead.forward h
  rwa [byteLength_cons, byteLength_nil, Nat.add_zero, utf8Size_of_lt hc] at hnext

/-- All bytes of a longer character lie outside ASCII. -/
theorem le_toNat_of_mem_utf8EncodeChar {c : Char} (h : 128 ≤ c.toNat) {b : UInt8}
    (hb : b ∈ String.utf8EncodeChar c) : 128 ≤ b.toNat := by
  have hlong : ¬ c.val.toNat ≤ 127 := Nat.not_le.2 h
  rw [String.utf8EncodeChar] at hb
  simp only [hlong, if_false] at hb
  split at hb
  · simp only [List.mem_cons, List.not_mem_nil, or_false] at hb
    rcases hb with rfl | rfl <;> simp <;> omega
  · split at hb
    · simp only [List.mem_cons, List.not_mem_nil, or_false] at hb
      rcases hb with rfl | rfl | rfl <;> simp <;> omega
    · simp only [List.mem_cons, List.not_mem_nil, or_false] at hb
      rcases hb with rfl | rfl | rfl | rfl <;> simp <;> omega

theorem apply_byte {q : Char → Bool} (hq : OnAscii q) {c : Char} {b : UInt8}
    (hb : b ∈ String.utf8EncodeChar c) : q (Char.ofUInt8 b) = q c := by
  by_cases h : c.toNat < 128
  · rw [utf8EncodeChar_of_lt h, List.mem_singleton] at hb
    rw [hb, ofUInt8_ofNat h]
  · rw [hq c (by omega), hq]
    rw [toNat_ofUInt8]
    exact le_toNat_of_mem_utf8EncodeChar (by omega) hb

theorem byte_eq_iff {c d : Char} (hd : d.toNat < 128) {b : UInt8}
    (hb : b ∈ String.utf8EncodeChar c) : Char.ofUInt8 b = d ↔ c = d := by
  have honly : OnAscii (· = d) := fun _ hc => decide_eq_false (ne_of_le hc hd)
  simpa using apply_byte honly hb

/-- The run of bytes with a property is that of the characters with it. -/
theorem takeWhile_bytes {q : Char → Bool} (hq : OnAscii q) (text : List Char) :
    (bytes text).takeWhile (fun b => q (Char.ofUInt8 b)) = bytes (text.takeWhile q) := by
  induction text with
  | nil => rfl
  | cons c text ih =>
    rw [bytes_cons]
    by_cases hc : q c
    · rw [List.takeWhile_append_of_pos fun b hb => (apply_byte hq hb).trans hc, ih,
        List.takeWhile_cons_of_pos hc, bytes_cons]
    · obtain ⟨b, bs, hb⟩ := List.exists_cons_of_ne_nil (utf8EncodeChar_ne_nil c)
      have hfirst : ¬ q (Char.ofUInt8 b) := by
        rw [apply_byte hq (hb ▸ List.mem_cons_self)]
        exact hc
      rw [hb, List.cons_append, List.takeWhile_cons, if_neg hfirst, List.takeWhile_cons, if_neg hc,
        bytes_nil]

end LcdHandhelds.Bytewise
