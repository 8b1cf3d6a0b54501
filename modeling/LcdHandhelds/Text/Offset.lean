/-!
Places in a text. Inside the library a place is a count of characters; published offsets count the
bytes of the text's UTF-8 form.
-/
namespace LcdHandhelds.Text

def byteLength : List Char → Nat
  | [] => 0
  | c :: text => c.utf8Size + byteLength text

/-- The byte offset of a place. -/
def byteOffset (text : List Char) (place : Nat) : Nat :=
  byteLength (text.take place)

/-- The place at a byte offset; none inside a character or past the end. -/
def placeOf? : List Char → (offset : Nat) → Option Nat
  | _, 0 => some 0
  | [], _ + 1 => none
  | c :: text, offset + 1 =>
    if c.utf8Size ≤ offset + 1 then (placeOf? text (offset + 1 - c.utf8Size)).map (· + 1) else none

@[simp] theorem byteLength_nil : byteLength [] = 0 := rfl

@[simp] theorem byteLength_cons (c : Char) (text : List Char) :
    byteLength (c :: text) = c.utf8Size + byteLength text := rfl

@[simp] theorem byteLength_append (s t : List Char) :
    byteLength (s ++ t) = byteLength s + byteLength t := by
  induction s with
  | nil => simp
  | cons c s ih => simp [ih, Nat.add_assoc]

/-- A place that an offset names lies in the text and has that offset. -/
theorem byteOffset_of_placeOf? {text : List Char} {offset place : Nat}
    (h : placeOf? text offset = some place) :
    place ≤ text.length ∧ byteOffset text place = offset := by
  induction text generalizing offset place with
  | nil => cases offset <;> simp_all [placeOf?, byteOffset]
  | cons c text ih =>
    cases offset with
    | zero =>
      obtain rfl : 0 = place := by simpa [placeOf?] using h
      simp [byteOffset]
    | succ offset =>
      simp only [placeOf?] at h
      split at h
      · obtain ⟨p, hp, rfl⟩ := Option.map_eq_some_iff.1 h
        obtain ⟨hle, ho⟩ := ih hp
        simp only [byteOffset] at ho
        simp only [byteOffset, List.length_cons, List.take_succ_cons, byteLength_cons]
        omega
      · simp at h

end LcdHandhelds.Text
