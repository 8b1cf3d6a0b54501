import LcdHandhelds.Proofs.Bytewise.Call
import LcdHandhelds.Proofs.Text.Words
import LcdHandhelds.Text.Cursor

/-!
The cursor keeps its place. A reader by byte offsets cuts its text anew at every step, and a cursor
carries what is left of it along. From a common place on the two take the same steps: no cut of the
reader fails, and the cursor is ahead of the same text at the same offset.
-/
namespace LcdHandhelds.Bytewise

open Text

/-- A reader at the place of a cursor. -/
structure Reader.At (text : List Char) (r : Reader) (c : Cursor) : Prop where
  on : r.On text c.ahead
  position : r.position = c.offset

/-- The cursor behind a step, if the step was one. -/
def stepped? (step : Bool × Cursor) : Option Cursor :=
  if step.1 then some step.2 else none

theorem stepped?_eat (token : String) (c : Cursor) :
    stepped? (c.eat token) = (token.toList.isPrefixOf? c.ahead).map fun ahead =>
      ⟨c.offset + byteLength token.toList, ahead⟩ := by
  rw [Cursor.eat]
  cases token.toList.isPrefixOf? c.ahead <;> rfl

theorem identifier_eq (c : Cursor) :
    c.identifier.1.map (·, c.identifier.2) = (identifier? c.ahead).map fun read =>
      (String.ofList read.1, ⟨c.offset + byteLength read.1, read.2⟩) := by
  rw [Cursor.identifier]
  cases identifier? c.ahead <;> rfl

/-- A cursor is set between two characters, with the rest of the text ahead, and nowhere else. -/
theorem cursor_at?_eq_some_iff {text : List Char} {offset : Nat} {c : Cursor} :
    Cursor.at? text offset = some c ↔ c.offset = offset ∧ Ahead text offset c.ahead := by
  rw [Cursor.at?, Option.map_eq_some_iff]
  constructor
  · rintro ⟨place, hplace, rfl⟩
    obtain ⟨-, hoffset⟩ := byteOffset_of_placeOf? hplace
    exact ⟨rfl, text.take place, (List.take_append_drop place text).symm, hoffset.symm⟩
  · rintro ⟨hoffset, front, rfl, hfront⟩
    refine ⟨front.length, ?_, ?_⟩
    · rw [hfront, placeOf?_append]
    · rw [List.drop_left, ← hoffset]

namespace Reader.At

variable {text : List Char} {r : Reader} {c : Cursor} (h : r.At text c)

include h

/-- The reader and the cursor have read the same text. -/
theorem forward {r' : Reader} {read ahead : List Char} (hread : c.ahead = read ++ ahead)
    (hr' : r'.On text ahead) : At text r' ⟨c.offset + byteLength read, ahead⟩ := by
  have hahead : Ahead text c.offset (read ++ ahead) := by
    rw [← hread, ← h.position]
    exact h.on.ahead
  exact ⟨hr', hr'.ahead.unique hahead.forward⟩

theorem skipBlank :
    Gives (fun a b => a.1 = b.1 ∧ At text a.2 b.2) r.skipBlank c.skipBlank :=
  ⟨_, skipBlank_eq h.on, rfl,
    h.forward (takeWhile_append_skipBlank c.ahead).symm (on_skipBlank h.on)⟩

/-- Blanks that have to be there are missing just if none is skipped. -/
theorem space :
    Finds (At text) r.space (if c.skipBlank.1 = 0 then none else some c.skipBlank.2) := by
  refine .lift_bind h.skipBlank fun (skipped, r') hstep => ?_
  obtain ⟨rfl, hr'⟩ := hstep
  dsimp only
  split
  · exact .failure
  · exact .pure hr'

theorem eat (token : String) : Finds (At text) (r.eat token.toList) (stepped? (c.eat token)) := by
  rw [stepped?_eat]
  refine (finds_eat token.toList h.on).map fun r' ahead hahead hr' => h.forward ?_ hr'
  exact (List.isPrefixOf?_eq_some_iff_append_eq.1 hahead).symm

/-- Where the token is missing there is no reader, and the cursor stays behind the blanks. -/
theorem eatNext (token : String) :
    Finds (At text) (r.eatNext token) (stepped? (c.eatNext token)) :=
  .lift_bind h.skipBlank fun _ hstep => hstep.2.eat token

theorem identifier :
    Finds (fun a b => String.ofList a.1 = b.1 ∧ At text a.2 b.2) r.identifier
      (c.identifier.1.map (·, c.identifier.2)) := by
  rw [identifier_eq]
  refine (finds_identifier h.on).map fun (name, r') (read, ahead) hread hr' => ?_
  obtain ⟨rfl, hon⟩ := hr'
  exact ⟨rfl, h.forward (identifier?_eq_some_iff.1 hread).1 hon⟩

end Reader.At

end LcdHandhelds.Bytewise
