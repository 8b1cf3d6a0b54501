import LcdHandhelds.Text.Offset
import LcdHandhelds.Text.Word

/-!
A cursor walks forward over a text and matches fixed tokens. It knows its byte offset and the text
that is still ahead.
-/
namespace LcdHandhelds.Text

structure Cursor where
  offset : Nat
  ahead : List Char
  deriving DecidableEq, Repr

namespace Cursor

/-- A cursor at a byte offset; none inside a character or past the end. -/
def at? (text : List Char) (offset : Nat) : Option Cursor :=
  (placeOf? text offset).map fun place => ⟨offset, text.drop place⟩

/-- Skips blanks, and says how many bytes they took. -/
def skipBlank (c : Cursor) : Nat × Cursor :=
  let skipped := byteLength (c.ahead.takeWhile isBlank)
  (skipped, ⟨c.offset + skipped, Text.skipBlank c.ahead⟩)

/-- Steps over `token` if the text goes on with it. -/
def eat (token : String) (c : Cursor) : Bool × Cursor :=
  match token.toList.isPrefixOf? c.ahead with
  | some ahead => (true, ⟨c.offset + byteLength token.toList, ahead⟩)
  | none => (false, c)

/-- Skips blanks, then steps over `token`. The blanks stay skipped when the token is missing. -/
def eatNext (token : String) (c : Cursor) : Bool × Cursor :=
  c.skipBlank.2.eat token

/-- Steps over an identifier. -/
def identifier (c : Cursor) : Option String × Cursor :=
  match identifier? c.ahead with
  | some (name, ahead) => (some (String.ofList name), ⟨c.offset + byteLength name, ahead⟩)
  | none => (none, c)

end Cursor

end LcdHandhelds.Text
