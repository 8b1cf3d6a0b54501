import LcdHandhelds.Text.Blank
import LcdHandhelds.Text.Group

/-!
Argument lists and string literals. A comma separates two arguments where no group and no string
literal is open.
-/
namespace LcdHandhelds.Text

/-- `piece` is the argument read so far, nearest character first; a surplus `)` closes nothing. -/
def piecesFrom : (depth : Nat) → Quoting → (piece : List Char) → List Char → List (List Char)
  | _, _, piece, [] => [piece.reverse]
  | 0, .plain, piece, ',' :: text => piece.reverse :: piecesFrom 0 .plain [] text
  | depth, .plain, piece, '(' :: text => piecesFrom (depth + 1) .plain ('(' :: piece) text
  | depth, .plain, piece, ')' :: text => piecesFrom (depth - 1) .plain (')' :: piece) text
  | depth, quoting, piece, c :: text => piecesFrom depth (quoting.next c) (c :: piece) text

/-- The trimmed arguments of a list; a blank list has none. -/
def arguments (text : List Char) : List (List Char) :=
  if text.all isBlank then [] else (piecesFrom 0 .plain [] text).map trim

/-- The text inside a literal `"..."`. Two quotes are needed, and escapes are kept as written. -/
def unquote? (text : List Char) : Option (List Char) :=
  match trim text with
  | '"' :: rest =>
    match rest.reverse with
    | '"' :: inner => some inner.reverse
    | _ => none
  | _ => none

/-- What stands before the first occurrence of `mark`, and the text from `mark` on. -/
def splitBefore? (mark : List Char) : (before : List Char) → List Char →
    Option (List Char × List Char)
  | before, [] => if mark.isEmpty then some (before.reverse, []) else none
  | before, c :: text =>
    if mark.isPrefixOf (c :: text) then some (before.reverse, c :: text)
    else splitBefore? mark (c :: before) text

/-- The text up to the first occurrence of `mark`. -/
def before? (mark : String) (text : List Char) : Option (List Char) :=
  (splitBefore? mark.toList [] text).map (·.1)

end LcdHandhelds.Text
