import LcdHandhelds.Text.Blank
import LcdHandhelds.Text.Word
import LcdHandhelds.Text.Group

/-!
Calls `name( ... )`. A call starts at an occurrence of the name that no identifier character
precedes; blanks may stand before the parenthesis. A name whose group does not balance is passed
over, and the arguments of a call are not searched again. A name has a character: passing over the
empty one is no step forward, and `leadingGroups` says how far a search for it comes.
-/
namespace LcdHandhelds.Text

/-- The place where the name starts, the text between the parentheses, and the text after them. -/
structure Call where
  place : Nat
  args : List Char
  after : List Char
  deriving DecidableEq, Repr

/-- The place just past the closing parenthesis, in the text that holds the call. -/
def Call.stop (text : List Char) (c : Call) : Nat :=
  text.length - c.after.length

/-- Scans on from `place`; `glued` and `skip` are as for `occurrencesFrom`. -/
def callsFrom (name : List Char) :
    (place : Nat) → (glued : Bool) → (skip : Nat) → List Char → List Call
  | _, _, _, [] => []
  | place, _, skip + 1, c :: text => callsFrom name (place + 1) (isWordChar c) skip text
  | place, glued, 0, c :: text =>
    match name.isPrefixOf? (c :: text) with
    | none => callsFrom name (place + 1) (isWordChar c) 0 text
    | some rest =>
      match if glued then none else Group.ofText? (skipBlank rest) with
      | none => callsFrom name (place + 1) (isWordChar c) (name.length - 1) text
      | some group =>
        ⟨place, group.inner, group.after⟩ ::
          callsFrom name (place + 1) (isWordChar c) (text.length - group.after.length) text

/-- The calls of `name`, in order. -/
def calls (name : String) (text : List Char) : List Call :=
  callsFrom name.toList 0 false 0 text

def firstCall? (name : String) (text : List Char) : Option Call :=
  (calls name text).head?

/--
The groups at the front of a text, with blanks before each of them. A search for the empty name finds
it again where it stands and gets on over a group only: these are the calls that it comes to, and
behind the last of them it never ends.
-/
def leadingGroups (text : List Char) : List Group :=
  match _h : Group.ofText? (skipBlank text) with
  | none => []
  | some g => g :: leadingGroups g.after
termination_by text.length
decreasing_by exact Nat.lt_of_lt_of_le (Group.length_after_lt _h) (length_skipBlank_le text)

end LcdHandhelds.Text
