import LcdHandhelds.Table
import LcdHandhelds.Text.Argument
import LcdHandhelds.Text.Call

/-!
System definitions: when a device was released, by whom and under which title, and which set it
was derived from.
-/
namespace LcdHandhelds

open Text

structure Release where
  /-- Four digits, or question marks for those that are not known. -/
  year : String
  company : String
  name : String
  deriving DecidableEq, Repr

/-- A release, and the set that the device is a clone of. -/
structure SystemEntry where
  release : Release
  parent : Option String
  deriving DecidableEq, Repr

namespace SystemEntry

def isYear (text : List Char) : Bool :=
  text.length = 4 && text.all fun c => c.isDigit || c == '?'

/--
Reads the arguments year, name, parent, compatible set, machine, input, class, initializer,
company and title, and any after them. A parent written `0`, or left out, is none.
-/
def ofArguments? (text : List Char) : Option (String × SystemEntry) :=
  match arguments text with
  | year :: name :: parent :: _ :: _ :: _ :: _ :: _ :: company :: title :: _ => do
    let company ← unquote? company
    let title ← unquote? title
    if isYear year && !name.isEmpty then
      let release := ⟨String.ofList year, String.ofList company, String.ofList title⟩
      let parent := if parent = [] ∨ parent = ['0'] then none else some (String.ofList parent)
      return (String.ofList name, ⟨release, parent⟩)
    else none
  | _ => none

/-- The systems of a source by name; a later definition replaces an earlier one. -/
def scan (source : List Char) : Table String SystemEntry :=
  Table.ofList ((calls "SYST" source).filterMap (ofArguments? ·.args))

end SystemEntry

end LcdHandhelds
