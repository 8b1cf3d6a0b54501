import LcdHandhelds.Text.Argument
import LcdHandhelds.Text.Word

/-!
Driver classes and constructors. A class `<stem>_state` declares one constructor for each of its
devices, `void device(machine_config &config`; the definition of a constructor gives the device's
hardware. White space may stand between these tokens, and none of them is searched for: each has to
be the next in the text.
-/
namespace LcdHandhelds

open Text

/-- Steps over white space, of which there has to be some. -/
def space? : List Char → Option (List Char)
  | c :: text => if isBlank c then some (skipBlank text) else none
  | [] => none

/-- Steps over a token, and over white space before it. -/
def token? (token : String) (text : List Char) : Option (List Char) :=
  token.toList.isPrefixOf? (skipBlank text)

/-- The device that a constructor is declared for, after the word `void`. -/
def declaredDevice? (text : List Char) : Option String := do
  let text ← space? text
  let (name, text) ← identifier? text
  let text ← token? "(" text
  let text ← token? "machine_config" text
  let text ← token? "&" text
  let _ ← token? "config" text
  return String.ofList name

/-- The name of a driver class after the word `class`, and the text after its colon. -/
def className? (text : List Char) : Option (List Char × List Char) := do
  let text ← space? text
  let (name, text) ← identifier? text
  let text ← space? text
  let text ← ":".toList.isPrefixOf? text
  if "_state".toList.isSuffixOf name then return (name, text) else none

/-- A driver class: where it starts, its name, where its body ends, and the body. -/
structure DriverClass where
  start : Nat
  name : String
  body : List Char
  stop : Nat
  deriving DecidableEq, Repr

namespace DriverClass

/-- The class that starts with an occurrence of `class`. Its body ends before the next `};`. -/
def ofOccurrence? (size : Nat) (o : Occurrence) : Option DriverClass := do
  let (name, text) ← className? o.after
  let (body, rest) ← splitBefore? ['\x7d', ';'] [] text
  return ⟨o.place, String.ofList name, body, size - rest.length⟩

/-- The classes among the occurrences of `class` from `resume` on. -/
def scanFrom (size : Nat) : (resume : Nat) → List Occurrence → List DriverClass
  | _, [] => []
  | resume, o :: rest =>
    if o.place < resume then scanFrom size resume rest
    else
      match ofOccurrence? size o with
      | some c => c :: scanFrom size c.stop rest
      | none => scanFrom size resume rest

/-- The driver classes in source order; none lies inside another. -/
def scan (source : List Char) : List DriverClass :=
  scanFrom source.length 0 (occurrences "class" source)

/-- The devices that the class declares constructors for, in order. -/
def devices (c : DriverClass) : List String :=
  (occurrences "void" c.body).filterMap (declaredDevice? ·.after)

/-- The name without its ending, under which the devices of a class often share their inputs. -/
def stem (c : DriverClass) : String :=
  String.ofList (c.name.toList.take (c.name.toList.length - "_state".toList.length))

end DriverClass

/-- The text up to the first closing brace that directly follows an ASCII blank. -/
def bodyBefore? : (read : List Char) → (blank : Bool) → List Char → Option (List Char)
  | _, _, [] => none
  | read, true, '\x7d' :: _ => some read.reverse
  | read, _, c :: text => bodyBefore? (c :: read) (isAsciiBlank c) text

/-- The body of a constructor's definition, after the word `void`. -/
def definedBody? (className device : String) (text : List Char) : Option (List Char) := do
  let text ← space? text
  let text ← className.toList.isPrefixOf? text
  let text ← "::".toList.isPrefixOf? text
  let text ← device.toList.isPrefixOf? text
  let text ← token? "(" text
  let text ← token? "machine_config" text
  let text ← token? "&" text
  let text ← token? "config" text
  let text ← token? ")" text
  let text ← token? "\x7b" text
  bodyBefore? [] false text

/-- The trimmed body of the first definition of a device's constructor. -/
def constructorBody? (source : List Char) (className device : String) : Option (List Char) :=
  (occurrences "void" source).findSome? fun o => (definedBody? className device o.after).map trim

end LcdHandhelds
