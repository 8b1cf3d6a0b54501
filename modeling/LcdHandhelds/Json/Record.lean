import LcdHandhelds.Json.Basic

/-!
Taking records out of JSON. A record is an object with named fields, or an array of the fields in
their order; unknown fields do not count, a repeated one spoils the record. A tagged record carries
the name of its form in the field `type`, or in front of its array; since its form is known only
afterwards, everything in it has to be sound and nested no deeper than a limit.
-/
namespace LcdHandhelds.Json

def countKey (key : String) (fields : List (Option String × Json)) : Nat :=
  (fields.filter (·.1 = some key)).length

/-- The value of each named field. An array has to reach as far as `least` fields. -/
def fields? (names : List String) (least : Nat) : Json → Option (List (Option Json))
  | object fields =>
    if fields.all (·.1.isSome) && names.all (countKey · fields ≤ 1) then
      some (names.map fun name => fields.lookup (some name))
    else none
  | array items =>
    if least ≤ items.length ∧ items.length ≤ names.length then
      some (items.map some ++ .replicate (names.length - items.length) none)
    else none
  | _ => none

/-- The form of a tagged record, and the record without its tag. -/
def tagged? (deepest : Nat) (j : Json) : Option (String × Json) :=
  if j.isSound && j.depth ≤ deepest then
    match j with
    | object fields =>
      if countKey "type" fields = 1 then
        match fields.lookup (some "type") with
        | some (string (some tag)) => some (tag, object (fields.filter (·.1 ≠ some "type")))
        | _ => none
      else none
    | array (string (some tag) :: items) => some (tag, array items)
    | _ => none
  else none

/-- The value of a field that has to be there. -/
def required? {α : Type} (read : Json → Option α) (field : Option Json) : Option α :=
  field.bind read

/-- The value of a field that may be missing or null. -/
def optional? {α : Type} (read : Json → Option α) : Option Json → Option (Option α)
  | none => some none
  | some null => some none
  | some j => (read j).map some

def text? : Json → Option String
  | string text => text
  | _ => none

def bool? : Json → Option Bool
  | bool b => some b
  | _ => none

def uint64? : Json → Option UInt64
  | number n => n.uint64?
  | _ => none

def binary64? : Json → Option Binary64
  | number n => n.binary64?
  | _ => none

def items? {α : Type} (read : Json → Option α) : Json → Option (List α)
  | array items => items.mapM read
  | _ => none

/-- A name by itself, or as the only key of an object, with a value that says nothing. -/
def name? (isNothing : Json → Bool) : Json → Option String
  | string text => text
  | object [(key, value)] => if isNothing value then key else none
  | _ => none

def isNull : Json → Bool
  | null => true
  | _ => false

def isNullOrEmpty : Json → Bool
  | null => true
  | object [] => true
  | _ => false

/-- A field that is left out where there is no value. -/
def optionalField (name : String) : Option Json → List (String × Json)
  | some j => [(name, j)]
  | none => []

end LcdHandhelds.Json
