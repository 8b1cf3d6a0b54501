import LcdHandhelds.Json.Numeral

/-!
JSON values. A string may name half of a surrogate pair alone: that is well-formed JSON but no text,
and stands here as `none`. The fields of an object keep their order and their repetitions.
-/
namespace LcdHandhelds

inductive Json where
  | null
  | bool (value : Bool)
  | number (numeral : Numeral)
  | string (text : Option String)
  | array (items : List Json)
  | object (fields : List (Option String × Json))
  deriving Repr

namespace Json

instance : Inhabited Json := ⟨null⟩

def ofString (text : String) : Json := string (some text)

def ofNat (n : Nat) : Json := number (.ofNat n)

/-- An object of named fields. -/
def record (fields : List (String × Json)) : Json :=
  object (fields.map fun f => (some f.1, f.2))

/-- The value, or null where there is none. -/
def ofOption : Option Json → Json
  | some j => j
  | none => null

mutual

/-- How many arrays and objects lie inside each other. -/
def depth : Json → Nat
  | array items => depthOfItems items + 1
  | object fields => depthOfFields fields + 1
  | _ => 0

def depthOfItems : List Json → Nat
  | [] => 0
  | j :: rest => max j.depth (depthOfItems rest)

def depthOfFields : List (Option String × Json) → Nat
  | [] => 0
  | (_, j) :: rest => max j.depth (depthOfFields rest)

end

mutual

/-- Every string is a text, and every number a finite double. -/
def isSound : Json → Bool
  | number n => n.binary64?.isSome
  | string text => text.isSome
  | array items => areSoundItems items
  | object fields => areSoundFields fields
  | _ => true

def areSoundItems : List Json → Bool
  | [] => true
  | j :: rest => j.isSound && areSoundItems rest

def areSoundFields : List (Option String × Json) → Bool
  | [] => true
  | (key, j) :: rest => key.isSome && j.isSound && areSoundFields rest

end

end Json

end LcdHandhelds
