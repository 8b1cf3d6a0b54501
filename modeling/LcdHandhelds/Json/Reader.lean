import LcdHandhelds.Json.Basic
import LcdHandhelds.Text.Numeric

/-!
Reading JSON. Each function takes a text and gives what it read with the rest of the text; the
reader accepts exactly one value, with white space around its tokens.
-/
namespace LcdHandhelds.Json.Reader

def isSpace (c : Char) : Bool :=
  c == ' ' || c == '\n' || c == '\t' || c == '\r'

def skipSpace (text : List Char) : List Char :=
  text.dropWhile isSpace

/-- The digits at the front, of which there has to be one. -/
def digits? (text : List Char) : Option (List Char × List Char) :=
  match text.takeWhile Char.isDigit with
  | [] => none
  | digits => some (digits, text.dropWhile Char.isDigit)

/-- The digits before the point: a zero alone, or digits that start with another. -/
def whole? (text : List Char) : Option (List Char × List Char) :=
  match digits? text with
  | some ('0' :: _ :: _, _) => none
  | other => other

def fraction? : List Char → Option (List Char × List Char)
  | '.' :: text => digits? text
  | text => some ([], text)

def exponentDigits? (negative : Bool) (text : List Char) :
    Option (Option (Bool × List Char) × List Char) :=
  (digits? text).map fun (digits, rest) => (some (negative, digits), rest)

def exponentTail? : List Char → Option (Option (Bool × List Char) × List Char)
  | '+' :: text => exponentDigits? false text
  | '-' :: text => exponentDigits? true text
  | text => exponentDigits? false text

def exponent? : List Char → Option (Option (Bool × List Char) × List Char)
  | 'e' :: text => exponentTail? text
  | 'E' :: text => exponentTail? text
  | text => some (none, text)

def unsigned? (negative : Bool) (text : List Char) : Option (Numeral × List Char) := do
  let (whole, text) ← whole? text
  let (fraction, text) ← fraction? text
  let (exponent, text) ← exponent? text
  return (⟨negative, whole, fraction, exponent⟩, text)

def numeral? : List Char → Option (Numeral × List Char)
  | '-' :: text => unsigned? true text
  | text => unsigned? false text

/-- The code unit that four hexadecimal digits name. -/
def unit? (a b c d : Char) : Option Nat := Text.digits? 16 [a, b, c, d]

/-- What a backslash and one more character stand for. -/
def escape? : Char → Option Char
  | '"' => some '"'
  | '\\' => some '\\'
  | '/' => some '/'
  | 'b' => some '\x08'
  | 'f' => some '\x0c'
  | 'n' => some '\n'
  | 'r' => some '\r'
  | 't' => some '\t'
  | _ => none

/--
The part of a string that has been read: its characters, nearest first, the first half of a
surrogate pair if one has just been read, and whether no half stood alone so far.
-/
structure Spelled where
  read : List Char
  half : Option Nat := none
  sound : Bool := true

namespace Spelled

def push (s : Spelled) (c : Char) : Spelled :=
  ⟨c :: s.read, none, s.sound && s.half.isNone⟩

/-- Adds a code unit that an escape names. -/
def addUnit (s : Spelled) (n : Nat) : Spelled :=
  if 0xDC00 ≤ n ∧ n < 0xE000 then
    match s.half with
    | some high =>
      ⟨Char.ofNat (0x10000 + (high - 0xD800) * 0x400 + (n - 0xDC00)) :: s.read, none, s.sound⟩
    | none => ⟨s.read, none, false⟩
  else if 0xD800 ≤ n ∧ n < 0xDC00 then ⟨s.read, some n, s.sound && s.half.isNone⟩
  else s.push (Char.ofNat n)

def toText? (s : Spelled) : Option String :=
  if s.sound && s.half.isNone then some (String.ofList s.read.reverse) else none

end Spelled

/-- Reads a string after its opening quote. -/
def stringTail? : Spelled → List Char → Option (Option String × List Char)
  | _, [] => none
  | s, '"' :: text => some (s.toText?, text)
  | s, '\\' :: 'u' :: a :: b :: c :: d :: text =>
    match unit? a b c d with
    | some n => stringTail? (s.addUnit n) text
    | none => none
  | s, '\\' :: e :: text =>
    match escape? e with
    | some c => stringTail? (s.push c) text
    | none => none
  | s, c :: text => if c.toNat < 0x20 then none else stringTail? (s.push c) text

def string? : List Char → Option (Option String × List Char)
  | '"' :: text => stringTail? ⟨[], none, true⟩ text
  | _ => none

/-- A value that is spelled by one word. -/
def word? (text : List Char) : Option (Json × List Char) :=
  match "null".toList.isPrefixOf? text with
  | some rest => some (null, rest)
  | none =>
    match "true".toList.isPrefixOf? text with
    | some rest => some (bool true, rest)
    | none => ("false".toList.isPrefixOf? text).map fun rest => (bool false, rest)

/-- A value that holds no other value. -/
def scalar? (text : List Char) : Option (Json × List Char) :=
  match text with
  | '"' :: _ => (string? text).map fun (s, rest) => (string s, rest)
  | _ => word? text <|> (numeral? text).map fun (n, rest) => (number n, rest)

mutual

/-- A value, with white space before it allowed. -/
def value? : (fuel : Nat) → List Char → Option (Json × List Char)
  | 0, _ => none
  | fuel + 1, text =>
    match skipSpace text with
    | '[' :: text =>
      match skipSpace text with
      | ']' :: rest => some (array [], rest)
      | _ => (items? fuel text).map fun (items, rest) => (array items, rest)
    | '\x7b' :: text =>
      match skipSpace text with
      | '\x7d' :: rest => some (object [], rest)
      | _ => (fields? fuel text).map fun (fields, rest) => (object fields, rest)
    | text => scalar? text

/-- The items of an array that is not empty, up to its end. -/
def items? : (fuel : Nat) → List Char → Option (List Json × List Char)
  | 0, _ => none
  | fuel + 1, text => do
    let (item, text) ← value? fuel text
    match skipSpace text with
    | ',' :: text =>
      let (items, rest) ← items? fuel text
      return (item :: items, rest)
    | ']' :: rest => return ([item], rest)
    | _ => none

/-- The fields of an object that is not empty, up to its end. -/
def fields? : (fuel : Nat) → List Char → Option (List (Option String × Json) × List Char)
  | 0, _ => none
  | fuel + 1, text => do
    let (key, text) ← string? (skipSpace text)
    match skipSpace text with
    | ':' :: text =>
      let (value, text) ← value? fuel text
      match skipSpace text with
      | ',' :: text =>
        let (fields, rest) ← fields? fuel text
        return ((key, value) :: fields, rest)
      | '\x7d' :: rest => return ([(key, value)], rest)
      | _ => none
    | _ => none

end

end Reader

/-- The value that a text spells. Two calls per character are enough. -/
def parse? (text : List Char) : Option Json :=
  match Reader.value? (2 * text.length + 2) text with
  | some (j, rest) => if (Reader.skipSpace rest).isEmpty then some j else none
  | none => none

end LcdHandhelds.Json
