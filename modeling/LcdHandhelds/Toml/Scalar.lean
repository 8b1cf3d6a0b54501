import LcdHandhelds.Number.Binary64
import LcdHandhelds.Toml.Basic
import LcdHandhelds.Toml.Lexeme

/-!
Numbers, truth values and times of TOML. Integers have 64 bits, a positive float must not be too
large for a double, and a date has to be one of the calendar.
-/
namespace LcdHandhelds.Toml

/-- Digits with single underscores between them, which do not count. -/
def groupedTail (isDigit : Char → Bool) : List Char → List Char × List Char
  | '_' :: c :: text =>
    if isDigit c then
      let (digits, rest) := groupedTail isDigit text
      (c :: digits, rest)
    else ([], '_' :: c :: text)
  | c :: text =>
    if isDigit c then
      let (digits, rest) := groupedTail isDigit text
      (c :: digits, rest)
    else ([], c :: text)
  | [] => ([], [])

def grouped? (isDigit : Char → Bool) : List Char → Option (List Char × List Char)
  | c :: text => if isDigit c then some (groupedTail isDigit (c :: text)) else none
  | [] => none

/-- An optional sign: whether it is a minus, and the rest. -/
def sign : List Char → Bool × List Char
  | '-' :: text => (true, text)
  | '+' :: text => (false, text)
  | text => (false, text)

/-- A zero alone, or digits that start with another. -/
def decimal? : List Char → Option (List Char × List Char)
  | '0' :: text => some (['0'], text)
  | text => grouped? Char.isDigit text

/-- The first magnitude that no positive integer of 64 bits has. -/
def integerBound : Nat := Nat.pow 2 63

def radixInteger? (base : Nat) (text : List Char) : Option (List Char) := do
  let (digits, rest) ← grouped? (fun c => (Text.digit? base c).isSome) text
  let value ← Text.digits? base digits
  if value < integerBound then some rest else none

def integer? : List Char → Option (List Char)
  | '0' :: 'x' :: text => radixInteger? 16 text
  | '0' :: 'o' :: text => radixInteger? 8 text
  | '0' :: 'b' :: text => radixInteger? 2 text
  | text => do
    let (negative, text) := sign text
    let (digits, rest) ← decimal? text
    let value ← Text.digits? 10 digits
    if value < integerBound ∨ (negative ∧ value = integerBound) then some rest else none

/-- The digits after a point. -/
def fractionDigits? : List Char → Option (List Char × List Char)
  | '.' :: text => grouped? Char.isDigit text
  | _ => none

/-- The exponent of a float. -/
def exponent? (text : List Char) : Option (Int × List Char) := do
  let text ← match text with
    | 'e' :: text => some text
    | 'E' :: text => some text
    | _ => none
  let (negative, text) := sign text
  let (digits, rest) ← grouped? Char.isDigit text
  let value ← Text.digits? 10 digits
  return (if negative then -(value : Int) else value, rest)

/-- Whether `digits * 10 ^ exponent` rounds to no finite double. -/
def overflows (digits : List Char) (exponent : Int) : Bool :=
  let value := (Text.digits? 10 digits).getD 0
  let size := ((Nat.toDigits 10 value).length : Int) + exponent
  if value = 0 ∨ size < 300 then false
  else if 320 < size then true
  else (Binary64.ofRatio? false (value * Nat.pow 10 exponent.toNat)
    (Nat.pow 10 (-exponent).toNat)).isNone

def infinityOrNaN? (text : List Char) : Option (List Char) :=
  match "inf".toList.isPrefixOf? text with
  | some rest => some rest
  | none => "nan".toList.isPrefixOf? text

/-- A number with a point, an exponent or both. -/
def pointed? (text : List Char) : Option (List Char) := do
  let (negative, text) := sign text
  let (whole, text) ← decimal? text
  match fractionDigits? text with
  | some (fraction, text) =>
    let (exponent, rest) := (exponent? text).getD (0, text)
    if !negative && overflows (whole ++ fraction) (exponent - fraction.length) then none
    else some rest
  | none =>
    let (exponent, rest) ← exponent? text
    if !negative && overflows whole exponent then none else some rest

def float? (text : List Char) : Option (List Char) :=
  pointed? text <|> infinityOrNaN? (sign text).2

/-- A number of exactly `count` digits. -/
def fixed? (count : Nat) (text : List Char) : Option (Nat × List Char) :=
  let digits := text.take count
  if digits.length = count ∧ digits.all Char.isDigit then
    (Text.digits? 10 digits).map (·, text.drop count)
  else none

def char? (c : Char) : List Char → Option (List Char)
  | d :: text => if c = d then some text else none
  | [] => none

def daysInMonth (year month : Nat) : Nat :=
  if month = 2 then
    if year % 4 = 0 ∧ (year % 100 ≠ 0 ∨ year % 400 = 0) then 29 else 28
  else if month = 4 ∨ month = 6 ∨ month = 9 ∨ month = 11 then 30
  else 31

def date? (text : List Char) : Option (List Char) := do
  let (year, text) ← fixed? 4 text
  let (month, text) ← fixed? 2 (← char? '-' text)
  let (day, text) ← fixed? 2 (← char? '-' text)
  if 1 ≤ month ∧ month ≤ 12 ∧ 1 ≤ day ∧ day ≤ daysInMonth year month then some text else none

/-- Decimals of a second. -/
def skipDecimals : List Char → List Char
  | '.' :: c :: text => if c.isDigit then text.dropWhile Char.isDigit else '.' :: c :: text
  | text => text

/-- A time of day; a leap second is allowed. -/
def clock? (text : List Char) : Option (List Char) := do
  let (hour, text) ← fixed? 2 text
  let (minute, text) ← fixed? 2 (← char? ':' text)
  let (second, text) ← fixed? 2 (← char? ':' text)
  if hour ≤ 23 ∧ minute ≤ 59 ∧ second ≤ 60 then some (skipDecimals text) else none

def offsetTail? (text : List Char) : Option (List Char) := do
  let (hour, text) ← fixed? 2 text
  let (minute, text) ← fixed? 2 (← char? ':' text)
  if hour ≤ 23 ∧ minute ≤ 59 then some text else none

/-- An offset from universal time, if there is one. -/
def skipOffset? : List Char → Option (List Char)
  | 'Z' :: text => some text
  | 'z' :: text => some text
  | '+' :: text => offsetTail? text
  | '-' :: text => offsetTail? text
  | text => some text

/-- A time of day directly after a date, and its offset. -/
def clockAfterDate? : List Char → Option (List Char)
  | c :: text =>
    if c = 'T' ∨ c = 't' ∨ c = ' ' then (clock? text).bind skipOffset? else none
  | [] => none

/-- A date, a date with a time, or a time alone. -/
def time? (text : List Char) : Option (List Char) :=
  match date? text with
  | some rest => some ((clockAfterDate? rest).getD rest)
  | none => clock? text

def truth? (text : List Char) : Option (List Char) :=
  match "true".toList.isPrefixOf? text with
  | some rest => some rest
  | none => "false".toList.isPrefixOf? text

/-- The first kind of scalar that the text starts with. -/
def scalar? (text : List Char) : Option (Scalar × List Char) :=
  (time? text).map (.time, ·) <|>
    (float? text).map (.float, ·) <|>
    (integer? text).map (.integer, ·) <|>
    (truth? text).map (.truth, ·)

end LcdHandhelds.Toml
