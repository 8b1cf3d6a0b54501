import LcdHandhelds.Text.Blank

/-!
Numbers written as digits. A reading either gives the exact value or nothing; no value wraps around.
-/
namespace LcdHandhelds.Text

/-- The value of a digit in a base up to 36, letters in either case. -/
def digit? (base : Nat) (c : Char) : Option Nat :=
  let value :=
    if c.isDigit then c.toNat - '0'.toNat
    else if c.isLower then c.toNat - 'a'.toNat + 10
    else if c.isUpper then c.toNat - 'A'.toNat + 10
    else base
  if value < base then some value else none

/-- The number that the digits spell; at least one digit is needed. -/
def digits? (base : Nat) : List Char → Option Nat
  | [] => none
  | text => text.foldlM (fun n c => (digit? base c).map (base * n + ·)) 0

/-- A number below `bound`, with an optional plus sign. -/
def natBelow? (base bound : Nat) (text : List Char) : Option Nat :=
  let digits := match text with
    | '+' :: rest => rest
    | _ => text
  (digits? base digits).filter (· < bound)

def isHexChar (c : Char) : Bool :=
  (digit? 16 c).isSome || c == 'x' || c == 'X'

/-- The shape of a bit mask: hexadecimal digits and the letter of their marker. -/
def isHexLiteral (text : List Char) : Bool :=
  !text.isEmpty && text.all isHexChar

/-- The value of a bit mask, in hexadecimal with or without `0x`; an unreadable one is zero. -/
def hexValue (text : List Char) : UInt32 :=
  let digits := match trim text with
    | '0' :: 'x' :: rest => rest
    | '0' :: 'X' :: rest => rest
    | other => other
  UInt32.ofNat ((natBelow? 16 UInt32.size digits).getD 0)

end LcdHandhelds.Text
