import LcdHandhelds.Number.Shortest

/-!
JSON numbers as they are written. A numeral keeps its digits, so that it can be read as a 64-bit
number or as a double: the digits that fit into 64 bits make the significand, which is rounded, and
then multiplied or divided by a power of ten and rounded again. A double is written with its
shortest digits.
-/
namespace LcdHandhelds

/-- Sign, digits before and after the point, and an exponent with its own sign. -/
structure Numeral where
  negative : Bool := false
  whole : List Char
  fraction : List Char := []
  exponent : Option (Bool × List Char) := none
  deriving DecidableEq, Repr

namespace Numeral

@[irreducible]
def digitValue (c : Char) : Nat := c.toNat - '0'.toNat

def natValue (digits : List Char) : Nat :=
  digits.foldl (fun n c => 10 * n + digitValue c) 0

/-- Appends a digit to a 64-bit significand, if there is room. -/
def grow? (n : Nat) (c : Char) : Option Nat :=
  let m := 10 * n + digitValue c
  if m < UInt64.size then some m else none

/-- Reads digits into the significand, and counts those from the first on that has no room. -/
def takeWhole (n : Nat) : List Char → Nat × Nat
  | [] => (n, 0)
  | c :: digits =>
    match grow? n c with
    | some m => takeWhole m digits
    | none => (n, digits.length + 1)

/-- Reads digits after the point, as far as there is room, and counts them. -/
def takeFraction (n : Nat) : List Char → Nat × Nat
  | [] => (n, 0)
  | c :: digits =>
    match grow? n c with
    | some m => ((takeFraction m digits).1, (takeFraction m digits).2 + 1)
    | none => (n, 0)

/-- The significand and its decimal exponent. -/
def parts (n : Numeral) : Nat × Int :=
  let whole := takeWhole 0 n.whole
  let all := takeFraction whole.1 n.fraction
  let written : Int := match n.exponent with
    | none => 0
    | some (true, digits) => -(natValue digits : Int)
    | some (false, digits) => natValue digits
  (all.1, (whole.2 : Int) - all.2 + written)

/-- The double nearest to a power of ten up to the 308th. -/
def powerOfTen (k : Nat) : Binary64 := (Binary64.ofNat? (Nat.pow 10 k)).getD .zero

/-- Divides by the 308th power of ten until nothing is left to do. -/
def scaleDown : (times : Nat) → Binary64 → Option Binary64
  | 0, x => some x
  | times + 1, x => if x.code = 0 then some x else (x.div? (powerOfTen 308)).bind (scaleDown times)

/-- A significand times a power of ten; none where that is too large for a double. -/
def scaled? (significand : Nat) (exponent : Int) : Option Binary64 := do
  let x ← Binary64.ofNat? significand
  match exponent with
  | .ofNat k =>
    if k ≤ 308 then x.mul? (powerOfTen k) else if x.code = 0 then some x else none
  | .negSucc k =>
    let y ← scaleDown (k / 308) x
    y.div? (powerOfTen (k % 308 + 1))

/-- The numeral as a double. -/
def binary64? (n : Numeral) : Option Binary64 := do
  let x ← scaled? n.parts.1 n.parts.2
  return if n.negative then x.neg else x

/-- The numeral as a 64-bit number: no sign, no point and no exponent. -/
def uint64? (n : Numeral) : Option UInt64 :=
  let value := natValue n.whole
  if n.negative = false ∧ n.fraction = [] ∧ n.exponent = none ∧ value < UInt64.size then
    some (UInt64.ofNat value)
  else none

def ofNat (n : Nat) : Numeral := { whole := Nat.toDigits 10 n }

/-- The exponents of the leading digit for which a double is written without exponent. -/
structure PlainRange where
  least : Int
  greatest : Int

/-- From a hundred-thousandth to below ten quadrillion. -/
def plainRange : PlainRange := ⟨-5, 15⟩

/-- A decimal with a point and at least one digit on each side of it. -/
def plain (negative : Bool) (digits : List Char) (exponent : Int) : Numeral :=
  let places := (-exponent).toNat
  if places = 0 then ⟨negative, digits ++ .replicate exponent.toNat '0', ['0'], none⟩
  else if places < digits.length then
    ⟨negative, digits.take (digits.length - places), digits.drop (digits.length - places), none⟩
  else ⟨negative, ['0'], .replicate (places - digits.length) '0' ++ digits, none⟩

/-- A decimal with one digit before the point, and no point where no digit follows. -/
def scientific (negative : Bool) (digits : List Char) (leading : Int) : Numeral :=
  ⟨negative, digits.take 1, digits.drop 1, some (leading < 0, Nat.toDigits 10 leading.natAbs)⟩

/-- The shortest numeral of a double. -/
def ofBinary64 (x : Binary64) : Numeral :=
  let d := x.shortest
  let digits := Nat.toDigits 10 d.digits
  let leading := d.exponent + digits.length - 1
  if plainRange.least ≤ leading ∧ leading ≤ plainRange.greatest then
    plain x.negative digits d.exponent
  else scientific x.negative digits leading

/-- The numeral's text. The exponent is written with its sign. -/
def text (n : Numeral) : List Char :=
  (if n.negative then ['-'] else []) ++ n.whole ++
    (if n.fraction = [] then [] else '.' :: n.fraction) ++
    match n.exponent with
    | none => []
    | some (negative, digits) => 'e' :: (if negative then '-' else '+') :: digits

end Numeral

end LcdHandhelds
