/-!
Finite IEEE 754 double-precision numbers, with their arithmetic done exactly on natural numbers and
rounded once, to nearest with ties to even. A magnitude is coded as in the interchange format, the
exponent field above the 52 bits of the fraction, so that codes are ordered like magnitudes.
-/
namespace LcdHandhelds

/-- The number of codes with one exponent field: the fraction has 52 bits. -/
def fieldSize : Nat := Nat.pow 2 52

/-- The code of the first magnitude that is not finite. -/
def infinityCode : Nat := 2047 * fieldSize

structure Binary64 where
  negative : Bool
  code : Nat
  code_lt : code < infinityCode
  deriving DecidableEq, Repr

namespace Binary64

def zero : Binary64 := ⟨false, 0, by decide⟩

instance : Inhabited Binary64 := ⟨zero⟩

def neg (x : Binary64) : Binary64 := { x with negative := !x.negative }

/-- The magnitude is `significand * 2 ^ (exponentField - 1075)`. -/
def exponentField (x : Binary64) : Nat := max (x.code / fieldSize) 1

def significand (x : Binary64) : Nat :=
  if x.code < fieldSize then x.code else fieldSize + x.code % fieldSize

/-- The numerator of the magnitude as a quotient of natural numbers. -/
def numerator (x : Binary64) : Nat := x.significand * Nat.pow 2 (x.exponentField - 1075)

/-- The denominator that belongs to `numerator`. -/
def denominator (x : Binary64) : Nat := Nat.pow 2 (1075 - x.exponentField)

/-- The nearest natural number to a quotient, a tie going to the even one. -/
def roundHalfEven (num den : Nat) : Nat :=
  let q := num / den
  let twice := 2 * (num % den)
  if twice < den then q
  else if den < twice then q + 1
  else q + q % 2

/--
The exponent field that gives the quotient a significand of 53 bits, or the least field if the
quotient is too small for that.
-/
def fieldOfRatio (num den : Nat) : Nat :=
  let field := num.log2 + 1075 - den.log2 - 52
  let short := num * Nat.pow 2 (1075 - field) < fieldSize * (den * Nat.pow 2 (field - 1075))
  max (if short then field - 1 else field) 1

/-- The code nearest to a quotient. A carry out of the significand raises the exponent field. -/
def codeOfRatio (num den : Nat) : Nat :=
  let field := fieldOfRatio num den
  (field - 1) * fieldSize +
    roundHalfEven (num * Nat.pow 2 (1075 - field)) (den * Nat.pow 2 (field - 1075))

/-- The double nearest to a quotient; none if that is no finite one. -/
def ofRatio? (negative : Bool) (num den : Nat) : Option Binary64 :=
  if num = 0 then some ⟨negative, 0, by decide⟩
  else
    let code := codeOfRatio num den
    if h : code < infinityCode then some ⟨negative, code, h⟩ else none

/-- The double nearest to a natural number. -/
def ofNat? (n : Nat) : Option Binary64 := ofRatio? false n 1

def mul? (x y : Binary64) : Option Binary64 :=
  ofRatio? (x.negative != y.negative) (x.numerator * y.numerator) (x.denominator * y.denominator)

/-- A quotient by a number that is not zero. -/
def div? (x y : Binary64) : Option Binary64 :=
  if y.code = 0 then none
  else ofRatio? (x.negative != y.negative) (x.numerator * y.denominator)
    (x.denominator * y.numerator)

example : (ofRatio? false 1 10).map (·.code) = some 0x3FB999999999999A := by decide +kernel
example : (ofNat? (UInt64.size - 1)).map (·.code) = some 0x43F0000000000000 := by decide +kernel
example : ofNat? (Nat.pow 2 1024) = none := by decide +kernel

end Binary64

end LcdHandhelds
