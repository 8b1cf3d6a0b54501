import LcdHandhelds.Number.Binary64

/-!
The shortest decimal that reads back. A double stands for all reals that round to it; of the
decimals among them with the fewest digits, the one nearest to the double is taken, and of two
equally near the one whose last digit is even.
-/
namespace LcdHandhelds

/-- The number `digits * 10 ^ exponent`. -/
structure Decimal where
  digits : Nat
  exponent : Int
  deriving DecidableEq, Repr

/-- Without a trailing zero. -/
def Decimal.dropZero (d : Decimal) : Decimal :=
  if d.digits % 10 = 0 then ⟨d.digits / 10, d.exponent + 1⟩ else d

/-- A quotient of natural numbers, exact. -/
structure Ratio where
  num : Nat
  den : Nat
  deriving DecidableEq, Repr

namespace Ratio

/-- The decimal exponent of the leading digit. -/
def leading (r : Ratio) : Int :=
  if r.den ≤ r.num then ((Nat.toDigits 10 (r.num / r.den)).length : Int) - 1
  else
    let places := (Nat.toDigits 10 (r.den / r.num)).length
    if r.den ≤ r.num * Nat.pow 10 (places - 1) then -((places : Int) - 1) else -(places : Int)

/-- Measured in units of `10 ^ exponent`. -/
def scale (r : Ratio) (exponent : Int) : Ratio :=
  ⟨r.num * Nat.pow 10 (-exponent).toNat, r.den * Nat.pow 10 exponent.toNat⟩

end Ratio

namespace Binary64

/-- The magnitude, over the denominator that the ends of its interval share. -/
def middle (x : Binary64) : Ratio := ⟨4 * x.numerator, 4 * x.denominator⟩

/-- The lower end of the reals that round to the magnitude: half a step down. -/
def lower (x : Binary64) : Ratio :=
  let step := Nat.pow 2 (x.exponentField - 1075)
  let down := if x.significand = fieldSize ∧ 1 < x.exponentField then step else 2 * step
  ⟨4 * x.numerator - down, 4 * x.denominator⟩

/-- The upper end: half a step up. -/
def upper (x : Binary64) : Ratio :=
  ⟨4 * x.numerator + 2 * Nat.pow 2 (x.exponentField - 1075), 4 * x.denominator⟩

/-- Whether `digits * 10 ^ exponent` rounds to the magnitude; the ends do if the code is even. -/
def holds (x : Binary64) (digits : Nat) (exponent : Int) : Bool :=
  let low := x.lower.scale exponent
  let high := x.upper.scale exponent
  if x.code % 2 = 0 then low.num ≤ digits * low.den && digits * high.den ≤ high.num
  else low.num < digits * low.den && digits * high.den < high.num

/-- The decimal of one grid that reads back, nearest to the magnitude. -/
def onGrid? (x : Binary64) (exponent : Int) : Option Decimal :=
  let r := x.middle.scale exponent
  let q := r.num / r.den
  let nearest := roundHalfEven r.num r.den
  let other := if nearest = q then q + 1 else q
  if x.holds nearest exponent then some ⟨nearest, exponent⟩
  else if x.holds other exponent then some ⟨other, exponent⟩
  else none

/--
The shortest decimal of the magnitude, from the coarsest grid that has one; seventeen digits are
always enough. Only on the first grid can a decimal end in a zero, as a carry to the next power of
ten.
-/
def shortest (x : Binary64) : Decimal :=
  if x.code = 0 then ⟨0, 0⟩
  else
    let top := x.middle.leading
    (((List.range 17).findSome? fun (places : Nat) => x.onGrid? (top - places)).getD ⟨0, 0⟩).dropZero

example : (ofRatio? false 1 10).map shortest = some ⟨1, -1⟩ := by decide +kernel
example : shortest ⟨false, 1, by decide⟩ = ⟨5, -324⟩ := by decide +kernel
example : shortest ⟨false, 0x7FEFFFFFFFFFFFFF, by decide⟩ = ⟨17976931348623157, 292⟩ := by
  decide +kernel

end Binary64

end LcdHandhelds
