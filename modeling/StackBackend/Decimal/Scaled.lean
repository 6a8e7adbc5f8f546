import StackBackend.Binary64.Arithmetic
import StackBackend.Decimal.Reader

namespace StackBackend

/-! Two ways to turn the digits of a number into a floating word. The exact way
takes the nearest word. The scaled way keeps the leading digits that fit in 64
bits and multiplies or divides by powers of ten; each of its steps rounds, so
that its result can be a word next to the nearest one. -/

inductive NumberReading where
  | nearest
  | scaled
deriving DecidableEq

namespace Decimal

/-- The digits of a scaled decimal are below this bound. -/
def scaledBound : Nat := 0x10000000000000000

/-- One more digit before the point. From the first one that does not fit on,
digits only count as places. -/
def addWholeDigit (decimal : Decimal) (digit : Char) : Decimal :=
  let digits := 10 * decimal.digits + digitValue digit
  if decimal.exponent = 0 ∧ digits < scaledBound then
    { decimal with digits }
  else
    { decimal with exponent := decimal.exponent + 1 }

/-- The digits after the point, up to the first one that does not fit. -/
def addFraction (decimal : Decimal) : List Char → Decimal
  | [] => decimal
  | digit :: rest =>
      let digits := 10 * decimal.digits + digitValue digit
      if digits < scaledBound then
        addFraction ⟨digits, decimal.exponent - 1⟩ rest
      else
        decimal

/-- The leading digits of a number that fit in 64 bits. -/
def leading (whole fraction : List Char) : Decimal :=
  (whole.foldl addWholeDigit ⟨0, 0⟩).addFraction fraction

/-! `1e308` is the largest power of ten with a finite word. A number below
`scaledBound` that is divided by it twice is zero. -/

def powerOfTen (exponent : Nat) : Binary64 :=
  toBinary64 false ⟨1, exponent⟩

/-- The scaled value of a decimal whose digits are below `scaledBound`. -/
def scale (decimal : Decimal) : Binary64 :=
  let number := Binary64.nearest false ⟨decimal.digits, 1⟩
  let exponent := decimal.exponent
  if decimal.digits = 0 ∨ exponent < -616 then
    Binary64.zero false
  else if exponent < -308 then
    (number.divide (powerOfTen 308)).divide (powerOfTen (-exponent - 308).toNat)
  else if exponent < 0 then
    number.divide (powerOfTen (-exponent).toNat)
  else if exponent ≤ 308 then
    number.multiply (powerOfTen exponent.toNat)
  else
    Binary64.infinity false

end Decimal

namespace NumberReading

/-- The word of a number with a sign, digits before and after the point, and an
exponent. -/
def word (reading : NumberReading) (negative : Bool) (whole fraction : List Char)
    (exponent : Int) : Binary64 :=
  match reading with
  | .nearest =>
      Decimal.toBinary64 negative
        ⟨naturalOfDigits (whole ++ fraction), exponent - fraction.length⟩
  | .scaled =>
      let decimal := Decimal.leading whole fraction
      let value := Decimal.scale { decimal with exponent := decimal.exponent + exponent }
      if negative then value.negate else value

/-- Whether digits alone are read as an integer, and not as a floating word. -/
def keepsInteger (reading : NumberReading) (value : Nat) : Bool :=
  match reading with
  | .nearest => true
  | .scaled => value < Decimal.scaledBound

end NumberReading

end StackBackend
