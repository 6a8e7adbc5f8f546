import StackBackend.Binary64

namespace StackBackend

/-! A decimal is an integer of digits times a power of ten. It is what a
numeral in text denotes, and what a floating word is turned into before it is
written. -/

structure Decimal where
  digits : Nat
  exponent : Int
deriving DecidableEq

namespace Decimal

def ratio (decimal : Decimal) : Ratio :=
  Ratio.scaleBy 10 decimal.exponent ⟨decimal.digits, 1⟩

/-! Exponents written in text are unbounded. Past the first bound every
positive decimal rounds to infinity, and past the second to zero, so the exact
ratio is formed only between them. -/

/-- The unsigned pattern nearest to the decimal. -/
def magnitude (decimal : Decimal) : Nat :=
  if decimal.digits = 0 then
    0
  else if 310 < decimal.exponent then
    Binary64.infinityMagnitude
  else if decimal.exponent < -345 - (decimal.digits.log2 : Int) then
    0
  else
    Binary64.nearestMagnitude decimal.ratio

/-- The binary64 number nearest to the signed decimal. -/
def toBinary64 (negative : Bool) (decimal : Decimal) : Binary64 :=
  Binary64.ofMagnitude negative decimal.magnitude

/-! ## Fewest digits

A word is written with the fewest significant digits that read back as the same
word. On the grid of decimals with a given number of digits only the two
neighbours of the exact value can be nearest to it, so the first grid on which
one of them reads back gives the digits. -/

/-- `digits` and `exponent` with the trailing zeros of `digits` moved into the
exponent. -/
def normalize (decimal : Decimal) : Decimal :=
  if decimal.digits = 0 then
    decimal
  else if decimal.digits % 10 = 0 then
    normalize ⟨decimal.digits / 10, decimal.exponent + 1⟩
  else
    decimal
termination_by decimal.digits
decreasing_by
  omega

/-- The neighbour of `exact` on the grid of multiples of `10 ^ unit` that reads
back as `magnitude`; of two, the nearer, and the larger one at equal distance. -/
def neighbour? (exact : Ratio) (magnitude : Nat) (unit : Int) : Option Decimal :=
  let scaled := exact.scaleBy 10 (-unit)
  let below : Decimal := ⟨scaled.numerator / scaled.denominator, unit⟩
  let above : Decimal := ⟨below.digits + 1, unit⟩
  let nearerBelow := 2 * (scaled.numerator % scaled.denominator) < scaled.denominator
  match decide (below.magnitude = magnitude), decide (above.magnitude = magnitude) with
  | true, true => some (if nearerBelow then below else above)
  | true, false => some below
  | false, true => some above
  | false, false => none

/-- Tries one more digit until a neighbour reads back. Seventeen digits always
suffice. -/
def search (exact : Ratio) (magnitude : Nat) (leading : Int) : Nat → Nat → Decimal
  | 0, count => (neighbour? exact magnitude (leading - count)).getD ⟨0, 0⟩
  | more + 1, count =>
      match neighbour? exact magnitude (leading - count) with
      | some decimal => decimal
      | none => search exact magnitude leading more (count + 1)

/-- The decimal with the fewest digits that reads back as the positive number
`exact`, whose pattern is `magnitude`. -/
def shortest (exact : Ratio) (magnitude : Nat) : Decimal :=
  (search exact magnitude exact.decimalExponent 16 0).normalize

/-! ## A fixed number of digits -/

/-- `exact` rounded to `count` significant digits, ties to even. -/
def significant (count : Nat) (exact : Ratio) : Decimal :=
  let unit := exact.decimalExponent - ((count : Int) - 1)
  normalize ⟨(exact.scaleBy 10 (-unit)).round, unit⟩

end Decimal

end StackBackend
