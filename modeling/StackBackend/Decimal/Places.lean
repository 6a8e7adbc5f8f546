import StackBackend.Decimal.Numeral

namespace StackBackend

/-! Numerals with a fixed number of decimals. The compact form can be put together from two of
them: a scientific one, whose rounding settles the exponent, and one in positional form that is
rounded again at the decimals which the exponent leaves. -/

namespace Decimal

/-- The lowest digits of a number, as many as wanted. -/
def lowDigits : Nat → Nat → List Char
  | 0, _ => []
  | count + 1, value => lowDigits count (value / 10) ++ [Nat.digitChar (value % 10)]

/-- The digits of a number with a point in front of the last `places` of them. -/
def pointed (digits places : Nat) : List Char :=
  decimalDigits (digits / Nat.pow 10 places) ++
    if places = 0 then [] else '.' :: lowDigits places digits

/-- A positive number rounded to some decimals. -/
def fixed (places : Nat) (exact : Ratio) : List Char :=
  pointed (exact.scaleBy 10 places).round places

/-- Mantissa and exponent of a positive number, with some decimals in the mantissa. -/
def scientific (places : Nat) (exact : Ratio) : List Char × Int :=
  let digits := (exact.scaleBy 10 (places - exact.decimalExponent)).round
  -- Rounding up may carry into a new digit.
  if digits = Nat.pow 10 (places + 1) then
    (pointed (Nat.pow 10 places) places, exact.decimalExponent + 1)
  else
    (pointed digits places, exact.decimalExponent)

/-- Drops the zeros at the end of a numeral with a point, and the point if nothing is left
behind it. -/
def stripZeros (numeral : List Char) : List Char :=
  if numeral.contains '.' then
    ((numeral.reverse.dropWhile (· == '0')).dropWhile (· == '.')).reverse
  else
    numeral

/-- A positive number with six significant digits, rounded twice. -/
def compact (exact : Ratio) : List Char :=
  let (mantissa, exponent) := scientific 5 exact
  if -4 ≤ exponent ∧ exponent < 6 then
    stripZeros (fixed (5 - exponent).toNat exact)
  else
    let digits := decimalDigits exponent.natAbs
    stripZeros mantissa ++ 'e' :: (if exponent < 0 then '-' else '+') ::
      (NumeralStyle.zeros (2 - digits.length) ++ digits)

end Decimal

end StackBackend
