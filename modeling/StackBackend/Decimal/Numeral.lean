import StackBackend.Binary64.Arithmetic
import StackBackend.Decimal

namespace StackBackend

/-! How a decimal is spelled. A style fixes the range of exponents written
positionally and the look of the two forms; the digits come from elsewhere. -/

structure NumeralStyle where
  /-- Exponents of the leading digit from here on, up to `firstScientific`, are
  written positionally. -/
  firstPositional : Int
  firstScientific : Int
  /-- Whole numbers in positional form end in `.0`. -/
  wholeFraction : Bool
  /-- The exponent is written with a sign even when it is not negative. -/
  signedExponent : Bool
  exponentWidth : Nat

/-- The decimal digits of a natural number; `0` for zero. -/
def decimalDigits (value : Nat) : List Char :=
  Nat.toDigits 10 value

namespace NumeralStyle

def zeros (count : Nat) : List Char :=
  List.replicate count '0'

def positional (style : NumeralStyle) (digits : List Char) (leading : Int) : List Char :=
  if leading < 0 then
    '0' :: '.' :: (zeros ((-leading).toNat - 1) ++ digits)
  else
    let whole := leading.toNat + 1
    if digits.length ≤ whole then
      digits ++ zeros (whole - digits.length) ++ (if style.wholeFraction then ['.', '0'] else [])
    else
      digits.take whole ++ '.' :: digits.drop whole

def scientific (style : NumeralStyle) (digits : List Char) (leading : Int) : List Char :=
  let mantissa :=
    match digits with
    | [] => []
    | [digit] => [digit]
    | digit :: rest => digit :: '.' :: rest
  let sign := if leading < 0 then ['-'] else if style.signedExponent then ['+'] else []
  let exponent := decimalDigits leading.natAbs
  mantissa ++ 'e' :: (sign ++ zeros (style.exponentWidth - exponent.length) ++ exponent)

/-- The text of a positive decimal without trailing zeros in its digits. -/
def spell (style : NumeralStyle) (decimal : Decimal) : List Char :=
  let digits := decimalDigits decimal.digits
  let leading := decimal.exponent + digits.length - 1
  if style.firstPositional ≤ leading ∧ leading < style.firstScientific then
    style.positional digits leading
  else
    style.scientific digits leading

end NumeralStyle

namespace Binary64

def signText (negative : Bool) : List Char :=
  if negative then ['-'] else []

/-! The exact form, used in assembly text and in trees: the fewest digits that
read back, positional for numbers from `1e-4` to `1e16`. -/

def exactStyle : NumeralStyle where
  firstPositional := -4
  firstScientific := 16
  wholeFraction := true
  signedExponent := false
  exponentWidth := 1

def exactText (word : Binary64) : List Char :=
  match word.value with
  | .nan => ['N', 'a', 'N']
  | .infinite negative => signText negative ++ ['i', 'n', 'f']
  | .finite negative significand exponent =>
      if significand = 0 then
        signText negative ++ ['0', '.', '0']
      else
        signText negative ++
          exactStyle.spell (Decimal.shortest (dyadic significand exponent) word.magnitude)

/-! The compact form, which the machine prints: six significant digits,
positional for exponents from -4 to 5, trailing zeros dropped. -/

def compactStyle : NumeralStyle where
  firstPositional := -4
  firstScientific := 6
  wholeFraction := false
  signedExponent := true
  exponentWidth := 2

def compactText (word : Binary64) : List Char :=
  match word.value with
  | .nan => signText word.isNegative ++ ['n', 'a', 'n']
  | .infinite negative => signText negative ++ ['i', 'n', 'f']
  | .finite negative significand exponent =>
      if significand = 0 then
        signText negative ++ ['0']
      else
        signText negative ++ compactStyle.spell (Decimal.significant 6 (dyadic significand exponent))

end Binary64

end StackBackend
