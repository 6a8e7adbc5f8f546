import StackBackend.Rounding

namespace StackBackend

/-! A floating word of the machine is the bit pattern of an IEEE 754 binary64
number. Keeping the pattern, and not the number it stands for, is what makes
loads and stores exact for every word, the many NaN patterns included. -/

structure Binary64 where
  bits : UInt64
deriving DecidableEq, Inhabited

namespace Binary64

/-! The number behind a pattern: not a number, an infinity, or an exact
product of an integer and a power of two. -/

inductive Value where
  | nan
  | infinite (negative : Bool)
  | finite (negative : Bool) (significand : Nat) (exponent : Int)
deriving DecidableEq

/-- The weight of the sign, the top bit of a pattern. -/
def signWeight : Nat := 0x8000000000000000

/-- The weight of the lowest bit of the exponent field, above 52 bits of
fraction. -/
def exponentWeight : Nat := 0x10000000000000

def isNegative (word : Binary64) : Bool :=
  signWeight ≤ word.bits.toNat

/-- The pattern without its sign. -/
def magnitude (word : Binary64) : Nat :=
  word.bits.toNat % signWeight

def infinityMagnitude : Nat := 2047 * exponentWeight

def value (word : Binary64) : Value :=
  let biased : Nat := word.magnitude / exponentWeight
  let fraction : Nat := word.magnitude % exponentWeight
  if biased = 2047 then
    if fraction = 0 then .infinite word.isNegative else .nan
  else if biased = 0 then
    .finite word.isNegative fraction (-1074)
  else
    .finite word.isNegative (exponentWeight + fraction) ((biased : Int) - 1075)

def ofMagnitude (negative : Bool) (magnitude : Nat) : Binary64 :=
  ⟨UInt64.ofNat (if negative then signWeight + magnitude else magnitude)⟩

def zero (negative : Bool) : Binary64 := ofMagnitude negative 0

def infinity (negative : Bool) : Binary64 := ofMagnitude negative infinityMagnitude

/-- The pattern an invalid operation produces. -/
def invalid : Binary64 := ofMagnitude true (infinityMagnitude + exponentWeight / 2)

/-- The pattern that stands for a NaN written in text. -/
def quietNaN : Binary64 := ofMagnitude false (infinityMagnitude + exponentWeight / 2)

def isNaN (word : Binary64) : Bool :=
  infinityMagnitude < word.magnitude

def isFinite (word : Binary64) : Bool :=
  word.magnitude < infinityMagnitude

/-! `nearestMagnitude` rounds a ratio to the nearest pattern. Patterns without
sign are ordered like the numbers they stand for, and consecutive patterns
stand for consecutive numbers, so a significand that rounds up to the next
power of two carries into the exponent field by itself, and everything past the
largest finite number meets the bound of the infinity. -/

def nearestMagnitude (ratio : Ratio) : Nat :=
  if ratio.numerator = 0 then
    0
  else
    let unit := max (-1074) (ratio.binaryExponent - 52)
    let significand := (ratio.scaleBy 2 (-unit)).round
    if significand < exponentWeight then
      significand
    else
      min infinityMagnitude
        (significand - exponentWeight + (unit + 1075).toNat * exponentWeight)

/-- The binary64 number nearest to a signed ratio, ties to even. -/
def nearest (negative : Bool) (ratio : Ratio) : Binary64 :=
  ofMagnitude negative (nearestMagnitude ratio)

/-- The exact ratio `significand * 2 ^ exponent`. -/
def dyadic (significand : Nat) (exponent : Int) : Ratio :=
  Ratio.scaleBy 2 exponent ⟨significand, 1⟩

end Binary64

end StackBackend
