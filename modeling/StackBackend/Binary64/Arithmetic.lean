import StackBackend.Binary64

namespace StackBackend.Binary64

/-! Arithmetic computes the exact result and rounds it once. An operand that is
not a number is handed on, made quiet; the first such operand wins. -/

/-- A NaN pattern with its quiet bit set. -/
def quiet (word : Binary64) : Binary64 :=
  ⟨word.bits ||| 0x0008000000000000⟩

/-- Flips the sign, also of a zero and of a NaN. -/
def negate (word : Binary64) : Binary64 :=
  ⟨word.bits ^^^ 0x8000000000000000⟩

def signed (negative : Bool) (significand : Nat) : Int :=
  if negative then -(significand : Int) else significand

/-- `left` and `right` are multiples of `2 ^ exponent`. A zero sum is negative
only when both terms are. -/
def roundSum (exponent left right : Int) (bothNegative : Bool) : Binary64 :=
  let sum := left + right
  if sum = 0 then
    zero bothNegative
  else
    nearest (sum < 0) (dyadic sum.natAbs exponent)

def add (left right : Binary64) : Binary64 :=
  match left.value, right.value with
  | .nan, _ => left.quiet
  | _, .nan => right.quiet
  | .infinite leftNegative, .infinite rightNegative =>
      if leftNegative = rightNegative then left else invalid
  | .infinite _, _ => left
  | _, .infinite _ => right
  | .finite leftNegative leftSignificand leftExponent,
    .finite rightNegative rightSignificand rightExponent =>
      let exponent := min leftExponent rightExponent
      let align (significand : Nat) (given : Int) : Nat :=
        significand * Nat.pow 2 (given - exponent).toNat
      roundSum exponent
        (signed leftNegative (align leftSignificand leftExponent))
        (signed rightNegative (align rightSignificand rightExponent))
        (leftNegative && rightNegative)

def subtract (left right : Binary64) : Binary64 :=
  if right.isNaN then left.add right else left.add right.negate

def multiply (left right : Binary64) : Binary64 :=
  let negative := left.isNegative != right.isNegative
  match left.value, right.value with
  | .nan, _ => left.quiet
  | _, .nan => right.quiet
  | .infinite _, .infinite _ => infinity negative
  | .infinite _, .finite _ significand _ =>
      if significand = 0 then invalid else infinity negative
  | .finite _ significand _, .infinite _ =>
      if significand = 0 then invalid else infinity negative
  | .finite _ leftSignificand leftExponent, .finite _ rightSignificand rightExponent =>
      nearest negative
        (dyadic (leftSignificand * rightSignificand) (leftExponent + rightExponent))

def divide (left right : Binary64) : Binary64 :=
  let negative := left.isNegative != right.isNegative
  match left.value, right.value with
  | .nan, _ => left.quiet
  | _, .nan => right.quiet
  | .infinite _, .infinite _ => invalid
  | .infinite _, .finite .. => infinity negative
  | .finite .., .infinite _ => zero negative
  | .finite _ leftSignificand leftExponent, .finite _ rightSignificand rightExponent =>
      if rightSignificand = 0 then
        if leftSignificand = 0 then invalid else infinity negative
      else
        nearest negative
          (Ratio.scaleBy 2 (leftExponent - rightExponent) ⟨leftSignificand, rightSignificand⟩)

/-! Comparisons with zero; a NaN is neither positive, negative nor zero. -/

def isZero (word : Binary64) : Bool :=
  word.magnitude = 0

def isBelowZero (word : Binary64) : Bool :=
  word.isNegative && !word.isZero && !word.isNaN

def isAboveZero (word : Binary64) : Bool :=
  !word.isNegative && !word.isZero && !word.isNaN

/-! Conversions to and from 32-bit integers. Leaving the floating side
truncates, stops at the ends of the integer range and sends NaN to zero. -/

def ofInt (value : Int) : Binary64 :=
  nearest (value < 0) ⟨value.natAbs, 1⟩

def ofInt32 (value : Int32) : Binary64 :=
  ofInt value.toInt

def clampToInt32 (value : Int) : Int32 :=
  Int32.ofInt (max (-2147483648) (min 2147483647 value))

def truncate (word : Binary64) : Int32 :=
  match word.value with
  | .nan => 0
  | .infinite negative => clampToInt32 (signed negative 2147483648)
  | .finite negative significand exponent =>
      let ratio := dyadic significand exponent
      clampToInt32 (signed negative (ratio.numerator / ratio.denominator))

@[simp] theorem negate_negate (word : Binary64) : word.negate.negate = word := by
  unfold negate
  rw [UInt64.xor_assoc, UInt64.xor_self, UInt64.xor_zero]

end StackBackend.Binary64
