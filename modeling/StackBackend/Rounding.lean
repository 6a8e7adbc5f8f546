namespace StackBackend

/-! Rounding of exact quotients. Everything that turns an exact number into a
representable one, binary or decimal, goes through `roundQuotient`. -/

/-- The integer nearest to `numerator / denominator`; a tie goes to the even
neighbour. -/
def roundQuotient (numerator denominator : Nat) : Nat :=
  let quotient := numerator / denominator
  match compare (2 * (numerator % denominator)) denominator with
  | .lt => quotient
  | .eq => quotient + quotient % 2
  | .gt => quotient + 1

/-! A positive number is handled as a numerator over a denominator. `scaleBy`
multiplies such a pair by a power of a base without leaving the naturals. -/

structure Ratio where
  numerator : Nat
  denominator : Nat
deriving DecidableEq

namespace Ratio

def scaleBy (base : Nat) (exponent : Int) (ratio : Ratio) : Ratio :=
  if 0 ≤ exponent then
    { ratio with numerator := ratio.numerator * base.pow exponent.toNat }
  else
    { ratio with denominator := ratio.denominator * base.pow (-exponent).toNat }

def round (ratio : Ratio) : Nat :=
  roundQuotient ratio.numerator ratio.denominator

/-- The largest `e` with `2 ^ e` at most the ratio, which must be positive. -/
def binaryExponent (ratio : Ratio) : Int :=
  let estimate : Int := (ratio.numerator.log2 : Int) - ratio.denominator.log2
  let scaled := ratio.scaleBy 2 (-estimate)
  if scaled.numerator < scaled.denominator then estimate - 1 else estimate

end Ratio

/-- The number of decimal digits of a natural number; zero has none. -/
def decimalLength (value : Nat) : Nat :=
  if value = 0 then 0 else decimalLength (value / 10) + 1
termination_by value
decreasing_by omega

namespace Ratio

/-- The largest `e` with `10 ^ e` at most the ratio, which must be positive. -/
def decimalExponent (ratio : Ratio) : Int :=
  if ratio.denominator ≤ ratio.numerator then
    (decimalLength (ratio.numerator / ratio.denominator) : Int) - 1
  else
    let places := decimalLength (ratio.denominator / ratio.numerator) - 1
    if ratio.denominator = ratio.numerator * Nat.pow 10 places then
      -(places : Int)
    else
      -(places : Int) - 1

end Ratio

/-- The rounded quotient is within half a unit of the exact one. -/
theorem roundQuotient_near {numerator denominator : Nat}
    (positive : 0 < denominator) :
    2 * numerator ≤ 2 * roundQuotient numerator denominator * denominator + denominator ∧
      2 * roundQuotient numerator denominator * denominator ≤ 2 * numerator + denominator := by
  have split := Nat.div_add_mod numerator denominator
  have remainder := Nat.mod_lt numerator positive
  have expand : ∀ quotient : Nat,
      2 * quotient * denominator = 2 * (denominator * quotient) := by
    intro quotient
    rw [Nat.mul_assoc, Nat.mul_comm quotient]
  unfold roundQuotient
  simp only
  split
  next order =>
    rw [Nat.compare_eq_lt] at order
    rw [expand]
    omega
  next order =>
    rw [Nat.compare_eq_eq] at order
    have parity : (numerator / denominator) % 2 = 0 ∨ (numerator / denominator) % 2 = 1 := by
      omega
    rcases parity with even | odd
    · rw [even, expand, Nat.add_zero]
      omega
    · rw [odd, expand, Nat.mul_add]
      omega
  next order =>
    rw [Nat.compare_eq_gt] at order
    rw [expand, Nat.mul_add]
    omega

end StackBackend
