import Mathlib.Data.Nat.GCD.Basic
import Mathlib.Tactic.Ring

namespace StackBackend

/-! Fractions of two words and their reduction, with all the words that it goes through.
Negation and division wrap at the least word, which has no opposite: it is its own
magnitude, and Euclid's algorithm may then end in a divisor below zero. -/

/-! ## Magnitudes of words -/

namespace Magnitude

theorem natAbs_bmod {value : Int} (lower : -2147483648 ≤ value) (upper : value ≤ 2147483648) :
    (value.bmod (2 ^ 32)).natAbs = value.natAbs := by
  by_cases top : value = 2147483648
  · rw [top]
    rfl
  · rw [Int.bmod_eq_of_le (by omega) (by omega)]

theorem bounds (word : Int32) : -2147483648 ≤ word.toInt ∧ word.toInt < 2147483648 :=
  ⟨word.le_toInt, word.toInt_lt⟩

/-- Every word has the magnitude of its opposite. -/
theorem natAbs_neg (word : Int32) : (-word).toInt.natAbs = word.toInt.natAbs := by
  have range := bounds word
  rw [Int32.toInt_neg, natAbs_bmod (by omega) (by omega), Int.natAbs_neg]

theorem natAbs_mod (left right : Int32) :
    (left % right).toInt.natAbs = left.toInt.natAbs % right.toInt.natAbs := by
  rw [Int32.toInt_mod, Int.natAbs_tmod]

/-- The quotient of the least word and minus one wraps, but not its magnitude. -/
theorem natAbs_div (left right : Int32) :
    (left / right).toInt.natAbs = left.toInt.natAbs / right.toInt.natAbs := by
  have range := bounds left
  have small := Int.natAbs_tdiv_le_natAbs left.toInt right.toInt
  rw [Int32.toInt_div, natAbs_bmod (by omega) (by omega), Int.natAbs_tdiv]
  rfl

theorem natAbs_eq_zero {word : Int32} : word.toInt.natAbs = 0 ↔ word = 0 := by
  rw [Int.natAbs_eq_zero, ← Int32.toInt_inj]
  rfl

/-- All words but the least one have an opposite. -/
theorem toInt_neg {word : Int32} (other : word ≠ Int32.minValue) :
    (-word).toInt = -word.toInt := by
  have range := bounds word
  have above : word.toInt ≠ -2147483648 := fun same => other (Int32.toInt_inj.mp same)
  rw [Int32.toInt_neg, Int.bmod_eq_of_le (by omega) (by omega)]

end Magnitude

/-! ## Euclid's algorithm -/

/-- The last remainder but zero, of remainders that have the sign of the dividend. -/
def euclid (first second : Int32) : Int32 :=
  if second = 0 then first else euclid second (first % second)
termination_by second.toInt.natAbs
decreasing_by
  rename_i nonzero
  rw [Magnitude.natAbs_mod]
  exact Nat.mod_lt _ (Nat.pos_of_ne_zero fun zero => nonzero (Magnitude.natAbs_eq_zero.mp zero))

theorem natAbs_euclid (first second : Int32) :
    (euclid first second).toInt.natAbs = Nat.gcd first.toInt.natAbs second.toInt.natAbs := by
  fun_induction euclid first second with
  | case1 first => exact (Nat.gcd_zero_right _).symm
  | case2 first second nonzero induction =>
      rw [induction, Magnitude.natAbs_mod, Nat.gcd_comm, ← Nat.gcd_rec, Nat.gcd_comm]

theorem euclid_nonnegative {first second : Int32} (firstSign : 0 ≤ first.toInt)
    (secondSign : 0 ≤ second.toInt) : 0 ≤ (euclid first second).toInt := by
  fun_induction euclid first second with
  | case1 first => exact firstSign
  | case2 first second nonzero induction =>
      refine induction secondSign ?_
      rw [Int32.toInt_mod]
      exact Int.tmod_nonneg _ firstSign

/-! ## Fractions -/

structure Fraction where
  numerator : Int32
  denominator : Int32
deriving DecidableEq

namespace Fraction

/-- In lowest terms, with the sign in the numerator. -/
structure Canonical (fraction : Fraction) : Prop where
  positive : 0 < fraction.denominator.toInt
  coprime : Int.gcd fraction.numerator.toInt fraction.denominator.toInt = 1

theorem Canonical.denominator_ne_zero {fraction : Fraction} (canonical : fraction.Canonical) :
    fraction.denominator ≠ 0 := by
  intro zero
  have positive := canonical.positive
  rw [zero] at positive
  cases positive

/-- Neither term is the least word. -/
def Ordinary (fraction : Fraction) : Prop :=
  fraction.numerator ≠ Int32.minValue ∧ fraction.denominator ≠ Int32.minValue

/-- Both fractions stand for one number. -/
def Same (left right : Fraction) : Prop :=
  left.numerator.toInt * right.denominator.toInt = right.numerator.toInt * left.denominator.toInt

/-- The fraction with its sign in the numerator. -/
def upright (fraction : Fraction) : Fraction :=
  if 0 < fraction.denominator then fraction else ⟨-fraction.numerator, -fraction.denominator⟩

/-- The numerator without its sign. -/
def magnitude (fraction : Fraction) : Int32 :=
  if 0 < fraction.numerator then fraction.numerator else -fraction.numerator

/-- Both terms divided by the divisor that the algorithm finds. -/
def divided (fraction : Fraction) : Fraction :=
  ⟨fraction.numerator / euclid fraction.magnitude fraction.denominator,
    fraction.denominator / euclid fraction.magnitude fraction.denominator⟩

/-- The fraction in lowest terms; none when its denominator is zero. -/
def reduced (fraction : Fraction) : Option Fraction :=
  if fraction.denominator = 0 then none
  else if fraction.numerator = 0 then some ⟨0, 1⟩
  else some fraction.upright.divided

variable {fraction result : Fraction}

theorem reduced_eq_none : fraction.reduced = none ↔ fraction.denominator = 0 := by
  unfold reduced
  split
  · simp_all
  · split <;> simp_all

theorem natAbs_magnitude (fraction : Fraction) :
    fraction.magnitude.toInt.natAbs = fraction.numerator.toInt.natAbs := by
  unfold magnitude
  split
  · rfl
  · exact Magnitude.natAbs_neg _

/-- The divisor is a greatest common divisor up to its sign. -/
theorem natAbs_divisor (fraction : Fraction) :
    (euclid fraction.magnitude fraction.denominator).toInt.natAbs =
      Nat.gcd fraction.numerator.toInt.natAbs fraction.denominator.toInt.natAbs := by
  rw [natAbs_euclid, natAbs_magnitude]

theorem divisor_ne_zero (nonzero : fraction.denominator ≠ 0) :
    euclid fraction.magnitude fraction.denominator ≠ 0 := by
  intro zero
  rw [← Magnitude.natAbs_eq_zero, natAbs_divisor, Nat.gcd_eq_zero_iff,
    Magnitude.natAbs_eq_zero, Magnitude.natAbs_eq_zero] at zero
  exact nonzero zero.2

theorem upright_ne_zero (nonzero : fraction.denominator ≠ 0) :
    fraction.upright.denominator ≠ 0 := by
  unfold upright
  split
  · exact nonzero
  · intro zero
    rw [← Magnitude.natAbs_eq_zero, Magnitude.natAbs_neg, Magnitude.natAbs_eq_zero] at zero
    exact nonzero zero

/-- Whatever the sign of the divisor is, the terms have no other divisor left. -/
theorem coprime_divided (nonzero : fraction.denominator ≠ 0) :
    fraction.divided.denominator ≠ 0 ∧
      Int.gcd fraction.divided.numerator.toInt fraction.divided.denominator.toInt = 1 := by
  have positive : 0 < fraction.denominator.toInt.natAbs :=
    Nat.pos_of_ne_zero fun zero => nonzero (Magnitude.natAbs_eq_zero.mp zero)
  have common := Nat.gcd_pos_of_pos_right fraction.numerator.toInt.natAbs positive
  constructor
  · rw [Ne, ← Magnitude.natAbs_eq_zero, divided, Magnitude.natAbs_div, natAbs_divisor]
    exact Nat.ne_of_gt (Nat.div_pos (Nat.gcd_le_right _ positive) common)
  · rw [Int.gcd, divided, Magnitude.natAbs_div, Magnitude.natAbs_div, natAbs_divisor]
    exact Nat.coprime_div_gcd_div_gcd common

theorem coprime_reduced (made : fraction.reduced = some result) :
    result.denominator ≠ 0 ∧ Int.gcd result.numerator.toInt result.denominator.toInt = 1 := by
  unfold reduced at made
  split at made
  · cases made
  · rename_i nonzero
    split at made
    · cases made
      decide
    · cases made
      exact coprime_divided (upright_ne_zero nonzero)

/-! ### Away from the least word -/

theorem Same.trans {left middle right : Fraction} (first : left.Same middle)
    (nonzero : middle.denominator.toInt ≠ 0) (second : middle.Same right) : left.Same right := by
  unfold Same at *
  refine Int.eq_of_mul_eq_mul_right nonzero ?_
  calc left.numerator.toInt * right.denominator.toInt * middle.denominator.toInt
      = left.numerator.toInt * middle.denominator.toInt * right.denominator.toInt := by ring
    _ = middle.numerator.toInt * right.denominator.toInt * left.denominator.toInt := by
        rw [first]; ring
    _ = right.numerator.toInt * left.denominator.toInt * middle.denominator.toInt := by
        rw [second]; ring

theorem upright_ordinary (ordinary : fraction.Ordinary) (nonzero : fraction.denominator ≠ 0) :
    0 < fraction.upright.denominator.toInt ∧ fraction.upright.Ordinary ∧
      fraction.Same fraction.upright := by
  have numerator := Magnitude.toInt_neg ordinary.1
  have denominator := Magnitude.toInt_neg ordinary.2
  unfold upright
  split
  · rename_i positive
    exact ⟨Int32.lt_iff_toInt_lt.mp positive, ordinary, rfl⟩
  · rename_i negative
    rw [Int32.lt_iff_toInt_lt] at negative
    have below : ¬ 0 < fraction.denominator.toInt := negative
    have other : fraction.denominator.toInt ≠ 0 := fun zero => nonzero (Int32.toInt_inj.mp zero)
    have opposite : ∀ {word : Int32}, word ≠ Int32.minValue → -word ≠ Int32.minValue := by
      intro word ordinary same
      have range := Magnitude.bounds word
      have least : (-word).toInt = -2147483648 := by rw [same]; rfl
      rw [Magnitude.toInt_neg ordinary] at least
      omega
    refine ⟨by rw [denominator]; omega, ⟨opposite ordinary.1, opposite ordinary.2⟩, ?_⟩
    rw [Same, numerator, denominator]
    ring

/-- The divisor of a fraction with a positive denominator is positive. -/
theorem divisor_positive (ordinary : fraction.Ordinary) (positive : 0 < fraction.denominator.toInt) :
    0 < (euclid fraction.magnitude fraction.denominator).toInt := by
  have magnitude : 0 ≤ fraction.magnitude.toInt := by
    unfold magnitude
    split
    · rename_i above
      exact Int.le_of_lt (Int32.lt_iff_toInt_lt.mp above)
    · rename_i below
      rw [Int32.lt_iff_toInt_lt] at below
      rw [Magnitude.toInt_neg ordinary.1]
      simp at below
      omega
  have nonnegative := euclid_nonnegative magnitude (Int.le_of_lt positive)
  have nonzero : (euclid fraction.magnitude fraction.denominator).toInt.natAbs ≠ 0 := by
    rw [natAbs_divisor]
    exact Nat.ne_of_gt (Nat.gcd_pos_of_pos_right _ (by omega))
  omega

/-- Division by a positive divisor of a word is exact. -/
theorem toInt_div_mul {word divisor : Int32} (positive : 0 < divisor.toInt)
    (divides : divisor.toInt.natAbs ∣ word.toInt.natAbs) :
    (word / divisor).toInt * divisor.toInt = word.toInt := by
  have range := Magnitude.bounds word
  have small := Int.natAbs_tdiv_le_natAbs word.toInt divisor.toInt
  have exact_ : word.toInt.tdiv divisor.toInt * divisor.toInt = word.toInt :=
    Int.tdiv_mul_cancel (Int.natAbs_dvd_natAbs.mp divides)
  -- Only a negative divisor of the least word has a quotient that wraps.
  have below : word.toInt.tdiv divisor.toInt < 2147483648 := by
    by_contra above
    have product : 0 < word.toInt.tdiv divisor.toInt * divisor.toInt :=
      Int.mul_pos (by omega) positive
    omega
  rw [Int32.toInt_div, Int.bmod_eq_of_le (by omega) (by omega), exact_]

theorem canonical_divided (ordinary : fraction.Ordinary)
    (positive : 0 < fraction.denominator.toInt) :
    fraction.divided.Canonical ∧ fraction.Same fraction.divided := by
  have divisor := divisor_positive ordinary positive
  have common := natAbs_divisor fraction
  have numerator : fraction.divided.numerator.toInt *
      (euclid fraction.magnitude fraction.denominator).toInt = fraction.numerator.toInt :=
    toInt_div_mul divisor (common ▸ Nat.gcd_dvd_left _ _)
  have denominator : fraction.divided.denominator.toInt *
      (euclid fraction.magnitude fraction.denominator).toInt = fraction.denominator.toInt :=
    toInt_div_mul divisor (common ▸ Nat.gcd_dvd_right _ _)
  have nonzero : fraction.denominator ≠ 0 := by
    rintro zero
    rw [zero] at positive
    cases positive
  refine ⟨⟨?_, (coprime_divided nonzero).2⟩, ?_⟩
  · rw [← denominator] at positive
    exact Int.pos_of_mul_pos_left positive divisor
  · rw [Same, ← numerator, ← denominator]
    ring

/-- A fraction without the least word is reduced to one in lowest terms that stands for
the same number. -/
theorem canonical_reduced (ordinary : fraction.Ordinary) (made : fraction.reduced = some result) :
    result.Canonical ∧ fraction.Same result := by
  unfold reduced at made
  split at made
  · cases made
  · rename_i nonzero
    split at made
    · rename_i zero
      cases made
      refine ⟨⟨by decide, by decide⟩, ?_⟩
      simp [Same, zero]
    · cases made
      obtain ⟨positive, ordinary, same⟩ := upright_ordinary ordinary nonzero
      obtain ⟨canonical, divided⟩ := canonical_divided ordinary positive
      exact ⟨canonical, same.trans (Int.ne_of_gt positive) divided⟩

end Fraction

end StackBackend
