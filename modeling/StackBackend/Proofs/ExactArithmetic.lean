import Mathlib.Data.Rat.Floor
import StackBackend.Proofs.RationalArithmetic

namespace StackBackend

/-! Exact rational arithmetic. While the numbers that an operation forms on its way stay
between the least word and its opposite, nothing wraps, and what the operation leaves is the
number that it stands for, in lowest terms. Where there is no such number, the operation ends
in the fault of zero denominators. -/

/-! ## Words that do not wrap -/

/-- Strictly between the least word and its opposite. -/
def Within (number : Int) : Prop :=
  -2147483648 < number ∧ number < 2147483648

instance (number : Int) : Decidable (Within number) :=
  inferInstanceAs (Decidable (_ ∧ _))

namespace Within

variable {number first second : Int} {left right word : Int32}

theorem toInt_add (within : Within (first + second)) (leftSame : left.toInt = first)
    (rightSame : right.toInt = second) : (left + right).toInt = first + second := by
  obtain ⟨lower, upper⟩ := within
  rw [Int32.toInt_add, leftSame, rightSame, Int.bmod_eq_of_le (by omega) (by omega)]

theorem toInt_sub (within : Within (first - second)) (leftSame : left.toInt = first)
    (rightSame : right.toInt = second) : (left - right).toInt = first - second := by
  obtain ⟨lower, upper⟩ := within
  rw [Int32.toInt_sub, leftSame, rightSame, Int.bmod_eq_of_le (by omega) (by omega)]

theorem toInt_mul (within : Within (left.toInt * right.toInt)) :
    (left * right).toInt = left.toInt * right.toInt := by
  obtain ⟨lower, upper⟩ := within
  rw [Int32.toInt_mul, Int.bmod_eq_of_le (by omega) (by omega)]

theorem ne_least (within : Within number) (same : word.toInt = number) :
    word ≠ Int32.minValue := by
  rintro rfl
  rw [← same] at within
  exact absurd within.1 (by decide)

/-- A quotient is no further from zero than the dividend. -/
theorem tdiv (within : Within number) (divisor : Int) : Within (number.tdiv divisor) := by
  have small := Int.natAbs_tdiv_le_natAbs number divisor
  unfold Within at *
  omega

theorem toInt_div (within : Within number) (divisor : Int32) (same : word.toInt = number) :
    (word / divisor).toInt = number.tdiv divisor.toInt := by
  obtain ⟨lower, upper⟩ := within.tdiv divisor.toInt
  rw [Int32.toInt_div, same, Int.bmod_eq_of_le (by omega) (by omega)]

end Within

/-! ## Fractions and numbers -/

/-- The number without its fractional part. -/
def truncate (number : ℚ) : Int :=
  if 0 ≤ number then ⌊number⌋ else ⌈number⌉

/-- Division of integers that drops the fractional part. -/
theorem truncate_div (dividend divisor : Int) (positive : 0 < divisor) :
    truncate (dividend / divisor : ℚ) = dividend.tdiv divisor := by
  obtain ⟨natural, rfl⟩ := Int.eq_ofNat_of_zero_le (Int.le_of_lt positive)
  have above : (0 : ℚ) < natural := by exact_mod_cast positive
  have sign : (0 : ℚ) ≤ dividend / natural ↔ 0 ≤ dividend := by
    rw [le_div_iff₀ above, zero_mul, Int.cast_nonneg_iff]
  rw [truncate, Int.cast_natCast, Rat.floor_intCast_div_natCast, Rat.ceil_intCast_div_natCast]
  split
  · rename_i nonnegative
    exact (Int.tdiv_eq_ediv_of_nonneg (sign.mp nonnegative)).symm
  · rename_i negative
    have below : 0 ≤ -dividend := by
      have := sign.not.mp negative
      omega
    rw [← Int.tdiv_eq_ediv_of_nonneg below, Int.neg_tdiv, Int.neg_neg]

namespace Fraction

/-- The number that the fraction stands for. -/
def value (fraction : Fraction) : ℚ :=
  fraction.numerator.toInt / fraction.denominator.toInt

/-- The terms of the fraction are those of the number in lowest terms. -/
structure Expresses (fraction : Fraction) (number : ℚ) : Prop where
  numerator : fraction.numerator.toInt = number.num
  denominator : fraction.denominator.toInt = number.den

variable {fraction left right : Fraction}

theorem Canonical.expresses (canonical : fraction.Canonical) :
    fraction.Expresses fraction.value where
  numerator := (Rat.num_div_eq_of_coprime canonical.positive canonical.coprime).symm
  denominator := (Rat.den_div_eq_of_coprime canonical.positive canonical.coprime).symm

theorem toInt_denominator_ne_zero (defined : fraction.denominator ≠ 0) :
    (fraction.denominator.toInt : ℚ) ≠ 0 :=
  Int.cast_ne_zero.mpr fun zero => defined (Int32.toInt_inj.mp zero)

theorem Same.value_eq (same : left.Same right) (leftDefined : left.denominator ≠ 0)
    (rightDefined : right.denominator ≠ 0) : left.value = right.value := by
  rw [value, value, div_eq_div_iff (toInt_denominator_ne_zero leftDefined)
    (toInt_denominator_ne_zero rightDefined)]
  exact_mod_cast same

/-- A multiple of the fraction without its fractional part. -/
theorem truncate_value_mul (positive : 0 < fraction.denominator.toInt) (scale : Int) :
    truncate (fraction.value * scale) =
      (fraction.numerator.toInt * scale).tdiv fraction.denominator.toInt := by
  rw [value, div_mul_eq_mul_div, ← Int.cast_mul, truncate_div _ _ positive]

end Fraction

namespace RationalOperation

/-! ## Operations without wrapping -/

/-- The number that the operation stands for; none where it stands for none. -/
def number : RationalOperation → Option ℚ
  | .add left right => some (left.value + right.value)
  | .subtract left right => some (left.value - right.value)
  | .multiply left right => some (left.value * right.value)
  | .divide left right => if right.value = 0 then none else some (left.value / right.value)
  | .negate operand => some (-operand.value)
  | .form numerator denominator =>
      if denominator = 0 then none else some (numerator.toInt / denominator.toInt)
  | .restate operand scale =>
      if scale = 0 then none
      else some (truncate (operand.value * scale.toInt) / scale.toInt)
  | .ofInteger value | .ofCharacter value => some value.toInt

/-- The numbers that the operation forms on its way. -/
def formed : RationalOperation → List Int
  | .add left right =>
      [left.numerator.toInt * right.denominator.toInt,
        right.numerator.toInt * left.denominator.toInt,
        left.numerator.toInt * right.denominator.toInt +
          right.numerator.toInt * left.denominator.toInt,
        left.denominator.toInt * right.denominator.toInt]
  | .subtract left right =>
      [left.numerator.toInt * right.denominator.toInt,
        right.numerator.toInt * left.denominator.toInt,
        left.numerator.toInt * right.denominator.toInt -
          right.numerator.toInt * left.denominator.toInt,
        left.denominator.toInt * right.denominator.toInt]
  | .multiply left right =>
      [left.numerator.toInt * right.numerator.toInt,
        left.denominator.toInt * right.denominator.toInt]
  | .divide left right =>
      [left.numerator.toInt * right.denominator.toInt,
        left.denominator.toInt * right.numerator.toInt]
  | .negate operand => [-operand.numerator.toInt]
  | .form numerator denominator => [numerator.toInt, denominator.toInt]
  | .restate operand scale => [operand.numerator.toInt * scale.toInt, scale.toInt]
  | .ofInteger _ | .ofCharacter _ => []

/-- The terms of the fraction that is made, as integers. -/
def terms : RationalOperation → Int × Int
  | .add left right =>
      (left.numerator.toInt * right.denominator.toInt +
        right.numerator.toInt * left.denominator.toInt,
        left.denominator.toInt * right.denominator.toInt)
  | .subtract left right =>
      (left.numerator.toInt * right.denominator.toInt -
        right.numerator.toInt * left.denominator.toInt,
        left.denominator.toInt * right.denominator.toInt)
  | .multiply left right =>
      (left.numerator.toInt * right.numerator.toInt,
        left.denominator.toInt * right.denominator.toInt)
  | .divide left right =>
      (left.numerator.toInt * right.denominator.toInt,
        left.denominator.toInt * right.numerator.toInt)
  | .negate operand => (-operand.numerator.toInt, operand.denominator.toInt)
  | .form numerator denominator => (numerator.toInt, denominator.toInt)
  | .restate operand scale =>
      ((operand.numerator.toInt * scale.toInt).tdiv operand.denominator.toInt, scale.toInt)
  | .ofInteger value | .ofCharacter value => (value.toInt, 1)

variable {operation : RationalOperation}
  (canonical : ∀ operand ∈ operation.operands, operand.Canonical)
  (within : ∀ number ∈ operation.formed, Within number)

section

include canonical

/-- The quotient of the terms is the number. -/
theorem number_eq : operation.number =
    if operation.terms.2 = 0 then none else some (operation.terms.1 / operation.terms.2 : ℚ) := by
  have defined : ∀ operand ∈ operation.operands, (operand.denominator.toInt : ℚ) ≠ 0 :=
    fun operand member =>
      Fraction.toInt_denominator_ne_zero (canonical operand member).denominator_ne_zero
  cases operation with
  | add left right | subtract left right | multiply left right =>
      have leftDefined := defined left (by simp [operands])
      have rightDefined := defined right (by simp [operands])
      have product := mul_ne_zero leftDefined rightDefined
      rw [number, terms, if_neg (by exact_mod_cast product)]
      simp only [Fraction.value, div_add_div _ _ leftDefined rightDefined,
        div_sub_div _ _ leftDefined rightDefined, div_mul_div_comm]
      push_cast
      first | rfl | (congr 2; ring)
  | divide left right =>
      have leftDefined := defined left (by simp [operands])
      have rightDefined := defined right (by simp [operands])
      have zero : right.value = 0 ↔ left.denominator.toInt * right.numerator.toInt = 0 := by
        rw [Fraction.value, div_eq_zero_iff, or_iff_left rightDefined, Int.cast_eq_zero,
          mul_eq_zero, or_iff_right (Int.cast_ne_zero.mp leftDefined)]
      rw [number, terms]
      simp only [zero]
      rw [Fraction.value, Fraction.value, div_div_div_eq]
      push_cast
      rfl
  | negate operand =>
      have positive := defined operand (by simp [operands])
      rw [number, terms, if_neg (by exact_mod_cast positive), Fraction.value]
      push_cast
      rw [neg_div]
  | form numerator denominator =>
      rw [number, terms]
      simp only [← Int32.toInt_inj, Int32.toInt_zero]
  | restate operand scale =>
      have positive := (canonical operand (by simp [operands])).positive
      rw [number, terms, Fraction.truncate_value_mul positive]
      simp only [← Int32.toInt_inj, Int32.toInt_zero]
  | ofInteger value | ofCharacter value =>
      rw [number, terms, if_neg one_ne_zero, Int.cast_one, div_one]

end

include within

/-- Nothing wraps. -/
theorem unreduced_eq : operation.unreduced.numerator.toInt = operation.terms.1 ∧
    operation.unreduced.denominator.toInt = operation.terms.2 ∧ operation.Ordinary := by
  cases operation with
  | add left right =>
      obtain ⟨first, second, sum, product⟩ : Within _ ∧ Within _ ∧ Within _ ∧ Within _ := by
        simpa [formed] using within
      have numerator := sum.toInt_add first.toInt_mul second.toInt_mul
      have denominator := product.toInt_mul
      exact ⟨numerator, denominator, .inr ⟨sum.ne_least numerator, product.ne_least denominator⟩⟩
  | subtract left right =>
      obtain ⟨first, second, difference, product⟩ :
          Within _ ∧ Within _ ∧ Within _ ∧ Within _ := by
        simpa [formed] using within
      have numerator := difference.toInt_sub first.toInt_mul second.toInt_mul
      have denominator := product.toInt_mul
      exact ⟨numerator, denominator,
        .inr ⟨difference.ne_least numerator, product.ne_least denominator⟩⟩
  | multiply left right | divide left right =>
      obtain ⟨first, second⟩ : Within _ ∧ Within _ := by simpa [formed] using within
      have numerator := first.toInt_mul
      have denominator := second.toInt_mul
      exact ⟨numerator, denominator, .inr ⟨first.ne_least numerator, second.ne_least denominator⟩⟩
  | negate operand =>
      obtain ⟨lower, upper⟩ : Within _ := by simpa [formed] using within
      refine ⟨Magnitude.toInt_neg ?_, rfl, .inl rfl⟩
      intro least
      rw [least] at upper
      exact absurd upper (by decide)
  | form numerator denominator =>
      obtain ⟨first, second⟩ : Within _ ∧ Within _ := by simpa [formed] using within
      exact ⟨rfl, rfl, .inr ⟨first.ne_least rfl, second.ne_least rfl⟩⟩
  | restate operand scale =>
      obtain ⟨product, second⟩ : Within _ ∧ Within _ := by simpa [formed] using within
      have numerator := product.toInt_div operand.denominator product.toInt_mul
      exact ⟨numerator, rfl, .inr ⟨(product.tdiv _).ne_least numerator, second.ne_least rfl⟩⟩
  | ofInteger value | ofCharacter value => exact ⟨rfl, rfl, .inl rfl⟩

include canonical

/-- The outcome is the number in lowest terms, and there is none where there is no number. -/
theorem outcome_expresses :
    Option.Rel Fraction.Expresses operation.outcome operation.number := by
  obtain ⟨numerator, denominator, ordinary⟩ := unreduced_eq within
  have value : operation.unreduced.value = operation.terms.1 / operation.terms.2 := by
    rw [Fraction.value, numerator, denominator]
  have zero : operation.unreduced.denominator = 0 ↔ operation.terms.2 = 0 := by
    rw [← denominator, ← Int32.toInt_inj, Int32.toInt_zero]
  rw [number_eq canonical]
  cases made : operation.outcome with
  | none =>
      rw [if_pos (zero.mp ((outcome_eq_none canonical).mp made))]
      exact .none
  | some result =>
      have defined : operation.unreduced.denominator ≠ 0 := fun undefined => by
        rw [(outcome_eq_none canonical).mpr undefined] at made
        cases made
      obtain ⟨reduced, same⟩ := canonical_outcome canonical ordinary made
      rw [if_neg (zero.not.mp defined), ← value, same.value_eq defined reduced.denominator_ne_zero]
      exact .some reduced.expresses

end RationalOperation

/-! ## Programs -/

namespace Program

variable {program : Program} {options : CompileOptions} {code : Code} {image : Image}
  {memory : Memory}

open RationalOperation in
/-- As long as nothing wraps, an operation on canonical rationals leaves its number in lowest
terms, or ends in the fault where it has none; and the integer that a rational is expressed
with over another one is the truncated product. -/
theorem arithmetic_exact (compiled : program.compile options = .ok code)
    (assembled : Image.assemble code = .ok image) (addressable : image.Addressable)
    (fits : image.dataSize ≤ 2147483647) (inside : image.dataSize ≤ memory.size)
    (limit : Option Nat) (rest : List Word) (output : ByteArray) :
    (∀ (operation : RationalOperation) (type : Ty) (last next pc : Nat) (piece : Code),
      (∀ operand ∈ operation.operands, operand.Canonical) →
      (∀ number ∈ operation.formed, Within number) →
      operation.snippet.code operation.types type last = .ok (piece, next) →
      image.Holds piece pc →
      ∃ after outcome, Cells.Only image.word RationalOperation.cells memory after ∧
        LowestTerms.Delivers image limit ⟨pc, operation.stack ++ rest, memory, output⟩
          (pc + piece.size) rest after outcome ∧
        Option.Rel Fraction.Expresses outcome operation.number) ∧
    ∀ (operand : Fraction) (scale : Int32) (type : Ty) (last next pc : Nat) (piece : Code),
      operand.Canonical → Within (operand.numerator.toInt * scale.toInt) →
      Snippet.expressOver.code [.rational, .integer] type last = .ok (piece, next) →
      image.Holds piece pc →
      ∃ after quotient, Cells.Only image.word RationalOperation.scratch memory after ∧
        Runs image limit ⟨pc, .integer scale :: .integer operand.denominator ::
            .integer operand.numerator :: rest, memory, output⟩
          ⟨pc + piece.size, .integer quotient :: rest, after, output⟩ ∧
        quotient.toInt = truncate (operand.value * scale.toInt) := by
  obtain ⟨body, composed⟩ := exists_composed compiled
  have prepared := composed.prepared assembled addressable fits
  constructor
  · intro operation type last next pc piece canonical within generated holds
    rw [operation.generates] at generated
    cases generated
    obtain ⟨after, only, delivers⟩ := operation.delivers_outcome prepared.lowestTerms_installed
      prepared.rational_scratch holds inside fun operand member =>
        (canonical operand member).denominator_ne_zero
    exact ⟨after, _, only, delivers, outcome_expresses canonical within⟩
  · intro operand scale type last next pc piece canonical within generated holds
    cases generated
    obtain ⟨after, acts, only, _⟩ := exists_expressed prepared.rational_scratch inside operand scale
      canonical.denominator_ne_zero
    refine ⟨after, _, only, Runs.straight holds (acts []), ?_⟩
    rw [within.toInt_div _ within.toInt_mul, Fraction.truncate_value_mul canonical.positive]

/-- The sum of a half and a third, in twelfths. -/
def twelfths : Program where
  globalSize := 4
  body := [.declaration ⟨"twelfths", .integer, .global 0, false⟩
    (.typed .integer (.operation (.snippet .expressOver)
      [.typed .rational (.operation (.snippet .rationalAdd)
        [.typed .rational (.operation (.snippet .formRational)
          [.typed .integer (.integer 1), .typed .integer (.integer 2)]),
        .typed .rational (.operation (.snippet .formRational)
          [.typed .integer (.integer 1), .typed .integer (.integer 3)])]),
      .typed .integer (.integer 12)])) false]

theorem exists_twelfths_image :
    ∃ code image sum quotient, twelfths.compile ⟨true⟩ = .ok code ∧
      Image.assemble code = .ok image ∧ image.Addressable ∧ image.dataSize ≤ 65536 ∧
      image.Holds Arithmetic.rationalAdd sum ∧
      image.Holds (Code.storeWord Cell.rationalOver ++ Arithmetic.restateRational) quotient := by
  have plain : Plain twelfths.operations := by
    simp [Plain, twelfths, operations, blockOperations, Statement.operations, Expr.operations,
      Form.operations, exprsOperations]
  obtain ⟨code, image, body, _, pc, compiled, assembled, addressable, fits, made, holds⟩ :=
    exists_body_image (by decide +kernel) plain (by simp [twelfths])
  have body_eq : blockCode {} twelfths.body 0 =
      .ok ([.pushD Cell.globalBlock, .pushI 0, .add, .pushI 1, .pushI 2] ++
        Arithmetic.lowestTerms ++ [.pushI 1, .pushI 3] ++ Arithmetic.lowestTerms ++
        Arithmetic.rationalAdd ++ [.pushI 12] ++
        (Code.storeWord Cell.rationalOver ++ Arithmetic.restateRational) ++
        Ty.integer.storeCode, 0) := rfl
  cases body_eq.symm.trans made
  obtain ⟨expressedHolds, _⟩ := Image.holds_append.mp holds
  obtain ⟨scaledHolds, quotientHolds⟩ := Image.holds_append.mp expressedHolds
  obtain ⟨addedHolds, _⟩ := Image.holds_append.mp scaledHolds
  obtain ⟨_, sumHolds⟩ := Image.holds_append.mp addedHolds
  exact ⟨code, image, _, _, compiled, assembled, addressable, fits, sumHolds, quotientHolds⟩

/-- A half and a third are five sixths, and those are ten twelfths. -/
theorem sixths_summed :
    ∃ code image sum quotient memory after between, twelfths.compile ⟨true⟩ = .ok code ∧
      Image.assemble code = .ok image ∧ image.Addressable ∧ image.dataSize ≤ 2147483647 ∧
      image.dataSize ≤ memory.size ∧ image.Holds Arithmetic.rationalAdd sum ∧
      image.Holds (Code.storeWord Cell.rationalOver ++ Arithmetic.restateRational) quotient ∧
      Runs image none ⟨sum, [.integer 3, .integer 1, .integer 2, .integer 1], memory, .empty⟩
        ⟨sum + Arithmetic.rationalAdd.size, [.integer 6, .integer 5], after, .empty⟩ ∧
      Runs image none ⟨quotient, [.integer 12, .integer 6, .integer 5], memory, .empty⟩
        ⟨quotient + (Code.storeWord Cell.rationalOver ++ Arithmetic.restateRational).size,
          [.integer 10], between, .empty⟩ := by
  obtain ⟨code, image, sum, quotient, compiled, assembled, addressable, fits, sumHolds,
    quotientHolds⟩ := exists_twelfths_image
  have inside : image.dataSize ≤ (Memory.zeros 65536).size := fits
  obtain ⟨adds, expresses⟩ := arithmetic_exact compiled assembled addressable (by omega) inside
    none [] .empty
  have half : (Fraction.mk 1 2).Canonical := ⟨by decide, by decide⟩
  have third : (Fraction.mk 1 3).Canonical := ⟨by decide, by decide⟩
  have sixths : (Fraction.mk 5 6).Canonical := ⟨by decide, by decide⟩
  obtain ⟨after, outcome, _, delivers, expressed⟩ := adds (.add ⟨1, 2⟩ ⟨1, 3⟩) .rational 0 0 sum _
    (by simp [RationalOperation.operands, half, third]) (by decide) rfl sumHolds
  obtain ⟨between, result, _, runs, truncated⟩ := expresses ⟨5, 6⟩ 12 .integer 0 0 quotient _
    sixths (by decide) rfl quotientHolds
  have sum_eq : (Fraction.mk 1 2).value + (Fraction.mk 1 3).value = 5 / 6 := by decide +kernel
  have tenth : truncate ((Fraction.mk 5 6).value * (12 : Int32).toInt) = 10 := by decide +kernel
  have result_eq : result = 10 := Int32.toInt_inj.mp (truncated.trans tenth)
  cases expressed with
  | @some fraction _ expressed =>
      have numerator : fraction.numerator = 5 := Int32.toInt_inj.mp (by
        rw [expressed.numerator, sum_eq]
        decide +kernel)
      have denominator : fraction.denominator = 6 := Int32.toInt_inj.mp (by
        rw [expressed.denominator, sum_eq]
        decide +kernel)
      rw [LowestTerms.Delivers, numerator, denominator] at delivers
      rw [result_eq] at runs
      exact ⟨code, image, sum, quotient, .zeros 65536, after, between, compiled, assembled,
        addressable, by omega, inside, sumHolds, quotientHolds, delivers, runs⟩

end Program

end StackBackend
