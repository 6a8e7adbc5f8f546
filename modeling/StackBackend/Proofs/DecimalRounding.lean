import Mathlib.Algebra.Order.Field.Basic
import Mathlib.Data.Rat.Cast.Order
import Mathlib.Tactic.FieldSimp
import Mathlib.Tactic.Linarith
import Mathlib.Tactic.NormNum
import Mathlib.Tactic.Ring
import StackBackend.Decimal.Places

namespace StackBackend

/-! The rounding of exact numbers, as numbers. Ratios stand for rationals, and rounding one goes
to the nearest integer, at a tie to the even one; with the exponent of the leading digit this
gives significant digits. -/

/-! ## What rounding means -/

/-- The integer is nearest to the number, and even if another one is as near. -/
structure NearestEven (number : ℚ) (whole : ℤ) : Prop where
  near : |number - whole| ≤ 1 / 2
  even : |number - whole| = 1 / 2 → Even whole

theorem NearestEven.neg {number : ℚ} {whole : ℤ} (nearest : NearestEven number whole) :
    NearestEven (-number) (-whole) := by
  have same : |-number - ((-whole : ℤ) : ℚ)| = |number - whole| := by
    rw [Int.cast_neg, ← abs_neg, neg_sub, sub_neg_eq_add, neg_add_eq_sub, abs_sub_comm]
  exact ⟨same ▸ nearest.near, fun tie => (nearest.even (same ▸ tie)).neg⟩

/-- A number is rounded to one integer. -/
theorem NearestEven.unique {number : ℚ} {first second : ℤ} (nearest : NearestEven number first)
    (other : NearestEven number second) : first = second := by
  by_contra different
  have apart : (1 : ℚ) ≤ |(first : ℚ) - second| := by
    exact_mod_cast Int.one_le_abs (sub_ne_zero.mpr different)
  have between : |(first : ℚ) - second| ≤ |number - first| + |number - second| := by
    rw [abs_sub_comm number first]
    exact abs_sub_le _ _ _
  have near := nearest.near
  have otherNear := other.near
  have within : |first - second| ≤ 1 := by
    have bound : |(first : ℚ) - second| ≤ 1 := by linarith
    exact_mod_cast bound
  -- Two integers that are as near lie next to each other, and one of them is odd.
  obtain ⟨half, rfl⟩ := nearest.even (by linarith)
  obtain ⟨otherHalf, rfl⟩ := other.even (by linarith)
  rw [abs_le] at within
  omega

/-- The exponent of the leading digit of a number in decimal form. -/
structure LeadingExponent (number : ℚ) (exponent : ℤ) : Prop where
  le : 10 ^ exponent ≤ |number|
  lt : |number| < 10 ^ (exponent + 1)

theorem LeadingExponent.unique {number : ℚ} {first second : ℤ}
    (leading : LeadingExponent number first) (other : LeadingExponent number second) :
    first = second := by
  have below : first < second + 1 :=
    (zpow_lt_zpow_iff_right₀ (by norm_num)).mp (leading.le.trans_lt other.lt)
  have above : second < first + 1 :=
    (zpow_lt_zpow_iff_right₀ (by norm_num)).mp (other.le.trans_lt leading.lt)
  omega

/-- The number rounded to as many significant digits. -/
def RoundsTo (count : ℕ) (number rounded : ℚ) : Prop :=
  ∃ exponent digits : ℤ, LeadingExponent number exponent ∧
    NearestEven (number / 10 ^ (exponent - count + 1)) digits ∧
      rounded = digits * 10 ^ (exponent - count + 1)

theorem LeadingExponent.neg {number : ℚ} {exponent : ℤ}
    (leading : LeadingExponent number exponent) : LeadingExponent (-number) exponent :=
  ⟨by rw [abs_neg]; exact leading.le, by rw [abs_neg]; exact leading.lt⟩

theorem RoundsTo.neg {count : ℕ} {number rounded : ℚ} (rounds : RoundsTo count number rounded) :
    RoundsTo count (-number) (-rounded) := by
  obtain ⟨exponent, digits, leading, nearest, rfl⟩ := rounds
  refine ⟨exponent, -digits, leading.neg, ?_, ?_⟩
  · rw [neg_div]
    exact nearest.neg
  · rw [Int.cast_neg, neg_mul]

theorem RoundsTo.unique {count : ℕ} {number first second : ℚ} (rounds : RoundsTo count number first)
    (other : RoundsTo count number second) : first = second := by
  obtain ⟨exponent, digits, leading, nearest, rfl⟩ := rounds
  obtain ⟨_, others, again, near, rfl⟩ := other
  rw [← leading.unique again] at near ⊢
  rw [nearest.unique near]

/-! ## Ratios -/

/-- Of two quotients that are as near, the even one is taken. -/
theorem even_roundQuotient {numerator denominator : Nat} (positive : 0 < denominator)
    (tie : 2 * numerator = 2 * (roundQuotient numerator denominator * denominator) + denominator ∨
      2 * (roundQuotient numerator denominator * denominator) = 2 * numerator + denominator) :
    Even (roundQuotient numerator denominator) := by
  have split := Nat.div_add_mod numerator denominator
  have remainder := Nat.mod_lt numerator positive
  rw [Nat.mul_comm] at split
  unfold roundQuotient at tie ⊢
  dsimp only at tie ⊢
  split at tie
  next order =>
    rw [Nat.compare_eq_lt] at order
    omega
  next order =>
    rw [Nat.even_iff]
    omega
  next order =>
    rw [Nat.compare_eq_gt] at order
    rw [Nat.add_mul, Nat.one_mul] at tie
    omega

/-- The digits of a number bound it by powers of ten. -/
theorem decimalLength_bounds {value : Nat} (positive : 0 < value) :
    ∃ count, decimalLength value = count + 1 ∧ 10 ^ count ≤ value ∧ value < 10 ^ (count + 1) := by
  fun_induction decimalLength value with
  | case1 => contradiction
  | case2 value nonzero induction =>
      by_cases small : value / 10 = 0
      · refine ⟨0, ?_, ?_, ?_⟩
        · rw [small, decimalLength, if_pos rfl]
        · omega
        · omega
      · obtain ⟨count, length, lower, upper⟩ := induction (by omega)
        refine ⟨count + 1, by rw [length], ?_, ?_⟩
        · rw [Nat.pow_succ]
          omega
        · rw [Nat.pow_succ]
          omega

namespace Ratio

def number (ratio : Ratio) : ℚ :=
  ratio.numerator / ratio.denominator

structure Positive (ratio : Ratio) : Prop where
  numerator : 0 < ratio.numerator
  denominator : 0 < ratio.denominator

theorem Positive.scaleBy {ratio : Ratio} (positive : ratio.Positive) {base : Nat}
    (above : 0 < base) (exponent : Int) : (ratio.scaleBy base exponent).Positive := by
  unfold Ratio.scaleBy
  split
  · exact ⟨Nat.mul_pos positive.numerator (Nat.pow_pos above), positive.denominator⟩
  · exact ⟨positive.numerator, Nat.mul_pos positive.denominator (Nat.pow_pos above)⟩

theorem number_scaleBy {base : Nat} (above : 0 < base) (exponent : Int) (ratio : Ratio) :
    (ratio.scaleBy base exponent).number = ratio.number * (base : ℚ) ^ exponent := by
  have nonzero : (base : ℚ) ≠ 0 := by exact_mod_cast above.ne'
  unfold Ratio.scaleBy number
  split
  · rename_i large
    obtain ⟨power, rfl⟩ := Int.eq_ofNat_of_zero_le large
    simp only [Int.toNat_natCast, Nat.pow_eq, Nat.cast_mul, Nat.cast_pow, zpow_natCast]
    ring
  · rename_i small
    obtain ⟨power, rfl⟩ : ∃ power : Nat, exponent = -(power : ℤ) := ⟨(-exponent).toNat, by omega⟩
    simp only [neg_neg, Int.toNat_natCast, Nat.pow_eq, Nat.cast_mul, Nat.cast_pow, zpow_neg,
      zpow_natCast]
    field_simp

/-- How far an integer is from a ratio, counted in halves of a unit over the denominator. -/
theorem abs_number_sub {ratio : Ratio} (defined : 0 < ratio.denominator) (whole : ℕ) :
    |ratio.number - ((whole : ℤ) : ℚ)| =
      (|2 * (ratio.numerator : ℤ) - 2 * (whole * ratio.denominator : ℕ)| : ℤ) /
        (2 * ratio.denominator : ℚ) := by
  have above : (0 : ℚ) < ratio.denominator := by exact_mod_cast defined
  have difference : ratio.number - ((whole : ℤ) : ℚ) =
      ((2 * (ratio.numerator : ℤ) - 2 * (whole * ratio.denominator : ℕ) : ℤ) : ℚ) /
        (2 * ratio.denominator : ℚ) := by
    rw [number]
    push_cast
    field_simp
  have twice : (0 : ℚ) < 2 * ratio.denominator := by linarith
  rw [difference, abs_div, ← Int.cast_abs, abs_of_pos twice]

theorem nearestEven_round {ratio : Ratio} (defined : 0 < ratio.denominator) :
    NearestEven ratio.number ratio.round := by
  have above : (0 : ℚ) < 2 * ratio.denominator := by
    have cast : (0 : ℚ) < ratio.denominator := by exact_mod_cast defined
    linarith
  have half : (1 / 2 : ℚ) * (2 * ratio.denominator) = ((ratio.denominator : ℤ) : ℚ) := by
    push_cast
    ring
  constructor
  · rw [abs_number_sub defined, div_le_iff₀ above, half, Int.cast_le, abs_le]
    obtain ⟨lower, upper⟩ := @roundQuotient_near ratio.numerator _ defined
    rw [Nat.mul_assoc] at lower upper
    unfold round
    omega
  · intro tie
    rw [abs_number_sub defined, div_eq_iff above.ne', half, Int.cast_inj] at tie
    have even := @even_roundQuotient ratio.numerator _ defined
    rw [Int.even_coe_nat]
    refine even ?_
    unfold round at tie
    rcases abs_cases (2 * (ratio.numerator : ℤ) -
      2 * (roundQuotient ratio.numerator ratio.denominator * ratio.denominator : ℕ)) with
      ⟨same, _⟩ | ⟨same, _⟩ <;> omega

theorem leadingExponent_decimalExponent {ratio : Ratio} (positive : ratio.Positive) :
    LeadingExponent ratio.number ratio.decimalExponent := by
  obtain ⟨above, defined⟩ := positive
  have aboveCast : (0 : ℚ) < ratio.numerator := by exact_mod_cast above
  have definedCast : (0 : ℚ) < ratio.denominator := by exact_mod_cast defined
  have size : |ratio.number| = ratio.numerator / ratio.denominator :=
    abs_of_pos (div_pos aboveCast definedCast)
  unfold decimalExponent
  split
  · rename_i large
    obtain ⟨count, length, lower, upper⟩ := decimalLength_bounds (Nat.div_pos large defined)
    rw [length]
    constructor
    · rw [size, le_div_iff₀ definedCast, Nat.cast_succ, add_sub_cancel_right, zpow_natCast]
      exact_mod_cast (Nat.le_div_iff_mul_le defined).mp lower
    · rw [size, div_lt_iff₀ definedCast, sub_add_cancel, zpow_natCast]
      exact_mod_cast (Nat.div_lt_iff_lt_mul defined).mp upper
  · rename_i small
    obtain ⟨count, length, lower, upper⟩ := decimalLength_bounds
      (Nat.div_pos (Nat.le_of_lt (Nat.not_le.mp small)) above)
    have least := (Nat.le_div_iff_mul_le above).mp lower
    have most := (Nat.div_lt_iff_lt_mul above).mp upper
    rw [Nat.mul_comm] at least most
    rw [length, Nat.add_sub_cancel]
    dsimp only
    rw [Nat.pow_eq]
    split
    · rename_i power
      have value : |ratio.number| = 10 ^ (-(count : ℤ)) := by
        rw [size, zpow_neg, zpow_natCast, power]
        push_cast
        field_simp
      exact ⟨value.ge, value.trans_lt (zpow_lt_zpow_right₀ (by norm_num) (by omega))⟩
    · rename_i between
      constructor
      · rw [show -(count : ℤ) - 1 = -((count + 1 : ℕ) : ℤ) by omega, size, zpow_neg, zpow_natCast,
          le_div_iff₀ definedCast, inv_mul_le_iff₀ (by positivity), mul_comm]
        exact_mod_cast most.le
      · rw [sub_add_cancel, size, zpow_neg, zpow_natCast, div_lt_iff₀ definedCast,
          lt_inv_mul_iff₀ (by positivity), mul_comm]
        exact_mod_cast Nat.lt_of_le_of_ne least (Ne.symm between)

/-! ## Significant digits -/

variable {ratio : Ratio} (positive : ratio.Positive)
include positive

theorem nearestEven_scaled (places : ℤ) :
    NearestEven (ratio.number * 10 ^ places) (ratio.scaleBy 10 places).round := by
  have scaled := @number_scaleBy 10 (by decide) places ratio
  rw [Nat.cast_ofNat] at scaled
  rw [← scaled]
  exact nearestEven_round (positive.scaleBy (by decide) places).denominator

theorem number_pos : 0 < ratio.number :=
  div_pos (by exact_mod_cast positive.numerator) (by exact_mod_cast positive.denominator)

/-- Scaled by its leading exponent, a number has as many digits in front of the point. -/
theorem scaled_bounds (places : ℕ) :
    (10 : ℚ) ^ places ≤ ratio.number * 10 ^ (places - ratio.decimalExponent) ∧
      ratio.number * 10 ^ (places - ratio.decimalExponent) < (10 : ℚ) ^ (places + 1) := by
  obtain ⟨least, most⟩ := leadingExponent_decimalExponent positive
  rw [abs_of_pos (number_pos positive)] at least most
  have unit : (0 : ℚ) < 10 ^ (places - ratio.decimalExponent) := zpow_pos (by norm_num) _
  constructor
  · calc (10 : ℚ) ^ places
      _ = 10 ^ ratio.decimalExponent * 10 ^ (places - ratio.decimalExponent) := by
        rw [← zpow_add₀ (by norm_num), add_sub_cancel, zpow_natCast]
      _ ≤ _ := mul_le_mul_of_nonneg_right least unit.le
  · calc ratio.number * 10 ^ (places - ratio.decimalExponent)
      _ < 10 ^ (ratio.decimalExponent + 1) * 10 ^ (places - ratio.decimalExponent) :=
        mul_lt_mul_of_pos_right most unit
      _ = 10 ^ (places + 1) := by
        rw [← zpow_add₀ (by norm_num), ← zpow_natCast]
        congr 1
        omega

/-- The leading digits of a number are as many as wanted, unless rounding carries. -/
theorem leading_bounds (places : ℕ) :
    10 ^ places ≤ (ratio.scaleBy 10 (places - ratio.decimalExponent)).round ∧
      (ratio.scaleBy 10 (places - ratio.decimalExponent)).round ≤ 10 ^ (places + 1) := by
  obtain ⟨least, most⟩ := scaled_bounds positive places
  have near := (nearestEven_scaled positive (places - ratio.decimalExponent)).near
  generalize (ratio.scaleBy 10 (places - ratio.decimalExponent)).round = digits at near ⊢
  rw [abs_le, Int.cast_natCast] at near
  constructor
  · by_contra below
    have cast : (digits : ℚ) + 1 ≤ 10 ^ places := by exact_mod_cast Nat.not_le.mp below
    linarith
  · by_contra above
    have cast : (10 : ℚ) ^ (places + 1) + 1 ≤ digits := by exact_mod_cast Nat.not_le.mp above
    linarith

/-- A number is rounded to significant digits by rounding it once. -/
theorem roundsTo_leading (places : ℕ) :
    RoundsTo (places + 1) ratio.number
      ((ratio.scaleBy 10 (places - ratio.decimalExponent)).round *
        10 ^ (ratio.decimalExponent - places)) := by
  have unit : ratio.decimalExponent - ((places + 1 : ℕ) : ℤ) + 1 =
      -(places - ratio.decimalExponent) := by omega
  refine ⟨ratio.decimalExponent, (ratio.scaleBy 10 (places - ratio.decimalExponent)).round,
    leadingExponent_decimalExponent positive, ?_, ?_⟩
  · rw [unit, zpow_neg, div_inv_eq_mul]
    exact nearestEven_scaled positive _
  · rw [unit, neg_sub, Int.cast_natCast]

/-- Where rounding carries, the number rounds to the same at one decimal less. -/
theorem round_of_carry {places : ℕ}
    (carry : (ratio.scaleBy 10 (places - ratio.decimalExponent)).round = 10 ^ (places + 1)) :
    (ratio.scaleBy 10 (places - (ratio.decimalExponent + 1))).round = 10 ^ places := by
  have near := (nearestEven_scaled positive (places - ratio.decimalExponent)).near
  have fewer := nearestEven_scaled positive (places - (ratio.decimalExponent + 1))
  have tenth : ratio.number * 10 ^ (places - (ratio.decimalExponent + 1)) =
      ratio.number * 10 ^ (places - ratio.decimalExponent) / 10 := by
    rw [← sub_sub, zpow_sub_one₀ (by norm_num)]
    ring
  rw [carry, abs_le] at near
  rw [tenth] at fewer
  push_cast at near
  rw [pow_succ] at near
  have close : |ratio.number * 10 ^ (places - ratio.decimalExponent) / 10 -
      ((10 ^ places : ℤ) : ℚ)| < 1 / 2 := by
    rw [abs_lt]
    push_cast
    constructor <;> linarith
  exact_mod_cast fewer.unique ⟨close.le, fun tie => absurd tie close.ne⟩

/-- The scientific form rounds to significant digits and gives their exponent; rounding again at
the decimals that the exponent leaves gives the same digits. -/
theorem scientific_digits (places : ℕ) :
    ∃ digits : ℕ, (10 ^ places ≤ digits ∧ digits < 10 ^ (places + 1)) ∧
      (Decimal.scientific places ratio).1 = Decimal.pointed digits places ∧
      RoundsTo (places + 1) ratio.number
        (digits * 10 ^ ((Decimal.scientific places ratio).2 - places)) ∧
      ∀ decimals : ℕ, (decimals : ℤ) = places - (Decimal.scientific places ratio).2 →
        Decimal.fixed decimals ratio = Decimal.pointed digits decimals := by
  have rounds := roundsTo_leading positive places
  obtain ⟨least, most⟩ := leading_bounds positive places
  unfold Decimal.scientific
  dsimp only
  split
  · rename_i carry
    refine ⟨10 ^ places, ⟨Nat.le_refl _, Nat.pow_lt_pow_succ (by decide)⟩, rfl, ?_, ?_⟩
    · convert rounds using 1
      rw [carry, show Nat.pow 10 (places + 1) = 10 ^ (places + 1) from rfl]
      push_cast
      rw [pow_succ, mul_assoc, add_sub_right_comm, zpow_add_one₀ (by norm_num), mul_comm _ (10 : ℚ)]
    · intro decimals same
      rw [Decimal.fixed, same, round_of_carry positive carry]
  · rename_i fits
    refine ⟨_, ⟨least, Nat.lt_of_le_of_ne most fits⟩, rfl, rounds, fun decimals same => ?_⟩
    rw [Decimal.fixed, same]

end Ratio

namespace Decimal

def number (decimal : Decimal) : ℚ :=
  decimal.digits * 10 ^ decimal.exponent

/-- Moving zeros from the digits into the exponent keeps the number. -/
theorem normalize_number (decimal : Decimal) (nonzero : decimal.digits ≠ 0) :
    decimal.normalize.number = decimal.number ∧ decimal.normalize.digits % 10 ≠ 0 := by
  fun_induction normalize decimal with
  | case1 => contradiction
  | case2 decimal _ last induction =>
      obtain ⟨same, reduced⟩ := induction (show decimal.digits / 10 ≠ 0 by omega)
      refine ⟨?_, reduced⟩
      have tenfold : (decimal.digits : ℚ) = 10 * (decimal.digits / 10 : ℕ) := by
        exact_mod_cast (show decimal.digits = 10 * (decimal.digits / 10) by omega)
      rw [same, number, number, tenfold, zpow_add_one₀ (by norm_num)]
      ring
  | case3 decimal _ reduced => exact ⟨rfl, reduced⟩

theorem significant_number {ratio : Ratio} (positive : ratio.Positive) (places : ℕ) :
    RoundsTo (places + 1) ratio.number (significant (places + 1) ratio).number ∧
      (significant (places + 1) ratio).digits % 10 ≠ 0 := by
  obtain ⟨least, _⟩ := Ratio.leading_bounds positive places
  have rounds := Ratio.roundsTo_leading positive places
  have unit : ratio.decimalExponent - (((places + 1 : ℕ) : ℤ) - 1) =
      ratio.decimalExponent - places := by omega
  rw [significant, unit, neg_sub]
  generalize (ratio.scaleBy 10 (places - ratio.decimalExponent)).round = digits at least rounds
  have nonzero : digits ≠ 0 :=
    Nat.pos_iff_ne_zero.mp (Nat.lt_of_lt_of_le (by positivity) least)
  obtain ⟨same, reduced⟩ := normalize_number ⟨digits, ratio.decimalExponent - places⟩ nonzero
  rw [same]
  exact ⟨rounds, reduced⟩

end Decimal

end StackBackend
