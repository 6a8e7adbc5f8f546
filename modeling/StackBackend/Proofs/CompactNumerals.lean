import StackBackend.Proofs.DecimalRounding
import StackBackend.Proofs.Legibility

namespace StackBackend

/-! The compact form of numbers. Its numerals stand for the number rounded to six significant
digits, and are the ones that come of rounding twice. -/

/-! ## Numerals and what they stand for -/

/-- A numeral in positional form stands for a number: digits, and perhaps a point and more digits,
the last of which is no zero. -/
def Positional (numeral : List Char) (number : ℚ) : Prop :=
  ∃ whole fraction : List Char, whole ≠ [] ∧
    (∀ digit ∈ whole ++ fraction, digit.isDigit = true) ∧ fraction.getLast? ≠ some '0' ∧
    numeral = whole ++ (if fraction = [] then [] else '.' :: fraction) ∧
    number = naturalOfDigits (whole ++ fraction) / 10 ^ fraction.length

/-! ## Digits -/

theorem naturalOfDigits_append (first second : List Char) :
    naturalOfDigits (first ++ second) =
      naturalOfDigits first * 10 ^ second.length + naturalOfDigits second := by
  have shift (value : Nat) : second.foldl (fun value digit => 10 * value + digitValue digit) value =
      value * 10 ^ second.length + naturalOfDigits second := by
    unfold naturalOfDigits
    induction second generalizing value with
    | nil => simp
    | cons digit rest induction =>
        rw [List.foldl_cons, List.foldl_cons, induction, induction (10 * 0 + _), List.length_cons]
        ring
  rw [naturalOfDigits, List.foldl_append, shift]
  rfl

theorem isDigit_digitChar : ∀ digit < 10, (Nat.digitChar digit).isDigit = true := by
  decide

theorem digitChar_ne_zero : ∀ digit < 10, digit ≠ 0 → Nat.digitChar digit ≠ '0' := by
  decide

theorem digitValue_digitChar : ∀ digit < 10, digitValue (Nat.digitChar digit) = digit := by
  decide

theorem decimalDigits_of_large {value : Nat} (large : 10 ≤ value) :
    decimalDigits value = decimalDigits (value / 10) ++ [Nat.digitChar (value % 10)] :=
  Nat.toDigits_of_base_le (by decide) large

theorem decimalDigits_of_small {value : Nat} (small : value < 10) :
    decimalDigits value = [Nat.digitChar value] :=
  Nat.toDigits_of_lt_base small

namespace Decimal

theorem length_lowDigits (count value : Nat) : (lowDigits count value).length = count := by
  induction count generalizing value with
  | zero => rfl
  | succ count induction => rw [lowDigits, List.length_append, induction, List.length_singleton]

theorem isDigit_of_mem_lowDigits {count value : Nat} {digit : Char}
    (member : digit ∈ lowDigits count value) : digit.isDigit = true := by
  induction count generalizing value with
  | zero => cases member
  | succ count induction =>
      obtain member | member := List.mem_append.mp member
      · exact induction member
      · rw [List.mem_singleton.mp member]
        exact isDigit_digitChar _ (Nat.mod_lt _ (by decide))

theorem naturalOfDigits_lowDigits (count value : Nat) :
    naturalOfDigits (lowDigits count value) = value % 10 ^ count := by
  induction count generalizing value with
  | zero => simp [lowDigits, naturalOfDigits, Nat.mod_one]
  | succ count induction =>
      have last : naturalOfDigits [Nat.digitChar (value % 10)] = value % 10 :=
        (Nat.zero_add _).trans (digitValue_digitChar _ (Nat.mod_lt _ (by decide)))
      rw [lowDigits, naturalOfDigits_append, induction, last, Nat.pow_succ,
        Nat.mul_comm (10 ^ count), Nat.mod_mul, List.length_singleton]
      ring

/-- A number is written as its upper digits and its lower ones. -/
theorem decimalDigits_split {value count : Nat} (above : 0 < value / 10 ^ count) :
    decimalDigits value = decimalDigits (value / 10 ^ count) ++ lowDigits count value := by
  induction count generalizing value with
  | zero => simp [lowDigits]
  | succ count induction =>
      rw [Nat.pow_succ, Nat.mul_comm, ← Nat.div_div_eq_div_mul] at above ⊢
      have large : 10 ≤ value := by
        by_contra small
        rw [Nat.div_eq_of_lt (Nat.not_le.mp small), Nat.zero_div] at above
        contradiction
      rw [decimalDigits_of_large large, induction above, lowDigits, List.append_assoc]

theorem lowDigits_zero (count : Nat) : lowDigits count 0 = NumeralStyle.zeros count := by
  induction count with
  | zero => rfl
  | succ count induction =>
      rw [lowDigits, Nat.zero_div, induction]
      exact List.replicate_succ'.symm

/-- Zeros fill up the digits of a number. -/
theorem lowDigits_eq {value count : Nat} (positive : 0 < value) (below : value < 10 ^ count) :
    lowDigits count value =
      NumeralStyle.zeros (count - (decimalDigits value).length) ++ decimalDigits value := by
  induction count generalizing value with
  | zero => omega
  | succ count induction =>
      rw [lowDigits]
      by_cases large : 10 ≤ value
      · have upper : value / 10 < 10 ^ count := by
          rw [Nat.pow_succ] at below
          omega
        rw [decimalDigits_of_large large, induction (by omega) upper]
        simp
      · rw [decimalDigits_of_small (by omega), Nat.div_eq_of_lt (by omega), lowDigits_zero,
          Nat.mod_eq_of_lt (by omega)]
        rfl

theorem decimalDigits_mul_pow {value : Nat} (positive : 0 < value) (count : Nat) :
    decimalDigits (value * 10 ^ count) = decimalDigits value ++ NumeralStyle.zeros count := by
  induction count with
  | zero => simp [NumeralStyle.zeros]
  | succ count induction =>
      have above : 0 < value * 10 ^ count := by positivity
      rw [Nat.pow_succ, ← Nat.mul_assoc, decimalDigits_of_large (by omega),
        Nat.mul_div_cancel _ (by decide), Nat.mul_mod_left, induction, List.append_assoc]
      exact congrArg _ List.replicate_succ'.symm

theorem length_decimalDigits {value count : Nat} (lower : 10 ^ count ≤ value)
    (upper : value < 10 ^ (count + 1)) : (decimalDigits value).length = count + 1 := by
  have most := (Nat.length_toDigits_le_iff (by decide) (Nat.succ_pos count)).mpr upper
  have least : count < (decimalDigits value).length := by
    by_contra short
    obtain rfl | positive := Nat.eq_zero_or_pos count
    · exact short Nat.length_toDigits_pos
    · have small := (Nat.length_toDigits_le_iff (by decide) positive).mp (Nat.not_lt.mp short)
      omega
  exact Nat.le_antisymm most least

/-- The number of digits settles between which powers of ten a number is. -/
theorem exists_length {value : Nat} (positive : 0 < value) :
    ∃ count, (decimalDigits value).length = count + 1 ∧ 10 ^ count ≤ value ∧
      value < 10 ^ (count + 1) := by
  obtain ⟨count, _, lower, upper⟩ := decimalLength_bounds positive
  exact ⟨count, length_decimalDigits lower upper, lower, upper⟩

/-! ## Numerals with a point -/

theorem pointed_zero (digits : Nat) : pointed digits 0 = decimalDigits digits := by
  rw [pointed, if_pos rfl, List.append_nil]
  exact congrArg decimalDigits (Nat.div_one digits)

theorem pointed_succ (digits places : Nat) : pointed digits (places + 1) =
    decimalDigits (digits / 10 ^ (places + 1)) ++ '.' :: lowDigits (places + 1) digits :=
  rfl

/-- There is no zero at the end behind the point. -/
def Reduced (digits places : Nat) : Prop :=
  places = 0 ∨ digits % 10 ≠ 0

theorem positional_pointed {digits places : Nat} (reduced : Reduced digits places) :
    Positional (pointed digits places) (digits / 10 ^ places) := by
  have all : ∀ digit ∈ decimalDigits (digits / 10 ^ places) ++ lowDigits places digits,
      digit.isDigit = true := by
    intro digit member
    obtain member | member := List.mem_append.mp member
    · exact Nat.isDigit_of_mem_toDigits (by decide) (by decide) member
    · exact isDigit_of_mem_lowDigits member
  refine ⟨decimalDigits (digits / 10 ^ places), lowDigits places digits, Nat.toDigits_ne_nil, all,
    ?_, ?_, ?_⟩
  · cases places with
    | zero => simp [lowDigits]
    | succ places =>
        rw [lowDigits, List.getLast?_concat, ne_eq, Option.some.injEq]
        exact digitChar_ne_zero _ (Nat.mod_lt _ (by decide))
          (reduced.resolve_left (Nat.succ_ne_zero places))
  · cases places with
    | zero => rfl
    | succ places =>
        have present : lowDigits (places + 1) digits ≠ [] := by simp [lowDigits]
        rw [pointed_succ, if_neg present]
  · rw [naturalOfDigits_append, naturalOfDigits_decimalDigits, naturalOfDigits_lowDigits,
      length_lowDigits, Nat.div_add_mod']

theorem Reduced.le {digits places other others : Nat} (reduced : Reduced digits places)
    (same : digits * 10 ^ others = other * 10 ^ places) : places ≤ others := by
  by_contra more
  obtain ⟨surplus, rfl⟩ := Nat.exists_eq_add_of_lt (Nat.not_le.mp more)
  have multiple : digits = other * 10 ^ surplus * 10 := by
    refine Nat.eq_of_mul_eq_mul_right (show 0 < 10 ^ others by positivity) ?_
    rw [same, Nat.pow_succ, Nat.pow_add]
    ring
  exact reduced.resolve_left (Nat.succ_ne_zero _) (by rw [multiple, Nat.mul_mod_left])

/-- Numerals that stand for one number are the same. -/
theorem pointed_unique {digits places other others : Nat} (reduced : Reduced digits places)
    (again : Reduced other others) (same : (digits : ℚ) / 10 ^ places = other / 10 ^ others) :
    pointed digits places = pointed other others := by
  have cross : digits * 10 ^ others = other * 10 ^ places := by
    rw [div_eq_div_iff (by positivity) (by positivity)] at same
    exact_mod_cast same
  obtain rfl := Nat.le_antisymm (reduced.le cross) (again.le cross.symm)
  rw [Nat.eq_of_mul_eq_mul_right (by positivity) cross]

theorem not_point_of_isDigit {digit : Char} (isDigit : digit.isDigit = true) : digit ≠ '.' := by
  rintro rfl
  cases isDigit

/-- A numeral that ends in another digit than zero keeps it. -/
theorem stripZeros_of_last {last : Char} (isDigit : last.isDigit = true) (nonzero : last ≠ '0')
    (front : List Char) : stripZeros (front ++ [last]) = front ++ [last] := by
  have notPoint := not_point_of_isDigit isDigit
  unfold stripZeros
  split
  · rw [List.reverse_append, List.reverse_singleton, List.singleton_append,
      List.dropWhile_cons_of_neg (by simp [nonzero]),
      List.dropWhile_cons_of_neg (by simp [notPoint])]
    simp
  · rfl

theorem stripZeros_of_whole {digits : List Char} (all : ∀ digit ∈ digits, digit.isDigit = true) :
    stripZeros digits = digits := by
  refine if_neg fun contains => ?_
  exact not_point_of_isDigit (all _ (List.contains_iff_mem.mp contains)) rfl

theorem stripZeros_zero {numeral : List Char} (point : '.' ∈ numeral) :
    stripZeros (numeral ++ ['0']) = stripZeros numeral := by
  have longer : '.' ∈ numeral ++ ['0'] := List.mem_append_left _ point
  rw [stripZeros, stripZeros, if_pos (List.contains_iff_mem.mpr longer),
    if_pos (List.contains_iff_mem.mpr point), List.reverse_append]
  rfl

theorem stripZeros_point {digits : List Char}
    (all : ∀ digit ∈ digits, digit.isDigit = true) : stripZeros (digits ++ ['.']) = digits := by
  have point : '.' ∈ digits ++ ['.'] := List.mem_append_right _ List.mem_cons_self
  rw [stripZeros, if_pos (List.contains_iff_mem.mpr point), List.reverse_append,
    List.reverse_singleton, List.singleton_append, List.dropWhile_cons_of_neg (by decide),
    List.dropWhile_cons_of_pos (by decide)]
  cases shape : digits.reverse with
  | nil => rw [List.reverse_eq_nil_iff.mp shape]; rfl
  | cons last rest =>
      have member : last ∈ digits := List.mem_reverse.mp (shape ▸ List.mem_cons_self)
      rw [List.dropWhile_cons_of_neg (by simp [not_point_of_isDigit (all last member)]), ← shape,
        List.reverse_reverse]

/-- Stripping zeros keeps the number, and leaves none at the end behind the point. -/
theorem stripZeros_pointed (digits places : Nat) :
    ∃ fewer less, stripZeros (pointed digits places) = pointed fewer less ∧ Reduced fewer less ∧
      (fewer : ℚ) / 10 ^ less = digits / 10 ^ places := by
  have whole (value : Nat) : ∀ digit ∈ decimalDigits value, digit.isDigit = true :=
    fun digit member => Nat.isDigit_of_mem_toDigits (by decide) (by decide) member
  induction places generalizing digits with
  | zero =>
      refine ⟨digits, 0, ?_, .inl rfl, rfl⟩
      rw [pointed_zero, stripZeros_of_whole (whole _)]
  | succ places induction =>
      have numeral : pointed digits (places + 1) = decimalDigits (digits / 10 ^ (places + 1)) ++
          '.' :: lowDigits places (digits / 10) ++ [Nat.digitChar (digits % 10)] := by
        rw [pointed_succ, lowDigits, List.append_assoc]
        rfl
      have small := Nat.mod_lt digits (show 0 < 10 by decide)
      by_cases last : digits % 10 = 0
      · obtain ⟨fewer, less, stripped, reduced, same⟩ := induction (digits / 10)
        refine ⟨fewer, less, ?_, reduced, ?_⟩
        · have upper : digits / 10 ^ (places + 1) = digits / 10 / 10 ^ places := by
            rw [Nat.pow_succ, Nat.mul_comm, Nat.div_div_eq_div_mul]
          rw [← stripped, numeral, last, upper]
          refine (stripZeros_zero (by simp)).trans ?_
          cases places with
          | zero =>
              rw [lowDigits, stripZeros_point (whole _), pointed_zero, pow_zero, Nat.div_one,
                stripZeros_of_whole (whole _)]
          | succ places => rw [pointed_succ]
        · have tenfold : (digits : ℚ) = 10 * (digits / 10 : ℕ) := by
            exact_mod_cast (show digits = 10 * (digits / 10) by omega)
          rw [same, tenfold, pow_succ]
          field_simp
      · refine ⟨digits, places + 1, ?_, .inr last, rfl⟩
        rw [numeral, stripZeros_of_last (isDigit_digitChar _ small)
          (digitChar_ne_zero _ small last)]

/-- The leading exponent of digits times a power of ten. -/
theorem leadingExponent_of_bounds {digits count : ℕ} (lower : 10 ^ count ≤ digits)
    (upper : digits < 10 ^ (count + 1)) (exponent : ℤ) :
    LeadingExponent (digits * 10 ^ exponent : ℚ) (exponent + count) := by
  have unit : (0 : ℚ) < 10 ^ exponent := zpow_pos (by norm_num) _
  have size : |(digits * 10 ^ exponent : ℚ)| = digits * 10 ^ exponent :=
    abs_of_nonneg (mul_nonneg (Nat.cast_nonneg _) unit.le)
  constructor
  · rw [size, zpow_add₀ (by norm_num), mul_comm, zpow_natCast]
    exact mul_le_mul_of_nonneg_right (by exact_mod_cast lower) unit.le
  · rw [size, add_assoc, zpow_add₀ (by norm_num), mul_comm ((10 : ℚ) ^ exponent)]
    refine mul_lt_mul_of_pos_right ?_ unit
    exact_mod_cast upper

/-! ## The two spellings -/

/-- The digits of an exponent, two at least. -/
def exponentDigits (exponent : ℤ) : List Char :=
  NumeralStyle.zeros (2 - (decimalDigits exponent.natAbs).length) ++ decimalDigits exponent.natAbs

theorem two_le_length_exponentDigits (exponent : ℤ) : 2 ≤ (exponentDigits exponent).length := by
  rw [exponentDigits, List.length_append, NumeralStyle.zeros, List.length_replicate]
  omega

theorem isDigit_of_mem_exponentDigits {exponent : ℤ} {digit : Char}
    (member : digit ∈ exponentDigits exponent) : digit.isDigit = true := by
  obtain zero | member := List.mem_append.mp member
  · rw [List.eq_of_mem_replicate zero]
    rfl
  · exact Nat.isDigit_of_mem_toDigits (by decide) (by decide) member

theorem naturalOfDigits_exponentDigits (exponent : ℤ) :
    naturalOfDigits (exponentDigits exponent) = exponent.natAbs := by
  rw [exponentDigits, naturalOfDigits_append, ← lowDigits_zero, naturalOfDigits_lowDigits,
    Nat.zero_mod, Nat.zero_mul, Nat.zero_add, naturalOfDigits_decimalDigits]

/-- A mantissa with an exponent behind it. -/
def scaled (mantissa : List Char) (exponent : ℤ) : List Char :=
  mantissa ++ 'e' :: (if exponent < 0 then '-' else '+') :: exponentDigits exponent

section

variable {decimal : Decimal} {count : ℕ} (positive : 0 < decimal.digits)
  (length : (decimalDigits decimal.digits).length = count + 1)
include positive length

theorem positional_eq :
    Binary64.compactStyle.positional (decimalDigits decimal.digits) (decimal.exponent + count) =
      pointed (decimal.digits * 10 ^ decimal.exponent.toNat) (-decimal.exponent).toNat := by
  obtain ⟨digits, exponent⟩ := decimal
  obtain ⟨_, same, lower, upper⟩ := exists_length positive
  cases same.symm.trans length
  dsimp only at positive length lower upper ⊢
  unfold NumeralStyle.positional
  dsimp only
  obtain ⟨scale, rfl⟩ | ⟨places, rfl⟩ : (∃ scale : ℕ, exponent = scale) ∨
      ∃ places : ℕ, exponent = -(places + 1 : ℕ) := by
    obtain above | below := lt_or_ge (-1) exponent
    · exact .inl (Int.eq_ofNat_of_zero_le (by omega))
    · exact .inr ⟨(-exponent).toNat - 1, by omega⟩
  · have none : (-(scale : ℤ)).toNat = 0 := by omega
    have whole : ((scale : ℤ) + count).toNat + 1 - (count + 1) = scale := by omega
    rw [if_neg (by omega), length, none, whole, if_pos (by omega), pointed_zero,
      Int.toNat_natCast, decimalDigits_mul_pow positive]
    exact List.append_nil _
  · have scale : (-((places + 1 : ℕ) : ℤ)).toNat = 0 := by omega
    rw [scale, pow_zero, Nat.mul_one, neg_neg, Int.toNat_natCast, pointed_succ]
    by_cases small : count < places + 1
    · -- All digits stand behind the point.
      have below : digits < 10 ^ (places + 1) :=
        Nat.lt_of_lt_of_le upper (Nat.pow_le_pow_right (by decide) small)
      have zeros : (-(-((places + 1 : ℕ) : ℤ) + count)).toNat - 1 = places + 1 - (count + 1) := by
        omega
      rw [if_pos (by omega), Nat.div_eq_of_lt below, lowDigits_eq positive below, length, zeros]
      rfl
    · have above : 0 < digits / 10 ^ (places + 1) :=
        Nat.div_pos ((Nat.pow_le_pow_right (by decide) (by omega)).trans lower) (by positivity)
      have split := decimalDigits_split above
      have front : (decimalDigits (digits / 10 ^ (places + 1))).length =
          (-((places + 1 : ℕ) : ℤ) + count).toNat + 1 := by
        have lengths := congrArg List.length split
        rw [List.length_append, length_lowDigits, length] at lengths
        omega
      rw [if_neg (by omega), if_neg (by omega), split, List.take_left' front, List.drop_left' front]

theorem scientific_eq (exponent : ℤ) :
    Binary64.compactStyle.scientific (decimalDigits decimal.digits) exponent =
      scaled (pointed decimal.digits count) exponent := by
  obtain ⟨_, same, lower, upper⟩ := exists_length positive
  cases same.symm.trans length
  have leads : 0 < decimal.digits / 10 ^ count := Nat.div_pos lower (by positivity)
  have single : decimal.digits / 10 ^ count < 10 :=
    (Nat.div_lt_iff_lt_mul (by positivity)).mpr (by rwa [Nat.pow_succ, Nat.mul_comm] at upper)
  have sign : (if exponent < 0 then ['-'] else
      if Binary64.compactStyle.signedExponent then ['+'] else []) =
        [if exponent < 0 then '-' else '+'] := by
    split <;> rfl
  unfold NumeralStyle.scientific
  dsimp only
  rw [sign]
  cases count with
  | zero =>
      rw [pow_zero, Nat.div_one] at single
      rw [pointed_zero, decimalDigits_of_small single]
      rfl
  | succ count =>
      have present : lowDigits (count + 1) decimal.digits ≠ [] := by simp [lowDigits]
      obtain ⟨digit, rest, shape⟩ := List.exists_cons_of_ne_nil present
      rw [pointed_succ, decimalDigits_split leads, decimalDigits_of_small single, shape]
      rfl

theorem spell_eq : Binary64.compactStyle.spell decimal =
    if -4 ≤ decimal.exponent + count ∧ decimal.exponent + count < 6 then
      pointed (decimal.digits * 10 ^ decimal.exponent.toNat) (-decimal.exponent).toNat
    else
      scaled (pointed decimal.digits count) (decimal.exponent + count) := by
  have leading : decimal.exponent + ((count + 1 : ℕ) : ℤ) - 1 = decimal.exponent + count := by omega
  unfold NumeralStyle.spell
  dsimp only
  rw [length, leading, positional_eq positive length, scientific_eq positive length]
  rfl

end

theorem number_pointed (digits : ℕ) (exponent : ℤ) :
    ((digits * 10 ^ exponent.toNat : ℕ) : ℚ) / 10 ^ (-exponent).toNat = digits * 10 ^ exponent := by
  push_cast
  obtain ⟨power, rfl | rfl⟩ := exponent.eq_nat_or_neg
  · have none : (-(power : ℤ)).toNat = 0 := by omega
    rw [none, Int.toNat_natCast, pow_zero, div_one, zpow_natCast]
  · have none : (-(power : ℤ)).toNat = 0 := by omega
    rw [none, neg_neg, Int.toNat_natCast, pow_zero, mul_one, zpow_neg, zpow_natCast, div_eq_mul_inv]

/-- What the compact form of a positive number is made of: digits and an exponent. -/
theorem exists_compact {ratio : Ratio} (positive : ratio.Positive) :
    ∃ (digits : ℕ) (exponent : ℤ), (10 ^ 5 ≤ digits ∧ digits < 10 ^ 6) ∧
      RoundsTo 6 ratio.number (digits * 10 ^ (exponent - 5)) ∧
      compact ratio = if -4 ≤ exponent ∧ exponent < 6 then
        stripZeros (pointed digits (5 - exponent).toNat)
      else
        scaled (stripZeros (pointed digits 5)) exponent := by
  obtain ⟨digits, bounds, mantissa, rounds, fixed⟩ := Ratio.scientific_digits positive 5
  refine ⟨digits, (scientific 5 ratio).2, bounds, rounds, ?_⟩
  rw [compact]
  dsimp only
  rw [mantissa]
  split
  · rename_i range
    rw [fixed _ (by omega)]
  · rfl

theorem number_places {exponent : ℤ} (small : exponent < 6) (digits : ℕ) :
    (digits : ℚ) / 10 ^ (5 - exponent).toNat = digits * 10 ^ (exponent - 5) := by
  have scale : (exponent - 5).toNat = 0 := by omega
  have same := number_pointed digits (exponent - 5)
  rwa [scale, pow_zero, Nat.mul_one, neg_sub] at same

theorem number_mantissa (digits places : ℕ) (exponent : ℤ) :
    (digits : ℚ) / 10 ^ places * 10 ^ exponent = digits * 10 ^ (exponent - places) := by
  rw [zpow_sub₀ (by norm_num), zpow_natCast]
  ring

/-- Rounding once and spelling the digits comes to the same as rounding twice. -/
theorem spell_significant {ratio : Ratio} (positive : ratio.Positive) :
    Binary64.compactStyle.spell (significant 6 ratio) = compact ratio := by
  obtain ⟨rounds, reduced⟩ := significant_number positive 5
  obtain ⟨digits, exponent, ⟨lower, upper⟩, again, shape⟩ := exists_compact positive
  have same := rounds.unique again
  rw [shape]
  generalize significant (5 + 1) ratio = decimal at reduced same ⊢
  have positive : 0 < decimal.digits := by omega
  obtain ⟨count, length, least, most⟩ := exists_length positive
  have leading : decimal.exponent + count = exponent := by
    have first := leadingExponent_of_bounds least most decimal.exponent
    have second := leadingExponent_of_bounds lower upper (exponent - 5)
    rw [← number, same] at first
    simpa using first.unique second
  rw [spell_eq positive length, leading]
  by_cases range : -4 ≤ exponent ∧ exponent < 6
  · obtain ⟨fewer, less, stripped, fewerReduced, value⟩ :=
      stripZeros_pointed digits (5 - exponent).toNat
    rw [if_pos range, if_pos range, stripped]
    refine pointed_unique ?_ fewerReduced ?_
    · obtain above | below := lt_or_ge (-1) decimal.exponent
      · exact .inl (by omega)
      · have scale : decimal.exponent.toNat = 0 := by omega
        exact .inr (by rwa [scale, pow_zero, Nat.mul_one])
    · rw [value, number_places range.2, ← same, number_pointed]
      rfl
  · obtain ⟨fewer, less, stripped, fewerReduced, value⟩ := stripZeros_pointed digits 5
    have unit : (10 : ℚ) ^ exponent ≠ 0 := zpow_ne_zero _ (by norm_num)
    rw [if_neg range, if_neg range, stripped]
    refine congrArg (scaled · exponent) (pointed_unique (.inr reduced) fewerReduced ?_)
    rw [value]
    refine mul_right_cancel₀ unit ?_
    rw [number_mantissa, number_mantissa, ← leading, add_sub_cancel_right, leading]
    exact same

end Decimal

/-! ## The compact form -/

/-- The numeral stands for a positive number whose leading digit has the exponent: in positional
form for small exponents, and otherwise as a mantissa and at least two digits of the exponent. -/
inductive CompactNumeral (number : ℚ) (exponent : ℤ) : List Char → Prop
  | positional {numeral : List Char} (least : -4 ≤ exponent) (most : exponent < 6)
      (stands : Positional numeral number) : CompactNumeral number exponent numeral
  | scientific {mantissa digits : List Char} {significand : ℚ}
      (range : exponent < -4 ∨ 6 ≤ exponent) (stands : Positional mantissa significand)
      (scaled : number = significand * 10 ^ exponent) (wide : 2 ≤ digits.length)
      (all : ∀ digit ∈ digits, digit.isDigit = true)
      (exact : naturalOfDigits digits = exponent.natAbs) :
      CompactNumeral number exponent
        (mantissa ++ 'e' :: (if exponent < 0 then '-' else '+') :: digits)

theorem compactNumeral_compact {ratio : Ratio} (positive : ratio.Positive) :
    ∃ rounded exponent, RoundsTo 6 ratio.number rounded ∧ LeadingExponent rounded exponent ∧
      0 < rounded ∧ CompactNumeral rounded exponent (Decimal.compact ratio) := by
  obtain ⟨digits, exponent, ⟨lower, upper⟩, rounds, shape⟩ := Decimal.exists_compact positive
  have leading := Decimal.leadingExponent_of_bounds lower upper (exponent - 5)
  rw [Nat.cast_ofNat, sub_add_cancel] at leading
  refine ⟨_, exponent, rounds, leading, ?_, ?_⟩
  · have above : (0 : ℚ) < digits := by exact_mod_cast Nat.lt_of_lt_of_le (by decide) lower
    exact mul_pos above (zpow_pos (by norm_num) _)
  · rw [shape]
    split
    · rename_i range
      obtain ⟨fewer, less, stripped, reduced, value⟩ :=
        Decimal.stripZeros_pointed digits (5 - exponent).toNat
      refine .positional range.1 range.2 ?_
      rw [stripped, ← Decimal.number_places range.2, ← value]
      exact Decimal.positional_pointed reduced
    · rename_i range
      obtain ⟨fewer, less, stripped, reduced, value⟩ := Decimal.stripZeros_pointed digits 5
      rw [stripped]
      refine .scientific (by omega) (Decimal.positional_pointed reduced) ?_ ?_ ?_ ?_
      · rw [value, Decimal.number_mantissa]
        rfl
      · exact Decimal.two_le_length_exponentDigits exponent
      · exact fun digit member => Decimal.isDigit_of_mem_exponentDigits member
      · exact Decimal.naturalOfDigits_exponentDigits exponent

namespace Binary64

/-- The exact number of a finite word. -/
def number (negative : Bool) (significand : Nat) (exponent : Int) : ℚ :=
  (if negative then -1 else 1) * (significand * 2 ^ exponent)

/-- The compact form of a finite number that is not zero is a numeral of the number rounded to
six significant digits, with a minus sign in front of a number below zero. It is the numeral that
comes of rounding twice. -/
theorem compactText_rounds {word : Binary64} {negative : Bool} {significand : Nat} {exponent : Int}
    (finite : word.value = .finite negative significand exponent) (nonzero : significand ≠ 0) :
    ∃ rounded leading numeral, RoundsTo 6 (number negative significand exponent) rounded ∧
      LeadingExponent rounded leading ∧ CompactNumeral |rounded| leading numeral ∧
      word.compactText =
        (if number negative significand exponent < 0 then ['-'] else []) ++ numeral ∧
      numeral = Decimal.compact (dyadic significand exponent) := by
  have units : Ratio.Positive ⟨significand, 1⟩ := ⟨Nat.pos_of_ne_zero nonzero, Nat.one_pos⟩
  have positive : (dyadic significand exponent).Positive := units.scaleBy (by decide) exponent
  have size : (dyadic significand exponent).number = significand * 2 ^ exponent := by
    have scaled := @Ratio.number_scaleBy 2 (by decide) exponent ⟨significand, 1⟩
    rw [dyadic, scaled, Ratio.number]
    simp
  have above := Ratio.number_pos positive
  obtain ⟨rounded, leading, rounds, leads, positiveRounded, numeral⟩ :=
    compactNumeral_compact positive
  have text : word.compactText =
      signText negative ++ Decimal.compact (dyadic significand exponent) := by
    rw [compactText, finite]
    dsimp only
    rw [if_neg nonzero, Decimal.spell_significant positive]
  rw [text]
  rw [size] at rounds above
  unfold number
  cases negative with
  | false =>
      refine ⟨rounded, leading, _, ?_, leads, ?_, ?_, rfl⟩
      · simpa using rounds
      · rwa [abs_of_pos positiveRounded]
      · rw [if_neg (by simpa using above.le)]
        rfl
  | true =>
      refine ⟨-rounded, leading, _, ?_, leads.neg, ?_, ?_, rfl⟩
      · simpa using rounds.neg
      · rwa [abs_neg, abs_of_pos positiveRounded]
      · rw [if_pos (by simpa using above)]
        rfl

/-- At 999999.5 the last digit is a tie, and rounding it carries through all digits. -/
theorem compactText_carries :
    ∃ word significand exponent, Binary64.value word = .finite false significand exponent ∧
      significand ≠ 0 ∧ word.compactText = ['1', 'e', '+', '0', '6'] ∧
      ∃ rounded leading numeral, RoundsTo 6 (number false significand exponent) rounded ∧
        LeadingExponent rounded leading ∧ CompactNumeral |rounded| leading numeral ∧
        word.compactText =
          (if number false significand exponent < 0 then ['-'] else []) ++ numeral ∧
        numeral = Decimal.compact (dyadic significand exponent) := by
  have finite : Binary64.value ⟨0x412E847F00000000⟩ =
      .finite false 0x1E847F00000000 (-33) := by decide +kernel
  exact ⟨_, _, _, finite, by decide, by decide +kernel, compactText_rounds finite (by decide)⟩

end Binary64

end StackBackend
