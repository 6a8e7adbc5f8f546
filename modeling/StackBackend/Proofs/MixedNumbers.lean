import StackBackend.Proofs.ExactArithmetic
import StackBackend.Proofs.PrintSteps

namespace StackBackend

/-! Rationals in print. A rational prints as a mixed number, and no two rationals in lowest
terms print alike. The sign is taken off by a negation, which does not take it off the least
word: rationals with that numerator print a second sign. -/

/-! ## Mixed numbers -/

theorem decimalDigits_injective : Function.Injective decimalDigits := by
  intro first second same
  have read := congrArg (fun digits => Nat.ofDigitChars 10 digits 0) same
  simpa [decimalDigits] using read

theorem not_mem_decimalDigits (character : Char) (other : character.isDigit = false)
    (value : Nat) : character ∉ decimalDigits value := by
  intro member
  rw [Nat.isDigit_of_mem_toDigits (by decide) (by decide) member] at other
  cases other

/-- Wholes, and a rest over a divisor; parts that are zero are left out. -/
def mixedText (whole rest divisor : Nat) : List Char :=
  (if whole = 0 then [] else decimalDigits whole) ++
    if rest = 0 then []
    else (if whole = 0 then [] else ['_']) ++ decimalDigits rest ++ '/' :: decimalDigits divisor

namespace Fraction

/-- The rational as a mixed number. -/
def text (fraction : Fraction) : List Char :=
  if fraction.numerator = 0 then ['0']
  else
    (if fraction.numerator.toInt < 0 then ['-'] else []) ++
      mixedText (fraction.numerator.toInt.natAbs / fraction.denominator.toInt.natAbs)
        (fraction.numerator.toInt.natAbs % fraction.denominator.toInt.natAbs)
        fraction.denominator.toInt.natAbs

end Fraction

section

variable {whole rest divisor : Nat}

theorem mixedText_whole (none : rest = 0) (wholes : whole ≠ 0) :
    mixedText whole rest divisor = decimalDigits whole := by
  simp [mixedText, none, wholes]

theorem mixedText_proper (some : rest ≠ 0) :
    mixedText 0 rest divisor = decimalDigits rest ++ '/' :: decimalDigits divisor := by
  simp [mixedText, some]

theorem mixedText_both (some : rest ≠ 0) (wholes : whole ≠ 0) :
    mixedText whole rest divisor =
      decimalDigits whole ++ '_' :: (decimalDigits rest ++ '/' :: decimalDigits divisor) := by
  simp [mixedText, some, wholes]

/-- A slash tells that there is a rest. -/
theorem slash_mem_mixedText (whole rest divisor : Nat) :
    '/' ∈ mixedText whole rest divisor ↔ rest ≠ 0 := by
  have absent := not_mem_decimalDigits '/' (by decide)
  unfold mixedText
  split <;> split <;> simp_all

/-- An underscore tells that there are both parts. -/
theorem score_mem_mixedText (whole rest divisor : Nat) :
    '_' ∈ mixedText whole rest divisor ↔ rest ≠ 0 ∧ whole ≠ 0 := by
  have absent := not_mem_decimalDigits '_' (by decide)
  unfold mixedText
  split <;> split <;> simp_all

theorem minus_not_mem_mixedText (whole rest divisor : Nat) :
    '-' ∉ mixedText whole rest divisor := by
  have absent := not_mem_decimalDigits '-' (by decide)
  unfold mixedText
  split <;> split <;> simp_all

/-- The text tells the parts, and the divisor of a rest. -/
theorem parts_of_mixedText {otherWhole otherRest otherDivisor : Nat}
    (nonzero : whole ≠ 0 ∨ rest ≠ 0) (otherNonzero : otherWhole ≠ 0 ∨ otherRest ≠ 0)
    (same : mixedText whole rest divisor = mixedText otherWhole otherRest otherDivisor) :
    whole = otherWhole ∧ rest = otherRest ∧ (rest ≠ 0 → divisor = otherDivisor) := by
  have rests : rest ≠ 0 ↔ otherRest ≠ 0 := by
    rw [← slash_mem_mixedText whole rest divisor, same, slash_mem_mixedText]
  have boths : rest ≠ 0 ∧ whole ≠ 0 ↔ otherRest ≠ 0 ∧ otherWhole ≠ 0 := by
    rw [← score_mem_mixedText whole rest divisor, same, score_mem_mixedText]
  have noSlash := not_mem_decimalDigits '/' (by decide)
  have noScore := not_mem_decimalDigits '_' (by decide)
  by_cases none : rest = 0
  · have otherNone : otherRest = 0 := by
      by_contra some
      exact rests.mpr some none
    rw [mixedText_whole none (nonzero.resolve_right (not_not.mpr none)),
      mixedText_whole otherNone (otherNonzero.resolve_right (not_not.mpr otherNone))] at same
    exact ⟨decimalDigits_injective same, none.trans otherNone.symm, absurd none⟩
  · have otherSome := rests.mp none
    by_cases zero : whole = 0
    · have otherZero : otherWhole = 0 := by
        by_contra wholes
        exact (boths.mpr ⟨otherSome, wholes⟩).2 zero
      subst zero otherZero
      rw [mixedText_proper none, mixedText_proper otherSome] at same
      obtain ⟨rests, _, divisors⟩ :=
        (List.append_cons_inj_of_notMem (noSlash _) (noSlash _)).mp same
      exact ⟨rfl, decimalDigits_injective rests, fun _ => decimalDigits_injective divisors⟩
    · have otherWholes := (boths.mp ⟨none, zero⟩).2
      rw [mixedText_both none zero, mixedText_both otherSome otherWholes] at same
      have noScores : '_' ∉ decimalDigits rest ++ '/' :: decimalDigits divisor := by
        simp [noScore]
      obtain ⟨wholes, _, fractions⟩ :=
        (List.append_cons_inj_of_notMem (noScore _) noScores).mp same
      obtain ⟨rests, _, divisors⟩ :=
        (List.append_cons_inj_of_notMem (noSlash _) (noSlash _)).mp fractions
      exact ⟨decimalDigits_injective wholes, decimalDigits_injective rests,
        fun _ => decimalDigits_injective divisors⟩

end

/-- Characters that are bytes can be read back. -/
theorem asciiBytes_injective {characters others : List Char}
    (small : ∀ character ∈ characters, character.toNat < 256)
    (otherSmall : ∀ character ∈ others, character.toNat < 256)
    (same : asciiBytes characters = asciiBytes others) : characters = others := by
  have reads : ∀ {text : List Char}, (∀ character ∈ text, character.toNat < 256) →
      (asciiBytes text).map (fun byte => Char.ofNat byte.toNat) = text := by
    intro text bytes
    rw [asciiBytes, List.map_map]
    refine (List.map_congr_left fun character member => ?_).trans (List.map_id text)
    rw [Function.comp_apply, UInt8.toNat_ofNat', Nat.mod_eq_of_lt (bytes character member),
      Char.ofNat_toNat]
    rfl
  rw [← reads small, same, reads otherSmall]

theorem small_of_mem_mixedText {whole rest divisor : Nat} :
    ∀ character ∈ mixedText whole rest divisor, character.toNat < 256 := by
  have digit : ∀ value, ∀ character ∈ decimalDigits value, character.toNat < 256 := by
    intro value character member
    have digit : character.isDigit = true :=
      Nat.isDigit_of_mem_toDigits (by decide) (by decide) member
    simp only [Char.isDigit, Bool.and_eq_true, decide_eq_true_eq, UInt32.le_iff_toNat_le] at digit
    exact Nat.lt_of_le_of_lt digit.2 (by decide)
  have score : '_'.toNat < 256 := by decide
  have slash : '/'.toNat < 256 := by decide
  have none : ∀ character ∈ ([] : List Char), character.toNat < 256 := nofun
  unfold mixedText
  split <;> split <;>
    simp only [List.forall_mem_append, List.forall_mem_cons, score, slash, true_and]
  · exact ⟨none, none⟩
  · exact ⟨none, ⟨none, digit rest⟩, digit divisor⟩
  · exact ⟨digit whole, none⟩
  · exact ⟨digit whole, ⟨none, digit rest⟩, digit divisor⟩

namespace Fraction

variable {fraction other : Fraction}

theorem Canonical.divisor_of_no_rest (canonical : fraction.Canonical)
    (none : fraction.numerator.toInt.natAbs % fraction.denominator.toInt.natAbs = 0) :
    fraction.denominator.toInt.natAbs = 1 := by
  rw [← canonical.coprime, Int.gcd, Nat.gcd_eq_right (Nat.dvd_of_mod_eq_zero none)]

theorem parts_nonzero (nonzero : fraction.numerator ≠ 0) :
    fraction.numerator.toInt.natAbs / fraction.denominator.toInt.natAbs ≠ 0 ∨
      fraction.numerator.toInt.natAbs % fraction.denominator.toInt.natAbs ≠ 0 := by
  have some : fraction.numerator.toInt.natAbs ≠ 0 := Magnitude.natAbs_eq_zero.not.mpr nonzero
  have parts := Nat.div_add_mod fraction.numerator.toInt.natAbs fraction.denominator.toInt.natAbs
  by_contra zero
  rw [not_or, not_not, not_not] at zero
  rw [zero.1, zero.2] at parts
  exact some parts.symm

theorem minus_mem_text : '-' ∈ fraction.text ↔ fraction.numerator.toInt < 0 := by
  have absent := minus_not_mem_mixedText
  unfold text
  split
  · rename_i zero
    simp [zero]
  · split <;> simp_all

theorem small_of_mem_text : ∀ character ∈ fraction.text, character.toNat < 256 := by
  intro character member
  unfold text at member
  split at member
  · rw [List.mem_singleton.mp member]
    decide
  · obtain member | member := List.mem_append.mp member
    · split at member
      · rw [List.mem_singleton.mp member]
        decide
      · cases member
    · exact small_of_mem_mixedText _ member

/-- No other rational prints as zero does. -/
theorem text_ne_zero (nonzero : fraction.numerator ≠ 0) : fraction.text ≠ ['0'] := by
  intro same
  have zero : ['0'] = decimalDigits 0 := rfl
  have positive : ¬ fraction.numerator.toInt < 0 := by
    rw [← minus_mem_text, same]
    decide
  have parts := parts_nonzero nonzero
  rw [text, if_neg nonzero, if_neg positive, List.nil_append] at same
  have none : fraction.numerator.toInt.natAbs % fraction.denominator.toInt.natAbs = 0 := by
    by_contra some
    have member := (slash_mem_mixedText (fraction.numerator.toInt.natAbs /
      fraction.denominator.toInt.natAbs) _ fraction.denominator.toInt.natAbs).mpr some
    rw [same] at member
    simp at member
  have wholes := parts.resolve_right (not_not.mpr none)
  rw [mixedText_whole none wholes, zero] at same
  exact wholes (decimalDigits_injective same)

/-- No two rationals in lowest terms have one text. -/
theorem Canonical.eq_of_text (canonical : fraction.Canonical) (otherCanonical : other.Canonical)
    (same : fraction.text = other.text) : fraction = other := by
  have sign : fraction.numerator.toInt < 0 ↔ other.numerator.toInt < 0 := by
    rw [← minus_mem_text, same, minus_mem_text]
  have positive := canonical.positive
  have otherPositive := otherCanonical.positive
  suffices terms : fraction.numerator.toInt.natAbs = other.numerator.toInt.natAbs ∧
      fraction.denominator.toInt.natAbs = other.denominator.toInt.natAbs by
    have numerators : fraction.numerator.toInt = other.numerator.toInt := by omega
    have denominators : fraction.denominator.toInt = other.denominator.toInt := by omega
    exact congrArg₂ Fraction.mk (Int32.toInt_inj.mp numerators) (Int32.toInt_inj.mp denominators)
  by_cases zero : fraction.numerator = 0
  · have otherZero : other.numerator = 0 := by
      by_contra nonzero
      refine text_ne_zero nonzero ?_
      rw [← same, text, if_pos zero]
    have divisor := canonical.divisor_of_no_rest (by simp [zero])
    have otherDivisor := otherCanonical.divisor_of_no_rest (by simp [otherZero])
    exact ⟨by rw [zero, otherZero], divisor.trans otherDivisor.symm⟩
  · have nonzero : other.numerator ≠ 0 := by
      intro otherZero
      refine text_ne_zero zero ?_
      rw [same, text, if_pos otherZero]
    rw [text, text, if_neg zero, if_neg nonzero] at same
    simp only [sign] at same
    obtain ⟨wholes, rests, divisors⟩ := parts_of_mixedText (parts_nonzero zero)
      (parts_nonzero nonzero) (List.append_cancel_left same)
    have divisor : fraction.denominator.toInt.natAbs = other.denominator.toInt.natAbs := by
      by_cases none : fraction.numerator.toInt.natAbs % fraction.denominator.toInt.natAbs = 0
      · exact (canonical.divisor_of_no_rest none).trans
          (otherCanonical.divisor_of_no_rest (rests ▸ none)).symm
      · exact divisors none
    refine ⟨?_, divisor⟩
    rw [← Nat.div_add_mod fraction.numerator.toInt.natAbs fraction.denominator.toInt.natAbs,
      wholes, rests, divisor, Nat.div_add_mod]

end Fraction

/-! ## The code of print -/

namespace Printing

open Code

/-- The words that hold the rational while it is printed. -/
def rationalCells : List String := [Cell.printNumerator, Cell.printDenominator]

/-- Wholes and a rest over a divisor, as the machine divides. -/
def mixedWords (dividend divisor : Int32) : List Char :=
  (if dividend / divisor = 0 then [] else Format.integerText (dividend / divisor)) ++
    if dividend % divisor = 0 then []
    else (if dividend / divisor = 0 then [] else ['_']) ++
      Format.integerText (dividend % divisor) ++ '/' :: Format.integerText divisor

/-- The code that prints the wholes. -/
def wholesCode : Code :=
  integralPart ++ printText Cell.integerFormat

/-- The code that prints the rest over the divisor. -/
def fractionCode : Code :=
  fractionalPart ++ (printText Cell.integerFormat ++ (printText Cell.slashText ++
    (loadWord Cell.printDenominator ++ printText Cell.integerFormat)))

/-- The code for numbers above zero. -/
def magnitudeCode (labels : LabelGroup) : Code :=
  integralPart ++ .jumpFalse (labels.label "fraction") :: (wholesCode ++ (fractionalPart ++
    .jumpFalse (labels.label "end") :: (printText Cell.underscoreText ++
      .label (labels.label "fraction") :: fractionCode)))

/-- The code that takes the sign off. -/
def signCode : Code :=
  printText Cell.minusText ++
    (loadWord Cell.printNumerator ++ [.negate] ++ storeWord Cell.printNumerator)

/-- The code for all numbers but zero. -/
def signedCode (labels : LabelGroup) : Code :=
  loadWord Cell.printNumerator ++ .jumpPos (labels.label "positive") ::
    (signCode ++ .label (labels.label "positive") :: magnitudeCode labels)

theorem rational_eq (labels : LabelGroup) :
    rational labels = (storeWord Cell.printDenominator ++ storeWord Cell.printNumerator ++
        loadWord Cell.printNumerator) ++ .jumpTrue (labels.label "nonzero") ::
      ([.pushI 0] ++ (printText Cell.integerFormat ++ .jump (labels.label "end") ::
        .label (labels.label "nonzero") ::
          (signedCode labels ++ [.label (labels.label "end")]))) := rfl

/-- The terms of the rational are in its words, and the texts in theirs. -/
structure Shows (image : Image) (memory : Memory) (numerator denominator : Int32) : Prop where
  texts : Texts image memory
  inside : image.dataSize ≤ memory.size
  numerator : memory.cell image.word Cell.printNumerator = numerator
  denominator : memory.cell image.word Cell.printDenominator = denominator

section

variable {code : Code} {image : Image} {size : Int32} {memory : Memory}
  {dividend divisor : Int32} {labels : LabelGroup} {start : Nat}

variable (prepared : Prepared code image size)
  (cells : Cells image.word rationalCells image.dataSize)
  (shows : Shows image memory dividend divisor) (stack : List Word)

section

include cells shows

theorem act_loadNumerator :
    Code.act image.word (loadWord Cell.printNumerator) stack memory =
      some (.integer dividend :: stack, memory) :=
  shows.numerator ▸ cells.act_loadCell (by decide) shows.inside

theorem act_integralPart (defined : divisor ≠ 0) :
    Code.act image.word integralPart stack memory =
      some (.integer (dividend / divisor) :: stack, memory) := by
  rw [integralPart, List.append_assoc, cells.act_loadCell (by decide) shows.inside,
    cells.act_loadCell (by decide) shows.inside, shows.numerator, shows.denominator,
    act_divide defined, act_nil]

theorem act_fractionalPart (defined : divisor ≠ 0) :
    Code.act image.word fractionalPart stack memory =
      some (.integer (dividend % divisor) :: stack, memory) := by
  rw [fractionalPart, List.append_assoc, cells.act_loadCell (by decide) shows.inside,
    cells.act_loadCell (by decide) shows.inside, shows.numerator, shows.denominator,
    act_remainder defined, act_nil]

include prepared

theorem prints_wholes (defined : divisor ≠ 0) :
    Prints image memory wholesCode stack stack
      (asciiBytes (Format.integerText (dividend / divisor))) :=
  (Prints.silent (act_integralPart cells shows stack defined)).append
    (prints_integer prepared shows.texts _ stack)

theorem prints_fraction (defined : divisor ≠ 0) :
    Prints image memory fractionCode stack stack (asciiBytes
      (Format.integerText (dividend % divisor) ++ '/' :: Format.integerText divisor)) := by
  have loads : Prints image memory (loadWord Cell.printDenominator) stack
      (.integer divisor :: stack) [] := by
    refine Prints.silent ?_
    rw [cells.act_lastLoad (by decide) shows.inside, shows.denominator]
  have slash : Prints image memory (printText Cell.slashText) stack stack (asciiBytes ['/']) :=
    prints_fixed prepared shows.texts Cell.slashText "/" (by decide) stack
  have prints := (Prints.silent (act_fractionalPart cells shows stack defined)).append
    ((prints_integer prepared shows.texts _ stack).append
      (slash.append (loads.append (prints_integer prepared shows.texts _ stack))))
  simpa [asciiBytes, fractionCode] using prints

/-- Numbers above zero print as mixed numbers. -/
theorem runs_magnitude (defined : divisor ≠ 0)
    (nonzero : dividend / divisor ≠ 0 ∨ dividend % divisor ≠ 0)
    (holds : image.Holds (magnitudeCode labels ++ [.label (labels.label "end")]) start)
    (output : ByteArray) :
    Runs image none ⟨start, stack, memory, output⟩
      ⟨start + (magnitudeCode labels).size, stack, memory,
        written output (asciiBytes (mixedWords dividend divisor))⟩ := by
  obtain ⟨holds, endAt⟩ := Image.holds_append.mp holds
  obtain ⟨endMarks, _⟩ := (Image.holds_label _ _ _).mp endAt
  obtain ⟨_, testHolds⟩ := Image.holds_append.mp holds
  obtain ⟨_, bothHolds⟩ := (Image.holds_cons rfl _ _).mp testHolds
  obtain ⟨wholesHolds, restHolds⟩ := Image.holds_append.mp bothHolds
  obtain ⟨_, restTestHolds⟩ := Image.holds_append.mp restHolds
  obtain ⟨_, scoreHolds⟩ := (Image.holds_cons rfl _ _).mp restTestHolds
  obtain ⟨score, fractionAt⟩ := Image.holds_append.mp scoreHolds
  obtain ⟨fractionMarks, fractionHolds⟩ := (Image.holds_label _ _ _).mp fractionAt
  have quotient := act_integralPart cells shows stack defined
  have remainder := act_fractionalPart cells shows stack defined
  have sizes : start + integralPart.size + 1 + wholesCode.size + fractionalPart.size + 1 +
      (printText Cell.underscoreText).size + fractionCode.size =
        start + (magnitudeCode labels).size := by
    simp [magnitudeCode, Instruction.isDirective]
    omega
  -- Both ways that reach the fraction print it and come to the end.
  have fraction : ∀ output, Runs image none ⟨_, stack, memory, output⟩
      ⟨start + (magnitudeCode labels).size, stack, memory, written output (asciiBytes
        (Format.integerText (dividend % divisor) ++ '/' :: Format.integerText divisor))⟩ :=
    fun output => sizes ▸ prints_fraction prepared cells shows stack defined _ output fractionHolds
  by_cases wholes : dividend / divisor = 0
  · have rest := nonzero.resolve_left (not_not.mpr wholes)
    refine Runs.trans (Runs.branches prepared.addressable holds quotient rfl fractionMarks
      (by simp [Instruction.test, wholes])) ?_
    simpa [mixedWords, wholes, rest] using fraction output
  · refine Runs.trans (Runs.passesOver prepared.addressable holds quotient rfl fractionMarks
      (by simp [Instruction.test, wholes])) ?_
    refine Runs.trans (prints_wholes prepared cells shows stack defined _ output wholesHolds) ?_
    by_cases rest : dividend % divisor = 0
    · refine Runs.trans (Runs.branches prepared.addressable restHolds remainder rfl endMarks
        (by simp [Instruction.test, rest])) ?_
      simpa [mixedWords, wholes, rest] using Runs.refl _
    · refine Runs.trans (Runs.passesOver prepared.addressable restHolds remainder rfl endMarks
        (by simp [Instruction.test, rest])) ?_
      refine Runs.trans (prints_fixed prepared shows.texts Cell.underscoreText "_" (by decide) stack
        _ _ score) ?_
      have printed := fraction (written (written output
        (asciiBytes (Format.integerText (dividend / divisor)))) (asciiBytes "_".toList))
      simpa [mixedWords, wholes, rest, ← written_append, asciiBytes] using printed

end

/-- A number or the rest of its division by another one is not zero unless it is zero itself. -/
theorem parts_ne_zero (nonzero : dividend ≠ 0) :
    dividend / divisor ≠ 0 ∨ dividend % divisor ≠ 0 := by
  have magnitude : dividend.toInt.natAbs ≠ 0 := Magnitude.natAbs_eq_zero.not.mpr nonzero
  have parts := Nat.div_add_mod dividend.toInt.natAbs divisor.toInt.natAbs
  by_contra zero
  rw [not_or, not_not, not_not, ← Magnitude.natAbs_eq_zero, ← Magnitude.natAbs_eq_zero,
    Magnitude.natAbs_div, Magnitude.natAbs_mod] at zero
  rw [zero.1, zero.2] at parts
  exact magnitude parts.symm

def signedWords (numerator denominator : Int32) : List Char :=
  if 0 < numerator then mixedWords numerator denominator
  else '-' :: mixedWords (-numerator) denominator

/-- What prints of two words. -/
def rationalWords (numerator denominator : Int32) : List Char :=
  if numerator = 0 then ['0'] else signedWords numerator denominator

section

include prepared cells

theorem Shows.negated (shows : Shows image memory dividend divisor) :
    Shows image (memory.setCell image.word Cell.printNumerator (-dividend)) (-dividend) divisor where
  texts := shows.texts.setCell prepared (by decide) (by decide) _
  inside := by rw [Memory.size_setCell]; exact shows.inside
  numerator := cells.cell_setCell (by decide) shows.inside
  denominator := by
    rw [cells.cell_setCell_other (by decide) (by decide) (by decide), shows.denominator]

theorem Shows.stored (texts : Texts image memory) (inside : image.dataSize ≤ memory.size) :
    Shows image ((memory.setCell image.word Cell.printDenominator divisor).setCell image.word
      Cell.printNumerator dividend) dividend divisor where
  texts := (texts.setCell prepared (by decide) (by decide) _).setCell prepared (by decide)
    (by decide) _
  inside := by rwa [Memory.size_setCell, Memory.size_setCell]
  numerator := cells.cell_setCell (by decide) (by rwa [Memory.size_setCell])
  denominator := by
    rw [cells.cell_setCell_other (by decide) (by decide) (by decide),
      cells.cell_setCell (by decide) inside]

/-- Numbers but zero print with their signs. -/
theorem runs_signed (shows : Shows image memory dividend divisor) (defined : divisor ≠ 0)
    (nonzero : dividend ≠ 0)
    (holds : image.Holds (signedCode labels ++ [.label (labels.label "end")]) start)
    (output : ByteArray) :
    ∃ after, Cells.Only image.word rationalCells memory after ∧
      Runs image none ⟨start, stack, memory, output⟩
        ⟨start + (signedCode labels).size, stack, after,
          written output (asciiBytes (signedWords dividend divisor))⟩ := by
  have parts : signedCode labels ++ [.label (labels.label "end")] =
      loadWord Cell.printNumerator ++ .jumpPos (labels.label "positive") :: (signCode ++
        .label (labels.label "positive") ::
          (magnitudeCode labels ++ [.label (labels.label "end")])) := rfl
  rw [parts] at holds
  obtain ⟨_, testHolds⟩ := Image.holds_append.mp holds
  obtain ⟨_, signHolds⟩ := (Image.holds_cons rfl _ _).mp testHolds
  obtain ⟨signPrints, positiveAt⟩ := Image.holds_append.mp signHolds
  obtain ⟨positiveMarks, magnitudeHolds⟩ := (Image.holds_label _ _ _).mp positiveAt
  have loads := act_loadNumerator cells shows stack
  have sizes : start + (signedCode labels).size = start + (loadWord Cell.printNumerator).size + 1 +
      signCode.size + (magnitudeCode labels).size := by
    simp [signedCode, Instruction.isDirective]
    omega
  rw [sizes]
  by_cases positive : 0 < dividend
  · refine ⟨memory, .refl memory, Runs.trans (Runs.branches prepared.addressable holds loads rfl
      positiveMarks (by simp [Instruction.test, positive])) ?_⟩
    rw [signedWords, if_pos positive]
    exact runs_magnitude prepared cells shows stack defined (parts_ne_zero nonzero) magnitudeHolds
      output
  · let negated := memory.setCell image.word Cell.printNumerator (-dividend)
    have nonnegated : -dividend ≠ 0 := by simpa using nonzero
    obtain ⟨minusHolds, negateHolds⟩ := Image.holds_append.mp signPrints
    have negates : Code.act image.word (loadWord Cell.printNumerator ++ [.negate] ++
        storeWord Cell.printNumerator) stack memory = some (stack, negated) := by
      rw [List.append_assoc, cells.act_loadCell (by decide) shows.inside, shows.numerator,
        List.cons_append, List.nil_append, act_negate]
      exact cells.act_storeCell (by decide) shows.inside
    refine ⟨negated, (Cells.Only.refl memory).setCell (by decide) _, Runs.trans
      (Runs.passesOver prepared.addressable holds loads rfl positiveMarks
        (by simp [Instruction.test, positive])) ?_⟩
    refine Runs.trans (prints_fixed prepared shows.texts Cell.minusText "-" (by decide) stack _ _
      minusHolds) (Runs.trans (Runs.straight negateHolds negates) ?_)
    have printed := runs_magnitude prepared cells (shows.negated prepared cells) stack defined
      (parts_ne_zero nonnegated) magnitudeHolds (written output (asciiBytes "-".toList))
    rw [← written_append] at printed
    rw [signedWords, if_neg positive]
    exact printed

/-- The code takes two words off the stack and prints them. -/
theorem runs_rational (texts : Texts image memory) (inside : image.dataSize ≤ memory.size)
    (defined : divisor ≠ 0) (holds : image.Holds (rational labels) start) (output : ByteArray) :
    ∃ after, Cells.Only image.word rationalCells memory after ∧
      Runs image none ⟨start, .integer divisor :: .integer dividend :: stack, memory, output⟩
        ⟨start + (rational labels).size, stack, after,
          written output (asciiBytes (rationalWords dividend divisor))⟩ := by
  rw [rational_eq] at holds
  obtain ⟨_, testHolds⟩ := Image.holds_append.mp holds
  obtain ⟨_, zeroHolds⟩ := (Image.holds_cons rfl _ _).mp testHolds
  obtain ⟨zeroPushes, zeroPrints⟩ := Image.holds_append.mp zeroHolds
  obtain ⟨zeroPrints, zeroLeaves⟩ := Image.holds_append.mp zeroPrints
  obtain ⟨_, nonzeroAt⟩ := (Image.holds_cons rfl _ _).mp zeroLeaves
  obtain ⟨nonzeroMarks, signedHolds⟩ := (Image.holds_label _ _ _).mp nonzeroAt
  obtain ⟨endMarks, _⟩ := (Image.holds_label _ _ _).mp (Image.holds_append.mp signedHolds).2
  let stored := (memory.setCell image.word Cell.printDenominator divisor).setCell image.word
    Cell.printNumerator dividend
  have shows : Shows image stored dividend divisor := Shows.stored prepared cells texts inside
  have only : Cells.Only image.word rationalCells memory stored :=
    ((Cells.Only.refl memory).setCell (by decide) _).setCell (by decide) _
  have stores : Code.act image.word (storeWord Cell.printDenominator ++
      storeWord Cell.printNumerator ++ loadWord Cell.printNumerator)
        (.integer divisor :: .integer dividend :: stack) memory =
      some (.integer dividend :: stack, stored) := by
    rw [List.append_assoc, cells.act_storeCell (by decide) inside,
      cells.act_storeCell (by decide) (by rwa [Memory.size_setCell])]
    exact act_loadNumerator cells shows stack
  have sizes : start + (rational labels).size = start + (storeWord Cell.printDenominator ++
      storeWord Cell.printNumerator ++ loadWord Cell.printNumerator).size + 1 +
        Code.size [.pushI 0] + (printText Cell.integerFormat).size + 1 +
          (signedCode labels).size := by
    simp [rational_eq, Instruction.isDirective]
    omega
  rw [sizes]
  by_cases zero : dividend = 0
  · refine ⟨stored, only, Runs.trans (Runs.passesOver prepared.addressable holds stores rfl
      nonzeroMarks (by simp [Instruction.test, zero])) ?_⟩
    refine Runs.trans (Runs.straight zeroPushes (by simp)) (Runs.trans
      (prints_integer prepared shows.texts 0 stack _ _ zeroPrints) ?_)
    have text : Format.integerText 0 = ['0'] := by decide
    rw [rationalWords, if_pos zero, text]
    exact Runs.jump prepared.addressable zeroLeaves endMarks
  · obtain ⟨after, signed, runs⟩ := runs_signed prepared cells stack shows defined zero signedHolds
      output
    rw [rationalWords, if_neg zero]
    exact ⟨after, only.trans signed, Runs.trans (Runs.branches prepared.addressable holds stores rfl
      nonzeroMarks (by simp [Instruction.test, zero])) runs⟩

end

end

/-! ### The text of words -/

theorem integerText_of_natural {value : Int32} {number : Nat} (same : value.toInt = number) :
    Format.integerText value = decimalDigits number := by
  rw [Format.integerText, if_neg (by rw [Int32.lt_iff_toInt_lt, same]; simp), same]
  rfl

/-- Words that are not below zero are divided as naturals. -/
theorem mixedWords_of_naturals {dividend divisor : Int32} {number count : Nat}
    (numberSame : dividend.toInt = number) (countSame : divisor.toInt = count) :
    mixedWords dividend divisor = mixedText (number / count) (number % count) count := by
  have range := Magnitude.bounds dividend
  have within : Within (number : Int) := by
    unfold Within
    omega
  have quotient : (dividend / divisor).toInt = (number / count : Nat) := by
    rw [within.toInt_div _ numberSame, countSame]
    rfl
  have remainder : (dividend % divisor).toInt = (number % count : Nat) := by
    rw [Int32.toInt_mod, numberSame, countSame]
    rfl
  have zero : ∀ {word : Int32} {value : Nat}, word.toInt = value → (word = 0 ↔ value = 0) := by
    intro word value same
    rw [← Int32.toInt_inj, same, Int32.toInt_zero, Int.natCast_eq_zero]
  simp only [mixedWords, mixedText, zero quotient, zero remainder,
    integerText_of_natural quotient, integerText_of_natural remainder,
    integerText_of_natural countSame]

/-- Rationals print as mixed numbers unless the numerator is the least word. -/
theorem rationalWords_eq {fraction : Fraction} (positive : 0 < fraction.denominator.toInt)
    (ordinary : fraction.numerator ≠ Int32.minValue) :
    rationalWords fraction.numerator fraction.denominator = fraction.text := by
  have divisor : fraction.denominator.toInt = (fraction.denominator.toInt.natAbs : Int) := by omega
  rw [rationalWords, Fraction.text]
  by_cases zero : fraction.numerator = 0
  · rw [if_pos zero, if_pos zero]
  · rw [if_neg zero, if_neg zero, signedWords]
    have nonzero : fraction.numerator.toInt ≠ 0 := fun same => zero (Int32.toInt_inj.mp same)
    have above : 0 < fraction.numerator ↔ 0 < fraction.numerator.toInt := Int32.lt_iff_toInt_lt
    by_cases sign : 0 < fraction.numerator.toInt
    · have dividend : fraction.numerator.toInt = (fraction.numerator.toInt.natAbs : Int) := by omega
      rw [if_pos (above.mpr sign), if_neg (by omega), mixedWords_of_naturals dividend divisor]
      rfl
    · have dividend : (-fraction.numerator).toInt = (fraction.numerator.toInt.natAbs : Int) := by
        rw [Magnitude.toInt_neg ordinary]
        omega
      rw [if_neg (above.not.mpr sign), if_pos (by omega), mixedWords_of_naturals dividend divisor]
      rfl

end Printing

/-! ## Programs -/

namespace Program

variable {program : Program} {options : CompileOptions} {code piece : Code} {image : Image}
  {memory : Memory} {last next pc : Nat} {fraction : Fraction}

/-- A rational in lowest terms prints as a mixed number and leaves the stack below it; no other
one prints alike. -/
theorem rational_printed (compiled : program.compile options = .ok code)
    (assembled : Image.assemble code = .ok image) (addressable : image.Addressable)
    (fits : image.dataSize ≤ 2147483647) (inside : image.dataSize ≤ memory.size)
    (texts : Texts image memory) (canonical : fraction.Canonical)
    (ordinary : fraction.numerator ≠ Int32.minValue)
    (generated : Printing.value .rational last = .ok (piece, next)) (holds : image.Holds piece pc)
    (rest : List Word) (output : ByteArray) :
    (∃ after, Cells.Only image.word Printing.rationalCells memory after ∧
      Runs image none
        ⟨pc, .integer fraction.denominator :: .integer fraction.numerator :: rest, memory, output⟩
        ⟨pc + piece.size, rest, after, written output (asciiBytes fraction.text)⟩) ∧
    ∀ other : Fraction, other.Canonical → asciiBytes other.text = asciiBytes fraction.text →
      other = fraction := by
  obtain ⟨body, composed⟩ := exists_composed compiled
  have prepared := composed.prepared assembled addressable fits
  obtain ⟨labels, _, _, made⟩ := Generation.bind_eq_ok.mp generated
  obtain ⟨rfl, rfl⟩ := Generation.pure_eq_ok.mp made
  constructor
  · rw [← Printing.rationalWords_eq canonical.positive ordinary]
    exact Printing.runs_rational prepared (prepared.scratch_cells (by decide)) rest texts inside
      canonical.denominator_ne_zero holds output
  · exact fun other otherCanonical same =>
      otherCanonical.eq_of_text canonical
        (asciiBytes_injective Fraction.small_of_mem_text Fraction.small_of_mem_text same)

/-- Prints a rational of two integers. -/
def showing (numerator denominator : Int32) : Program where
  globalSize := 0
  body := [.print [.expression (.typed .rational (.operation (.snippet .formRational)
    [.typed .integer (.integer numerator), .typed .integer (.integer denominator)]))]]

theorem exists_showing_image (numerator denominator : Int32)
    (brief : (showing numerator denominator).isBrief = true) :
    ∃ code image pc, (showing numerator denominator).compile ⟨true⟩ = .ok code ∧
      Image.assemble code = .ok image ∧ image.Addressable ∧ image.dataSize ≤ 65536 ∧
      image.Holds (Printing.rational ⟨"print-rational", 1⟩) pc := by
  have plain : Plain (showing numerator denominator).operations := by
    simp [Plain, showing, operations, blockOperations, Statement.operations, printItemsOperations,
      PrintItem.operations, Expr.operations, Form.operations, exprsOperations]
  obtain ⟨code, image, body, _, pc, compiled, assembled, addressable, fits, made, holds⟩ :=
    exists_body_image brief plain (by simp [showing])
  have body_eq : blockCode {} (showing numerator denominator).body 0 =
      .ok ([.pushI numerator, .pushI denominator] ++ Arithmetic.lowestTerms ++
        Printing.rational ⟨"print-rational", 1⟩, 1) := rfl
  cases body_eq.symm.trans made
  exact ⟨code, image, _, compiled, assembled, addressable, fits, (Image.holds_append.mp holds).2⟩

/-- Minus seven halves print as three wholes and a half below zero. -/
theorem halves_printed :
    ∃ code image pc memory after, (showing (-7) 2).compile ⟨true⟩ = .ok code ∧
      Image.assemble code = .ok image ∧ image.Addressable ∧ image.dataSize ≤ 2147483647 ∧
      image.dataSize ≤ memory.size ∧ Texts image memory ∧
      image.Holds (Printing.rational ⟨"print-rational", 1⟩) pc ∧
      (Fraction.mk (-7) 2).Canonical ∧ (-7 : Int32) ≠ Int32.minValue ∧
      Runs image none ⟨pc, [.integer 2, .integer (-7)], memory, .empty⟩
        ⟨pc + (Printing.rational ⟨"print-rational", 1⟩).size, [], after,
          written .empty (asciiBytes "-3_1/2".toList)⟩ := by
  obtain ⟨code, image, pc, compiled, assembled, addressable, fits, holds⟩ :=
    exists_showing_image (-7) 2 (by decide +kernel)
  obtain ⟨body, composed⟩ := exists_composed compiled
  have prepared := composed.prepared assembled addressable (by omega)
  have texts : Texts image (image.initialState 65536).memory := Texts.initial prepared fits
  have inside : image.dataSize ≤ (image.initialState 65536).memory.size := by
    rwa [Image.size_initialState]
  have canonical : (Fraction.mk (-7) 2).Canonical := ⟨by decide, by decide⟩
  have ordinary : (-7 : Int32) ≠ Int32.minValue := by decide
  obtain ⟨⟨after, _, runs⟩, _⟩ := rational_printed compiled assembled addressable (by omega) inside
    texts canonical ordinary rfl holds [] .empty
  have text : (Fraction.mk (-7) 2).text = "-3_1/2".toList := by decide +kernel
  rw [text] at runs
  exact ⟨code, image, pc, _, after, compiled, assembled, addressable, by omega, inside, texts,
    holds, canonical, ordinary, runs⟩

/-- The least word prints with two signs, and not as the mixed number that it is. -/
theorem least_printed_twice_signed :
    ∃ code image pc memory after, (showing (-2147483648) 1).compile ⟨true⟩ = .ok code ∧
      Image.assemble code = .ok image ∧ image.Addressable ∧ image.dataSize ≤ memory.size ∧
      Texts image memory ∧ image.Holds (Printing.rational ⟨"print-rational", 1⟩) pc ∧
      (Fraction.mk (-2147483648) 1).Canonical ∧
      Runs image none ⟨pc, [.integer 1, .integer (-2147483648)], memory, .empty⟩
        ⟨pc + (Printing.rational ⟨"print-rational", 1⟩).size, [], after,
          written .empty (asciiBytes "--2147483648".toList)⟩ ∧
      (Fraction.mk (-2147483648) 1).text = "-2147483648".toList := by
  obtain ⟨code, image, pc, compiled, assembled, addressable, fits, holds⟩ :=
    exists_showing_image (-2147483648) 1 (by decide +kernel)
  obtain ⟨body, composed⟩ := exists_composed compiled
  have prepared := composed.prepared assembled addressable (by omega)
  have texts : Texts image (image.initialState 65536).memory := Texts.initial prepared fits
  have inside : image.dataSize ≤ (image.initialState 65536).memory.size := by
    rwa [Image.size_initialState]
  have one : (1 : Int32) ≠ 0 := by decide
  obtain ⟨after, _, runs⟩ := Printing.runs_rational prepared (prepared.scratch_cells (by decide))
    [] texts inside one holds .empty
  have words : Printing.rationalWords (-2147483648) 1 = "--2147483648".toList := by decide +kernel
  rw [words] at runs
  exact ⟨code, image, pc, _, after, compiled, assembled, addressable, inside, texts, holds,
    ⟨by decide, by decide⟩, runs, by decide +kernel⟩

end Program

end StackBackend
