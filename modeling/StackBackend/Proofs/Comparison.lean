import Mathlib.Algebra.Order.Field.Basic
import Mathlib.Data.Rat.Cast.Order
import Mathlib.Tactic.FieldSimp
import Mathlib.Tactic.NormNum
import StackBackend.Proofs.RationalArithmetic

namespace StackBackend

/-! Comparisons. The code of a comparison leaves one truth value, which it takes from the sign
of a difference. The difference is a word and may wrap. Where the difference of the numbers,
or of their cross products, is a word, the truth value is that of the relation between the
numbers; numbers that are further apart may come out the wrong way round. -/

/-! ## Words and numbers -/

/-- The relation between two numbers. -/
def Relation.Relates {α : Type} [LT α] [LE α] (relation : Relation) (left right : α) : Prop :=
  match relation with
  | .greater => right < left
  | .greaterEqual => right ≤ left
  | .less => left < right
  | .lessEqual => left ≤ right
  | .equal => left = right
  | .notEqual => left ≠ right

theorem Relation.holds_iff (relation : Relation) (difference : Int32) :
    relation.holds difference = true ↔ relation.Relates difference.toInt 0 := by
  cases relation <;>
    simp [holds, Relates, Int32.lt_iff_toInt_lt, Int32.le_iff_toInt_le, ← Int32.toInt_inj]

/-- A relation between two numbers is one between their difference and zero, in any positive
measure. -/
theorem Relation.relates_scaled (relation : Relation) {left right : ℚ} {difference : Int}
    {scale : ℚ} (positive : 0 < scale) (scaled : (difference : ℚ) = (left - right) * scale) :
    relation.Relates difference 0 ↔ relation.Relates left right := by
  have above : 0 < difference ↔ right < left := by
    rw [← Int.cast_pos (R := ℚ), scaled, mul_pos_iff_of_pos_right positive, sub_pos]
  have below : difference < 0 ↔ left < right := by
    rw [← Int.cast_lt_zero (R := ℚ), scaled, Rat.mul_neg_iff_of_pos_right positive, sub_neg]
  have equal : difference = 0 ↔ left = right := by
    rw [← Int.cast_eq_zero (α := ℚ), scaled, mul_eq_zero, or_iff_left (ne_of_gt positive),
      sub_eq_zero]
  cases relation with
  | greater => exact above
  | greaterEqual => exact not_lt.symm.trans (below.not.trans not_lt)
  | less => exact below
  | lessEqual => exact not_lt.symm.trans (above.not.trans not_lt)
  | equal => exact equal
  | notEqual => exact equal.not

/-- The sign of a difference of words is lost when it wraps, but not whether it is zero. -/
theorem Relation.relates_bmod (relation : Relation) {difference : Int}
    (lower : -4294967296 < difference) (upper : difference < 4294967296) :
    (relation.Relates (difference.bmod 4294967296) 0 ↔ relation.Relates difference 0) ↔
      (-2147483648 ≤ difference ∧ difference ≤ 2147483647) ∨
        relation = .equal ∨ relation = .notEqual := by
  rw [Int.bmod_def]
  cases relation <;> simp only [Relates, reduceCtorEq, or_false, or_true, iff_true] <;> omega

/-- A value of a type that is compared through words. -/
inductive Comparand where
  | boolean (value : Bool)
  | character (value : UInt8)
  | integer (value : Int32)
  | rational (value : Fraction)

namespace Comparand

def type : Comparand → Ty
  | .boolean _ => .boolean
  | .character _ => .character
  | .integer _ => .integer
  | .rational _ => .rational

/-- The value as a fraction of words. -/
def fraction : Comparand → Fraction
  | .boolean value => ⟨truth value, 1⟩
  | .character value => ⟨Int32.ofNat value.toNat, 1⟩
  | .integer value => ⟨value, 1⟩
  | .rational value => value

/-- The value on the stack, the top first. -/
def words : Comparand → List Word
  | .rational value => [.integer value.denominator, .integer value.numerator]
  | other => [.integer other.fraction.numerator]

def IsCanonical : Comparand → Prop
  | .rational value => value.Canonical
  | _ => True

/-- The number that the value stands for; truth values are zero and one. -/
def number (comparand : Comparand) : ℚ :=
  comparand.fraction.numerator.toInt / comparand.fraction.denominator.toInt

/-- The difference of cross products, as the machine computes it. -/
def difference (left right : Comparand) : Int32 :=
  left.fraction.numerator * right.fraction.denominator -
    right.fraction.numerator * left.fraction.denominator

/-- The difference of cross products. -/
def distance (left right : Comparand) : Int :=
  left.fraction.numerator.toInt * right.fraction.denominator.toInt -
    right.fraction.numerator.toInt * left.fraction.denominator.toInt

/-- The difference is a word. -/
def Near (left right : Comparand) : Prop :=
  -2147483648 ≤ left.distance right ∧ left.distance right ≤ 2147483647

instance (left right : Comparand) : Decidable (left.Near right) :=
  inferInstanceAs (Decidable (_ ∧ _))

theorem toInt_difference (left right : Comparand) :
    (left.difference right).toInt = (left.distance right).bmod 4294967296 := by
  rw [difference, distance, Int32.toInt_sub, Int32.toInt_mul, Int32.toInt_mul]
  exact (Int.sub_bmod_bmod).trans Int.bmod_sub_bmod

theorem denominator_pos {comparand : Comparand} (canonical : comparand.IsCanonical) :
    0 < comparand.fraction.denominator.toInt := by
  cases comparand with
  | rational value => exact canonical.positive
  | boolean value | character value | integer value => exact Int.one_pos

theorem distance_eq {left right : Comparand} (leftCanonical : left.IsCanonical)
    (rightCanonical : right.IsCanonical) :
    0 < (left.fraction.denominator.toInt * right.fraction.denominator.toInt : ℚ) ∧
      (left.distance right : ℚ) = (left.number - right.number) *
        (left.fraction.denominator.toInt * right.fraction.denominator.toInt) := by
  have leftPositive : (0 : ℚ) < left.fraction.denominator.toInt :=
    Int.cast_pos.mpr (denominator_pos leftCanonical)
  have rightPositive : (0 : ℚ) < right.fraction.denominator.toInt :=
    Int.cast_pos.mpr (denominator_pos rightCanonical)
  refine ⟨mul_pos leftPositive rightPositive, ?_⟩
  rw [distance, number, number]
  push_cast
  field_simp

variable {left right : Comparand} {relation : Relation}

theorem relates_distance (relation : Relation) (leftCanonical : left.IsCanonical)
    (rightCanonical : right.IsCanonical) :
    relation.Relates (left.distance right) 0 ↔ relation.Relates left.number right.number := by
  rcases distance_eq leftCanonical rightCanonical with ⟨positive, scaled⟩
  exact relation.relates_scaled positive scaled

/-- Values that are near each other are told apart. -/
theorem holds_of_near (leftCanonical : left.IsCanonical) (rightCanonical : right.IsCanonical)
    (near : left.Near right) :
    relation.holds (left.difference right) = true ↔
      relation.Relates left.number right.number := by
  have unwrapped : (left.difference right).toInt = left.distance right := by
    rw [toInt_difference]
    exact Int.bmod_eq_of_le (by have := near.1; omega) (by have := near.2; omega)
  rw [relation.holds_iff, unwrapped, relates_distance relation leftCanonical rightCanonical]

/-! ### Values of one word -/

theorem denominator_of_single {comparand : Comparand} (single : comparand.type ≠ .rational) :
    comparand.fraction.denominator = 1 := by
  cases comparand with
  | rational value => exact absurd rfl single
  | boolean value | character value | integer value => rfl

theorem isCanonical_of_single {comparand : Comparand} (single : comparand.type ≠ .rational) :
    comparand.IsCanonical := by
  cases comparand with
  | rational value => exact absurd rfl single
  | boolean value | character value | integer value => trivial

theorem distance_of_single (single : left.type ≠ .rational) (same : left.type = right.type) :
    left.distance right = left.fraction.numerator.toInt - right.fraction.numerator.toInt := by
  have one : (1 : Int32).toInt = 1 := rfl
  rw [distance, denominator_of_single single, denominator_of_single (same ▸ single), one,
    Int.mul_one, Int.mul_one]

theorem numerator_of_small {comparand : Comparand}
    (small : comparand.type = .boolean ∨ comparand.type = .character) :
    0 ≤ comparand.fraction.numerator.toInt ∧ comparand.fraction.numerator.toInt ≤ 255 := by
  cases comparand with
  | boolean value => cases value <;> decide
  | character value =>
      have below : value.toNat < 256 := value.toNat_lt
      have unwrapped : (Int32.ofNat value.toNat).toInt = value.toNat :=
        Int32.toInt_ofNat_of_lt (by omega)
      rw [fraction, unwrapped]
      omega
  | integer value | rational value => rcases small with small | small <;> cases small

theorem near_of_small (same : left.type = right.type)
    (small : left.type = .boolean ∨ left.type = .character) : left.Near right := by
  have single : left.type ≠ .rational := by
    rcases small with small | small <;> rw [small] <;> nofun
  have first := numerator_of_small small
  have second := numerator_of_small (same ▸ small)
  rw [Near, distance_of_single single same]
  omega

/-- Of words that are too far apart, the order comes out the wrong way round. -/
theorem holds_iff_near (single : left.type ≠ .rational) (same : left.type = right.type) :
    (relation.holds (left.difference right) = true ↔
        relation.Relates left.number right.number) ↔
      left.Near right ∨ relation = .equal ∨ relation = .notEqual := by
  have first := Magnitude.bounds left.fraction.numerator
  have second := Magnitude.bounds right.fraction.numerator
  have apart := distance_of_single single same
  rw [← relates_distance relation (isCanonical_of_single single)
    (isCanonical_of_single (same ▸ single)), relation.holds_iff, toInt_difference, Near]
  exact relation.relates_bmod (by omega) (by omega)

end Comparand

/-! ## The code of a comparison -/

namespace Comparison

open Generation Code Comparand RationalOperation

variable {word : String → Int32} {floor : Nat} {memory : Memory} {rest : List Word}

/-- The cross products of two rationals are made in scratch words. -/
theorem act_rationalDifference (layout : Cells word scratch floor) (inside : floor ≤ memory.size)
    (left right : Fraction) :
    ∃ after, Code.act word rationalDifference (.integer right.denominator ::
        .integer right.numerator :: .integer left.denominator :: .integer left.numerator :: rest)
          memory =
        some (.integer (left.numerator * right.denominator -
          right.numerator * left.denominator) :: rest, after) ∧
      Cells.Only word scratch memory after := by
  have first : floor ≤ (memory.setCell word Cell.secondDenominator right.denominator).size := by
    rwa [Memory.size_setCell]
  have second : floor ≤ ((memory.setCell word Cell.secondDenominator right.denominator).setCell word
      Cell.secondNumerator right.numerator).size := by
    rwa [Memory.size_setCell]
  have third := second
  rw [← Memory.size_setCell _ word Cell.firstDenominator left.denominator] at third
  refine ⟨((memory.setCell word Cell.secondDenominator right.denominator).setCell word
    Cell.secondNumerator right.numerator).setCell word Cell.firstDenominator left.denominator, ?_,
    (((Cells.Only.refl memory).setCell (by decide) _).setCell (by decide) _).setCell (by decide) _⟩
  simp only [rationalDifference, join_cons, join_nil, List.append_nil, List.cons_append,
    List.nil_append]
  rw [layout.act_storeCell (by decide) inside, layout.act_storeCell (by decide) first,
    layout.act_storeCell (by decide) second, layout.act_loadCell (by decide) third,
    layout.cell_setCell_other (by decide) (by decide) (by decide),
    layout.cell_setCell_other (by decide) (by decide) (by decide),
    layout.cell_setCell (by decide) inside, act_multiply, layout.act_loadCell (by decide) third,
    layout.cell_setCell_other (by decide) (by decide) (by decide),
    layout.cell_setCell (by decide) first, layout.act_loadCell (by decide) third,
    layout.cell_setCell (by decide) second, act_multiply, act_subtract, act_nil]

theorem act_difference (layout : Cells word scratch floor) (inside : floor ≤ memory.size)
    {left right : Comparand} (same : left.type = right.type) (rest : List Word) :
    ∃ subtracts after, isFloating left.type = false ∧
      Comparison.difference left.type = .ok subtracts ∧
      Code.act word subtracts (right.words ++ (left.words ++ rest)) memory =
        some (.integer (left.difference right) :: rest, after) ∧
      Cells.Only word scratch memory after := by
  cases left <;> cases right <;> cases same
  case rational left right =>
    rcases act_rationalDifference layout inside left right with ⟨after, acts, only⟩
    exact ⟨_, after, rfl, rfl, acts, only⟩
  all_goals
    refine ⟨[.subtract], memory, rfl, rfl, ?_, .refl memory⟩
    simp [words, fraction, Comparand.difference]

variable {image : Image} {limit : Option Nat} {pc : Nat} {between ready : Memory}
  {output written printed : ByteArray}

/-- The operands stand at the begin, one behind the other. -/
theorem holds_operands {relation : Relation} {type : Ty} {leftCode rightCode subtracts code : Code}
    {last next : Nat} (words : isFloating type = false)
    (made : Comparison.difference type = .ok subtracts)
    (generated : Comparison.code relation type leftCode rightCode last = .ok (code, next))
    (holds : image.Holds code pc) :
    image.Holds leftCode pc ∧ image.Holds rightCode (pc + leftCode.size) := by
  rcases code_of_difference words made generated with ⟨labels, rfl⟩
  have operands := Image.holds_append.mp ((Image.holds_label _ _ _).mp holds).2
  have second := Image.holds_append.mp ((Image.holds_label _ _ _).mp operands.2).2
  exact ⟨operands.1, second.1⟩

/-- Code that leaves the words of two values, one after the other, becomes code that leaves the
truth value of the relation, by the sign of the difference that the words come to. -/
theorem runs_of_difference (addressable : image.Addressable) {relation : Relation} {type : Ty}
    {leftCode rightCode subtracts code : Code} {last next : Nat} {difference : Int32}
    {leftWords rightWords : List Word} {after : Memory} (words : isFloating type = false)
    (made : Comparison.difference type = .ok subtracts)
    (generated : Comparison.code relation type leftCode rightCode last = .ok (code, next))
    (holds : image.Holds code pc)
    (leftRuns : Runs image limit ⟨pc, rest, memory, output⟩
      ⟨pc + leftCode.size, leftWords ++ rest, between, written⟩)
    (rightRuns : Runs image limit ⟨pc + leftCode.size, leftWords ++ rest, between, written⟩
      ⟨pc + leftCode.size + rightCode.size, rightWords ++ (leftWords ++ rest), ready, printed⟩)
    (acts : Code.act image.word subtracts (rightWords ++ (leftWords ++ rest)) ready =
      some (.integer difference :: rest, after)) :
    Runs image limit ⟨pc, rest, memory, output⟩ ⟨pc + code.size,
      .integer (truth (relation.holds difference)) :: rest, after, printed⟩ := by
  rcases code_of_difference words made generated with ⟨labels, rfl⟩
  have operands := ((Image.holds_label _ _ _).mp holds).2
  have second := ((Image.holds_label _ _ _).mp (Image.holds_append.mp operands).2).2
  have decided := ((Image.holds_label _ _ _).mp (Image.holds_append.mp second).2).2
  obtain ⟨subtracting, deciding⟩ := Image.holds_append.mp decided
  refine leftRuns.trans (rightRuns.trans ?_)
  have stop : pc + Code.size (.label (labels.label "arg1") :: (leftCode ++
      .label (labels.label "arg2") :: (rightCode ++ .label (labels.label "sub") ::
        (subtracts ++ verdict relation labels)))) =
      pc + leftCode.size + rightCode.size + subtracts.size + 5 := by
    simp [size_verdict, Instruction.isDirective]
    omega
  rw [stop]
  exact (Runs.straight subtracting acts).trans (runs_verdict addressable deciding _ rest printed)

/-- Code that leaves two values, one after the other, becomes code that leaves the truth value
of the relation, by the sign of the wrapped difference. -/
theorem runs_code (addressable : image.Addressable)
    (layout : Cells image.word scratch image.dataSize) (inside : image.dataSize ≤ ready.size)
    {relation : Relation} {left right : Comparand} (same : left.type = right.type)
    {leftCode rightCode code : Code} {last next : Nat}
    (generated : Comparison.code relation left.type leftCode rightCode last = .ok (code, next))
    (holds : image.Holds code pc)
    (leftRuns : Runs image limit ⟨pc, rest, memory, output⟩
      ⟨pc + leftCode.size, left.words ++ rest, between, written⟩)
    (rightRuns : Runs image limit ⟨pc + leftCode.size, left.words ++ rest, between, written⟩
      ⟨pc + leftCode.size + rightCode.size, right.words ++ (left.words ++ rest), ready, printed⟩) :
    ∃ after, Cells.Only image.word scratch ready after ∧
      Runs image limit ⟨pc, rest, memory, output⟩ ⟨pc + code.size,
        .integer (truth (relation.holds (left.difference right))) :: rest, after, printed⟩ := by
  rcases act_difference layout inside same rest with
    ⟨subtracts, after, words, made, acts, only⟩
  exact ⟨after, only,
    runs_of_difference addressable words made generated holds leftRuns rightRuns acts⟩

/-- Literal operands leave their values. -/
theorem runs_literals {relation : Relation} {left right : Int32} {code : Code} {last next : Nat}
    (generated : Comparison.code relation .integer [.pushI left] [.pushI right] last =
      .ok (code, next)) (holds : image.Holds code pc) :
    Runs image limit ⟨pc, rest, memory, output⟩ ⟨pc + 1, .integer left :: rest, memory, output⟩ ∧
      Runs image limit ⟨pc + 1, .integer left :: rest, memory, output⟩
        ⟨pc + 1 + 1, .integer right :: .integer left :: rest, memory, output⟩ := by
  obtain ⟨first, second⟩ := holds_operands rfl rfl generated holds
  exact ⟨Runs.straight first (by simp), Runs.straight second (by simp)⟩

end Comparison

namespace Program

variable {program : Program} {options : CompileOptions} {code leftCode rightCode piece : Code}
  {image : Image} {memory between ready : Memory} {limit : Option Nat} {pc last next : Nat}
  {rest : List Word} {output written printed : ByteArray}

/-- A comparison of two values leaves one truth value. It is that of the relation between the
numbers if their difference, or that of their cross products, is a word. Truth values and
characters are always so near each other; of integers that are not, exactly the order comes
out wrong. -/
theorem comparison_decides (compiled : program.compile options = .ok code)
    (assembled : Image.assemble code = .ok image) (addressable : image.Addressable)
    (fits : image.dataSize ≤ 2147483647) (inside : image.dataSize ≤ ready.size)
    (relation : Relation) {left right : Comparand} (same : left.type = right.type)
    (leftCanonical : left.IsCanonical) (rightCanonical : right.IsCanonical)
    (generated : Comparison.code relation left.type leftCode rightCode last = .ok (piece, next))
    (holds : image.Holds piece pc)
    (leftRuns : Runs image limit ⟨pc, rest, memory, output⟩
      ⟨pc + leftCode.size, left.words ++ rest, between, written⟩)
    (rightRuns : Runs image limit ⟨pc + leftCode.size, left.words ++ rest, between, written⟩
      ⟨pc + leftCode.size + rightCode.size, right.words ++ (left.words ++ rest), ready, printed⟩) :
    (∃ after, Cells.Only image.word RationalOperation.scratch ready after ∧
      Runs image limit ⟨pc, rest, memory, output⟩ ⟨pc + piece.size,
        .integer (truth (relation.holds (left.difference right))) :: rest, after, printed⟩) ∧
    (left.Near right → (relation.holds (left.difference right) = true ↔
      relation.Relates left.number right.number)) ∧
    (left.type = .boolean ∨ left.type = .character → left.Near right) ∧
    (left.type ≠ .rational → ((relation.holds (left.difference right) = true ↔
        relation.Relates left.number right.number) ↔
      left.Near right ∨ relation = .equal ∨ relation = .notEqual)) := by
  obtain ⟨body, composed⟩ := exists_composed compiled
  have prepared := composed.prepared assembled addressable fits
  exact ⟨Comparison.runs_code addressable prepared.rational_scratch inside same generated holds
      leftRuns rightRuns,
    Comparand.holds_of_near leftCanonical rightCanonical, Comparand.near_of_small same,
    fun single => Comparand.holds_iff_near single same⟩

/-- Compares two integers and puts the truth value into a global variable. -/
def comparing (relation : Relation) (left right : Int32) : Program where
  globalSize := 1
  body := [.declaration ⟨"verdict", .boolean, .global 0, false⟩
    (.typed .boolean (.comparison relation (.typed .integer (.integer left))
      (.typed .integer (.integer right)))) false]

theorem exists_comparing_image (relation : Relation) (left right : Int32)
    (brief : (comparing relation left right).isBrief = true) :
    ∃ code image pc piece, (comparing relation left right).compile ⟨true⟩ = .ok code ∧
      Image.assemble code = .ok image ∧ image.Addressable ∧ image.dataSize ≤ 65536 ∧
      Comparison.code relation .integer [.pushI left] [.pushI right] 0 = .ok (piece, 1) ∧
      image.Holds piece pc := by
  have plain : Plain (comparing relation left right).operations := by
    simp [Plain, comparing, operations, blockOperations, Statement.operations, Expr.operations,
      Form.operations]
  obtain ⟨code, image, body, _, pc, compiled, assembled, addressable, fits, made, holds⟩ :=
    exists_body_image brief plain (by simp [comparing])
  obtain ⟨piece, generated⟩ : ∃ piece,
      Comparison.code relation .integer [.pushI left] [.pushI right] 0 = .ok (piece, 1) := ⟨_, rfl⟩
  have body_eq : blockCode {} (comparing relation left right).body 0 =
      .ok ([.pushD Cell.globalBlock, .pushI 0, .add] ++ piece ++ Ty.boolean.storeCode, 1) := by
    cases generated
    cases relation <;> rfl
  cases body_eq.symm.trans made
  exact ⟨code, image, _, piece, compiled, assembled, addressable, fits, generated,
    (Image.holds_append.mp (Image.holds_append.mp holds).1).2⟩

/-- Minus two is less than three. -/
theorem near_compared :
    ∃ code image pc piece after, (comparing .less (-2) 3).compile ⟨true⟩ = .ok code ∧
      Image.assemble code = .ok image ∧ image.Addressable ∧ image.dataSize ≤ 2147483647 ∧
      Comparison.code .less .integer [.pushI (-2)] [.pushI 3] 0 = .ok (piece, 1) ∧
      image.Holds piece pc ∧
      Runs image none ⟨pc, [], .zeros 65536, .empty⟩
        ⟨pc + piece.size, [.integer 1], after, .empty⟩ ∧
      Relation.less.Relates (Comparand.integer (-2)).number (Comparand.integer 3).number := by
  obtain ⟨code, image, pc, piece, compiled, assembled, addressable, fits, generated, holds⟩ :=
    exists_comparing_image .less (-2) 3 (by decide +kernel)
  have inside : image.dataSize ≤ (Memory.zeros 65536).size := fits
  obtain ⟨leftRuns, rightRuns⟩ := Comparison.runs_literals generated holds
  have same : (Comparand.integer (-2)).type = (Comparand.integer 3).type := rfl
  obtain ⟨⟨after, _, runs⟩, near, _⟩ := comparison_decides compiled assembled addressable
    (by omega) inside .less same trivial trivial generated holds leftRuns rightRuns
  exact ⟨code, image, pc, piece, after, compiled, assembled, addressable, by omega, generated,
    holds, runs, (near (by decide)).mp (by decide)⟩

/-- The least word is less than one, but the code says that it is not. -/
theorem least_not_less :
    ∃ code image pc piece after, (comparing .less (-2147483648) 1).compile ⟨true⟩ = .ok code ∧
      Image.assemble code = .ok image ∧ image.Addressable ∧ image.dataSize ≤ 65536 ∧
      Comparison.code .less .integer [.pushI (-2147483648)] [.pushI 1] 0 = .ok (piece, 1) ∧
      image.Holds piece pc ∧
      Runs image none ⟨pc, [], .zeros 65536, .empty⟩
        ⟨pc + piece.size, [.integer 0], after, .empty⟩ ∧
      Relation.less.Relates (-2147483648 : ℚ) 1 := by
  obtain ⟨code, image, pc, piece, compiled, assembled, addressable, fits, generated, holds⟩ :=
    exists_comparing_image .less (-2147483648) 1 (by decide +kernel)
  obtain ⟨body, composed⟩ := exists_composed compiled
  have prepared := composed.prepared assembled addressable (by omega)
  have inside : image.dataSize ≤ (Memory.zeros 65536).size := fits
  obtain ⟨leftRuns, rightRuns⟩ := Comparison.runs_literals generated holds
  have same : (Comparand.integer (-2147483648)).type = (Comparand.integer 1).type := rfl
  obtain ⟨after, _, runs⟩ := Comparison.runs_code addressable prepared.rational_scratch inside
    same generated holds leftRuns rightRuns
  exact ⟨code, image, pc, piece, after, compiled, assembled, addressable, fits, generated, holds,
    runs, by norm_num [Relation.Relates]⟩

end Program

end StackBackend
