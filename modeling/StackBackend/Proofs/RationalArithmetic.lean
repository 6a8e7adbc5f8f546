import StackBackend.Proofs.Correctness
import StackBackend.Proofs.LowestTerms

namespace StackBackend

/-! Rational arithmetic. An operation makes a fraction of its operands, with products and
sums of words that may wrap, and has it reduced. What it leaves is in lowest terms, and
its denominator is positive unless the least word came up on the way. -/

/-- The operations that leave a rational, with the values of their operands. -/
inductive RationalOperation where
  | add (left right : Fraction)
  | subtract (left right : Fraction)
  | multiply (left right : Fraction)
  | divide (left right : Fraction)
  | negate (operand : Fraction)
  | form (numerator denominator : Int32)
  | restate (operand : Fraction) (scale : Int32)
  | ofInteger (value : Int32)
  | ofCharacter (value : Int32)

namespace RationalOperation

open Code Arithmetic

def snippet : RationalOperation → Snippet
  | .add .. => .rationalAdd
  | .subtract .. => .rationalSubtract
  | .multiply .. => .rationalMultiply
  | .divide .. => .rationalDivide
  | .negate .. => .rationalNegate
  | .form .. => .formRational
  | .restate .. => .rationalize
  | .ofInteger _ => .integerToRational
  | .ofCharacter _ => .characterToRational

def types : RationalOperation → List Ty
  | .add .. | .subtract .. | .multiply .. | .divide .. => [.rational, .rational]
  | .negate _ => [.rational]
  | .form .. => [.integer, .integer]
  | .restate .. => [.rational, .integer]
  | .ofInteger _ => [.integer]
  | .ofCharacter _ => [.character]

/-- The operands that are rationals. -/
def operands : RationalOperation → List Fraction
  | .add left right | .subtract left right | .multiply left right | .divide left right =>
      [left, right]
  | .negate operand | .restate operand _ => [operand]
  | .form .. | .ofInteger _ | .ofCharacter _ => []

/-- The operands on the stack. -/
def stack : RationalOperation → List Word
  | .add left right | .subtract left right | .multiply left right | .divide left right =>
      [.integer right.denominator, .integer right.numerator, .integer left.denominator,
        .integer left.numerator]
  | .negate operand => [.integer operand.denominator, .integer operand.numerator]
  | .form numerator denominator => [.integer denominator, .integer numerator]
  | .restate operand scale =>
      [.integer scale, .integer operand.denominator, .integer operand.numerator]
  | .ofInteger value | .ofCharacter value => [.integer value]

/-- The fraction that is made of the operands. -/
def unreduced : RationalOperation → Fraction
  | .add left right => ⟨left.numerator * right.denominator + right.numerator * left.denominator,
      left.denominator * right.denominator⟩
  | .subtract left right =>
      ⟨left.numerator * right.denominator - right.numerator * left.denominator,
        left.denominator * right.denominator⟩
  | .multiply left right =>
      ⟨left.numerator * right.numerator, left.denominator * right.denominator⟩
  | .divide left right =>
      ⟨left.numerator * right.denominator, left.denominator * right.numerator⟩
  | .negate operand => ⟨-operand.numerator, operand.denominator⟩
  | .form numerator denominator => ⟨numerator, denominator⟩
  | .restate operand scale => ⟨operand.numerator * scale / operand.denominator, scale⟩
  | .ofInteger value | .ofCharacter value => ⟨value, 1⟩

/-- Whether the fraction is left as it is made. -/
def isFinal : RationalOperation → Bool
  | .negate _ | .ofInteger _ | .ofCharacter _ => true
  | _ => false

/-- The rational that is left; none when the operation ends in a fault. -/
def outcome (operation : RationalOperation) : Option Fraction :=
  if operation.isFinal then some operation.unreduced else operation.unreduced.reduced

/-! ## The code of operations -/

/-- The code up to the reduction. -/
def combination : RationalOperation → Code
  | .add .. => Code.join [stashOperands, product Cell.firstNumerator Cell.secondDenominator,
      product Cell.secondNumerator Cell.firstDenominator, [.add],
      product Cell.firstDenominator Cell.secondDenominator]
  | .subtract .. => Code.join [stashOperands, product Cell.firstNumerator Cell.secondDenominator,
      product Cell.secondNumerator Cell.firstDenominator, [.subtract],
      product Cell.firstDenominator Cell.secondDenominator]
  | .multiply .. => Code.join [stashOperands, product Cell.firstNumerator Cell.secondNumerator,
      product Cell.firstDenominator Cell.secondDenominator]
  | .divide .. => Code.join [stashOperands, product Cell.firstNumerator Cell.secondDenominator,
      product Cell.firstDenominator Cell.secondNumerator]
  | .negate _ => rationalNegate
  | .form .. => []
  | .restate .. => Code.join [storeWord Cell.rationalOver, restateRational,
      loadWord Cell.rationalOver]
  | .ofInteger _ | .ofCharacter _ => [.pushI 1]

def code (operation : RationalOperation) : Code :=
  match operation with
  | .negate _ | .ofInteger _ | .ofCharacter _ => operation.combination
  | .restate .. => [.duplicate] ++ .jumpFalse Fault.rationalZeroDenominator.handler ::
      (operation.combination ++ [.call Entry.lowestTerms])
  | _ => operation.combination ++ [.call Entry.lowestTerms]

theorem generates (operation : RationalOperation) (result : Ty) (last : Nat) :
    operation.snippet.code operation.types result last = .ok (operation.code, last) := by
  cases operation <;> rfl

/-- The scratch words that the code uses. -/
def scratch : List String :=
  [Cell.firstNumerator, Cell.firstDenominator, Cell.secondNumerator, Cell.secondDenominator,
    Cell.rationalOver]

variable {word : String → Int32} {floor : Nat} {memory : Memory} {rest : List Word}

/-- The operands of a binary operation in their scratch words. -/
structure Stashed (word : String → Int32) (before memory : Memory) (left right : Fraction) :
    Prop where
  only : Cells.Only word scratch before memory
  firstNumerator : memory.cell word Cell.firstNumerator = left.numerator
  firstDenominator : memory.cell word Cell.firstDenominator = left.denominator
  secondNumerator : memory.cell word Cell.secondNumerator = right.numerator
  secondDenominator : memory.cell word Cell.secondDenominator = right.denominator

section

variable (layout : Cells word scratch floor) (inside : floor ≤ memory.size)
include layout inside

theorem exists_stashed (left right : Fraction) :
    ∃ after, (∀ {others : Code} {rest : List Word}, Code.act word (stashOperands ++ others)
        (.integer right.denominator :: .integer right.numerator :: .integer left.denominator ::
          .integer left.numerator :: rest) memory = Code.act word others rest after) ∧
      Stashed word memory after left right := by
  refine ⟨(((memory.setCell word Cell.secondDenominator right.denominator).setCell word
    Cell.secondNumerator right.numerator).setCell word Cell.firstDenominator
      left.denominator).setCell word Cell.firstNumerator left.numerator, ?_, ?_⟩
  · intro others rest
    simp (disch := first | assumption | (simp only [Memory.size_setCell]; assumption) | decide) only
      [stashOperands, join_cons, join_nil, List.append_assoc, List.nil_append,
      layout.act_storeCell]
  · constructor
    · exact ((((Cells.Only.refl memory).setCell (by decide) _).setCell (by decide) _).setCell
        (by decide) _).setCell (by decide) _
    all_goals
      simp (disch := first | assumption | (simp only [Memory.size_setCell]; assumption) | decide)
        only [layout.cell_setCell, layout.cell_setCell_other]

theorem act_product {first second : String} {others : Code} (firstMember : first ∈ scratch)
    (secondMember : second ∈ scratch) :
    Code.act word (product first second ++ others) rest memory =
      Code.act word others
        (.integer (memory.cell word first * memory.cell word second) :: rest) memory := by
  rw [product, List.append_assoc, List.append_assoc, layout.act_loadCell firstMember inside,
    layout.act_loadCell secondMember inside, List.cons_append, List.nil_append, act_multiply]

/-- The product of a rational and an integer, without its fractional part. -/
theorem exists_expressed (operand : Fraction) (scale : Int32) (defined : operand.denominator ≠ 0) :
    ∃ after, (∀ others, Code.act word (storeWord Cell.rationalOver ++ restateRational ++ others)
        (.integer scale :: .integer operand.denominator :: .integer operand.numerator :: rest)
          memory = Code.act word others
            (.integer (operand.numerator * scale / operand.denominator) :: rest) after) ∧
      Cells.Only word scratch memory after ∧ after.cell word Cell.rationalOver = scale := by
  have room : floor ≤ (memory.setCell word Cell.rationalOver scale).size := by
    rwa [Memory.size_setCell]
  refine ⟨(memory.setCell word Cell.rationalOver scale).setCell word Cell.firstDenominator
    operand.denominator, fun others => ?_,
    ((Cells.Only.refl memory).setCell (by decide) _).setCell (by decide) _, ?_⟩
  · simp only [restateRational, join_cons, join_nil, List.append_assoc, List.cons_append,
      List.nil_append]
    rw [layout.act_storeCell (by decide) inside, layout.act_storeCell (by decide) room,
      layout.act_loadCell (by decide) (by rwa [Memory.size_setCell]),
      layout.cell_setCell_other (by decide) (by decide) (by decide),
      layout.cell_setCell (by decide) inside, act_multiply,
      layout.act_loadCell (by decide) (by rwa [Memory.size_setCell]),
      layout.cell_setCell (by decide) room, act_divide defined]
  · rw [layout.cell_setCell_other (by decide) (by decide) (by decide),
      layout.cell_setCell (by decide) inside]

theorem exists_restated (operand : Fraction) (scale : Int32) (defined : operand.denominator ≠ 0) :
    ∃ after, Code.act word (combination (.restate operand scale))
        (.integer scale :: .integer operand.denominator :: .integer operand.numerator :: rest)
          memory =
        some (.integer scale :: .integer (operand.numerator * scale / operand.denominator) :: rest,
          after) ∧
      Cells.Only word scratch memory after := by
  obtain ⟨after, acts, only, scaled⟩ := exists_expressed layout inside operand scale defined
  refine ⟨after, ?_, only⟩
  simp only [combination, join_cons, join_nil]
  rw [← List.append_assoc, acts, layout.act_loadCell (by decide) (only.floor_le inside), scaled,
    act_nil]

/-- The code up to the reduction makes the fraction; it divides only by the denominator of
an operand. -/
theorem act_combination (operation : RationalOperation)
    (defined : ∀ operand ∈ operation.operands, operand.denominator ≠ 0) :
    ∃ after, Code.act word operation.combination (operation.stack ++ rest) memory =
        some (.integer operation.unreduced.denominator ::
          .integer operation.unreduced.numerator :: rest, after) ∧
      Cells.Only word scratch memory after := by
  cases operation with
  | add left right | subtract left right =>
      obtain ⟨after, acts, stashed⟩ := exists_stashed layout inside left right
      have room := stashed.only.floor_le inside
      refine ⟨after, ?_, stashed.only⟩
      simp only [combination, join_cons, join_nil, stack, List.cons_append, List.nil_append, acts]
      rw [act_product layout room (by decide) (by decide),
        act_product layout room (by decide) (by decide)]
      first | rw [act_add] | rw [act_subtract]
      rw [act_product layout room (by decide) (by decide), act_nil, stashed.firstNumerator,
        stashed.firstDenominator, stashed.secondNumerator, stashed.secondDenominator]
      rfl
  | multiply left right | divide left right =>
      obtain ⟨after, acts, stashed⟩ := exists_stashed layout inside left right
      have room := stashed.only.floor_le inside
      refine ⟨after, ?_, stashed.only⟩
      simp only [combination, join_cons, join_nil, stack, List.cons_append, List.nil_append, acts]
      rw [act_product layout room (by decide) (by decide),
        act_product layout room (by decide) (by decide), act_nil, stashed.firstNumerator,
        stashed.firstDenominator, stashed.secondNumerator, stashed.secondDenominator]
      rfl
  | negate operand => exact ⟨memory, rfl, .refl memory⟩
  | form numerator denominator => exact ⟨memory, rfl, .refl memory⟩
  | restate operand scale =>
      simp only [stack, unreduced, List.cons_append, List.nil_append]
      exact exists_restated layout inside operand scale (defined operand (by simp [operands]))
  | ofInteger value | ofCharacter value => exact ⟨memory, rfl, .refl memory⟩

end

/-! ## Runs of operations -/

open LowestTerms (Delivers)

/-- All cells that an operation may change. -/
def cells : List String :=
  scratch ++ LowestTerms.cells

variable {image : Image} {limit : Option Nat} {pc : Nat} {start : List Word} {output : ByteArray}

/-- A call of the routine after straight code that leaves a fraction. -/
theorem delivers_call (installed : LowestTerms.Installed image) {piece : Code}
    {fraction : Fraction} {between : Memory}
    (holds : image.Holds (piece ++ [.call Entry.lowestTerms]) pc)
    (acts : Code.act image.word piece start memory =
      some (.integer fraction.denominator :: .integer fraction.numerator :: rest, between))
    (inside : image.dataSize ≤ between.size) :
    ∃ after, Cells.Only image.word LowestTerms.cells between after ∧
      Delivers image limit ⟨pc, start, memory, output⟩ (pc + piece.size + 1) rest after
        fraction.reduced := by
  obtain ⟨entry, marks, _⟩ := installed.atEntry
  obtain ⟨pieceHolds, callHolds⟩ := Image.holds_append.mp holds
  obtain ⟨found, _⟩ := (Image.holds_cons rfl _ _).mp callHolds
  have within : pc + piece.size < image.code.size := by
    by_contra outside
    rw [Array.getElem?_eq_none (Nat.le_of_not_lt outside)] at found
    cases found
  obtain ⟨after, only, delivers⟩ := LowestTerms.delivers_reduced installed marks inside within
  exact ⟨after, only, Delivers.trans ((Runs.straight pieceHolds acts).trans
    (Runs.call installed.addressable callHolds marks)) rfl delivers⟩

/-- An operation on rationals with denominators leaves its outcome. -/
theorem delivers_outcome (operation : RationalOperation)
    (installed : LowestTerms.Installed image) (layout : Cells image.word scratch image.dataSize)
    (holds : image.Holds operation.code pc) (inside : image.dataSize ≤ memory.size)
    (defined : ∀ operand ∈ operation.operands, operand.denominator ≠ 0) :
    ∃ after, Cells.Only image.word cells memory after ∧
      Delivers image limit ⟨pc, operation.stack ++ rest, memory, output⟩
        (pc + operation.code.size) rest after operation.outcome := by
  obtain ⟨between, acts, only⟩ := act_combination layout inside operation defined
  have room := only.floor_le inside
  have scratchKept : Cells.Only image.word cells memory between :=
    only.mono fun name member => List.mem_append_left _ member
  cases operation with
  | negate operand | ofInteger value | ofCharacter value =>
      exact ⟨between, scratchKept, Runs.straight holds acts⟩
  | add left right | subtract left right | multiply left right | divide left right
  | form numerator denominator =>
      obtain ⟨after, routine, delivers⟩ := delivers_call installed holds acts room
      refine ⟨after, scratchKept.trans (routine.mono fun name member =>
        List.mem_append_right _ member), ?_⟩
      exact delivers
  | restate operand scale =>
      obtain ⟨handler, marks⟩ := installed.fault
      have duplicated : Code.act image.word [.duplicate]
          (stack (.restate operand scale) ++ rest) memory =
            some (.integer scale :: (stack (.restate operand scale) ++ rest), memory) := rfl
      by_cases zero : scale = 0
      · -- The guard finds what the reduction would find.
        have none : outcome (.restate operand scale) = none := if_pos zero
        rw [none]
        exact ⟨memory, .refl memory, handler, _, marks, Runs.branches installed.addressable holds
          duplicated rfl marks (by simp [Instruction.test, zero])⟩
      · obtain ⟨guardHolds, branchHolds⟩ := Image.holds_append.mp holds
        obtain ⟨_, nextHolds⟩ := (Image.holds_cons rfl _ _).mp branchHolds
        have untaken : (Instruction.jumpFalse Fault.rationalZeroDenominator.handler).test
            (.integer scale) = some false := by simp [Instruction.test, zero]
        have test : Runs image limit ⟨pc, stack (.restate operand scale) ++ rest, memory, output⟩
            ⟨pc + 1 + 1, stack (.restate operand scale) ++ rest, memory, output⟩ :=
          (Runs.straight guardHolds duplicated).trans (Runs.branch installed.addressable
            branchHolds rfl marks untaken)
        obtain ⟨after, routine, delivers⟩ := delivers_call installed nextHolds acts room
        refine ⟨after, scratchKept.trans (routine.mono fun name member =>
          List.mem_append_right _ member), ?_⟩
        have size : pc + 1 + 1 + (combination (.restate operand scale)).size + 1 =
            pc + (code (.restate operand scale)).size := by
          simp [code, Instruction.isDirective]
          omega
        rw [← size]
        exact Delivers.trans test rfl delivers

/-! ## Outcomes -/

variable {operation : RationalOperation} {result : Fraction}

/-- The fraction is left as it is made, or none of its terms is the least word. -/
def Ordinary (operation : RationalOperation) : Prop :=
  operation.isFinal = true ∨ operation.unreduced.Ordinary

section

variable (canonical : ∀ operand ∈ operation.operands, operand.Canonical)
include canonical

theorem canonical_final (final : operation.isFinal = true) : operation.unreduced.Canonical := by
  cases operation with
  | negate operand =>
      obtain ⟨positive, coprime⟩ := canonical operand (by simp [operands])
      refine ⟨positive, ?_⟩
      rw [← coprime, Int.gcd, Int.gcd, unreduced, Magnitude.natAbs_neg]
  | ofInteger value | ofCharacter value =>
      have positive : 0 < (1 : Int32).toInt := by decide
      exact ⟨positive, Int.gcd_one_right ..⟩
  | _ => cases final

theorem coprime_outcome (made : operation.outcome = some result) :
    result.denominator ≠ 0 ∧ Int.gcd result.numerator.toInt result.denominator.toInt = 1 := by
  unfold outcome at made
  split at made
  · rename_i final
    cases made
    have made := canonical_final canonical final
    exact ⟨made.denominator_ne_zero, made.coprime⟩
  · exact Fraction.coprime_reduced made

theorem canonical_outcome (ordinary : operation.Ordinary) (made : operation.outcome = some result) :
    result.Canonical ∧ operation.unreduced.Same result := by
  unfold outcome at made
  split at made
  · rename_i final
    cases made
    exact ⟨canonical_final canonical final, rfl⟩
  · rename_i notFinal
    exact Fraction.canonical_reduced (ordinary.resolve_left notFinal) made

theorem outcome_eq_none : operation.outcome = none ↔ operation.unreduced.denominator = 0 := by
  unfold outcome
  split
  · rename_i final
    have defined := (canonical_final canonical final).denominator_ne_zero
    exact iff_of_false (Option.some_ne_none _) defined
  · exact Fraction.reduced_eq_none

end

end RationalOperation

/-! ## Programs -/

theorem LowestTerms.infix_environment (withDiscard : Bool) :
    LowestTerms.code <:+: Environment.code withDiscard :=
  List.infix_of_mem_flatten (by simp)

namespace Prepared

variable {code : Code} {image : Image} {size : Int32}

theorem lays_lowestTerms (prepared : Prepared code image size) :
    ∀ name ∈ LowestTerms.cells, code.Lays name 4 :=
  (prepared.routine_stands LowestTerms.infix_environment).1

theorem lowestTerms_installed (prepared : Prepared code image size) :
    LowestTerms.Installed image := by
  obtain ⟨handler, marks, _⟩ := prepared.labelled_handler .rationalZeroDenominator
  obtain ⟨_, cells, _, holds⟩ := prepared.routine_stands LowestTerms.infix_environment
  exact LowestTerms.installed_of_holds prepared.addressable cells ⟨handler, marks⟩ holds

theorem rational_scratch (prepared : Prepared code image size) :
    Cells image.word RationalOperation.scratch image.dataSize :=
  prepared.scratch_cells (by decide)

end Prepared

namespace Program

variable {program : Program} {options : CompileOptions} {code piece : Code} {image : Image}
  {memory : Memory} {limit : Option Nat} {pc last next : Nat} {rest : List Word}
  {output : ByteArray} {type : Ty}

/-- An operation on canonical rationals ends in the fault exactly if the fraction that it
makes has no denominator. Otherwise it leaves a fraction whose terms have no common divisor;
it is canonical and stands for the same number as the fraction that was made, unless the
reduction met the least word. -/
theorem rationals_reduced (compiled : program.compile options = .ok code)
    (assembled : Image.assemble code = .ok image) (addressable : image.Addressable)
    (fits : image.dataSize ≤ 2147483647) (inside : image.dataSize ≤ memory.size)
    (operation : RationalOperation)
    (canonical : ∀ operand ∈ operation.operands, operand.Canonical)
    (generated : operation.snippet.code operation.types type last = .ok (piece, next))
    (holds : image.Holds piece pc) :
    (∃ after, Cells.Only image.word RationalOperation.cells memory after ∧
      LowestTerms.Delivers image limit ⟨pc, operation.stack ++ rest, memory, output⟩
        (pc + piece.size) rest after operation.outcome) ∧
    (operation.outcome = none ↔ operation.unreduced.denominator = 0) ∧
    ∀ fraction, operation.outcome = some fraction →
      fraction.denominator ≠ 0 ∧
      Int.gcd fraction.numerator.toInt fraction.denominator.toInt = 1 ∧
      (operation.Ordinary → fraction.Canonical ∧ operation.unreduced.Same fraction) := by
  obtain ⟨body, composed⟩ := exists_composed compiled
  have prepared := composed.prepared assembled addressable fits
  rw [operation.generates] at generated
  cases generated
  refine ⟨?_, RationalOperation.outcome_eq_none canonical, fun fraction made => ?_⟩
  · exact operation.delivers_outcome prepared.lowestTerms_installed prepared.rational_scratch holds
      inside fun operand member => (canonical operand member).denominator_ne_zero
  · obtain ⟨defined, coprime⟩ := RationalOperation.coprime_outcome canonical made
    exact ⟨defined, coprime, fun ordinary =>
      RationalOperation.canonical_outcome canonical ordinary made⟩

/-- Makes a rational of two integers and puts it into a global variable. -/
def forming (numerator denominator : Int32) : Program where
  globalSize := 8
  body := [.declaration ⟨"ratio", .rational, .global 0, false⟩
    (.typed .rational (.operation (.snippet .formRational)
      [.typed .integer (.integer numerator), .typed .integer (.integer denominator)])) false]

theorem exists_forming_image (numerator denominator : Int32)
    (brief : (forming numerator denominator).isBrief = true) :
    ∃ code image pc, (forming numerator denominator).compile ⟨true⟩ = .ok code ∧
      Image.assemble code = .ok image ∧ image.Addressable ∧ image.dataSize ≤ 65536 ∧
      image.Holds Arithmetic.lowestTerms pc := by
  have plain : Plain (forming numerator denominator).operations := by
    simp [Plain, forming, operations, blockOperations, Statement.operations, Expr.operations,
      Form.operations, exprsOperations]
  obtain ⟨code, image, body, _, pc, compiled, assembled, addressable, fits, made, holds⟩ :=
    exists_body_image brief plain (by simp [forming])
  have body_eq : blockCode {} (forming numerator denominator).body 0 =
      .ok ([.pushD Cell.globalBlock, .pushI 0, .add, .pushI numerator, .pushI denominator] ++
        Arithmetic.lowestTerms ++ Ty.rational.storeCode, 0) := rfl
  cases body_eq.symm.trans made
  exact ⟨code, image, _, compiled, assembled, addressable, fits,
    (Image.holds_append.mp (Image.holds_append.mp holds).1).2⟩

theorem outcome_turned : RationalOperation.outcome (.form 6 (-4)) = some ⟨-3, 2⟩ := by
  have divisor : euclid 6 4 = 2 := by
    rw [euclid, if_neg (by decide), euclid, if_neg (by decide), euclid]
    decide
  show some (Fraction.mk (-6 / euclid 6 4) (4 / euclid 6 4)) = _
  rw [divisor]
  decide

/-- Six over minus four becomes minus three halves. -/
theorem turned_reduced :
    ∃ code image pc memory after, (forming 6 (-4)).compile ⟨true⟩ = .ok code ∧
      Image.assemble code = .ok image ∧ image.Addressable ∧ image.dataSize ≤ 2147483647 ∧
      image.dataSize ≤ memory.size ∧ image.Holds Arithmetic.lowestTerms pc ∧
      Runs image none ⟨pc, [.integer (-4), .integer 6], memory, .empty⟩
        ⟨pc + 1, [.integer 2, .integer (-3)], after, .empty⟩ ∧
      (Fraction.mk (-3) 2).Canonical := by
  obtain ⟨code, image, pc, compiled, assembled, addressable, fits, holds⟩ :=
    exists_forming_image 6 (-4) (by decide +kernel)
  have inside : image.dataSize ≤ (Memory.zeros 65536).size := fits
  obtain ⟨⟨after, _, delivers⟩, _, reduced⟩ := rationals_reduced compiled assembled addressable
    (by omega) inside (.form 6 (-4)) (by simp [RationalOperation.operands])
    (RationalOperation.generates (.form 6 (-4)) .rational 0) holds
  have canonical := (reduced _ outcome_turned).2.2 (.inr ⟨by decide, by decide⟩)
  rw [outcome_turned] at delivers
  exact ⟨code, image, pc, .zeros 65536, after, compiled, assembled, addressable, by omega, inside,
    holds, delivers, canonical.1⟩

theorem outcome_least :
    RationalOperation.outcome (.form (-2147483648) 6) = some ⟨1073741824, -3⟩ := by
  have divisor : euclid (-2147483648) 6 = -2 := by
    rw [euclid, if_neg (by decide), euclid, if_neg (by decide), euclid]
    decide
  show some (Fraction.mk (-2147483648 / euclid (-2147483648) 6) (6 / euclid (-2147483648) 6)) = _
  rw [divisor]
  decide

/-- The least word over six is left with a negative denominator. -/
theorem least_not_canonical :
    ∃ code image pc memory after, (forming (-2147483648) 6).compile ⟨true⟩ = .ok code ∧
      Image.assemble code = .ok image ∧ image.Addressable ∧ image.dataSize ≤ memory.size ∧
      image.Holds Arithmetic.lowestTerms pc ∧
      Runs image none ⟨pc, [.integer 6, .integer (-2147483648)], memory, .empty⟩
        ⟨pc + 1, [.integer (-3), .integer 1073741824], after, .empty⟩ ∧
      ¬ (Fraction.mk 1073741824 (-3)).Canonical := by
  obtain ⟨code, image, pc, compiled, assembled, addressable, fits, holds⟩ :=
    exists_forming_image (-2147483648) 6 (by decide +kernel)
  obtain ⟨body, composed⟩ := exists_composed compiled
  have prepared := composed.prepared assembled addressable (by omega)
  have inside : image.dataSize ≤ (Memory.zeros 65536).size := fits
  obtain ⟨after, _, delivers⟩ := RationalOperation.delivers_outcome (.form (-2147483648) 6)
    prepared.lowestTerms_installed prepared.rational_scratch holds inside
    (by simp [RationalOperation.operands])
  rw [outcome_least] at delivers
  refine ⟨code, image, pc, .zeros 65536, after, compiled, assembled, addressable, inside, holds,
    delivers, fun canonical => ?_⟩
  have positive := canonical.positive
  revert positive
  decide

end Program

end StackBackend
