import StackBackend.Environment
import StackBackend.Proofs.Blocks
import StackBackend.Proofs.Cells
import StackBackend.Proofs.Fraction

namespace StackBackend

/-! The routine for lowest terms reduces the fraction that is on the stack, whatever its
terms are, or reports a zero denominator. It works in cells of its own. -/

namespace LowestTerms

open Code

/-! ## The blocks of the routine -/

def cells : List String :=
  [returnCell, numeratorCell, denominatorCell, firstCell, secondCell]

/-- Parks the arguments and looks at the denominator. -/
def park : Code :=
  Code.join [storeWord returnCell, storeWord denominatorCell, storeWord numeratorCell,
    loadWord denominatorCell]

/-- Turns both signs. -/
def turn : Code :=
  Code.join [loadWord denominatorCell, [.negate], storeWord denominatorCell,
    loadWord numeratorCell, [.negate], storeWord numeratorCell]

/-- Takes the numerator for its magnitude. -/
def copyNumerator : Code :=
  Code.join [loadWord numeratorCell, storeWord firstCell, loadWord numeratorCell]

def negateNumerator : Code :=
  Code.join [loadWord numeratorCell, [.negate], storeWord firstCell]

def copyDenominator : Code :=
  loadWord denominatorCell ++ storeWord secondCell

/-- One round of Euclid's algorithm. -/
def round : Code :=
  Code.join [loadWord firstCell, loadWord secondCell, [.remainder], loadWord secondCell,
    storeWord firstCell, storeWord secondCell]

def quotients : Code :=
  Code.join [loadWord numeratorCell, loadWord firstCell, [.divide], loadWord denominatorCell,
    loadWord firstCell, [.divide]]

/-- The routine in an image. -/
structure Installed (image : Image) : Prop where
  addressable : image.Addressable
  cells : Cells image.word cells image.dataSize
  fault : ∃ position, image.Marks Fault.rationalZeroDenominator.handler position
  atEntry : image.Labelled Entry.lowestTerms (park ++
    .jumpFalse Fault.rationalZeroDenominator.handler :: (loadWord numeratorCell ++
      .jumpTrue nonzero :: ([.pushI 0, .pushI 1] ++ [.jump exit, .label nonzero])))
  atNonzero : image.Labelled nonzero (loadWord denominatorCell ++
    .jumpPos positive :: (turn ++ [.label positive]))
  atPositive : image.Labelled positive (copyNumerator ++
    .jumpPos divisor :: (negateNumerator ++ [.label divisor]))
  atDivisor : image.Labelled divisor (copyDenominator ++ [.label loop])
  atLoop : image.Labelled loop (loadWord secondCell ++
    .jumpFalse reduce :: (round ++ [.jump loop, .label reduce]))
  atReduce : image.Labelled reduce (quotients ++ [.label exit])
  atExit : image.Labelled exit (loadWord returnCell ++ [.popPC])

theorem installed_of_holds {image : Image} (addressable : image.Addressable)
    (layout : Cells image.word cells image.dataSize)
    (fault : ∃ position, image.Marks Fault.rationalZeroDenominator.handler position)
    {position : Nat} (holds : image.Holds code position) : Installed image := by
  have parts : code = Environment.wordCells cells ++ Instruction.label Entry.lowestTerms ::
      ((park ++ Instruction.jumpFalse Fault.rationalZeroDenominator.handler ::
        (loadWord numeratorCell ++ Instruction.jumpTrue nonzero ::
          ([Instruction.pushI 0, Instruction.pushI 1] ++ [Instruction.jump exit]))) ++
        Instruction.label nonzero ::
      ((loadWord denominatorCell ++ Instruction.jumpPos positive :: turn) ++
        Instruction.label positive ::
      ((copyNumerator ++ Instruction.jumpPos divisor :: negateNumerator) ++
        Instruction.label divisor ::
      (copyDenominator ++ Instruction.label loop ::
      ((loadWord secondCell ++ Instruction.jumpFalse reduce ::
        (round ++ [Instruction.jump loop])) ++ Instruction.label reduce ::
      (quotients ++ Instruction.label exit ::
        (loadWord returnCell ++ [Instruction.popPC]))))))) := rfl
  rw [parts] at holds
  obtain ⟨atEntry, rest⟩ := (Image.labelled_of_holds holds).split
  obtain ⟨atNonzero, rest⟩ := rest.split
  obtain ⟨atPositive, rest⟩ := rest.split
  obtain ⟨atDivisor, rest⟩ := rest.split
  obtain ⟨atLoop, rest⟩ := rest.split
  obtain ⟨atReduce, atExit⟩ := rest.split
  exact ⟨addressable, layout, fault, atEntry, atNonzero, atPositive, atDivisor, atLoop, atReduce,
    atExit⟩

/-! ## What the blocks do -/

/-- The routine at work: the arguments in their cells. -/
structure Working (word : String → Int32) (before memory : Memory) (caller : Int32)
    (fraction : Fraction) : Prop where
  only : Cells.Only word cells before memory
  caller : memory.cell word returnCell = caller
  numerator : memory.cell word numeratorCell = fraction.numerator
  denominator : memory.cell word denominatorCell = fraction.denominator

section

variable {word : String → Int32} {floor : Nat} {before memory : Memory} {stack : List Word}
  {caller first second : Int32} {fraction : Fraction} (layout : Cells word cells floor)
include layout

theorem act_park (inside : floor ≤ memory.size) :
    ∃ after, Code.act word park (.integer caller :: .integer fraction.denominator ::
        .integer fraction.numerator :: stack) memory =
          some (.integer fraction.denominator :: stack, after) ∧
      Working word memory after caller fraction := by
  refine ⟨((memory.setCell word returnCell caller).setCell word denominatorCell
    fraction.denominator).setCell word numeratorCell fraction.numerator, ?_, ?_⟩
  · simp (disch := first | assumption | (simp only [Memory.size_setCell]; assumption) | decide) only
      [park, join_cons, join_nil, layout.act_storeCell, layout.act_loadCell, act_nil,
      layout.cell_setCell, layout.cell_setCell_other]
  · constructor
    · exact ((((Cells.Only.refl memory).setCell (by decide) _).setCell (by decide) _).setCell
        (by decide) _)
    all_goals
      simp (disch := first | assumption | (simp only [Memory.size_setCell]; assumption) | decide)
        only [layout.cell_setCell, layout.cell_setCell_other]

/-- The cells of the algorithm may hold anything. -/
theorem Working.setCell {name : String} (working : Working word before memory caller fraction)
    (member : name ∈ [firstCell, secondCell]) (value : Int32) :
    Working word before (memory.setCell word name value) caller fraction := by
  have apart : ∀ name ∈ [firstCell, secondCell], name ∈ cells ∧ name ≠ returnCell ∧
      name ≠ numeratorCell ∧ name ≠ denominatorCell := by decide
  obtain ⟨known, notReturn, notNumerator, notDenominator⟩ := apart name member
  constructor
  · exact working.only.setCell known value
  · rw [layout.cell_setCell_other known (by decide) notReturn, working.caller]
  · rw [layout.cell_setCell_other known (by decide) notNumerator, working.numerator]
  · rw [layout.cell_setCell_other known (by decide) notDenominator, working.denominator]

variable (inside : floor ≤ before.size)
  (working : Working word before memory caller fraction)
include inside working

theorem act_turn :
    ∃ after, Code.act word turn stack memory = some (stack, after) ∧
      Working word before after caller ⟨-fraction.numerator, -fraction.denominator⟩ := by
  have inside := working.only.floor_le inside
  refine ⟨(memory.setCell word denominatorCell (-fraction.denominator)).setCell word numeratorCell
    (-fraction.numerator), ?_, ?_⟩
  · simp (disch := first | assumption | (simp only [Memory.size_setCell]; assumption) | decide) only
      [turn, join_cons, join_nil, List.cons_append, List.nil_append, layout.act_storeCell,
      layout.act_loadCell, act_negate, act_nil, layout.cell_setCell_other, working.numerator,
      working.denominator]
  · constructor
    · exact (working.only.setCell (by decide) _).setCell (by decide) _
    all_goals
      simp (disch := first | assumption | (simp only [Memory.size_setCell]; assumption) | decide)
        only [layout.cell_setCell, layout.cell_setCell_other, working.caller]

theorem act_copyNumerator :
    Code.act word copyNumerator stack memory = some (.integer fraction.numerator :: stack,
      memory.setCell word firstCell fraction.numerator) := by
  have inside := working.only.floor_le inside
  simp (disch := first | assumption | (simp only [Memory.size_setCell]; assumption) | decide) only
    [copyNumerator, join_cons, join_nil, layout.act_storeCell, layout.act_loadCell, act_nil,
    layout.cell_setCell_other, working.numerator]

theorem act_negateNumerator :
    Code.act word negateNumerator stack memory =
      some (stack, memory.setCell word firstCell (-fraction.numerator)) := by
  have inside := working.only.floor_le inside
  simp (disch := first | assumption | decide) only [negateNumerator, join_cons, join_nil,
    List.cons_append, List.nil_append, layout.act_storeCell, layout.act_loadCell, act_negate,
    act_nil, working.numerator]

theorem act_copyDenominator :
    Code.act word copyDenominator stack memory =
      some (stack, memory.setCell word secondCell fraction.denominator) := by
  have inside := working.only.floor_le inside
  rw [copyDenominator, layout.act_loadCell (by decide) inside, working.denominator,
    layout.act_lastStore (by decide) inside]

theorem act_round (firstHeld : memory.cell word firstCell = first)
    (secondHeld : memory.cell word secondCell = second) (nonzero : second ≠ 0) :
    Code.act word round stack memory =
      some (stack, (memory.setCell word firstCell second).setCell word secondCell
        (first % second)) := by
  have inside := working.only.floor_le inside
  simp (disch := first | assumption | (simp only [Memory.size_setCell]; assumption) | decide) only
    [round, join_cons, join_nil, List.cons_append, List.nil_append, layout.act_storeCell,
    layout.act_loadCell, act_remainder, act_nil, firstHeld, secondHeld]

theorem act_quotients (firstHeld : memory.cell word firstCell = first) (nonzero : first ≠ 0) :
    Code.act word quotients stack memory =
      some (.integer (fraction.denominator / first) :: .integer (fraction.numerator / first) ::
        stack, memory) := by
  have inside := working.only.floor_le inside
  simp (disch := first | assumption | decide) only [quotients, join_cons, join_nil,
    List.cons_append, List.nil_append, layout.act_loadCell, act_divide, act_nil, firstHeld,
    working.numerator, working.denominator]

end

/-! ## Runs of the routine -/

/-- The run leaves a fraction on the stack and goes on at a position; or, without one, it
gets to the fault of zero denominators. -/
def Delivers (image : Image) (limit : Option Nat) (start : Configuration) (position : Nat)
    (stack : List Word) (after : Memory) : Option Fraction → Prop
  | some result => Runs image limit start
      ⟨position, .integer result.denominator :: .integer result.numerator :: stack, after,
        start.output⟩
  | none => ∃ handler left, image.Marks Fault.rationalZeroDenominator.handler handler ∧
      Runs image limit start ⟨handler, left, after, start.output⟩

theorem Delivers.trans {image : Image} {limit : Option Nat} {start between : Configuration}
    {position : Nat} {stack : List Word} {after : Memory} {outcome : Option Fraction}
    (runs : Runs image limit start between) (silent : between.output = start.output)
    (delivers : Delivers image limit between position stack after outcome) :
    Delivers image limit start position stack after outcome := by
  cases outcome with
  | some result => exact runs.trans (silent ▸ delivers)
  | none =>
      obtain ⟨handler, left, marks, rest⟩ := delivers
      exact ⟨handler, left, marks, runs.trans (silent ▸ rest)⟩

section

variable {image : Image} {limit : Option Nat} {before memory : Memory} {stack : List Word}
  {output : ByteArray} {fraction result : Fraction} {position here : Nat} {first second : Int32}
  (installed : Installed image)

include installed

theorem runs_exit (marks : image.Marks exit here) (inside : image.dataSize ≤ before.size)
    (return_ : position ≤ image.code.size)
    (working : Working image.word before memory (Int32.ofNat position) fraction) :
    Runs image limit ⟨here, stack, memory, output⟩ ⟨position, stack, memory, output⟩ := by
  refine Runs.leaves installed.addressable (installed.atExit.holds marks) return_ ?_
  rw [installed.cells.act_lastLoad (by decide) (working.only.floor_le inside), working.caller]

theorem runs_reduce (marks : image.Marks reduce here) (inside : image.dataSize ≤ before.size)
    (return_ : position ≤ image.code.size)
    (working : Working image.word before memory (Int32.ofNat position) fraction)
    (firstHeld : memory.cell image.word firstCell = first) (nonzero : first ≠ 0) :
    Runs image limit ⟨here, stack, memory, output⟩
      ⟨position, .integer (fraction.denominator / first) :: .integer (fraction.numerator / first) ::
        stack, memory, output⟩ := by
  obtain ⟨exitHere, exitMarks, _⟩ := installed.atExit
  refine (Runs.falls (installed.atReduce.holds marks) ?_ exitMarks).trans
    (runs_exit installed exitMarks inside return_ working)
  exact act_quotients installed.cells inside working firstHeld nonzero

/-- The loop finds the divisor of what the two cells hold, and the terms are divided. -/
theorem runs_loop (marks : image.Marks loop here) (inside : image.dataSize ≤ before.size)
    (return_ : position ≤ image.code.size)
    (working : Working image.word before memory (Int32.ofNat position) fraction)
    (firstHeld : memory.cell image.word firstCell = first)
    (secondHeld : memory.cell image.word secondCell = second)
    (nonzero : euclid first second ≠ 0) :
    ∃ after, Runs image limit ⟨here, stack, memory, output⟩
        ⟨position, .integer (fraction.denominator / euclid first second) ::
          .integer (fraction.numerator / euclid first second) :: stack, after, output⟩ ∧
      Cells.Only image.word cells before after := by
  have layout := installed.cells
  have holds := installed.atLoop.holds marks
  obtain ⟨reduceHere, reduceMarks, _⟩ := installed.atReduce
  -- The induction is along the algorithm; each round is one turn of the loop.
  fun_induction euclid first second generalizing memory with
  | case1 first =>
      have loaded : Code.act image.word (loadWord secondCell) stack memory =
          some (.integer 0 :: stack, memory) := by
        rw [layout.act_lastLoad (by decide) (working.only.floor_le inside), secondHeld]
      exact ⟨memory, (Runs.branches installed.addressable holds loaded rfl reduceMarks rfl).trans
        (runs_reduce installed reduceMarks inside return_ working firstHeld nonzero), working.only⟩
  | case2 first second more induction =>
      have loaded : Code.act image.word (loadWord secondCell) stack memory =
          some (.integer second :: stack, memory) := by
        rw [layout.act_lastLoad (by decide) (working.only.floor_le inside), secondHeld]
      obtain ⟨next, nextHolds, test⟩ := Runs.passes installed.addressable holds loaded rfl
        reduceMarks rfl (by simp [Instruction.test, more])
      have acts : Code.act image.word round stack memory = _ :=
        act_round layout inside working firstHeld secondHeld more
      have turned := (working.setCell layout (show firstCell ∈ _ by decide) second).setCell layout
        (show secondCell ∈ _ by decide) (first % second)
      have room := working.only.floor_le inside
      obtain ⟨after, rest, only⟩ := induction turned
        (by rw [layout.cell_setCell_other (by decide) (by decide) (by decide),
          layout.cell_setCell (by decide) room])
        (by rw [layout.cell_setCell (by decide) (by rwa [Memory.size_setCell])]) nonzero
      exact ⟨after, test.trans ((Runs.jumps installed.addressable nextHolds acts marks).trans rest),
        only⟩

theorem runs_divisor (marks : image.Marks divisor here) (inside : image.dataSize ≤ before.size)
    (return_ : position ≤ image.code.size)
    (working : Working image.word before memory (Int32.ofNat position) fraction)
    (firstHeld : memory.cell image.word firstCell = fraction.magnitude)
    (nonzero : euclid fraction.magnitude fraction.denominator ≠ 0) :
    ∃ after, Runs image limit ⟨here, stack, memory, output⟩
        ⟨position, .integer fraction.divided.denominator :: .integer fraction.divided.numerator ::
          stack, after, output⟩ ∧
      Cells.Only image.word cells before after := by
  have layout := installed.cells
  obtain ⟨loopHere, loopMarks, _⟩ := installed.atLoop
  have copied := working.setCell layout (show secondCell ∈ _ by decide) fraction.denominator
  obtain ⟨after, runs, only⟩ := runs_loop installed loopMarks inside return_ copied
    (by rw [layout.cell_setCell_other (by decide) (by decide) (by decide), firstHeld])
    (by rw [layout.cell_setCell (by decide) (working.only.floor_le inside)]) nonzero
  exact ⟨after, (Runs.falls (installed.atDivisor.holds marks)
    (act_copyDenominator layout inside working) loopMarks).trans runs, only⟩

theorem runs_positive (marks : image.Marks positive here) (inside : image.dataSize ≤ before.size)
    (return_ : position ≤ image.code.size)
    (working : Working image.word before memory (Int32.ofNat position) fraction)
    (nonzero : euclid fraction.magnitude fraction.denominator ≠ 0) :
    ∃ after, Runs image limit ⟨here, stack, memory, output⟩
        ⟨position, .integer fraction.divided.denominator :: .integer fraction.divided.numerator ::
          stack, after, output⟩ ∧
      Cells.Only image.word cells before after := by
  have layout := installed.cells
  have room := working.only.floor_le inside
  obtain ⟨divisorHere, divisorMarks, _⟩ := installed.atDivisor
  have holds := installed.atPositive.holds marks
  have acts : Code.act image.word copyNumerator stack memory = _ :=
    act_copyNumerator layout inside working
  have copied := working.setCell layout (show firstCell ∈ _ by decide) fraction.numerator
  by_cases above : 0 < fraction.numerator
  · obtain ⟨after, runs, only⟩ := runs_divisor installed divisorMarks inside return_ copied
      (by rw [layout.cell_setCell (by decide) room, Fraction.magnitude, if_pos above]) nonzero
    exact ⟨after, (Runs.branches installed.addressable holds acts rfl divisorMarks
      (by simp [Instruction.test, above])).trans runs, only⟩
  · obtain ⟨next, nextHolds, test⟩ := Runs.passes installed.addressable holds acts rfl
      divisorMarks rfl (by simp [Instruction.test, above])
    have negated := copied.setCell layout (show firstCell ∈ _ by decide) (-fraction.numerator)
    obtain ⟨after, runs, only⟩ := runs_divisor installed divisorMarks inside return_ negated
      (by rw [layout.cell_setCell (by decide) (by rwa [Memory.size_setCell]), Fraction.magnitude,
        if_neg above]) nonzero
    exact ⟨after, test.trans ((Runs.falls nextHolds (act_negateNumerator layout inside copied)
      divisorMarks).trans runs), only⟩

theorem runs_nonzero (marks : image.Marks nonzero here) (inside : image.dataSize ≤ before.size)
    (return_ : position ≤ image.code.size)
    (working : Working image.word before memory (Int32.ofNat position) fraction)
    (defined : fraction.denominator ≠ 0) :
    ∃ after, Runs image limit ⟨here, stack, memory, output⟩
        ⟨position, .integer fraction.upright.divided.denominator ::
          .integer fraction.upright.divided.numerator :: stack, after, output⟩ ∧
      Cells.Only image.word cells before after := by
  have layout := installed.cells
  have room := working.only.floor_le inside
  obtain ⟨positiveHere, positiveMarks, _⟩ := installed.atPositive
  have holds := installed.atNonzero.holds marks
  have divisor : euclid fraction.upright.magnitude fraction.upright.denominator ≠ 0 :=
    Fraction.divisor_ne_zero (Fraction.upright_ne_zero defined)
  have loaded : Code.act image.word (loadWord denominatorCell) stack memory =
      some (.integer fraction.denominator :: stack, memory) := by
    rw [layout.act_lastLoad (by decide) room, working.denominator]
  by_cases above : 0 < fraction.denominator
  · have same : fraction.upright = fraction := if_pos above
    rw [same] at divisor ⊢
    obtain ⟨after, runs, only⟩ := runs_positive installed positiveMarks inside return_ working
      divisor
    exact ⟨after, (Runs.branches installed.addressable holds loaded rfl positiveMarks
      (by simp [Instruction.test, above])).trans runs, only⟩
  · have same : fraction.upright = ⟨-fraction.numerator, -fraction.denominator⟩ := if_neg above
    rw [same] at divisor ⊢
    obtain ⟨next, nextHolds, test⟩ := Runs.passes installed.addressable holds loaded rfl
      positiveMarks rfl (by simp [Instruction.test, above])
    obtain ⟨turned, acts, working⟩ := act_turn layout inside working
    obtain ⟨after, runs, only⟩ := runs_positive installed positiveMarks inside return_ working
      divisor
    exact ⟨after, test.trans ((Runs.falls nextHolds acts positiveMarks).trans runs), only⟩

/-- A call with a zero denominator goes to the fault, and keeps the rest of the stack. -/
theorem runs_fault {handler : Nat} (marks : image.Marks Entry.lowestTerms here)
    (inside : image.dataSize ≤ memory.size)
    (handlerMarks : image.Marks Fault.rationalZeroDenominator.handler handler)
    (undefined : fraction.denominator = 0) :
    ∃ after, Cells.Only image.word cells memory after ∧
      Runs image limit ⟨here, .integer (Int32.ofNat position) :: .integer fraction.denominator ::
        .integer fraction.numerator :: stack, memory, output⟩ ⟨handler, stack, after, output⟩ := by
  obtain ⟨parked, acts, working⟩ := act_park installed.cells inside
  exact ⟨parked, working.only, Runs.branches installed.addressable (installed.atEntry.holds marks)
    acts rfl handlerMarks (by simp [Instruction.test, undefined])⟩

/-- A call with a fraction on the stack returns with the reduced fraction, or goes to the
fault when its denominator is zero. -/
theorem delivers_reduced (marks : image.Marks Entry.lowestTerms here)
    (inside : image.dataSize ≤ memory.size) (return_ : position ≤ image.code.size) :
    ∃ after, Cells.Only image.word cells memory after ∧
      Delivers image limit ⟨here, .integer (Int32.ofNat position) ::
        .integer fraction.denominator :: .integer fraction.numerator :: stack, memory, output⟩
        position stack after fraction.reduced := by
  have layout := installed.cells
  have holds := installed.atEntry.holds marks
  obtain ⟨handler, handlerMarks⟩ := installed.fault
  obtain ⟨nonzeroHere, nonzeroMarks, _⟩ := installed.atNonzero
  obtain ⟨exitHere, exitMarks, _⟩ := installed.atExit
  unfold Fraction.reduced
  by_cases defined : fraction.denominator = 0
  · rw [if_pos defined]
    obtain ⟨after, only, runs⟩ := runs_fault installed marks inside handlerMarks defined
    exact ⟨after, only, handler, stack, handlerMarks, runs⟩
  rw [if_neg defined]
  obtain ⟨parked, acts, working⟩ : ∃ parked,
      Code.act image.word park (.integer (Int32.ofNat position) ::
          .integer fraction.denominator :: .integer fraction.numerator :: stack) memory =
        some (.integer fraction.denominator :: stack, parked) ∧
      Working image.word memory parked (Int32.ofNat position) fraction := act_park layout inside
  obtain ⟨next, nextHolds, test⟩ := Runs.passes installed.addressable holds acts rfl handlerMarks
    rfl (by simp [Instruction.test, defined])
  have loaded : Code.act image.word (loadWord numeratorCell) stack parked =
      some (.integer fraction.numerator :: stack, parked) := by
    rw [layout.act_lastLoad (by decide) (working.only.floor_le inside), working.numerator]
  by_cases zero : fraction.numerator = 0
  · rw [if_pos zero]
    obtain ⟨last, lastHolds, again⟩ := Runs.passes installed.addressable nextHolds loaded rfl
      nonzeroMarks rfl (by simp [Instruction.test, zero])
    exact ⟨parked, working.only, test.trans (again.trans
      ((Runs.jumps installed.addressable lastHolds rfl exitMarks).trans
        (runs_exit installed exitMarks inside return_ working)))⟩
  · rw [if_neg zero]
    obtain ⟨after, runs, only⟩ := runs_nonzero installed nonzeroMarks inside return_ working defined
    exact ⟨after, only, test.trans ((Runs.branches installed.addressable nextHolds loaded rfl
      nonzeroMarks (by simp [Instruction.test, zero])).trans runs)⟩

end

end LowestTerms

end StackBackend
