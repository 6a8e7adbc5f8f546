import StackBackend.Proofs.Printed
import StackBackend.Proofs.Scalar

namespace StackBackend

/-! The code of a scalar expression computes what the expression evaluates to. It leaves
the value on the operand stack and everything else as it was; a fault leads to its handler,
with whatever operands were pending still on the stack. -/

open Generation Code

/-! ## Computations -/

/-- The word of a value. -/
def asWord (value : Int32) : List Word :=
  [.integer value]

/-- The words of values, the last one on top. -/
def asWords (values : List Int32) : List Word :=
  (values.map Word.integer).reverse

/-- Between two places in the code the words on top of the stack are replaced by those of
the outcome, or else a fault leads to its handler. -/
def Computes {α : Type} (image : Image) (memory : Memory) (start : Nat) (taken : List Word)
    (stop : Nat) (words : α → List Word) (outcome : Outcome α) : Prop :=
  ∃ result : Except Fault α, outcome = some result ∧ ∀ stack output,
    match result with
    | .ok value => Runs image none ⟨start, taken ++ stack, memory, output⟩
        ⟨stop, words value ++ stack, memory, output⟩
    | .error fault => ∃ extra position, image.Marks fault.handler position ∧
        Runs image none ⟨start, taken ++ stack, memory, output⟩
          ⟨position, extra ++ stack, memory, output⟩

section

variable {α β : Type} {image : Image} {memory : Memory} {start middle stop : Nat}
  {taken between : List Word} {words : α → List Word} {others : β → List Word}
  {outcome : Outcome α}

theorem Computes.after
    (runs : ∀ stack output, Runs image none ⟨start, taken ++ stack, memory, output⟩
      ⟨middle, between ++ stack, memory, output⟩)
    (computes : Computes image memory middle between stop words outcome) :
    Computes image memory start taken stop words outcome := by
  obtain ⟨result, same, later⟩ := computes
  refine ⟨result, same, fun stack output => ?_⟩
  cases result with
  | ok value => exact (runs stack output).trans (later stack output)
  | error fault =>
      obtain ⟨extra, position, marks, faults⟩ := later stack output
      exact ⟨extra, position, marks, (runs stack output).trans faults⟩

theorem Computes.bind {rest : α → Outcome β}
    (computes : Computes image memory start taken middle words outcome)
    (later : ∀ value, outcome = pure value →
      Computes image memory middle (words value) stop others (rest value)) :
    Computes image memory start taken stop others (outcome >>= rest) := by
  obtain ⟨result, rfl, runs⟩ := computes
  cases result with
  | ok value => exact (later value rfl).after runs
  | error fault => exact ⟨.error fault, rfl, runs⟩

/-- Words further down stay where they are. -/
theorem Computes.frame (computes : Computes image memory start taken stop words outcome)
    (below : List Word) :
    Computes image memory start (taken ++ below) stop (words · ++ below) outcome := by
  obtain ⟨result, same, runs⟩ := computes
  refine ⟨result, same, fun stack output => ?_⟩
  have later := runs (below ++ stack) output
  cases result with
  | ok value => simpa using later
  | error fault =>
      obtain ⟨extra, position, marks, faults⟩ := later
      exact ⟨extra ++ below, position, marks, by simpa using faults⟩

theorem computes_pure {value : α}
    (runs : ∀ stack output, Runs image none ⟨start, taken ++ stack, memory, output⟩
      ⟨stop, words value ++ stack, memory, output⟩) :
    Computes image memory start taken stop words (pure value) :=
  ⟨.ok value, rfl, runs⟩

theorem computes_straight {code : Code} {value : α} (holds : image.Holds code start)
    (acts : ∀ stack, code.act image.word (taken ++ stack) memory =
      some (words value ++ stack, memory)) :
    Computes image memory start taken (start + code.size) words (pure value) :=
  computes_pure fun stack _ => Runs.straight holds (acts stack)

end

/-! ## Variables -/

/-- The memory holds the values of the variables, and the texts of the environment. -/
structure Represents (image : Image) (bindings : List Binding) (store : Store)
    (memory : Memory) : Prop where
  texts : Texts image memory
  room : image.dataSize ≤ memory.size
  values : ∀ binding ∈ bindings, binding.type.words
    (memory.read (image.place Cell.globalBlock + binding.start) binding.type.width) =
      [.integer (store.get binding)]

section

variable {code : Code} {image : Image} {size : Int32} {bindings : List Binding} {store : Store}
  {memory : Memory}

namespace Prepared

theorem lays_globals (prepared : Prepared code image size) :
    code.Lays Cell.globalBlock size.toNatClampNeg :=
  Code.lays_of_infix prepared.globals

/-- A variable is inside the global block, and that inside the data. -/
theorem variable_inside (prepared : Prepared code image size) (laid : Laid bindings size)
    {binding : Binding} (known : binding ∈ bindings) :
    binding.start + binding.type.width ≤ size.toNatClampNeg ∧
      image.place Cell.globalBlock + size.toNatClampNeg ≤ image.dataSize := by
  have inside := laid.inside binding known
  refine ⟨?_, Image.place_add_le prepared.assembled prepared.lays_globals⟩
  unfold Int32.toNatClampNeg
  omega

/-- The address of a variable. -/
theorem names_variable (prepared : Prepared code image size) (laid : Laid bindings size)
    {binding : Binding} (known : binding ∈ bindings) :
    Address.Names (image.word Cell.globalBlock + binding.location.offset)
      (image.place Cell.globalBlock + binding.start) := by
  have nonnegative := laid.nonnegative binding known
  obtain ⟨inside, block⟩ := prepared.variable_inside laid known
  have fits := prepared.fits
  refine (prepared.names_place prepared.lays_globals).add ?_ (by omega)
  unfold Binding.start Address.index Int32.toNatClampNeg
  omega

end Prepared

theorem Represents.act_variable (represents : Represents image bindings store memory)
    (prepared : Prepared code image size) (laid : Laid bindings size) {binding : Binding}
    (known : binding ∈ bindings) (stack : List Word) :
    Code.act image.word (binding.globalAddressCode ++ binding.type.loadCode) stack memory =
      some (asWord (store.get binding) ++ stack, memory) := by
  obtain ⟨inside, block⟩ := prepared.variable_inside laid known
  have room := represents.room
  have fits := prepared.fits
  have inMemory : image.place Cell.globalBlock + binding.start + binding.type.width ≤
      memory.size := by omega
  simp only [Binding.globalAddressCode, List.cons_append, List.nil_append, act_pushD, act_pushI,
    act_add]
  rw [← List.append_nil binding.type.loadCode, Ty.act_loadCode (laid.scalar binding known).isVoid
    (prepared.names_variable laid known) inMemory (by omega) [], represents.values binding known]
  rfl

/-! ## Operators -/

/-- The code of an operator behind that of its operands. -/
def Signature.operator : Signature → Code
  | .instruction operation => [operation]
  | .snippet .integerDivide => Arithmetic.integerDivide
  | .snippet .integerToCharacter => [.pushI 127, .btAnd]
  | .snippet .integerToBoolean => [.pushI 1, .and]
  | _ => []

namespace Signature.HasType

variable {signature : Signature} {types : List Ty} {type : Ty}

theorem fragment_eq_ok (typed : signature.HasType types type) {operands : List Expr}
    {last next : Nat} {fragment : Fragment}
    (generated : Form.fragment type (.operation signature operands) last = .ok (fragment, next)) :
    ∃ values, exprValueCodes operands last = .ok (values, next) ∧
      fragment = .value (values.flatten ++ signature.operator) := by
  cases typed with
  | divide | toCharacter | toBoolean =>
      obtain ⟨values, middle, code, made, operator, rfl⟩ := Form.fragment_snippet.mp generated
      obtain ⟨rfl, rfl⟩ := pure_eq_ok.mp operator
      exact ⟨values, made, rfl⟩
  | _ => exact Form.fragment_instruction.mp generated

theorem evaluate_eq (typed : signature.HasType types type) (store : Store)
    (operands : List Expr) :
    Expr.evaluate store (.typed type (.operation signature operands)) =
      (evaluateAll store operands >>= signature.apply) := by
  cases typed <;> simp [Expr.evaluate, Form.evaluate]

/-- A division by zero goes to the handler with both operands still on the stack. -/
theorem computes_divide (prepared : Prepared code image size) {start : Nat}
    (holds : image.Holds Arithmetic.integerDivide start) (left right : Int32) :
    Computes image memory start (asWords [left, right]) (start + 3) asWord
      (Signature.apply (.snippet .integerDivide) [left, right]) := by
  obtain ⟨position, marks, _⟩ := prepared.labelled_handler .integerDivideByZero
  have parts : image.Holds ([.duplicate] ++ .jumpFalse Fault.integerDivideByZero.handler ::
      [.divide]) start := holds
  have duplicates : ∀ stack, Code.act image.word [.duplicate] (asWords [left, right] ++ stack)
      memory = some (.integer right :: (asWords [left, right] ++ stack), memory) :=
    fun stack => by simp [asWords]
  by_cases zero : right = 0
  · subst zero
    refine ⟨.error .integerDivideByZero, rfl, fun stack output =>
      ⟨asWords [left, 0], position, marks, ?_⟩⟩
    exact Runs.branches prepared.addressable parts (duplicates stack) rfl marks rfl
  · have value : Signature.apply (.snippet .integerDivide) [left, right] = pure (left / right) := by
      simp [Signature.apply, zero]
    rw [value]
    have tests : Instruction.test (.jumpFalse Fault.integerDivideByZero.handler)
        (.integer right) = some false := by simp [Instruction.test, zero]
    refine computes_pure fun stack output => ?_
    obtain ⟨duplicated, jumps⟩ := Image.holds_append.mp parts
    have divides : image.Holds [.divide] (start + 2) := ((Image.holds_cons rfl _ _).mp jumps).2
    have first : Runs image none ⟨start, asWords [left, right] ++ stack, memory, output⟩
        ⟨start + 1, .integer right :: (asWords [left, right] ++ stack), memory, output⟩ :=
      Runs.straight duplicated (duplicates stack)
    have second : Runs image none
        ⟨start + 1, .integer right :: (asWords [left, right] ++ stack), memory, output⟩
        ⟨start + 2, asWords [left, right] ++ stack, memory, output⟩ :=
      Runs.branch prepared.addressable jumps rfl marks tests
    exact (first.trans second).trans (Runs.straight divides (by
      simp [asWords, act_divide zero, asWord]))

theorem computes (typed : signature.HasType types type) (prepared : Prepared code image size)
    {start : Nat} (holds : image.Holds signature.operator start) {values : List Int32}
    (length : values.length = types.length) :
    Computes image memory start (asWords values) (start + signature.operator.size) asWord
      (signature.apply values) := by
  cases typed with
  | divide =>
      obtain ⟨left, right, rfl⟩ := List.length_eq_two.mp length
      exact computes_divide prepared holds left right
  | toCharacter | toBoolean | negate =>
      obtain ⟨value, rfl⟩ := List.length_eq_one_iff.mp length
      exact computes_straight holds fun stack => by
        simp [Signature.operator, asWords, asWord, truth]
  | add | subtract | multiply =>
      obtain ⟨left, right, rfl⟩ := List.length_eq_two.mp length
      exact computes_straight holds fun stack => by simp [Signature.operator, asWords, asWord]

end Signature.HasType

/-! ## Truth operators -/

/-- Joins the code of the operands of a truth operator. -/
def Composer.circuit (join : String) (decides : Instruction) (left right : Code) : Code :=
  Code.join [left, [.duplicate, decides, .pop], right, [.label join]]

theorem Composer.fragment_truth {composer : Composer} {left right : Fragment} {types : List Ty}
    (isTruth : composer.IsTruth) {last next : Nat} {fragment : Fragment}
    (generated : composer.fragment [left, right] types last = .ok (fragment, next)) :
    ∃ leftCode rightCode join decides, left.valueCode .boolean = .ok leftCode ∧
      right.valueCode .boolean = .ok rightCode ∧
      (composer = .shortCircuitAnd ∧ decides = .jumpFalse join ∨
        composer = .shortCircuitOr ∧ decides = .jumpTrue join) ∧
      fragment = .value (circuit join decides leftCode rightCode) := by
  obtain rfl | rfl := isTruth <;>
  · simp only [Composer.fragment, shortCircuit, bind_eq_ok, pure_eq_ok, lift_eq_ok,
      freshLabels_eq_ok] at generated
    obtain ⟨_, _, ⟨operands, rfl⟩, _, _, ⟨rfl, rfl⟩, leftCode, _, ⟨leftValue, rfl⟩, rightCode, _,
      ⟨rightValue, rfl⟩, rfl, rfl⟩ := generated
    cases operands
    exact ⟨leftCode, rightCode, _, _, leftValue, rightValue, by simp, rfl⟩

/-- After the left operand, either its value is the result or the right operand is
computed in its place. -/
theorem Composer.computes_circuit (addressable : image.Addressable) {join : String}
    {decides : Instruction} {leftCode rightCode : Code} {start : Nat} {left right : Outcome Int32}
    (holds : image.Holds (circuit join decides leftCode rightCode) start)
    (names : decides.labelOperand? = some join) (executed : decides.isDirective = false)
    {skips : Int32 → Bool}
    (tests : ∀ value, decides.test (.integer value) = some (skips value))
    (leftComputes : ∀ start, image.Holds leftCode start →
      Computes image memory start [] (start + leftCode.size) asWord left)
    (rightComputes : ∀ start, image.Holds rightCode start →
      Computes image memory start [] (start + rightCode.size) asWord right) :
    Computes image memory start [] (start + (circuit join decides leftCode rightCode).size) asWord
      (left >>= fun value => if skips value then pure value else right) := by
  have deciding : Code.size [.duplicate, decides, .pop] = 3 := by
    rw [size_cons, size_cons, executed]
    rfl
  have stop : start + (circuit join decides leftCode rightCode).size =
      start + leftCode.size + 3 + rightCode.size := by
    have joining : (Code.join [[.label join]]).size = 0 := rfl
    rw [circuit, join_cons, join_cons, size_append, size_append, deciding, join_cons, size_append,
      joining]
    omega
  obtain ⟨leftHolds, rest⟩ := Image.holds_append.mp holds
  have parts : image.Holds ([.duplicate] ++ (decides :: .pop :: (rightCode ++ [.label join])))
      (start + leftCode.size) := rest
  obtain ⟨duplicated, decided⟩ := Image.holds_append.mp parts
  have popped := ((Image.holds_cons executed _ _).mp decided).2
  obtain ⟨rightHolds, joined⟩ := Image.holds_append.mp ((Image.holds_cons rfl _ _).mp popped).2
  have marks : image.Marks join (start + leftCode.size + 3 + rightCode.size) :=
    ((Image.holds_label _ _ _).mp joined).1
  rw [stop]
  refine (leftComputes start leftHolds).bind fun value _ => ?_
  have branches : ∀ stack output, Runs image none
      ⟨start + leftCode.size, asWord value ++ stack, memory, output⟩
      ⟨if skips value then start + leftCode.size + 3 + rightCode.size
        else start + leftCode.size + 2, asWord value ++ stack, memory, output⟩ := by
    intro stack output
    have duplicates : Runs image none ⟨start + leftCode.size, asWord value ++ stack, memory, output⟩
        ⟨start + leftCode.size + 1, .integer value :: (asWord value ++ stack), memory, output⟩ :=
      Runs.straight duplicated (by simp [asWord])
    exact duplicates.trans (Runs.branch addressable decided names marks (tests value))
  by_cases skipped : skips value = true
  · simp only [if_pos skipped] at branches ⊢
    exact computes_pure branches
  · simp only [if_neg skipped] at branches ⊢
    have pops : ∀ stack output, Runs image none
        ⟨start + leftCode.size + 2, asWord value ++ stack, memory, output⟩
        ⟨start + leftCode.size + 3, [] ++ stack, memory, output⟩ := fun stack output => by
      have popHolds : image.Holds [.pop] (start + leftCode.size + 2) :=
        ⟨((Image.holds_cons rfl _ _).mp popped).1, trivial⟩
      exact Runs.straight popHolds (by simp [asWord])
    exact Computes.after (fun stack output => (branches stack output).trans (pops stack output))
      (rightComputes _ rightHolds)

/-! ## Comparisons -/

/-- A conditional jump followed by a jump goes to one of two places. -/
theorem Runs.forks (addressable : image.Addressable) {instruction : Instruction}
    {first second : String} {start firstPosition secondPosition : Nat} {rest : Code} {word : Word}
    {taken : Bool} {stack : List Word} {output : ByteArray} {limit : Option Nat}
    (holds : image.Holds (instruction :: .jump second :: rest) start)
    (executed : instruction.isDirective = false)
    (names : instruction.labelOperand? = some first) (firstMarks : image.Marks first firstPosition)
    (secondMarks : image.Marks second secondPosition) (tests : instruction.test word = some taken) :
    Runs image limit ⟨start, word :: stack, memory, output⟩
      ⟨if taken then firstPosition else secondPosition, stack, memory, output⟩ := by
  have branches : Runs image limit ⟨start, word :: stack, memory, output⟩
      ⟨if taken then firstPosition else start + 1, stack, memory, output⟩ :=
    Runs.branch addressable holds names firstMarks tests
  cases taken with
  | true => exact branches
  | false =>
      exact branches.trans
        (Runs.jump addressable ((Image.holds_cons executed _ _).mp holds).2 secondMarks)

namespace Comparison

/-- A difference on the stack decides between the two targets. -/
theorem runs_branch (addressable : image.Addressable) {relation : Relation}
    {onTrue onFalse : String} {start truePosition falsePosition : Nat} {rest : Code}
    {limit : Option Nat}
    (holds : image.Holds (branch relation false onTrue onFalse ++ rest) start)
    (trueMarks : image.Marks onTrue truePosition) (falseMarks : image.Marks onFalse falsePosition)
    (difference : Int32) (stack : List Word) (output : ByteArray) :
    Runs image limit ⟨start, .integer difference :: stack, memory, output⟩
      ⟨if relation.holds difference then truePosition else falsePosition, stack, memory,
        output⟩ := by
  have swapped : ∀ taken, relation.holds difference = !taken →
      (if relation.holds difference then truePosition else falsePosition) =
        if taken then falsePosition else truePosition := by
    rintro (_ | _) same <;> simp [same]
  cases relation with
  | greater => exact Runs.forks addressable holds rfl rfl trueMarks falseMarks rfl
  | less => exact Runs.forks addressable holds rfl rfl trueMarks falseMarks rfl
  | equal => exact Runs.forks addressable holds rfl rfl trueMarks falseMarks rfl
  | greaterEqual =>
      rw [swapped (decide (difference < 0)) (by simp [Relation.holds, ← Int32.not_lt])]
      exact Runs.forks addressable holds rfl rfl falseMarks trueMarks rfl
  | lessEqual =>
      rw [swapped (decide (0 < difference)) (by simp [Relation.holds, ← Int32.not_lt])]
      exact Runs.forks addressable holds rfl rfl falseMarks trueMarks rfl
  | notEqual =>
      rw [swapped (difference == 0) rfl]
      exact Runs.forks addressable holds rfl rfl falseMarks trueMarks rfl

/-- The code behind the difference of a comparison. -/
def verdict (relation : Relation) (labels : LabelGroup) : Code :=
  branch relation false (labels.label "true") (labels.label "false") ++
    [.label (labels.label "true"), .pushI 1, .jump (labels.label "join"),
      .label (labels.label "false"), .pushI 0, .label (labels.label "join")]

theorem size_verdict (relation : Relation) (labels : LabelGroup) :
    (verdict relation labels).size = 5 := by
  cases relation <;> rfl

/-- A difference on the stack gives way to a truth value. -/
theorem runs_verdict (addressable : image.Addressable) {relation : Relation}
    {labels : LabelGroup} {start : Nat} {limit : Option Nat}
    (holds : image.Holds (verdict relation labels) start) (difference : Int32)
    (stack : List Word) (output : ByteArray) :
    Runs image limit ⟨start, .integer difference :: stack, memory, output⟩
      ⟨start + 5, .integer (truth (relation.holds difference)) :: stack, memory, output⟩ := by
  have branching :
      (branch relation false (labels.label "true") (labels.label "false")).size = 2 := by
    cases relation <;> rfl
  have chosen := (Image.holds_append.mp holds).2
  rw [branching] at chosen
  obtain ⟨trueMarks, trueHolds⟩ := (Image.holds_label _ _ _).mp chosen
  have pushed := (Image.holds_cons rfl _ _).mp trueHolds
  have jumped := (Image.holds_cons rfl _ _).mp pushed.2
  obtain ⟨falseMarks, falseHolds⟩ := (Image.holds_label _ _ _).mp jumped.2
  have zero := (Image.holds_cons rfl _ _).mp falseHolds
  obtain ⟨joinMarks, _⟩ := (Image.holds_label _ _ _).mp zero.2
  refine (runs_branch addressable holds trueMarks falseMarks difference stack output).trans ?_
  cases relation.holds difference with
  | true =>
      have pushes : image.Holds ([.pushI 1] ++ .jump (labels.label "join") :: _) (start + 2) :=
        trueHolds
      exact Runs.jumps addressable pushes (by simp [truth]) joinMarks
  | false =>
      have pushes : image.Holds ([.pushI 0] ++ .label (labels.label "join") :: _) (start + 4) :=
        falseHolds
      exact Runs.falls pushes (by simp [truth]) joinMarks

theorem code_of_difference {relation : Relation} {type : Ty} {left right subtracts code : Code}
    {last next : Nat} (words : isFloating type = false) (made : difference type = .ok subtracts)
    (generated : Comparison.code relation type left right last = .ok (code, next)) :
    ∃ labels : LabelGroup, code = .label (labels.label "arg1") :: (left ++
      .label (labels.label "arg2") :: (right ++ .label (labels.label "sub") ::
        (subtracts ++ verdict relation labels))) := by
  simp only [Comparison.code, bind_eq_ok, pure_eq_ok, lift_eq_ok, freshLabels_eq_ok, made, words]
    at generated
  obtain ⟨_, _, ⟨rfl, rfl⟩, _, _, ⟨same, rfl⟩, rfl, rfl⟩ := generated
  cases same
  exact ⟨⟨"compare", last + 1⟩, by simp [verdict]⟩

/-- The code behind the operands of a comparison. -/
def decision (relation : Relation) (labels : LabelGroup) : Code :=
  Code.join [[.label (labels.label "sub"), .subtract],
    branch relation false (labels.label "true") (labels.label "false"),
    [.label (labels.label "true"), .pushI 1, .jump (labels.label "join"),
      .label (labels.label "false"), .pushI 0, .label (labels.label "join")]]

theorem code_scalar {relation : Relation} {type : Ty} (scalar : type.IsScalar)
    {left right code : Code} {last next : Nat}
    (generated : Comparison.code relation type left right last = .ok (code, next)) :
    ∃ labels : LabelGroup, code = .label (labels.label "arg1") :: (left ++
      .label (labels.label "arg2") :: (right ++ decision relation labels)) :=
  code_of_difference (isFloating_of_isScalar scalar) (difference_of_isScalar scalar) generated

theorem computes_decision (addressable : image.Addressable) {relation : Relation}
    {labels : LabelGroup} {start : Nat} (holds : image.Holds (decision relation labels) start)
    (left right : Int32) :
    Computes image memory start (asWords [left, right])
      (start + (decision relation labels).size) asWord
      (pure (truth (relation.holds (left - right)))) := by
  have stop : start + (decision relation labels).size = start + 1 + 5 := by
    cases relation <;> rfl
  have parts : image.Holds ([.label (labels.label "sub"), .subtract] ++ verdict relation labels)
      start := holds
  obtain ⟨subtracted, decided⟩ := Image.holds_append.mp parts
  rw [stop]
  refine computes_pure fun stack output => ?_
  have subtracts : Runs image none ⟨start, asWords [left, right] ++ stack, memory, output⟩
      ⟨start + 1, .integer (left - right) :: stack, memory, output⟩ :=
    Runs.straight subtracted (by simp [asWords])
  exact subtracts.trans (runs_verdict addressable decided (left - right) stack output)

end Comparison

/-! ## Expressions -/

theorem length_evaluateAll {operands : List Expr} {values : List Int32}
    (evaluates : evaluateAll store operands = pure values) : values.length = operands.length := by
  induction operands generalizing values with
  | nil =>
      rw [evaluateAll] at evaluates
      cases evaluates
      rfl
  | cons operand rest induction =>
      rw [evaluateAll] at evaluates
      obtain ⟨value, _, evaluates⟩ := Outcome.bind_eq_pure.mp evaluates
      obtain ⟨others, othersEvaluate, same⟩ := Outcome.bind_eq_pure.mp evaluates
      cases same
      rw [List.length_cons, List.length_cons, induction othersEvaluate]

/-- The values of operands are computed from left to right. -/
theorem computes_all {operands : List Expr}
    (each : ∀ operand ∈ operands, ∀ {last next code start},
      operand.valueCode last = .ok (code, next) → image.Holds code start →
      Computes image memory start [] (start + code.size) asWord (operand.evaluate store))
    {last next start : Nat} {values : List Code}
    (generated : exprValueCodes operands last = .ok (values, next))
    (holds : image.Holds values.flatten start) :
    Computes image memory start [] (start + Code.size values.flatten) asWords
      (evaluateAll store operands) := by
  induction operands generalizing last values start with
  | nil =>
      obtain ⟨rfl, rfl⟩ := exprValueCodes_nil.mp generated
      exact computes_straight holds fun stack => by simp [asWords]
  | cons operand rest induction =>
      obtain ⟨value, middle, others, made, othersMade, rfl⟩ := exprValueCodes_cons.mp generated
      obtain ⟨first, others⟩ := List.forall_mem_cons.mp each
      rw [List.flatten_cons] at holds ⊢
      obtain ⟨valueHolds, othersHold⟩ := Image.holds_append.mp holds
      rw [evaluateAll, size_append, ← Nat.add_assoc]
      refine (first made valueHolds).bind fun result _ => ?_
      refine ((induction others othersMade othersHold).frame (asWord result)).bind
        fun results _ => ?_
      exact computes_pure fun stack output => by simpa [asWords, asWord] using Runs.refl _

theorem Expr.valueCode_typed {type : Ty} {form : Form} {last next : Nat} {value : Code} :
    (Expr.typed type form).valueCode last = .ok (value, next) ↔
      ∃ fragment, form.fragment type last = .ok (fragment, next) ∧
        fragment.valueCode type = .ok value := by
  rw [Expr.valueCode_eq_ok, Expr.fragment_eq]
  rfl

theorem Expr.IsScalar.computes (prepared : Prepared code image size) (laid : Laid bindings size)
    (represents : Represents image bindings store memory) {expression : Expr}
    (scalar : expression.IsScalar bindings) {last next start : Nat} {value : Code}
    (generated : expression.valueCode last = .ok (value, next))
    (holds : image.Holds value start) :
    Computes image memory start [] (start + value.size) asWord (expression.evaluate store) := by
  induction scalar generalizing last next start value with
  | boolean literal =>
      obtain ⟨_, made, valued⟩ := Expr.valueCode_typed.mp generated
      obtain ⟨rfl, rfl⟩ := Form.fragment_boolean.mp made
      cases valued
      exact computes_straight holds fun stack => by
        cases literal <;> simp [asWord, StackBackend.truth]
  | character literal =>
      obtain ⟨_, made, valued⟩ := Expr.valueCode_typed.mp generated
      obtain ⟨rfl, rfl⟩ := Form.fragment_character.mp made
      cases valued
      exact computes_straight holds fun stack => by simp [asWord]
  | integer literal =>
      obtain ⟨_, made, valued⟩ := Expr.valueCode_typed.mp generated
      obtain ⟨rfl, rfl⟩ := Form.fragment_integer.mp made
      cases valued
      exact computes_straight holds fun stack => by simp [asWord]
  | @identifier binding known =>
      obtain ⟨_, made, valued⟩ := Expr.valueCode_typed.mp generated
      obtain ⟨address, addressed, rfl, rfl⟩ := Form.fragment_identifier.mp made
      obtain ⟨kind, _⟩ | ⟨_, _, rfl⟩ := Fragment.valueCode_eq_ok.mp valued
      · cases kind
      · rw [laid.addressCode known] at addressed
        cases addressed
        exact computes_straight holds (represents.act_variable prepared laid known)
  | operation typed operandTypes _ induction =>
      obtain ⟨_, made, valued⟩ := Expr.valueCode_typed.mp generated
      obtain ⟨values, valuesMade, rfl⟩ := typed.fragment_eq_ok made
      cases valued
      obtain ⟨valuesHold, operatorHolds⟩ := Image.holds_append.mp holds
      rw [typed.evaluate_eq, Fragment.code_value, size_append, ← Nat.add_assoc]
      refine (computes_all (fun operand member => induction operand member) valuesMade
        valuesHold).bind fun results evaluated => ?_
      refine typed.computes prepared operatorHolds ?_
      rw [length_evaluateAll evaluated, ← operandTypes, List.length_map]
  | @truth composer left right isTruth leftType rightType _ _ leftComputes rightComputes =>
      obtain ⟨_, made, valued⟩ := Expr.valueCode_typed.mp generated
      obtain ⟨fragments, middle, fragmentsMade, composed⟩ := Form.fragment_full.mp made
      obtain ⟨leftFragment, between, _, leftMade, restMade, rfl⟩ :=
        exprFragments_cons.mp fragmentsMade
      obtain ⟨rightFragment, _, _, rightMade, noneMade, rfl⟩ := exprFragments_cons.mp restMade
      obtain ⟨rfl, rfl⟩ := exprFragments_nil.mp noneMade
      obtain ⟨leftCode, rightCode, join, decides, leftValue, rightValue, deciding, rfl⟩ :=
        Composer.fragment_truth isTruth composed
      cases valued
      have leftGenerated : left.valueCode last = .ok (leftCode, between) :=
        Expr.valueCode_eq_ok.mpr ⟨leftFragment, leftMade, leftType ▸ leftValue⟩
      have rightGenerated : right.valueCode between = .ok (rightCode, _) :=
        Expr.valueCode_eq_ok.mpr ⟨rightFragment, rightMade, rightType ▸ rightValue⟩
      obtain ⟨rfl, rfl⟩ | ⟨rfl, rfl⟩ := deciding
      · have evaluates : Expr.evaluate store (.typed .boolean
            (.operation (.full .shortCircuitAnd) [left, right])) = (left.evaluate store >>=
              fun value => if (value == 0) = true then pure value else right.evaluate store) := by
          simp [Expr.evaluate, Form.evaluate]
        rw [evaluates]
        exact Composer.computes_circuit prepared.addressable holds rfl rfl (fun _ => rfl)
          (fun _ leftHolds => leftComputes leftGenerated leftHolds)
          (fun _ rightHolds => rightComputes rightGenerated rightHolds)
      · have evaluates : Expr.evaluate store (.typed .boolean
            (.operation (.full .shortCircuitOr) [left, right])) = (left.evaluate store >>=
              fun value => if (value != 0) = true then pure value else right.evaluate store) := by
          simp [Expr.evaluate, Form.evaluate]
        rw [evaluates]
        exact Composer.computes_circuit prepared.addressable holds rfl rfl (fun _ => rfl)
          (fun _ leftHolds => leftComputes leftGenerated leftHolds)
          (fun _ rightHolds => rightComputes rightGenerated rightHolds)
  | @comparison relation left right same leftScalar rightScalar leftComputes rightComputes =>
      obtain ⟨_, made, valued⟩ := Expr.valueCode_typed.mp generated
      obtain ⟨leftCode, middle, rightCode, middle', code, leftMade, rightMade, compared, rfl⟩ :=
        Form.fragment_comparison.mp made
      cases valued
      obtain ⟨labels, rfl⟩ := Comparison.code_scalar (leftScalar.isScalar_type laid) compared
      obtain ⟨_, leftHolds⟩ := (Image.holds_label _ _ _).mp holds
      obtain ⟨leftHolds, rest⟩ := Image.holds_append.mp leftHolds
      obtain ⟨_, rightHolds⟩ := (Image.holds_label _ _ _).mp rest
      obtain ⟨rightHolds, decided⟩ := Image.holds_append.mp rightHolds
      rw [Expr.evaluate, Form.evaluate]
      have stop : start + Code.size (.label (labels.label "arg1") :: (leftCode ++
          .label (labels.label "arg2") :: (rightCode ++ Comparison.decision relation labels))) =
          start + leftCode.size + rightCode.size + (Comparison.decision relation labels).size := by
        simp only [size_cons, size_append, Instruction.isDirective, if_true]
        omega
      rw [Fragment.code_value, stop]
      refine (leftComputes leftMade leftHolds).bind fun first _ => ?_
      refine ((rightComputes rightMade rightHolds).frame (asWord first)).bind fun second _ => ?_
      exact Comparison.computes_decision prepared.addressable decided first second

end

end StackBackend
