import StackBackend.Proofs.Calling
import StackBackend.Proofs.Serial

namespace StackBackend

/-! Every piece of generated code is numbered by the serial numbers drawn while it
was made. -/

/-! ## Pieces without labels -/

namespace Code

@[simp] theorem defines_label (name other : String) (rest : Code) :
    defines name (.label other :: rest) = (if other = name then 1 else 0) + defines name rest := by
  simp [Instruction.definition?]

@[simp] theorem defines_dataLabel (name other : String) (rest : Code) :
    defines name (.dataLabel other :: rest) =
      (if other = name then 1 else 0) + defines name rest := by
  simp [Instruction.definition?]

variable {name : String}

@[simp] theorem defines_loadWord (cell : String) : defines name (loadWord cell) = 0 := rfl

@[simp] theorem defines_storeWord (cell : String) : defines name (storeWord cell) = 0 := rfl

@[simp] theorem defines_increment (cell : String) : defines name (increment cell) = 0 := rfl

@[simp] theorem defines_decrement (cell : String) : defines name (decrement cell) = 0 := rfl

@[simp] theorem defines_addOffset (offset : Int32) : defines name (addOffset offset) = 0 := by
  unfold addOffset
  split <;> rfl

@[simp] theorem defines_readWord (offset : Int32) : defines name (readWord offset) = 0 := by
  simp [readWord, Instruction.definition?]

@[simp] theorem defines_writeWord (offset : Int32) : defines name (writeWord offset) = 0 := by
  unfold writeWord
  split <;> rfl

@[simp] theorem defines_loadCode (type : Ty) : defines name type.loadCode = 0 := by
  cases type <;> rfl

@[simp] theorem defines_storeCode (type : Ty) : defines name type.storeCode = 0 := by
  cases type <;> simp [Ty.storeCode, Instruction.definition?]

@[simp] theorem defines_stash (type : Ty) (cell : String) :
    defines name (type.stash cell) = 0 := by
  cases type <;> simp [Ty.stash, Instruction.definition?]

@[simp] theorem defines_unstash (type : Ty) (cell : String) :
    defines name (type.unstash cell) = 0 := by
  cases type <;> simp [Ty.unstash, Instruction.definition?]

@[simp] theorem defines_discard (type : Ty) : defines name type.discard = 0 := by
  cases type <;> rfl

theorem defines_flatMap {α : Type} {items : List α} {code : α → Code}
    (none : ∀ item ∈ items, defines name (code item) = 0) :
    defines name (items.flatMap code) = 0 := by
  induction items with
  | nil => rfl
  | cons item rest induction =>
      rw [List.flatMap_cons, defines_append, none item (by simp),
        induction fun other member => none other (by simp [member])]

@[simp] theorem defines_save (bracket : Bracket) : defines name bracket.save = 0 :=
  defines_flatMap fun _ _ => rfl

@[simp] theorem defines_restore (bracket : Bracket) : defines name bracket.restore = 0 :=
  defines_flatMap fun _ _ => rfl

@[simp] theorem defines_restoreUnder (bracket : Bracket) (type : Ty) (cell : String) :
    defines name (bracket.restoreUnder type cell) = 0 := by
  simp [Bracket.restoreUnder]

@[simp] theorem defines_nullCheck : defines name Record.nullCheck = 0 := rfl

@[simp] theorem defines_elementAddress (header element : Int32) :
    defines name (Record.elementAddress header element) = 0 := by
  unfold Record.elementAddress
  split <;> simp [Instruction.definition?]

@[simp] theorem defines_allocateRecord (typeId status : Int32) :
    defines name (Record.allocateRecord typeId status) = 0 := by
  simp [Record.allocateRecord, Instruction.definition?]

@[simp] theorem defines_allocateEmptyArray (status element : Int32) :
    defines name (Record.allocateEmptyArray status element) = 0 := by
  simp [Record.allocateEmptyArray, Instruction.definition?]

@[simp] theorem defines_allocateString (status : Int32) :
    defines name (Record.allocateString status) = 0 := by
  simp [Record.allocateString, Instruction.definition?]

@[simp] theorem defines_printText (cell : String) :
    defines name (Printing.printText cell) = 0 := rfl

@[simp] theorem defines_reserve (type : Ty) : defines name (Frame.reserve type) = 0 := by
  simp [Frame.reserve, Instruction.definition?]

@[simp] theorem defines_result (type : Ty) : defines name (Frame.result type) = 0 := by
  unfold Frame.result
  split <;> simp [Instruction.definition?]

@[simp] theorem defines_leave (parameterSize : Int32) (type : Ty) :
    defines name (Frame.leave parameterSize type) = 0 := by
  simp [Frame.leave, Instruction.definition?]

theorem defines_of_definition?_eq_none (name : String) {instruction : Instruction}
    (none : instruction.definition? = none) (rest : Code) :
    defines name (instruction :: rest) = defines name rest := by
  rw [defines_cons, none]
  exact Nat.zero_add _

end Code

/-! ## Operators -/

open Generation

section

variable {last next : Nat} {code : Code}

theorem Location.defines_addressCode {location : Location} {delta : Int32}
    (generated : location.addressCode delta = .ok code) (name : String) :
    code.defines name = 0 := by
  obtain ⟨offset, _, built⟩ := Except.bind_eq_ok.mp generated
  cases location <;> cases built <;> rfl

namespace Ty

theorem defines_load {type : Ty} (generated : type.load = .ok code) (name : String) :
    code.defines name = 0 := by
  obtain ⟨_, rfl⟩ := load_eq_ok.mp generated
  simp

theorem defines_store {type : Ty} (generated : type.store = .ok code) (name : String) :
    code.defines name = 0 := by
  obtain ⟨_, rfl⟩ := store_eq_ok.mp generated
  simp

end Ty

namespace Arithmetic

theorem unlabelled_rationalize {operand : Ty} (generated : rationalize operand = .ok code) :
    code.Unlabelled := by
  intro name
  unfold rationalize at generated
  cases operand <;> cases generated <;>
    simp [restateRational, lowestTerms, Instruction.definition?]

theorem unlabelled_expressOver {operand : Ty} (generated : expressOver operand = .ok code) :
    code.Unlabelled := by
  intro name
  unfold expressOver at generated
  cases operand <;> cases generated <;> simp [restateRational, Instruction.definition?]

end Arithmetic

namespace Sequence

theorem unlabelled_length {sequence : Ty} (generated : length sequence = .ok code) :
    code.Unlabelled := by
  intro name
  obtain ⟨layout, _, built⟩ := Except.bind_eq_ok.mp generated
  cases built
  simp

theorem unlabelled_allocateLike {sequence : Ty} (generated : allocateLike sequence = .ok code) :
    code.Unlabelled := by
  intro name
  unfold allocateLike at generated
  cases sequence <;> cases generated <;> simp [allocate]

theorem numbered_reverse {sequence : Ty} (generated : reverse sequence last = .ok (code, next)) :
    code.Numbered last next := by
  simp only [reverse, bind_eq_ok, pure_eq_ok, lift_eq_ok, freshLabels_eq_ok] at generated
  obtain ⟨layout, _, ⟨_, rfl⟩, labels, _, ⟨rfl, rfl⟩, allocation, _, ⟨allocated, rfl⟩, rfl, rfl⟩ :=
    generated
  refine (Code.numbered_labels "reverse" ["loop", "done"] (by decide) (by decide)).congr
    fun name => ?_
  simp [unlabelled_allocateLike allocated name, sourceLength, Code.labels,
    Instruction.definition?]

theorem numbered_index {sequence index : Code} {type : Ty} {middle : Nat}
    (numbered : (sequence ++ index).Numbered last middle)
    (generated : Sequence.index sequence index type middle = .ok (code, next)) :
    code.Numbered last next := by
  simp only [Sequence.index, bind_eq_ok, pure_eq_ok, lift_eq_ok, freshLabels_eq_ok] at generated
  obtain ⟨layout, _, ⟨_, rfl⟩, labels, _, ⟨rfl, rfl⟩, rfl, rfl⟩ := generated
  refine (numbered.append (Code.numbered_labels "index" ["in-bounds"] (by decide)
    (by decide))).congr fun name => ?_
  simp [Code.labels, Instruction.definition?]

end Sequence

theorem Text.numbered_substring (generated : Text.substring last = .ok (code, next)) :
    code.Numbered last next := by
  simp only [Text.substring, bind_eq_ok, pure_eq_ok, freshLabels_eq_ok] at generated
  obtain ⟨labels, _, ⟨rfl, rfl⟩, rfl, rfl⟩ := generated
  refine (Code.numbered_labels "substring" ["start-ok", "indices-ok"] (by decide)
    (by decide)).congr fun name => ?_
  simp [Text.lengthOf, Text.charactersOf, Text.span, Code.labels, Instruction.definition?]

theorem Comparison.numbered {relation : Relation} {type : Ty} {left right : Code} {middle : Nat}
    (numbered : (left ++ right).Numbered last middle)
    (generated : Comparison.code relation type left right middle = .ok (code, next)) :
    code.Numbered last next := by
  simp only [Comparison.code, bind_eq_ok, pure_eq_ok, lift_eq_ok, freshLabels_eq_ok] at generated
  obtain ⟨labels, _, ⟨rfl, rfl⟩, difference, _, ⟨found, rfl⟩, rfl, rfl⟩ := generated
  have subtracts : difference.Unlabelled := by
    intro name
    cases type <;> simp only [Comparison.difference, Except.ok.injEq, reduceCtorEq] at found <;>
      subst found <;> simp [rationalDifference, Instruction.definition?]
  have branches : ∀ onTrue onFalse,
      (Comparison.branch relation (isFloating type) onTrue onFalse).Unlabelled := by
    intro onTrue onFalse name
    cases relation <;> cases isFloating type <;> rfl
  refine (numbered.append (Code.numbered_labels "compare" ["arg1", "arg2", "sub", "true", "false",
    "join"] (by decide) (by decide))).congr
    fun name => ?_
  simp [subtracts name, branches _ _ name, Code.labels, Instruction.definition?]
  omega

namespace HigherOrder

theorem defines_currentElement {cell : String} {element : Ty}
    (generated : currentElement cell element = .ok code) (name : String) :
    code.defines name = 0 := by
  obtain ⟨_, rfl⟩ := currentElement_eq_ok.mp generated
  simp

theorem defines_firstElement {cell : String} {element : Ty}
    (generated : firstElement cell element = .ok code) (name : String) :
    code.defines name = 0 := by
  obtain ⟨_, rfl⟩ := firstElement_eq_ok.mp generated
  simp

theorem defines_invoke {callee : Code} {arguments : List (Code × Ty)} {result : Ty}
    (generated : Frame.invoke callee arguments result = .ok code) (name : String) :
    code.defines name =
      Code.defines name (arguments.map Prod.fst).flatten + callee.defines name := by
  obtain ⟨values, rfl⟩ := Frame.invoke_eq_ok.mp generated
  have passed : Code.defines name (Frame.passCodes arguments) =
      Code.defines name (arguments.map Prod.fst).flatten := by
    clear generated values
    induction arguments with
    | nil => rfl
    | cons argument rest induction =>
        rw [Frame.passCodes_cons, Code.defines_append, induction]
        simp [Frame.passCode]
  simp [passed, Instruction.definition?]

variable {middle : Nat} {array function : Code}

theorem numbered_map {arrayType functionType : Ty}
    (numbered : (array ++ function).Numbered last middle)
    (generated : map array arrayType function functionType middle = .ok (code, next)) :
    code.Numbered last next := by
  simp only [map, bind_eq_ok, pure_eq_ok, lift_eq_ok, freshLabels_eq_ok] at generated
  obtain ⟨element, _, ⟨_, rfl⟩, result, _, ⟨_, rfl⟩, labels, _, ⟨rfl, rfl⟩, current, _,
    ⟨found, rfl⟩, call, _, ⟨called, rfl⟩, store, _, ⟨stored, rfl⟩, rfl, rfl⟩ := generated
  refine (numbered.append (Code.numbered_labels "map" ["loop", "done"] (by decide)
    (by decide))).congr fun name => ?_
  simp [defines_invoke called name, defines_currentElement found name, Ty.defines_store stored name,
    bracketed, operand, operandLength, allocateResult, loop, loopTest, resultSlot, callee,
    Code.labels, Instruction.definition?]

theorem numbered_zip {first second : Code} {firstType secondType functionType : Ty}
    (numbered : (first ++ second ++ function).Numbered last middle)
    (generated : zip first firstType second secondType function functionType middle =
      .ok (code, next)) :
    code.Numbered last next := by
  simp only [zip, bind_eq_ok, pure_eq_ok, lift_eq_ok, freshLabels_eq_ok] at generated
  obtain ⟨_, _, ⟨_, rfl⟩, _, _, ⟨_, rfl⟩, result, _, ⟨_, rfl⟩, labels, _, ⟨rfl, rfl⟩, current, _,
    ⟨found, rfl⟩, other, _, ⟨otherFound, rfl⟩, call, _, ⟨called, rfl⟩, store, _, ⟨stored, rfl⟩,
    rfl, rfl⟩ := generated
  refine (numbered.append (Code.numbered_labels "zip" ["loop", "done"] (by decide)
    (by decide))).congr fun name => ?_
  simp [defines_invoke called name, defines_currentElement found name,
    defines_currentElement otherFound name, Ty.defines_store stored name, bracketed, operand,
    operandLength, allocateResult, loop, loopTest, resultSlot, callee, Code.labels,
    Instruction.definition?]

theorem defines_foldStart {element : Ty} {base : Option Code} {start : Code} {first : Int32}
    (generated : foldStart element base = .ok (start, first)) (name : String) :
    start.defines name = Code.defines name (base.getD []) := by
  cases base with
  | none =>
      obtain ⟨code, found, built⟩ := Except.bind_eq_ok.mp generated
      cases built
      simp [defines_firstElement found name]
  | some base =>
      cases generated
      rfl

theorem numbered_fold {arrayType functionType : Ty} {base : Option Code}
    (numbered : (array ++ base.getD [] ++ function).Numbered last middle)
    (generated : fold array arrayType base function functionType middle = .ok (code, next)) :
    code.Numbered last next := by
  obtain ⟨element, accumulator, start, first, current, call, _, _, started, found, called, rfl,
    rfl⟩ := fold_eq_ok.mp generated
  refine (numbered.append (Code.numbered_labels "fold" ["loop", "done"] (by decide)
    (by decide))).congr fun name => ?_
  simp [defines_invoke called name, defines_currentElement found name,
    defines_foldStart started name, bracketed, operand, operandLength, loop, loopTest, callee,
    Code.labels, Instruction.definition?]

theorem numbered_reduce {arrayType : Ty}
    (numbered : (array ++ function).Numbered last middle)
    (generated : reduce array arrayType function middle = .ok (code, next)) :
    code.Numbered last next := by
  simp only [reduce, bind_eq_ok, pure_eq_ok, lift_eq_ok, freshLabels_eq_ok] at generated
  obtain ⟨element, _, ⟨_, rfl⟩, labels, _, ⟨rfl, rfl⟩, current, _, ⟨found, rfl⟩, call, _,
    ⟨called, rfl⟩, rfl, rfl⟩ := generated
  refine (numbered.append (Code.numbered_labels "reduce" ["loop", "done", "skip", "copy",
    "copy-done", "copy-next"] (by decide) (by decide))).congr fun name => ?_
  simp [defines_invoke called name, defines_currentElement found name, bracketed, operand,
    operandLength, judge, copyKept, loop, loopTest, resultSlot, callee, Code.labels,
    Instruction.definition?]
  omega

end HigherOrder

namespace Printing

theorem numbered_value {last next : Nat} {code : Code} :
    (type : Ty) → value type last = .ok (code, next) → code.Numbered last next
  | .boolean, generated => by
      simp only [value, bind_eq_ok, pure_eq_ok, freshLabels_eq_ok] at generated
      obtain ⟨labels, _, ⟨rfl, rfl⟩, rfl, rfl⟩ := generated
      refine (Code.numbered_labels "print-boolean" ["false", "join"] (by decide) (by decide)).congr
        fun name => ?_
      simp [boolean, Code.labels, Instruction.definition?]
  | .rational, generated => by
      simp only [value, bind_eq_ok, pure_eq_ok, freshLabels_eq_ok] at generated
      obtain ⟨labels, _, ⟨rfl, rfl⟩, rfl, rfl⟩ := generated
      refine (Code.numbered_labels "print-rational" ["nonzero", "positive", "fraction", "end"]
        (by decide) (by decide)).congr fun name => ?_
      simp [rational, integralPart, fractionalPart, Code.labels, Instruction.definition?]
  | .array element, generated => by
      simp only [value, bind_eq_ok, pure_eq_ok, lift_eq_ok, freshLabels_eq_ok] at generated
      obtain ⟨labels, _, ⟨rfl, rfl⟩, load, _, ⟨loaded, rfl⟩, print, _, printed, rfl, rfl⟩ :=
        generated
      refine ((Code.numbered_labels "print-array" ["body", "done"] (by decide) (by decide)).append
        (numbered_value element printed)).congr
        fun name => ?_
      simp [array, Ty.defines_load loaded name, Code.labels, Instruction.definition?]
      omega
  | .void, generated => by simp [value, throw_eq_ok] at generated
  | .integer, generated | .character, generated | .floating, generated | .string, generated
  | .lambda _ _, generated => by
      simp only [value, pure_eq_ok] at generated
      obtain ⟨rfl, rfl⟩ := generated
      refine Code.Unlabelled.numbered (fun name => ?_) _
      simp [string, Instruction.definition?]

end Printing

theorem Snippet.numbered {snippet : Snippet} {operands : List Ty} {result : Ty}
    (generated : snippet.code operands result last = .ok (code, next)) :
    code.Numbered last next := by
  cases snippet <;> simp only [Snippet.code, bind_eq_ok, pure_eq_ok, lift_eq_ok] at generated
  case rationalize =>
    obtain ⟨operand, _, ⟨_, rfl⟩, built, rfl⟩ := generated
    exact (Arithmetic.unlabelled_rationalize built).numbered _
  case expressOver =>
    obtain ⟨operand, _, ⟨_, rfl⟩, built, rfl⟩ := generated
    exact (Arithmetic.unlabelled_expressOver built).numbered _
  case floatingToRational =>
    obtain ⟨built, rfl⟩ := generated
    obtain ⟨rest, rationalized, built⟩ := Except.bind_eq_ok.mp built
    cases built
    refine ((Arithmetic.unlabelled_rationalize rationalized).numbered _).congr fun name => ?_
    simp [Instruction.definition?]
  case arrayLength | stringLength =>
    obtain ⟨operand, _, ⟨_, rfl⟩, built, rfl⟩ := generated
    exact (Sequence.unlabelled_length built).numbered _
  case arrayReverse | stringReverse =>
    obtain ⟨operand, _, ⟨_, rfl⟩, built⟩ := generated
    exact Sequence.numbered_reverse built
  case substring => exact Text.numbered_substring generated
  case arrayAllocate =>
    obtain ⟨element, _, ⟨_, rfl⟩, rfl, rfl⟩ := generated
    refine Code.Unlabelled.numbered (fun name => ?_) _
    simp [Sequence.allocate]
  case arrayClone =>
    obtain ⟨operand, _, ⟨_, rfl⟩, element, _, ⟨_, rfl⟩, rfl, rfl⟩ := generated
    refine Code.Unlabelled.numbered (fun name => ?_) _
    simp [Sequence.clone, Sequence.allocate, Sequence.sourceLength, Instruction.definition?]
  all_goals
    obtain ⟨rfl, rfl⟩ := generated
    refine Code.Unlabelled.numbered (fun name => ?_) _
    simp [Arithmetic.integerDivide, Arithmetic.floatingDivide, Arithmetic.rationalAdd,
      Arithmetic.rationalSubtract, Arithmetic.rationalMultiply, Arithmetic.rationalDivide,
      Arithmetic.rationalNegate, Arithmetic.lowestTerms, Arithmetic.crossSum,
      Arithmetic.stashOperands, Arithmetic.product, Arithmetic.rationalToFloating,
      Text.concatenate, Text.appendCharacter, Text.prependCharacter, Text.lengthOf,
      Text.copyCharacters, Text.copyFrom, Text.charactersOf, Instruction.definition?]

/-! ## Composers -/

theorem Fragment.defines_valueCode {fragment : Fragment} {type : Ty}
    (generated : fragment.valueCode type = .ok code) (name : String) :
    code.defines name = fragment.code.defines name := by
  obtain ⟨_, rfl⟩ | ⟨_, _, rfl⟩ := Fragment.valueCode_eq_ok.mp generated <;> simp

namespace Composer

theorem lastTwo_eq_ok {operands : List Fragment} {left right : Fragment}
    (found : lastTwo operands = .ok (left, right)) :
    ∃ others, operands = others ++ [left, right] := by
  unfold lastTwo at found
  split at found
  · rename_i last second others reversed
    cases found
    refine ⟨others.reverse, ?_⟩
    rw [← List.reverse_reverse operands, reversed]
    simp
  · cases found

theorem numbered_shortCircuit {stem : String} {decides : String → Instruction}
    {left right fragment : Fragment} {middle : Nat}
    (plain : stem.toList.all (!·.isDigit) = true)
    (silent : ∀ target, (decides target).definition? = none)
    (numbered : (left.code ++ right.code).Numbered last middle)
    (generated : shortCircuit stem decides left right middle = .ok (fragment, next)) :
    fragment.code.Numbered last next := by
  simp only [shortCircuit, bind_eq_ok, pure_eq_ok, lift_eq_ok, freshLabels_eq_ok] at generated
  obtain ⟨labels, _, ⟨rfl, rfl⟩, leftCode, _, ⟨leftValue, rfl⟩, rightCode, _, ⟨rightValue, rfl⟩,
    rfl, rfl⟩ := generated
  refine (numbered.append (Code.numbered_labels stem ["join"] plain (by decide))).congr
    fun name => ?_
  have decided := Code.defines_of_definition?_eq_none name
    (silent (LabelGroup.label ⟨stem, middle + 1⟩ "join"))
  simp only [Fragment.value, Code.join_cons, Code.join_nil, List.cons_append, List.nil_append,
    Code.defines_append, decided, Fragment.defines_valueCode leftValue name,
    Code.defines_of_definition?_eq_none name (show Instruction.duplicate.definition? = none from
      rfl)]
  simp [Fragment.defines_valueCode rightValue name, Code.labels, Instruction.definition?]
  omega

theorem numbered_fragment {composer : Composer} {operands : List Fragment} {types : List Ty}
    {fragment : Fragment} {middle : Nat}
    (numbered : Code.Numbered (operands.flatMap Fragment.code) last middle)
    (generated : composer.fragment operands types middle = .ok (fragment, next)) :
    fragment.code.Numbered last next := by
  simp only [Composer.fragment, bind_eq_ok, lift_eq_ok] at generated
  obtain ⟨⟨left, right⟩, _, ⟨found, rfl⟩, generated⟩ := generated
  obtain ⟨others, rfl⟩ := lastTwo_eq_ok found
  have numbered : (left.code ++ right.code).Numbered last _ :=
    numbered.mono fun name => by simp
  cases composer with
  | shortCircuitAnd => exact numbered_shortCircuit (by decide) (fun _ => rfl) numbered generated
  | shortCircuitOr => exact numbered_shortCircuit (by decide) (fun _ => rfl) numbered generated
  | arrayIndex | stringIndex =>
      simp only [bind_eq_ok, pure_eq_ok, lift_eq_ok] at generated
      obtain ⟨sequenceType, _, ⟨_, rfl⟩, sequence, _, ⟨sequenceValue, rfl⟩, indexType, _,
        ⟨_, rfl⟩, index, _, ⟨indexValue, rfl⟩, code, _, indexed, rfl, rfl⟩ := generated
      refine Sequence.numbered_index (numbered.congr fun name => ?_) indexed
      simp [Fragment.defines_valueCode sequenceValue name,
        Fragment.defines_valueCode indexValue name]

end Composer

end

/-! ## Operators that are instructions -/

/-- An instruction that stands for an operator, with the types it is used at. -/
structure Operation where
  instruction : Instruction
  operands : List Ty
  result : Ty

mutual

/-- The instructions that stand for operators in a tree. -/
def Expr.operations : Expr → List Operation
  | .typed type form => form.operations type

def Form.operations (type : Ty) : Form → List Operation
  | .boolean _ | .character _ | .integer _ | .floating _ | .string _ | .identifier _ => []
  | .operation (.instruction instruction) operands =>
      ⟨instruction, operands.map Expr.type, type⟩ :: exprsOperations operands
  | .operation (.snippet _) operands | .operation (.full _) operands => exprsOperations operands
  | .comparison _ left right => left.operations ++ right.operations
  | .populatedArray elements => exprsOperations elements
  | .lambda _ body _ _ => blockOperations body
  | .invocation callee arguments => exprsOperations arguments ++ callee.operations
  | .map array function | .reduce array function => array.operations ++ function.operations
  | .fold array none function => array.operations ++ function.operations
  | .fold array (some base) function =>
      array.operations ++ base.operations ++ function.operations
  | .zip first second function => first.operations ++ second.operations ++ function.operations

def exprsOperations : List Expr → List Operation
  | [] => []
  | expression :: rest => expression.operations ++ exprsOperations rest

def PrintItem.operations : PrintItem → List Operation
  | .expression expression => expression.operations
  | .newline | .space | .tab => []

def printItemsOperations : List PrintItem → List Operation
  | [] => []
  | item :: rest => item.operations ++ printItemsOperations rest

def Statement.operations : Statement → List Operation
  | .declaration _ value _ => value.operations
  | .assignment target value => target.operations ++ value.operations
  | .print items => printItemsOperations items
  | .ifElse condition thenBlock none => condition.operations ++ blockOperations thenBlock
  | .ifElse condition thenBlock (some elseBlock) =>
      condition.operations ++ blockOperations thenBlock ++ blockOperations elseBlock
  | .while condition body => condition.operations ++ blockOperations body
  | .for _ _ sequence body => sequence.operations ++ blockOperations body
  | .break | .continue | .return none => []
  | .return (some value) => value.operations
  | .call invocation => invocation.operations
  | .release value => value.operations
  | .block statements => blockOperations statements

def blockOperations : List Statement → List Operation
  | [] => []
  | statement :: rest => statement.operations ++ blockOperations rest

end

/-- None of the instructions defines a label. -/
def LabelFree (operations : List Operation) : Prop :=
  ∀ operation ∈ operations, operation.instruction.definition? = none

theorem labelFree_append {first second : List Operation} :
    LabelFree (first ++ second) ↔ LabelFree first ∧ LabelFree second :=
  List.forall_mem_append

theorem labelFree_cons {operation : Operation} {rest : List Operation} :
    LabelFree (operation :: rest) ↔
      operation.instruction.definition? = none ∧ LabelFree rest :=
  List.forall_mem_cons

/-! ## Trees -/

theorem Record.defines_arrayLiteral {element : Ty} {values : List Code} {code : Code}
    (generated : arrayLiteral element values = .ok code) (name : String) :
    code.defines name = Code.defines name values.flatten := by
  have slots : ∀ index, Code.defines name (arrayLiteralSlots element index values) =
      Code.defines name values.flatten := by
    clear generated
    induction values with
    | nil => exact fun _ => rfl
    | cons value rest induction =>
        intro index
        simp [arrayLiteralSlots, arrayLiteralSlot, induction, Instruction.definition?]
  unfold arrayLiteral at generated
  split at generated
  · cases generated
  · cases generated
    simp [arrayLiteralHeader, slots, Instruction.definition?]

theorem Frame.defines_enter {localSize : Int32} {code : Code}
    (generated : enter localSize = .ok code) (name : String) : code.defines name = 0 := by
  obtain ⟨size, _, built⟩ := Except.bind_eq_ok.mp generated
  cases built
  simp [moveStackPointer, Instruction.definition?]

theorem Frame.defines_returnSlot {parameterSize : Int32} {result : Ty} {code : Code}
    (generated : returnSlot parameterSize result = .ok code) (name : String) :
    code.defines name = 0 := by
  obtain ⟨offset, _, built⟩ := Except.bind_eq_ok.mp generated
  cases built
  simp

theorem ForLoop.defines_current {kind : ForKind} {layout : SequenceLayout} {type : Ty}
    {code : Code} (generated : current kind layout type = .ok code) (name : String) :
    code.defines name = 0 := by
  cases kind with
  | index =>
      cases generated
      simp
  | element =>
      obtain ⟨load, loaded, built⟩ := Except.bind_eq_ok.mp generated
      cases built
      simp [Ty.defines_load loaded name]

theorem Surroundings.defines_unwind (surroundings : Surroundings) (name : String) :
    surroundings.unwind.defines name = 0 :=
  Code.defines_flatMap fun context _ => by
    cases context.bracket <;> simp

mutual

theorem Expr.numbered_fragment {last next : Nat} {fragment : Fragment} :
    (expression : Expr) → LabelFree expression.operations →
      expression.fragment last = .ok (fragment, next) → fragment.code.Numbered last next
  | .typed type form, free, generated => by
      rw [Expr.fragment_eq] at generated
      rw [Expr.operations] at free
      exact form.numbered_fragment free generated

theorem Expr.numbered_valueCode {last next : Nat} {code : Code} :
    (expression : Expr) → LabelFree expression.operations →
      expression.valueCode last = .ok (code, next) → code.Numbered last next
  | .typed type form, free, generated => by
      obtain ⟨fragment, generated, value⟩ := Expr.valueCode_eq_ok.mp generated
      rw [Expr.fragment_eq] at generated
      rw [Expr.operations] at free
      exact (form.numbered_fragment free generated).congr (Fragment.defines_valueCode value)

theorem Form.numbered_fragment {last next : Nat} {type : Ty} {fragment : Fragment} :
    (form : Form) → LabelFree (form.operations type) →
      form.fragment type last = .ok (fragment, next) → fragment.code.Numbered last next
  | .boolean _, _, generated => by
      obtain ⟨rfl, rfl⟩ := Form.fragment_boolean.mp generated
      exact Code.Unlabelled.numbered (fun _ => rfl) _
  | .character _, _, generated => by
      obtain ⟨rfl, rfl⟩ := Form.fragment_character.mp generated
      exact Code.Unlabelled.numbered (fun _ => rfl) _
  | .integer _, _, generated => by
      obtain ⟨rfl, rfl⟩ := Form.fragment_integer.mp generated
      exact Code.Unlabelled.numbered (fun _ => rfl) _
  | .floating _, _, generated => by
      obtain ⟨rfl, rfl⟩ := Form.fragment_floating.mp generated
      exact Code.Unlabelled.numbered (fun _ => rfl) _
  | .string _, _, generated => by
      obtain ⟨rfl, rfl⟩ := Form.fragment_string.mp generated
      refine (Code.numbered_labels "string" ["literal"] (by decide) (by decide)).congr fun name =>
        ?_
      simp [Fragment.value, Record.stringLiteral, Code.labels, Instruction.definition?]
  | .identifier _, _, generated => by
      obtain ⟨address, addressed, rfl, rfl⟩ := Form.fragment_identifier.mp generated
      exact Code.Unlabelled.numbered (Location.defines_addressCode addressed) _
  | .operation (.instruction instruction) operands, free, generated => by
      obtain ⟨values, evaluated, rfl⟩ := Form.fragment_instruction.mp generated
      rw [Form.operations, labelFree_cons] at free
      refine (numbered_values operands free.2 evaluated).congr fun name => ?_
      simp [Fragment.value, free.1]
  | .operation (.snippet snippet) operands, free, generated => by
      obtain ⟨values, middle, code, evaluated, built, rfl⟩ := Form.fragment_snippet.mp generated
      rw [Form.operations] at free
      exact (numbered_values operands free evaluated).append (Snippet.numbered built)
  | .operation (.full composer) operands, free, generated => by
      obtain ⟨fragments, middle, evaluated, built⟩ := Form.fragment_full.mp generated
      rw [Form.operations] at free
      exact Composer.numbered_fragment (numbered_fragments operands free evaluated) built
  | .comparison relation left right, free, generated => by
      obtain ⟨leftCode, middle, rightCode, middle', code, leftMade, rightMade, built, rfl⟩ :=
        Form.fragment_comparison.mp generated
      rw [Form.operations, labelFree_append] at free
      exact Comparison.numbered ((left.numbered_valueCode free.1 leftMade).append
        (right.numbered_valueCode free.2 rightMade)) built
  | .populatedArray elements, free, generated => by
      obtain ⟨values, element, code, evaluated, _, built, rfl⟩ :=
        Form.fragment_populatedArray.mp generated
      rw [Form.operations] at free
      exact (numbered_values elements free evaluated).congr (Record.defines_arrayLiteral built)
  | .lambda parameters body parameterSize localSize, free, generated => by
      obtain ⟨result, enter, bodyCode, _, entered, made, rfl⟩ := Form.fragment_lambda.mp generated
      rw [Form.operations] at free
      refine ((Code.numbered_labels "lambda" ["start", "return", "end"] (by decide)
        (by decide)).append
        (numbered_block body free made)).congr fun name => ?_
      have missing : Code.defines name
          (if result.isVoid then [] else [.jump Fault.missingReturn.handler]) = 0 := by
        cases result.isVoid <;> rfl
      simp [Fragment.value, Form.lambdaCode, Frame.defines_enter entered name, missing, Code.labels,
        Instruction.definition?]
      omega
  | .invocation callee arguments, free, generated => by
      obtain ⟨values, middle, calleeCode, code, evaluated, calleeMade, built, rfl⟩ :=
        Form.fragment_invocation.mp generated
      rw [Form.operations, labelFree_append] at free
      refine ((numbered_values arguments free.1 evaluated).append
        (callee.numbered_valueCode free.2 calleeMade)).congr fun name => ?_
      have zipped : (values.zip (arguments.map Expr.type)).map Prod.fst = values :=
        List.map_fst_zip (by simp [length_exprValueCodes evaluated])
      rw [Fragment.value, HigherOrder.defines_invoke built name, zipped, Code.defines_append]
  | .map array function, free, generated => by
      obtain ⟨arrayCode, middle, functionCode, middle', code, arrayMade, functionMade, built,
        rfl⟩ := Form.fragment_map.mp generated
      rw [Form.operations, labelFree_append] at free
      exact HigherOrder.numbered_map ((array.numbered_valueCode free.1 arrayMade).append
        (function.numbered_valueCode free.2 functionMade)) built
  | .reduce array function, free, generated => by
      obtain ⟨arrayCode, middle, functionCode, middle', code, arrayMade, functionMade, built,
        rfl⟩ := Form.fragment_reduce.mp generated
      rw [Form.operations, labelFree_append] at free
      exact HigherOrder.numbered_reduce ((array.numbered_valueCode free.1 arrayMade).append
        (function.numbered_valueCode free.2 functionMade)) built
  | .fold array none function, free, generated => by
      obtain ⟨arrayCode, middle, start, middle', functionCode, middle'', code, arrayMade, based,
        functionMade, built, rfl⟩ := Form.fragment_fold.mp generated
      obtain ⟨rfl, rfl⟩ := pure_eq_ok.mp based
      rw [Form.operations, labelFree_append] at free
      refine HigherOrder.numbered_fold (((array.numbered_valueCode free.1 arrayMade).append
        (function.numbered_valueCode free.2 functionMade)).congr fun name => ?_) built
      simp
  | .fold array (some base) function, free, generated => by
      obtain ⟨arrayCode, middle, start, middle', functionCode, middle'', code, arrayMade, based,
        functionMade, built, rfl⟩ := Form.fragment_fold.mp generated
      simp only [Form.baseCode, bind_eq_ok, pure_eq_ok] at based
      obtain ⟨baseCode, _, baseMade, rfl, rfl⟩ := based
      rw [Form.operations, labelFree_append, labelFree_append] at free
      exact HigherOrder.numbered_fold (((array.numbered_valueCode free.1.1 arrayMade).append
        (base.numbered_valueCode free.1.2 baseMade)).append
        (function.numbered_valueCode free.2 functionMade)) built
  | .zip first second function, free, generated => by
      obtain ⟨firstCode, middle, secondCode, middle', functionCode, middle'', code, firstMade,
        secondMade, functionMade, built, rfl⟩ := Form.fragment_zip.mp generated
      rw [Form.operations, labelFree_append, labelFree_append] at free
      exact HigherOrder.numbered_zip (((first.numbered_valueCode free.1.1 firstMade).append
        (second.numbered_valueCode free.1.2 secondMade)).append
        (function.numbered_valueCode free.2 functionMade)) built

theorem numbered_fragments {last next : Nat} {fragments : List Fragment} :
    (expressions : List Expr) → LabelFree (exprsOperations expressions) →
      exprFragments expressions last = .ok (fragments, next) →
      Code.Numbered (fragments.flatMap Fragment.code) last next
  | [], _, generated => by
      obtain ⟨rfl, rfl⟩ := exprFragments_nil.mp generated
      exact Code.Unlabelled.numbered (fun _ => rfl) _
  | expression :: rest, free, generated => by
      obtain ⟨fragment, middle, others, made, restMade, rfl⟩ := exprFragments_cons.mp generated
      rw [exprsOperations, labelFree_append] at free
      exact (expression.numbered_fragment free.1 made).append
        (numbered_fragments rest free.2 restMade)

theorem numbered_values {last next : Nat} {values : List Code} :
    (expressions : List Expr) → LabelFree (exprsOperations expressions) →
      exprValueCodes expressions last = .ok (values, next) →
      Code.Numbered values.flatten last next
  | [], _, generated => by
      obtain ⟨rfl, rfl⟩ := exprValueCodes_nil.mp generated
      exact Code.Unlabelled.numbered (fun _ => rfl) _
  | expression :: rest, free, generated => by
      obtain ⟨value, middle, others, made, restMade, rfl⟩ := exprValueCodes_cons.mp generated
      rw [exprsOperations, labelFree_append] at free
      exact (expression.numbered_valueCode free.1 made).append
        (numbered_values rest free.2 restMade)

theorem PrintItem.numbered {last next : Nat} {code : Code} :
    (item : PrintItem) → LabelFree item.operations → item.code last = .ok (code, next) →
      code.Numbered last next
  | .expression expression, free, generated => by
      obtain ⟨value, middle, print, made, printed, rfl⟩ := PrintItem.code_expression.mp generated
      rw [PrintItem.operations] at free
      exact (expression.numbered_valueCode free made).append (Printing.numbered_value _ printed)
  | .newline, _, generated => by
      obtain ⟨rfl, rfl⟩ := PrintItem.code_newline.mp generated
      exact Code.Unlabelled.numbered (fun _ => rfl) _
  | .space, _, generated => by
      obtain ⟨rfl, rfl⟩ := PrintItem.code_space.mp generated
      exact Code.Unlabelled.numbered (fun _ => rfl) _
  | .tab, _, generated => by
      obtain ⟨rfl, rfl⟩ := PrintItem.code_tab.mp generated
      exact Code.Unlabelled.numbered (fun _ => rfl) _

theorem numbered_printItems {last next : Nat} {code : Code} :
    (items : List PrintItem) → LabelFree (printItemsOperations items) →
      printItemsCode items last = .ok (code, next) → code.Numbered last next
  | [], _, generated => by
      obtain ⟨rfl, rfl⟩ := printItemsCode_nil.mp generated
      exact Code.Unlabelled.numbered (fun _ => rfl) _
  | item :: rest, free, generated => by
      obtain ⟨first, middle, others, made, restMade, rfl⟩ := printItemsCode_cons.mp generated
      rw [printItemsOperations, labelFree_append] at free
      exact (item.numbered free.1 made).append (numbered_printItems rest free.2 restMade)

theorem Statement.numbered {last next : Nat} {surroundings : Surroundings} {code : Code} :
    (statement : Statement) → LabelFree statement.operations →
      statement.code surroundings last = .ok (code, next) → code.Numbered last next
  | .declaration binding value false, free, generated => by
      obtain ⟨address, valueCode, store, addressed, made, stored, rfl⟩ :=
        Statement.code_declaration.mp generated
      rw [Statement.operations] at free
      refine (value.numbered_valueCode free made).congr fun name => ?_
      simp [Location.defines_addressCode addressed name, Ty.defines_store stored name]
  | .declaration binding value true, free, generated => by
      obtain ⟨flag, address, valueCode, store, flagged, addressed, made, stored, rfl⟩ :=
        Statement.code_static.mp generated
      rw [Statement.operations] at free
      refine ((Code.numbered_labels "static" ["skip"] (by decide) (by decide)).append
        (value.numbered_valueCode free made)).congr fun name => ?_
      simp [guardStatic, Location.defines_addressCode flagged name,
        Location.defines_addressCode addressed name, Ty.defines_store stored name, Code.labels,
        Instruction.definition?]
      omega
  | .assignment target value, free, generated => by
      obtain ⟨address, middle, valueCode, store, targeted, _, made, stored, rfl⟩ :=
        Statement.code_assignment.mp generated
      rw [Statement.operations, labelFree_append] at free
      refine ((target.numbered_fragment free.1 targeted).append
        (value.numbered_valueCode free.2 made)).congr fun name => ?_
      simp [Ty.defines_store stored name]
  | .print items, free, generated => by
      rw [Statement.operations] at free
      exact numbered_printItems items free (Statement.code_print.mp generated)
  | .ifElse condition thenBlock none, free, generated => by
      obtain ⟨conditionCode, middle, thenCode, middle', otherCode, made, thenMade, otherMade,
        rfl⟩ := Statement.code_ifElse.mp generated
      obtain ⟨rfl, rfl⟩ := pure_eq_ok.mp otherMade
      rw [Statement.operations, labelFree_append] at free
      refine ((Code.numbered_labels "if" ["else", "join"] (by decide) (by decide)).append
        ((condition.numbered_valueCode free.1 made).append
        (numbered_block thenBlock free.2 thenMade))).congr fun name => ?_
      simp [Statement.branchCode, Code.labels, Instruction.definition?]
      omega
  | .ifElse condition thenBlock (some elseBlock), free, generated => by
      obtain ⟨conditionCode, middle, thenCode, middle', otherCode, made, thenMade, otherMade,
        rfl⟩ := Statement.code_ifElse.mp generated
      rw [Statement.operations, labelFree_append, labelFree_append] at free
      refine ((Code.numbered_labels "if" ["else", "join"] (by decide) (by decide)).append
        (((condition.numbered_valueCode free.1.1 made).append
        (numbered_block thenBlock free.1.2 thenMade)).append
        (numbered_block elseBlock free.2 otherMade))).congr fun name => ?_
      simp [Statement.branchCode, Code.labels, Instruction.definition?]
      omega
  | .while condition body, free, generated => by
      obtain ⟨conditionCode, middle, bodyCode, made, bodyMade, rfl⟩ := Statement.code_while.mp
        generated
      rw [Statement.operations, labelFree_append] at free
      refine ((Code.numbered_labels "while" ["start", "end"] (by decide) (by decide)).append
        ((condition.numbered_valueCode free.1 made).append
        (numbered_block body free.2 bodyMade))).congr fun name => ?_
      simp [Statement.loopCode, Code.labels, Instruction.definition?]
      omega
  | .for kind loopVariable sequence body, free, generated => by
      obtain ⟨layout, address, sequenceCode, middle, current, store, bodyCode, _, addressed, made,
        found, stored, bodyMade, rfl⟩ := Statement.code_for.mp generated
      rw [Statement.operations, labelFree_append] at free
      refine ((Code.numbered_labels "for" ["start", "continue", "end"] (by decide)
        (by decide)).append
        ((sequence.numbered_valueCode free.1 made).append
          (numbered_block body free.2 bodyMade))).congr fun name => ?_
      simp [ForLoop.setUp, ForLoop.advance, ForLoop.finish, ForLoop.defines_current found name,
        Location.defines_addressCode addressed name, Ty.defines_store stored name, Code.labels,
        Instruction.definition?]
      omega
  | .break, _, generated => by
      obtain ⟨context, _, rfl, rfl⟩ := Statement.code_break.mp generated
      exact Code.Unlabelled.numbered (fun _ => rfl) _
  | .continue, _, generated => by
      obtain ⟨context, _, rfl, rfl⟩ := Statement.code_continue.mp generated
      exact Code.Unlabelled.numbered (fun _ => rfl) _
  | .return none, _, generated => by
      obtain ⟨exit, result, _, returned, rfl⟩ := Statement.code_return.mp generated
      obtain ⟨rfl, rfl⟩ := pure_eq_ok.mp returned
      refine Code.Unlabelled.numbered (fun name => ?_) _
      simp [Surroundings.defines_unwind, Instruction.definition?]
  | .return (some value), free, generated => by
      obtain ⟨exit, result, _, returned, rfl⟩ := Statement.code_return.mp generated
      simp only [Statement.returnedCode, bind_eq_ok, pure_eq_ok, lift_eq_ok] at returned
      obtain ⟨slot, _, ⟨found, rfl⟩, valueCode, _, made, rfl, rfl⟩ := returned
      rw [Statement.operations] at free
      refine (value.numbered_valueCode free made).congr fun name => ?_
      simp [Surroundings.defines_unwind, Frame.defines_returnSlot found name,
        Instruction.definition?]
  | .call invocation, free, generated => by
      obtain ⟨value, made, rfl⟩ := Statement.code_call.mp generated
      rw [Statement.operations] at free
      refine (invocation.numbered_valueCode free made).congr fun name => ?_
      simp
  | .release value, free, generated => by
      obtain ⟨valueCode, made, rfl⟩ := Statement.code_release.mp generated
      rw [Statement.operations] at free
      refine (value.numbered_valueCode free made).congr fun name => ?_
      simp [Instruction.definition?]
  | .block statements, free, generated => by
      rw [Statement.operations] at free
      exact numbered_block statements free (Statement.code_block.mp generated)

theorem numbered_block {last next : Nat} {surroundings : Surroundings} {code : Code} :
    (statements : List Statement) → LabelFree (blockOperations statements) →
      blockCode surroundings statements last = .ok (code, next) → code.Numbered last next
  | [], _, generated => by
      obtain ⟨rfl, rfl⟩ := blockCode_nil.mp generated
      exact Code.Unlabelled.numbered (fun _ => rfl) _
  | statement :: rest, free, generated => by
      obtain ⟨first, middle, others, made, restMade, rfl⟩ := blockCode_cons.mp generated
      rw [blockOperations, labelFree_append] at free
      exact (statement.numbered free.1 made).append (numbered_block rest free.2 restMade)

end

end StackBackend
