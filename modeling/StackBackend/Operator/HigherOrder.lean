import StackBackend.Bracket
import StackBackend.Frame
import StackBackend.Label
import StackBackend.Record

namespace StackBackend

/-! Map, zip, fold and reduce: counted loops around the calling convention. Each
saves the operator words it uses, stores every operand in them as soon as it is
evaluated, and restores them from beneath its result at the end. Whatever a call
runs does the same, so the words are intact when it returns. -/

namespace HigherOrder

open Code Record

/-- Adds an array operand, checks it for null and parks it at the cell. -/
def operand (array : Code) (cell : String) : Code :=
  array ++ nullCheck ++ storeWord cell

/-- Sets the loop length to that of the array at the cell. -/
def operandLength (cell : String) : Code :=
  loadWord cell ++ readWord arrayLengthOffset ++ storeWord Cell.operatorLength

/-- `[] -> [function]` -/
def callee : Code :=
  loadWord Cell.operatorLambda

/-- `[] -> [current element]` of the array parked at the cell. -/
def currentElement (cell : String) (element : Ty) : Except Defect Code := do
  return Code.join [loadWord cell, loadWord Cell.operatorIndex,
    elementAddress arrayHeaderSize element.size, (← element.load)]

/-- `[] -> [first element]` of the array parked at the cell. -/
def firstElement (cell : String) (element : Ty) : Except Defect Code := do
  return loadWord cell ++ addOffset arrayHeaderSize ++ (← element.load)

/-- `[] -> [address of the current element of the result]` -/
def resultSlot (elementSize : Int32) : Code :=
  loadWord Cell.operatorResult ++ loadWord Cell.operatorIndex ++
    elementAddress arrayHeaderSize elementSize

/-- Leaves the loop once the index reaches the length. -/
def loopTest (done : String) : Code :=
  loadWord Cell.operatorLength ++ loadWord Cell.operatorIndex ++ [.subtract, .jumpFalse done]

/-- Runs the body for every index from `first` on. -/
def loop (labels : LabelGroup) (first : Int32) (body : Code) : Code :=
  Code.join [[.pushI first], storeWord Cell.operatorIndex, [.label (labels.label "loop")],
    loopTest (labels.label "done"), body, increment Cell.operatorIndex,
    [.jump (labels.label "loop"), .label (labels.label "done")]]

/-- Allocates the result array and parks it. -/
def allocateResult (element : Ty) : Code :=
  loadWord Cell.operatorLength ++ allocateEmptyArray (arrayStatus element) element.size ++
    storeWord Cell.operatorResult

/-- Brackets the code of an operator that leaves a result of the type. -/
def bracketed (bracket : Bracket) (code : Code) (result : Ty) : Code :=
  bracket.save ++ code ++ bracket.restoreUnder result Cell.operatorReturn

/-! ## Map -/

def mapBracket : Bracket :=
  ⟨[Cell.operatorLambda, Cell.operatorArray, Cell.operatorIndex, Cell.operatorLength,
    Cell.operatorResult]⟩

/-- `[] -> [array]`: the function applied to every element. -/
def map (array : Code) (arrayType : Ty) (function : Code) (functionType : Ty) :
    Generation Code := do
  let element ← arrayType.element
  let result ← functionType.result
  let labels ← freshLabels "map"
  let current ← currentElement Cell.operatorArray element
  let call ← Frame.invoke callee [(current, element)] result
  let store ← result.store
  return bracketed mapBracket
    (Code.join [operand array Cell.operatorArray, function, storeWord Cell.operatorLambda,
      operandLength Cell.operatorArray, allocateResult result,
      loop labels 0 (resultSlot result.size ++ call ++ store),
      loadWord Cell.operatorResult])
    (.array result)

/-! ## Zip -/

def zipBracket : Bracket :=
  ⟨[Cell.operatorLambda, Cell.operatorArray, Cell.operatorOtherArray, Cell.operatorIndex,
    Cell.operatorLength, Cell.operatorResult]⟩

/-- `[] -> [array]`: the function applied to the pairs of elements of two arrays
of one length. -/
def zip (first : Code) (firstType : Ty) (second : Code) (secondType : Ty) (function : Code)
    (functionType : Ty) : Generation Code := do
  let firstElement ← firstType.element
  let secondElement ← secondType.element
  let result ← functionType.result
  let labels ← freshLabels "zip"
  let firstCurrent ← currentElement Cell.operatorArray firstElement
  let secondCurrent ← currentElement Cell.operatorOtherArray secondElement
  let call ← Frame.invoke callee
    [(firstCurrent, firstElement), (secondCurrent, secondElement)] result
  let store ← result.store
  return bracketed zipBracket
    (Code.join [operand first Cell.operatorArray, operand second Cell.operatorOtherArray,
      function, storeWord Cell.operatorLambda,
      loadWord Cell.operatorArray, readWord arrayLengthOffset,
      loadWord Cell.operatorOtherArray, readWord arrayLengthOffset,
      [.subtract, .jumpTrue Fault.zipLengthMismatch.handler],
      operandLength Cell.operatorArray, allocateResult result,
      loop labels 0 (resultSlot result.size ++ call ++ store),
      loadWord Cell.operatorResult])
    (.array result)

/-! ## Fold -/

def foldBracket : Bracket :=
  ⟨[Cell.operatorLambda, Cell.operatorArray, Cell.operatorIndex, Cell.operatorLength]⟩

/-- `[] -> [accumulator]`. The accumulator stays on the operand stack between
calls. Without a base the first element is the start and the loop begins at the
second. An empty array is a fault either way. -/
def fold (array : Code) (arrayType : Ty) (base : Option Code) (function : Code)
    (functionType : Ty) : Generation Code := do
  let element ← arrayType.element
  let accumulator ← functionType.result
  let labels ← freshLabels "fold"
  let (start, first) ←
    match base with
    | some base => pure (base, 0)
    | none => do pure (← firstElement Cell.operatorArray element, 1)
  let current ← currentElement Cell.operatorArray element
  let call ← Frame.invoke callee
    [(accumulator.unstash Cell.operatorTransfer, accumulator), (current, element)] accumulator
  return bracketed foldBracket
    (Code.join [operand array Cell.operatorArray, operandLength Cell.operatorArray,
      loadWord Cell.operatorLength, [.jumpFalse Fault.foldEmptyArray.handler],
      start, function, storeWord Cell.operatorLambda,
      loop labels first (accumulator.stash Cell.operatorTransfer ++ call)])
    accumulator

/-! ## Reduce -/

def reduceBracket : Bracket :=
  ⟨[Cell.operatorLambda, Cell.operatorArray, Cell.operatorIndex, Cell.operatorLength,
    Cell.operatorResult, Cell.operatorCount]⟩

/-- `[] -> []`: calls the predicate on every element, keeps the verdicts in a
byte mask and counts those to keep. -/
def judge (labels : LabelGroup) (call : Code) : Code :=
  Code.join [loadWord Cell.operatorLength, allocateEmptyArray 0 1, storeWord Cell.operatorResult,
    [.pushI 0], storeWord Cell.operatorCount,
    loop labels 0
      (Code.join [resultSlot 1, call,
        [.duplicate, .jumpFalse (labels.label "skip")], increment Cell.operatorCount,
        [.label (labels.label "skip"), .storeC]])]

/-- `[kept] -> [kept]`: copies the elements that the mask keeps. -/
def copyKept (labels : LabelGroup) (elementSize : Int32) : Code :=
  Code.join [[.pushI 0], storeWord Cell.operatorCount,
    [.pushI 0], storeWord Cell.operatorIndex, [.label (labels.label "copy")],
    loopTest (labels.label "copy-done"), resultSlot 1,
    [.loadC, .jumpFalse (labels.label "copy-next"), .duplicate],
    loadWord Cell.operatorCount, elementAddress arrayHeaderSize elementSize,
    loadWord Cell.operatorArray, loadWord Cell.operatorIndex,
    elementAddress arrayHeaderSize elementSize,
    [.pushI elementSize, .call Entry.copyBytes], increment Cell.operatorCount,
    [.label (labels.label "copy-next")], increment Cell.operatorIndex,
    [.jump (labels.label "copy"), .label (labels.label "copy-done")]]

/-- `[] -> [array]`: the elements for which the predicate holds, in order. The
mask is given back at the end. -/
def reduce (array : Code) (arrayType : Ty) (function : Code) : Generation Code := do
  let element ← arrayType.element
  let labels ← freshLabels "reduce"
  let current ← currentElement Cell.operatorArray element
  let call ← Frame.invoke callee [(current, element)] .boolean
  return bracketed reduceBracket
    (Code.join [operand array Cell.operatorArray, function, storeWord Cell.operatorLambda,
      operandLength Cell.operatorArray, judge labels call,
      loadWord Cell.operatorCount, allocateEmptyArray (arrayStatus element) element.size,
      copyKept labels element.size,
      loadWord Cell.operatorResult, [.call Entry.deallocate]])
    arrayType

end HigherOrder

end StackBackend
