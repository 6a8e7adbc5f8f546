import StackBackend.Label
import StackBackend.Record

namespace StackBackend

/-! Operators on arrays and strings alike. -/

namespace Sequence

open Code Record

/-- `[length] -> [array]` -/
def allocate (element : Ty) : Code :=
  allocateEmptyArray (arrayStatus element) element.size

/-- `[sequence] -> [length]` -/
def length (sequence : Ty) : Except Defect Code := do
  let layout ← sequence.sequenceLayout
  return nullCheck ++ readWord layout.lengthOffset

/-- `[] -> [length of the source sequence]` -/
def sourceLength (lengthOffset : Int32) : Code :=
  loadWord Cell.sequenceSource ++ readWord lengthOffset

/-- `[array] -> [copy]`: a shallow copy; nested arrays are shared. -/
def clone (element : Ty) : Code :=
  Code.join [nullCheck, storeWord Cell.sequenceSource, sourceLength arrayLengthOffset,
    allocate element,
    [.duplicate], addOffset arrayHeaderSize,
    loadWord Cell.sequenceSource, addOffset arrayHeaderSize,
    sourceLength arrayLengthOffset,
    [.pushI element.size, .multiply, .call Entry.copyBytes]]

/-- `[length] -> [sequence]`: a fresh array or string of the type. -/
def allocateLike : Ty → Except Defect Code
  | .string => .ok (allocateString dynamicStringStatus)
  | sequence => do return allocate (← sequence.element)

/-- `[sequence] -> [reversed copy]` -/
def reverse (sequence : Ty) : Generation Code := do
  let layout ← sequence.sequenceLayout
  let labels ← freshLabels "reverse"
  let allocation ← allocateLike sequence
  return Code.join [nullCheck, storeWord Cell.sequenceSource, sourceLength layout.lengthOffset,
    allocation, [.pushI 0], storeWord Cell.sequenceIndex,
    -- [copy]: element i of the source goes to length - 1 - i.
    [.label (labels.label "loop")], sourceLength layout.lengthOffset,
    loadWord Cell.sequenceIndex, [.subtract, .jumpFalse (labels.label "done"), .duplicate],
    sourceLength layout.lengthOffset, loadWord Cell.sequenceIndex,
    [.subtract, .pushI 1, .subtract],
    elementAddress layout.headerSize layout.elementSize,
    loadWord Cell.sequenceSource, loadWord Cell.sequenceIndex,
    elementAddress layout.headerSize layout.elementSize,
    [.pushI layout.elementSize, .call Entry.copyBytes],
    increment Cell.sequenceIndex,
    [.jump (labels.label "loop"), .label (labels.label "done")]]

/-- `[] -> [element address]`, checked for null and for bounds. -/
def index (sequence index : Code) (type : Ty) : Generation Code := do
  let layout ← type.sequenceLayout
  let labels ← freshLabels "index"
  let outOfBounds := Fault.indexOutOfBounds.handler
  return Code.join [sequence, index, storeWord Cell.indexedIndex, nullCheck,
    storeWord Cell.indexedArray,
    loadWord Cell.indexedIndex, [.jumpNeg outOfBounds],
    loadWord Cell.indexedIndex, loadWord Cell.indexedArray, readWord layout.lengthOffset,
    [.subtract, .jumpNeg (labels.label "in-bounds"), .jump outOfBounds,
      .label (labels.label "in-bounds")],
    loadWord Cell.indexedArray, loadWord Cell.indexedIndex,
    elementAddress layout.headerSize layout.elementSize]

end Sequence

end StackBackend
