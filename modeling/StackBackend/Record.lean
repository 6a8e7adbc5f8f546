import StackBackend.Access

namespace StackBackend

/-! Records on the heap.

An array is `type id 7, status, element size, length`, a word each, and then
the elements. A string is `type id 6, status, length`, a word each, and then
the characters and a zero byte. -/

namespace Record

def typeIdOffset : Int32 := 0
def statusOffset : Int32 := 4

def arrayTypeId : Int32 := 7
def arrayElementSizeOffset : Int32 := 8
def arrayLengthOffset : Int32 := 12
def arrayHeaderSize : Int32 := 16

def stringTypeId : Int32 := 6
def stringLengthOffset : Int32 := 8
def stringHeaderSize : Int32 := 12

/-! Status bits. A record that is deleted or permanent is left alone when it is
discarded; the elements of a record with the reference bit are records too. -/

def statusImmutable : Int32 := 1
def statusReference : Int32 := 2
def statusDeleted : Int32 := 4
def statusPermanent : Int32 := 8

def stringLiteralStatus : Int32 := statusPermanent ||| statusImmutable
def dynamicStringStatus : Int32 := statusImmutable
def skipDiscardMask : Int32 := statusDeleted ||| statusPermanent

/-- The status of a fresh array with elements of the type. -/
def arrayStatus (element : Ty) : Int32 :=
  if element.isReference then statusReference else 0

end Record

/-- Where the parts of an array or a string are. -/
structure SequenceLayout where
  headerSize : Int32
  lengthOffset : Int32
  elementSize : Int32
deriving DecidableEq

namespace Ty

def sequenceLayout : Ty → Except Defect SequenceLayout
  | .string => .ok ⟨Record.stringHeaderSize, Record.stringLengthOffset, 1⟩
  | .array element => .ok ⟨Record.arrayHeaderSize, Record.arrayLengthOffset, element.size⟩
  | other => .error (.notSequence other)

end Ty

/-! Builders keep the pointer to a fresh record on the operand stack, so the
code of an element may build records and call functions itself. -/

namespace Record

open Code

/-- `[record] -> [record]`, with a fault on a null pointer. -/
def nullCheck : Code :=
  [.duplicate, .jumpFalse Fault.nullArray.handler]

/-- `[size] -> [record]`: reserves the bytes and writes type id and status. -/
def allocateRecord (typeId status : Int32) : Code :=
  Code.join [[.call Entry.allocate, .duplicate, .pushI typeId], writeWord typeIdOffset,
    [.duplicate, .pushI status], writeWord statusOffset]

/-- `[length] -> [array]`: an array of zero bytes, with a fault on a negative
length. -/
def allocateEmptyArray (status elementSize : Int32) : Code :=
  Code.join [[.duplicate, .jumpNeg Fault.negativeArrayLength.handler, .duplicate],
    storeWord Cell.arrayLength,
    [.pushI elementSize, .multiply, .duplicate],
    storeWord Cell.arrayDataSize,
    addOffset arrayHeaderSize,
    allocateRecord arrayTypeId status,
    [.duplicate, .pushI elementSize], writeWord arrayElementSizeOffset,
    [.duplicate], loadWord Cell.arrayLength, writeWord arrayLengthOffset,
    [.duplicate], addOffset arrayHeaderSize, loadWord Cell.arrayDataSize,
    [.call Entry.clearBytes]]

/-- `[] -> [array]`: an array record of the given length whose elements are
still to be filled in. -/
def arrayLiteralHeader (element : Ty) (length : Nat) : Code :=
  Code.join [[.pushI (arrayHeaderSize + Int32.ofNat length * element.size)],
    allocateRecord arrayTypeId (arrayStatus element),
    [.duplicate, .pushI element.size], writeWord arrayElementSizeOffset,
    [.duplicate, .pushI (Int32.ofNat length)], writeWord arrayLengthOffset]

/-- `[array] -> [array address value]` for one element of a literal. -/
def arrayLiteralSlot (element : Ty) (index : Nat) (value : Code) : Code :=
  .duplicate :: (addOffset (arrayHeaderSize + Int32.ofNat index * element.size) ++ value)

/-- The slots of the elements from `index` on, each followed by its store. -/
def arrayLiteralSlots (element : Ty) (index : Nat) : List Code → Code
  | [] => []
  | value :: rest =>
      arrayLiteralSlot element index value ++ element.storeCode ++
        arrayLiteralSlots element (index + 1) rest

/-- `[] -> [array]`: an array of the given element values, in order. -/
def arrayLiteral (element : Ty) (values : List Code) : Except Defect Code :=
  if element.isVoid && !values.isEmpty then
    .error .voidStore
  else
    .ok (arrayLiteralHeader element values.length ++ arrayLiteralSlots element 0 values)

/-- The part of an array literal that precedes the first store. -/
def arrayLiteralStart (element : Ty) (values : List Code) : Code :=
  arrayLiteralHeader element values.length ++
    match values with
    | [] => []
    | value :: _ => arrayLiteralSlot element 0 value

/-- `[length] -> [string]`: a string record with its zero byte written and its
characters still to be filled in. -/
def allocateString (status : Int32) : Code :=
  Code.join [[.duplicate], storeWord Cell.stringLength, addOffset (stringHeaderSize + 1),
    allocateRecord stringTypeId status,
    [.duplicate], loadWord Cell.stringLength, writeWord stringLengthOffset,
    [.duplicate], addOffset stringHeaderSize, loadWord Cell.stringLength,
    [.add, .pushI 0, .storeC]]

/-- `[sequence index] -> [element address]`, unchecked. -/
def elementAddress (headerSize elementSize : Int32) : Code :=
  (if elementSize = 1 then [] else [.pushI elementSize, .multiply]) ++ [.add] ++
    addOffset headerSize

/-- `[] -> [string]`: a permanent string record in the data segment. -/
def stringLiteral (label text : String) : Code :=
  [.dataLabel label, .dataI stringTypeId, .dataI stringLiteralStatus,
    .dataI (Int32.ofNat text.utf8ByteSize), .dataS text, .pushD label]

end Record

end StackBackend
