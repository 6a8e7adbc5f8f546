import StackBackend.Bracket
import StackBackend.Heap
import StackBackend.Record

namespace StackBackend

/-! What every program starts with: the two pointers, texts and scratch words,
the fault handlers, and the subroutines of generated code. -/

namespace Environment

open Code

/-- Cells of a word each, initially zero. -/
def wordCells (names : List String) : Code :=
  names.flatMap fun name => [.dataLabel name, .dataI 0]

/-! ## Faults -/

def generalFault : String := "$$general-runtime-error"
def generalFaultFormat : String := "$errors-general-message"

def faultHandler (fault : Fault) : Code :=
  [.dataLabel fault.messageCell, .dataS fault.message, .label fault.handler,
    .pushD fault.messageCell, .jump generalFault]

def faultHandlers : Code :=
  [.dataLabel generalFaultFormat, .dataS "Runtime error: %s\n", .label generalFault,
    .pushD generalFaultFormat, .printf, .halt] ++
    Fault.all.flatMap faultHandler

end Environment

/-! ## Byte loops

The subroutines that call nothing keep their return address and their state in
cells of their own. -/

namespace ClearBytes

open Code

def returnCell : String := "$clear-n-bytes-return"
def countCell : String := "$clear-n-bytes-count"
def cursorCell : String := "$clear-n-bytes-cursor"
def loop : String := "$clear-n-bytes-loop"
def exit : String := "$clear-n-bytes-exit"

/-- `[base count return] -> []` -/
def code : Code :=
  Code.join [Environment.wordCells [returnCell, countCell, cursorCell],
    [.label Entry.clearBytes], storeWord returnCell, storeWord countCell,
    storeWord cursorCell,
    [.label loop], loadWord countCell, [.jumpFalse exit],
    loadWord cursorCell, [.pushI 0, .storeC],
    increment cursorCell, decrement countCell, [.jump loop],
    [.label exit], loadWord returnCell, [.popPC]]

end ClearBytes

namespace CopyBytes

open Code

def returnCell : String := "$clone-array-return"
def countCell : String := "$clone-array-count"
def sourceCell : String := "$clone-array-source"
def destinationCell : String := "$clone-array-destination"
def loop : String := "$clone-array-loop"
def exit : String := "$clone-array-exit"

/-- `[destination source count return] -> []` -/
def code : Code :=
  Code.join [Environment.wordCells [returnCell, countCell, sourceCell, destinationCell],
    [.label Entry.copyBytes], storeWord returnCell, storeWord countCell,
    storeWord sourceCell, storeWord destinationCell,
    [.label loop], loadWord countCell, [.jumpFalse exit],
    loadWord destinationCell, loadWord sourceCell, [.loadC, .storeC],
    increment destinationCell, increment sourceCell, decrement countCell,
    [.jump loop],
    [.label exit], loadWord returnCell, [.popPC]]

end CopyBytes

/-! ## Lowest terms

Makes the denominator positive and divides both terms by their greatest common
divisor. Zero over anything is zero over one, and a zero denominator is a
fault. -/

namespace LowestTerms

open Code

def returnCell : String := "$lowest-terms-return"
def numeratorCell : String := "$lowest-terms-numerator"
def denominatorCell : String := "$lowest-terms-denominator"
def firstCell : String := "$lowest-terms-a"
def secondCell : String := "$lowest-terms-b"
def nonzero : String := "$lowest-terms-nonzero"
def positive : String := "$lowest-terms-positive"
def divisor : String := "$lowest-terms-gcd"
def loop : String := "$lowest-terms-loop"
def reduce : String := "$lowest-terms-reduce"
def exit : String := "$lowest-terms-exit"

/-- `[numerator denominator return] -> [numerator denominator]` -/
def code : Code :=
  Code.join [Environment.wordCells [returnCell, numeratorCell, denominatorCell, firstCell,
      secondCell],
    [.label Entry.lowestTerms], storeWord returnCell, storeWord denominatorCell,
    storeWord numeratorCell,
    loadWord denominatorCell, [.jumpFalse Fault.rationalZeroDenominator.handler],
    loadWord numeratorCell, [.jumpTrue nonzero],
    [.pushI 0, .pushI 1, .jump exit],
    -- Signs go to the numerator.
    [.label nonzero], loadWord denominatorCell, [.jumpPos positive],
    loadWord denominatorCell, [.negate], storeWord denominatorCell,
    loadWord numeratorCell, [.negate], storeWord numeratorCell,
    [.label positive], loadWord numeratorCell, storeWord firstCell,
    loadWord numeratorCell, [.jumpPos divisor],
    loadWord numeratorCell, [.negate], storeWord firstCell,
    -- Euclid's algorithm on the absolute values.
    [.label divisor], loadWord denominatorCell, storeWord secondCell,
    [.label loop], loadWord secondCell, [.jumpFalse reduce],
    loadWord firstCell, loadWord secondCell, [.remainder],
    loadWord secondCell, storeWord firstCell, storeWord secondCell, [.jump loop],
    [.label reduce], loadWord numeratorCell, loadWord firstCell, [.divide],
    loadWord denominatorCell, loadWord firstCell, [.divide],
    [.label exit], loadWord returnCell, [.popPC]]

end LowestTerms

/-! ## Discard

Releases a record, and the records in an array of arrays before it, depth first
and left to right. Null pointers and records that are permanent or deleted are
skipped, so discarding twice is harmless. The routine calls itself: its return
address stays on the operand stack and its cursor is bracketed. -/

namespace DiscardRecord

open Code

def skip : String := "$discard-record-skip"
def release : String := "$discard-record-release"
def loop : String := "$discard-record-loop"
def loopEnd : String := "$discard-record-loop-end"

def bracket : Bracket := ⟨[Cell.discardCursor, Cell.discardRemaining]⟩

/-- `[record return] -> []` -/
def code : Code :=
  Code.join [[.label Entry.discardRecord, .exchange, .duplicate, .jumpFalse skip, .duplicate],
    readWord Record.statusOffset,
    [.pushI Record.skipDiscardMask, .btAnd, .jumpTrue skip, .duplicate],
    readWord Record.statusOffset,
    [.pushI Record.statusReference, .btAnd, .jumpFalse release],
    -- [return record]: discard the elements.
    storeWord Cell.discardPointer, bracket.save, loadWord Cell.discardPointer,
    [.duplicate], addOffset Record.arrayHeaderSize, storeWord Cell.discardCursor,
    [.duplicate], readWord Record.arrayLengthOffset, storeWord Cell.discardRemaining,
    [.label loop], loadWord Cell.discardRemaining, [.jumpFalse loopEnd],
    loadWord Cell.discardCursor, [.loadI, .call Entry.discardRecord],
    loadWord Cell.discardCursor, addOffset 4, storeWord Cell.discardCursor,
    decrement Cell.discardRemaining, [.jump loop],
    [.label loopEnd], storeWord Cell.discardPointer, bracket.restore,
    loadWord Cell.discardPointer,
    -- [return record]: mark it deleted and hand it back.
    [.label release, .duplicate], addOffset Record.statusOffset,
    [.duplicate, .loadI, .pushI Record.statusDeleted, .btOr, .storeI, .call Entry.deallocate,
      .popPC],
    [.label skip, .pop, .popPC]]

end DiscardRecord

namespace Environment

open Code

/-- Execution falls into the environment first and leaves it by jumping to the
main program. Discard needs the heap manager and is left out without it. -/
def code (withDiscard : Bool) : Code :=
  Code.join [[.dataLabel Cell.locationZero, .dataZ 8],
    wordCells [Cell.framePointer, Cell.stackPointer],
    [.memtop, .duplicate], storeWord Cell.framePointer, storeWord Cell.stackPointer,
    [.jump Entry.main],
    (Cell.texts.flatMap fun (label, text) => [.dataLabel label, .dataS text]),
    (Cell.scratch.flatMap fun (label, size) => [.dataLabel label, .dataZ size]),
    faultHandlers, ClearBytes.code, CopyBytes.code, LowestTerms.code,
    if withDiscard then DiscardRecord.code else []]

end Environment

end StackBackend
