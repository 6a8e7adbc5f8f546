import StackBackend.Access

namespace StackBackend

/-! The heap manager: a first-fit free list, and blocks carved off the end of
the heap when nothing fits. The word before a block holds the size of its
payload. A freed block is linked through its first word; the rest of it stays
as it was. Both routines call nothing and keep their return address in a cell. -/

namespace Heap

open Code

def allocateReturn : String := "$mmgr-alloc-return"
def allocateSize : String := "$mmgr-alloc-size"
def allocatePrevious : String := "$mmgr-alloc-previous"
def allocateCurrent : String := "$mmgr-alloc-current"
def deallocateReturn : String := "$mmgr-dealloc-return"

def search : String := "-mem-manager-alloc-search"
def next : String := "-mem-manager-alloc-next"
def unlinkHead : String := "-mem-manager-alloc-unlink-head"
def found : String := "-mem-manager-alloc-found"
def bump : String := "-mem-manager-alloc-bump"
def exit : String := "-mem-manager-alloc-exit"

/-- Runs before anything else: the first block will start at the heap label. -/
def initialization : Code :=
  [.pushD Cell.bumpPointer, .pushD Cell.heap, .storeI]

def cells : List String :=
  [Cell.freeList, Cell.bumpPointer, allocateReturn, allocateSize, allocatePrevious,
    allocateCurrent, deallocateReturn]

/-- `[size return] -> [pointer]` -/
def allocate : Code :=
  Code.join [[.label Entry.allocate], storeWord allocateReturn, storeWord allocateSize,
    [.pushI 0], storeWord allocatePrevious,
    loadWord Cell.freeList, storeWord allocateCurrent,
    -- Does the current block fit?
    [.label search], loadWord allocateCurrent, [.jumpFalse bump],
    loadWord allocateCurrent, [.pushI 4, .subtract, .loadI],
    loadWord allocateSize, [.subtract, .jumpNeg next],
    -- It does: unlink it.
    loadWord allocatePrevious, [.jumpFalse unlinkHead],
    loadWord allocatePrevious, loadWord allocateCurrent,
    [.loadI, .storeI, .jump found],
    [.label unlinkHead, .pushD Cell.freeList], loadWord allocateCurrent,
    [.loadI, .storeI],
    [.label found], loadWord allocateCurrent, [.jump exit],
    -- It does not: look at the next one.
    [.label next], loadWord allocateCurrent, storeWord allocatePrevious,
    loadWord allocateCurrent, [.loadI], storeWord allocateCurrent, [.jump search],
    -- Nothing fits: carve a new block off the heap.
    [.label bump], loadWord Cell.bumpPointer, addOffset 4,
    loadWord Cell.bumpPointer, loadWord allocateSize, [.storeI, .duplicate],
    loadWord allocateSize, [.add], storeWord Cell.bumpPointer,
    [.label exit], loadWord allocateReturn, [.popPC]]

/-- `[pointer return] -> []` -/
def deallocate : Code :=
  Code.join [[.label Entry.deallocate], storeWord deallocateReturn, [.duplicate],
    loadWord Cell.freeList, [.storeI], storeWord Cell.freeList,
    loadWord deallocateReturn, [.popPC]]

/-- The cells and routines; the heap starts where they end. -/
def manager : Code :=
  Code.join [(cells.flatMap fun cell => [.dataLabel cell, .dataI 0]), allocate, deallocate,
    [.dataLabel Cell.heap]]

end Heap

end StackBackend
