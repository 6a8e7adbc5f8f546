import StackBackend.Proofs.HeapHistory
import StackBackend.Proofs.RecordGraph

namespace StackBackend

/-! Discarding a record gives back the live records that it leads to, each of them once:
the routine makes the visit of the graph of records, and whatever it finds released
already or permanent it leaves alone. -/

namespace DiscardRecord

open Code
open Heap (Block)

/-! ## The blocks of the routine -/

/-- The cells that the routine works in. -/
def cells : List String :=
  [Cell.discardCursor, Cell.discardRemaining, Cell.discardPointer, Cell.freeList,
    Heap.deallocateReturn]

/-- `[record] -> [record bits]`: some of the bits of the status. -/
def testStatus (bits : Int32) : Code :=
  .duplicate :: (readWord Record.statusOffset ++ [.pushI bits, .btAnd])

/-- Turns to the first element of an array. -/
def begin : Code :=
  Code.join [storeWord Cell.discardPointer, loadWord Cell.discardCursor,
    loadWord Cell.discardRemaining, loadWord Cell.discardPointer,
    [.duplicate], addOffset Record.arrayHeaderSize, storeWord Cell.discardCursor,
    [.duplicate], readWord Record.arrayLengthOffset, storeWord Cell.discardRemaining]

def element : Code :=
  loadWord Cell.discardCursor ++ [.loadI]

def advance : Code :=
  Code.join [loadWord Cell.discardCursor, addOffset 4, storeWord Cell.discardCursor,
    decrement Cell.discardRemaining]

/-- Turns back to where the enclosing array was. -/
def finish : Code :=
  Code.join [storeWord Cell.discardPointer, storeWord Cell.discardRemaining,
    storeWord Cell.discardCursor, loadWord Cell.discardPointer]

def mark : Code :=
  Code.join [[.duplicate], addOffset Record.statusOffset,
    [.duplicate, .loadI, .pushI Record.statusDeleted, .btOr, .storeI]]

/-- The routine in an image, with the routines and cells that it uses. -/
structure Installed (image : Image) : Prop where
  managed : Heap.Managed image
  cells : Cells image.word cells (Address.index (image.word Cell.heap))
  atEntry : image.Labelled Entry.discardRecord ([.exchange, .duplicate] ++ .jumpFalse skip ::
    (testStatus Record.skipDiscardMask ++ .jumpTrue skip ::
      (testStatus Record.statusReference ++ .jumpFalse release :: (begin ++ [.label loop]))))
  atLoop : image.Labelled loop (loadWord Cell.discardRemaining ++ .jumpFalse loopEnd ::
    (element ++ .call Entry.discardRecord :: (advance ++ [.jump loop, .label loopEnd])))
  atLoopEnd : image.Labelled loopEnd (finish ++ [.label release])
  atRelease : image.Labelled release
    (mark ++ .call Entry.deallocate :: [.popPC, .label skip])
  atSkip : image.Labelled skip ([.pop] ++ [.popPC])

theorem installed_of_holds {image : Image} {position : Nat} (managed : Heap.Managed image)
    (cells : Cells image.word cells (Address.index (image.word Cell.heap)))
    (holds : image.Holds code position) : Installed image := by
  have parts : code = Instruction.label Entry.discardRecord ::
      (([Instruction.exchange, Instruction.duplicate] ++ Instruction.jumpFalse skip ::
        (testStatus Record.skipDiscardMask ++ Instruction.jumpTrue skip ::
          (testStatus Record.statusReference ++ Instruction.jumpFalse release :: begin))) ++
        Instruction.label loop ::
      ((loadWord Cell.discardRemaining ++ Instruction.jumpFalse loopEnd ::
        (element ++ Instruction.call Entry.discardRecord ::
          (advance ++ [Instruction.jump loop]))) ++ Instruction.label loopEnd ::
      (finish ++ Instruction.label release ::
      ((mark ++ Instruction.call Entry.deallocate :: [Instruction.popPC]) ++
        Instruction.label skip :: ([Instruction.pop] ++ [Instruction.popPC]))))) := rfl
  rw [parts] at holds
  have first : image.Labelled Entry.discardRecord _ := ⟨position, (Image.holds_label ..).mp holds⟩
  obtain ⟨atEntry, rest⟩ := first.split
  obtain ⟨atLoop, rest⟩ := rest.split
  obtain ⟨atLoopEnd, rest⟩ := rest.split
  obtain ⟨atRelease, atSkip⟩ := rest.split
  exact ⟨managed, cells, atEntry, atLoop, atLoopEnd, atRelease, atSkip⟩

/-! ## Heaps of records -/

/-- Records that lie apart in memory. Those that are not permanent are on the heap, the
elements of a live array of records point to records, and the free blocks are elsewhere. -/
structure WellFormed (word : String → Int32) (memory : Memory) (records free : List Block) :
    Prop where
  positive : ∀ record ∈ records, 0 < record.address
  large : ∀ record ∈ records, 8 ≤ record.size
  inside : ∀ record ∈ records, record.address + record.size ≤ memory.size ∧
    record.address + record.size ≤ 2147483647
  apart : ∀ record ∈ records, ∀ other ∈ records, record ≠ other →
    record.address + record.size ≤ other.address ∨ other.address + other.size ≤ record.address
  clear : ∀ record ∈ records, ∀ index, record.Covers index → Cells.Misses word cells index
  onHeap : ∀ record ∈ records, ¬ Record.Spared memory record →
    Address.index (word Cell.heap) ≤ record.address
  array : ∀ record ∈ records, ¬ Record.Spared memory record →
    Record.IsArrayOfRecords memory record →
      0 ≤ (memory.word (record.address + 12)).toInt ∧
        16 + 4 * Record.length memory record ≤ record.size ∧
        ∀ element ∈ Record.elements memory record, Record.Points records element
  linked : Heap.Linked memory (memory.cell word Cell.freeList) free
  freeClear : ∀ block ∈ free, ∀ index, block.address ≤ index → index < block.address + 4 →
    Cells.Misses word cells index
  freeApart : ∀ block ∈ free, ∀ record ∈ records, ¬ Record.Spared memory record →
    block.address + 4 ≤ record.address ∨ record.address + record.size ≤ block.address

namespace WellFormed

variable {word : String → Int32} {memory : Memory} {records free : List Block} {record : Block}

theorem located (wellFormed : WellFormed word memory records free) : Record.Located records where
  positive := wellFormed.positive
  unique := by
    intro first second firstKnown secondKnown same
    by_contra different
    have apart := wellFormed.apart first firstKnown second secondKnown different
    have firstLarge := wellFormed.large first firstKnown
    have secondLarge := wellFormed.large second secondKnown
    omega

theorem points (wellFormed : WellFormed word memory records free) :
    ∀ record ∈ records, ¬ Record.Spared memory record →
      ∀ element ∈ Record.elements memory record, Record.Points records element := by
  intro record known live element listed
  by_cases array : Record.IsArrayOfRecords memory record
  · exact (wellFormed.array record known live array).2.2 element listed
  · rw [Record.elements, if_neg array] at listed
    cases listed

end WellFormed

/-! ## The state of a visit -/

/-- The memory during a visit, when the records of `gone` have been released: they are
marked and stacked on the free list, and nothing else has changed outside the cells. -/
structure Discarding (word : String → Int32) (start memory : Memory)
    (records free gone : List Block) : Prop where
  known : ∀ record ∈ gone, record ∈ records ∧ ¬ Record.Spared start record
  size : memory.size = start.size
  kept : ∀ index, Cells.Misses word cells index →
    (∀ record ∈ gone, index < record.address ∨ record.address + 8 ≤ index) →
      memory.byte index = start.byte index
  marked : ∀ record ∈ gone,
    Record.status memory record = Record.status start record ||| Record.statusDeleted
  linked : Heap.Linked memory (memory.cell word Cell.freeList) (gone.reverse ++ free)

theorem WellFormed.discarding {word : String → Int32} {start : Memory}
    {records free : List Block} (wellFormed : WellFormed word start records free) :
    Discarding word start start records free [] where
  known _ member := nomatch member
  size := rfl
  kept _ _ _ := rfl
  marked _ member := nomatch member
  linked := wellFormed.linked

namespace Discarding

variable {word : String → Int32} {start memory : Memory} {records free gone : List Block}
  {record : Block} {index : Nat} {name : String} {value : Int32}

section

variable (wellFormed : WellFormed word start records free)
  (discarding : Discarding word start memory records free gone)
include wellFormed discarding

/-- Behind its status a record stays as it was. -/
theorem word_kept (known : record ∈ records) (lower : record.address + 8 ≤ index)
    (upper : index + 4 ≤ record.address + record.size) : memory.word index = start.word index := by
  refine Memory.word_congr fun other first last => discarding.kept other ?_ fun gone member => ?_
  · exact wellFormed.clear record known other ⟨by omega, by omega⟩
  · have otherKnown := (discarding.known gone member).1
    have large := wellFormed.large gone otherKnown
    by_cases same : gone = record
    · subst same
      omega
    · have apart := wellFormed.apart gone otherKnown record known same
      omega

/-- A record that was not released has the status it had. -/
theorem status_kept (known : record ∈ records) (absent : record ∉ gone) :
    Record.status memory record = Record.status start record := by
  have large := wellFormed.large record known
  refine Memory.word_congr fun other first last => discarding.kept other ?_ fun gone member => ?_
  · exact wellFormed.clear record known other ⟨by omega, by omega⟩
  · have otherKnown := (discarding.known gone member).1
    have otherLarge := wellFormed.large gone otherKnown
    have apart := wellFormed.apart gone otherKnown record known fun same => absent (same ▸ member)
    omega

/-- The links of the free list are outside the cells. -/
theorem link_clear {block : Block} (member : block ∈ gone.reverse ++ free)
    (lower : block.address ≤ index) (upper : index < block.address + 4) :
    Cells.Misses word cells index := by
  obtain released | old := List.mem_append.mp member
  · obtain ⟨known, _⟩ := discarding.known block (List.mem_reverse.mp released)
    have large := wellFormed.large block known
    exact wellFormed.clear block known index ⟨lower, by omega⟩
  · exact wellFormed.freeClear block old index lower upper

/-- The routine's own cells may hold anything. -/
theorem setCell (name : String) (layout : Cells word cells (Address.index (word Cell.heap)))
    (member : name ∈ cells) (other : name ≠ Cell.freeList) (value : Int32) :
    Discarding word start (memory.setCell word name value) records free gone := by
  have kept : ∀ index, Cells.Misses word cells index →
      (memory.setCell word name value).byte index = memory.byte index := fun index misses =>
    Memory.byte_setWord_of_outside (misses name member)
  constructor
  · exact discarding.known
  · exact (Memory.size_setCell ..).trans discarding.size
  · intro index misses outside
    exact (kept index misses).trans (discarding.kept index misses outside)
  · intro record released
    obtain ⟨known, _⟩ := discarding.known record released
    have large := wellFormed.large record known
    rw [← discarding.marked record released]
    refine Memory.word_congr fun index lower upper => kept index ?_
    exact wellFormed.clear record known index ⟨by omega, by omega⟩
  · rw [layout.cell_setCell_other member (by decide) other]
    refine discarding.linked.congr fun block listed => ?_
    exact Memory.word_congr fun index lower upper =>
      kept index (link_clear wellFormed discarding listed lower upper)

end

end Discarding

/-! ## Releasing a record -/

/-- The memory after a record was marked and given back. -/
def discarded (word : String → Int32) (memory : Memory) (caller : Int32) (record : Block) :
    Memory :=
  Heap.released word
    (memory.setWord (record.address + 4) (Record.status memory record ||| Record.statusDeleted))
    caller record.address

section

variable {word : String → Int32} {start memory : Memory} {records free gone : List Block}
  {caller : Int32} {record : Block} {index : Nat} {name : String}

@[simp] theorem size_discarded : (discarded word memory caller record).size = memory.size := by
  simp [discarded, Heap.released]

theorem byte_discarded (misses : Cells.Misses word cells index)
    (outside : index < record.address ∨ record.address + 8 ≤ index) :
    (discarded word memory caller record).byte index = memory.byte index := by
  rw [discarded, Heap.released, Memory.setCell, Memory.setCell,
    Memory.byte_setWord_of_outside (misses _ (by decide)),
    Memory.byte_setWord_of_outside (by omega),
    Memory.byte_setWord_of_outside (misses _ (by decide)),
    Memory.byte_setWord_of_outside (by omega)]

/-- Releasing a record leaves the place in the enclosing array alone. -/
theorem cell_discarded (layout : Cells word cells (Address.index (word Cell.heap)))
    (member : name ∈ [Cell.discardCursor, Cell.discardRemaining])
    (onHeap : Address.index (word Cell.heap) ≤ record.address) :
    (discarded word memory caller record).cell word name = memory.cell word name := by
  have others : ∀ name ∈ [Cell.discardCursor, Cell.discardRemaining],
      name ∈ cells ∧ Cell.freeList ≠ name ∧ Heap.deallocateReturn ≠ name := by decide
  obtain ⟨known, notList, notReturn⟩ := others name member
  rw [discarded, Heap.released, layout.cell_setCell_other (by decide) known notList,
    layout.cell_setWord known onHeap, layout.cell_setCell_other (by decide) known notReturn,
    layout.cell_setWord known (by omega)]

variable (heapCells : Cells word Heap.cells (Address.index (word Cell.heap)))
  (wellFormed : WellFormed word start records free)
  (discarding : Discarding word start memory records free gone)
include heapCells wellFormed discarding

/-- A live record joins those that are released. -/
theorem discarding_discarded (known : record ∈ records) (live : ¬ Record.Spared start record)
    (absent : record ∉ gone) :
    Discarding word start (discarded word memory caller record) records free
      (gone ++ [record]) := by
  have onHeap := wellFormed.onHeap record known live
  have large := wellFormed.large record known
  have inside := wellFormed.inside record known
  have size := discarding.size
  have apart : ∀ other ∈ gone, other.address + 8 ≤ record.address ∨
      record.address + 8 ≤ other.address := by
    intro other member
    obtain ⟨otherKnown, _⟩ := discarding.known other member
    have otherLarge := wellFormed.large other otherKnown
    have apart := wellFormed.apart other otherKnown record known fun same => absent (same ▸ member)
    omega
  constructor
  · intro other member
    obtain member | member := List.mem_append.mp member
    · exact discarding.known other member
    · obtain rfl := List.mem_singleton.mp member
      exact ⟨known, live⟩
  · exact size_discarded.trans size
  · intro index misses outside
    rw [byte_discarded misses (outside record (by simp))]
    exact discarding.kept index misses fun other member => outside other (by simp [member])
  · intro other member
    obtain member | member := List.mem_append.mp member
    · obtain ⟨otherKnown, _⟩ := discarding.known other member
      have otherLarge := wellFormed.large other otherKnown
      have otherApart := apart other member
      rw [← discarding.marked other member]
      refine Memory.word_congr fun index lower upper => byte_discarded ?_ (by omega)
      exact wellFormed.clear other otherKnown index ⟨by omega, by omega⟩
    · obtain rfl := List.mem_singleton.mp member
      rw [Record.status, discarded, Heap.word_released heapCells (by omega) (.inr (by omega)),
        Memory.word_setWord (by omega), discarding.status_kept wellFormed known absent]
  · rw [List.reverse_append, List.reverse_singleton, List.singleton_append, List.cons_append,
      discarded, Heap.freeList_released heapCells (by rw [Memory.size_setWord]; omega)]
    refine ⟨Address.names_ofNat (by omega), ?_⟩
    rw [Heap.link_released heapCells onHeap (by rw [Memory.size_setWord]; omega),
      heapCells.cell_setWord (by decide) (by omega), ← discarded]
    refine discarding.linked.congr fun block listed => ?_
    refine Memory.word_congr fun index lower upper =>
      byte_discarded (discarding.link_clear wellFormed listed lower upper) ?_
    obtain released | old := List.mem_append.mp listed
    · have blockApart := apart block (List.mem_reverse.mp released)
      omega
    · have blockApart := wellFormed.freeApart block old record known live
      omega

end

/-! ## What the blocks do -/

section

variable {image : Image} {memory : Memory} {stack : List Word} {pointer value : Int32}
  {address : Nat}

theorem act_testStatus (names : Address.Names pointer address)
    (inside : address + 8 ≤ memory.size) (fits : address + 8 ≤ 2147483647) (bits : Int32) :
    Code.act image.word (testStatus bits) (.integer pointer :: stack) memory =
      some (.integer (memory.word (address + 4) &&& bits) :: .integer pointer :: stack,
        memory) := by
  have status : Address.Names (pointer + Record.statusOffset) (address + 4) :=
    names.add (by change (address : Int) + 4 = _; omega) (by omega)
  rw [testStatus, act_duplicate, act_readWord status (by omega), act_pushI, act_btAnd, act_nil]

theorem act_mark (names : Address.Names pointer address) (inside : address + 8 ≤ memory.size)
    (fits : address + 8 ≤ 2147483647) :
    Code.act image.word mark (.integer pointer :: stack) memory =
      some (.integer pointer :: stack, memory.setWord (address + 4)
        (memory.word (address + 4) ||| Record.statusDeleted)) := by
  have status : Address.Names (pointer + Record.statusOffset) (address + 4) :=
    names.add (by change (address : Int) + 4 = _; omega) (by omega)
  simp only [mark, join_cons, join_nil, List.cons_append, List.nil_append]
  rw [act_duplicate, act_addOffset, act_duplicate, act_loadAt status (by omega), act_pushI,
    act_btOr, act_setWord status (by omega), act_nil]

variable (cells : Cells image.word cells (Address.index (image.word Cell.heap)))
  (floor : Address.index (image.word Cell.heap) ≤ memory.size)
include cells floor

theorem act_begin (names : Address.Names pointer address) (inside : address + 16 ≤ memory.size)
    (fits : address + 16 ≤ 2147483647)
    (above : Address.index (image.word Cell.heap) ≤ address) :
    Code.act image.word begin (.integer pointer :: stack) memory =
      some (.integer pointer :: .integer (memory.cell image.word Cell.discardRemaining) ::
          .integer (memory.cell image.word Cell.discardCursor) :: stack,
        ((memory.setCell image.word Cell.discardPointer pointer).setCell image.word
          Cell.discardCursor (pointer + Record.arrayHeaderSize)).setCell image.word
          Cell.discardRemaining (memory.word (address + 12))) := by
  have count : Address.Names (pointer + Record.arrayLengthOffset) (address + 12) :=
    names.add (by change (address : Int) + 12 = _; omega) (by omega)
  simp only [begin, join_cons, join_nil, List.cons_append, List.nil_append]
  rw [cells.act_storeCell (by decide) floor,
    cells.act_loadCell (by decide) (by rwa [Memory.size_setCell]),
    cells.cell_setCell_other (by decide) (by decide) (by decide),
    cells.act_loadCell (by decide) (by rwa [Memory.size_setCell]),
    cells.cell_setCell_other (by decide) (by decide) (by decide),
    cells.act_loadCell (by decide) (by rwa [Memory.size_setCell]),
    cells.cell_setCell (by decide) floor, act_duplicate, act_addOffset,
    cells.act_storeCell (by decide) (by rwa [Memory.size_setCell]), act_duplicate,
    act_readWord count (by simp only [Memory.size_setCell]; omega),
    cells.word_setCell (by decide) (by omega), cells.word_setCell (by decide) (by omega),
    cells.act_storeCell (by decide) (by rwa [Memory.size_setCell, Memory.size_setCell]), act_nil]

theorem act_element (names : Address.Names (memory.cell image.word Cell.discardCursor) address)
    (inside : address + 4 ≤ memory.size) :
    Code.act image.word element stack memory =
      some (.integer (memory.word address) :: stack, memory) := by
  rw [element, cells.act_loadCell (by decide) floor, act_loadAt names inside, act_nil]

theorem act_advance :
    Code.act image.word advance stack memory =
      some (stack, (memory.setCell image.word Cell.discardCursor
        (memory.cell image.word Cell.discardCursor + 4)).setCell image.word Cell.discardRemaining
        (memory.cell image.word Cell.discardRemaining - 1)) := by
  have code : advance = loadWord Cell.discardCursor ++ (addOffset 4 ++
      (storeWord Cell.discardCursor ++ (decrement Cell.discardRemaining ++ []))) := rfl
  rw [code, cells.act_loadCell (by decide) floor, act_addOffset,
    cells.act_storeCell (by decide) floor,
    cells.act_decrementCell (by decide) (by rwa [Memory.size_setCell]),
    cells.cell_setCell_other (by decide) (by decide) (by decide), act_nil]

theorem act_finish (cursor remaining : Int32) :
    Code.act image.word finish
        (.integer pointer :: .integer remaining :: .integer cursor :: stack) memory =
      some (.integer pointer :: stack,
        ((memory.setCell image.word Cell.discardPointer pointer).setCell image.word
          Cell.discardRemaining remaining).setCell image.word Cell.discardCursor cursor) := by
  simp only [finish, join_cons, join_nil]
  rw [cells.act_storeCell (by decide) floor,
    cells.act_storeCell (by decide) (by rwa [Memory.size_setCell]),
    cells.act_storeCell (by decide) (by rwa [Memory.size_setCell, Memory.size_setCell]),
    cells.act_loadCell (by decide)
      (by rwa [Memory.size_setCell, Memory.size_setCell, Memory.size_setCell]),
    cells.cell_setCell_other (by decide) (by decide) (by decide),
    cells.cell_setCell_other (by decide) (by decide) (by decide),
    cells.cell_setCell (by decide) floor, act_nil]

end

/-! ## Runs of the routine -/

section

variable {image : Image} {limit : Option Nat} {memory : Memory} {stack : List Word}
  {output : ByteArray} {position here : Nat} {pointer : Int32} {record : Block}
  (installed : Installed image)
include installed

theorem runs_skip (pointer : Int32) (inside : position ≤ image.code.size)
    (marks : image.Marks skip here) :
    Runs image limit
      ⟨here, .integer pointer :: .integer (Int32.ofNat position) :: stack, memory, output⟩
      ⟨position, stack, memory, output⟩ :=
  Runs.leaves installed.managed.addressable (installed.atSkip.holds marks) inside rfl

/-- Nothing happens for a null pointer. -/
theorem runs_null (inside : position ≤ image.code.size)
    (marks : image.Marks Entry.discardRecord here) :
    Runs image limit
      ⟨here, .integer (Int32.ofNat position) :: .integer 0 :: stack, memory, output⟩
      ⟨position, stack, memory, output⟩ := by
  obtain ⟨skipHere, skipMarks, _⟩ := installed.atSkip
  exact (Runs.branches installed.managed.addressable (installed.atEntry.holds marks) rfl rfl
    skipMarks rfl).trans (runs_skip installed _ inside skipMarks)

/-- The status of a record is looked at. -/
theorem runs_record (marks : image.Marks Entry.discardRecord here)
    (names : Address.Names pointer record.address) (positive : 0 < record.address) :
    ∃ next, image.Holds (testStatus Record.skipDiscardMask ++ .jumpTrue skip ::
        (testStatus Record.statusReference ++ .jumpFalse release :: (begin ++ [.label loop])))
        next ∧ Runs image limit
      ⟨here, .integer (Int32.ofNat position) :: .integer pointer :: stack, memory, output⟩
      ⟨next, .integer pointer :: .integer (Int32.ofNat position) :: stack, memory, output⟩ := by
  obtain ⟨skipHere, skipMarks, _⟩ := installed.atSkip
  exact Runs.passes installed.managed.addressable (installed.atEntry.holds marks) rfl rfl skipMarks
    rfl (by simp [Instruction.test, Heap.names_ne_zero names positive])

/-- A record that is deleted or permanent is left alone. -/
theorem runs_spared (inside : position ≤ image.code.size)
    (marks : image.Marks Entry.discardRecord here)
    (names : Address.Names pointer record.address) (positive : 0 < record.address)
    (within : record.address + 8 ≤ memory.size) (fits : record.address + 8 ≤ 2147483647)
    (spared : Record.Spared memory record) :
    Runs image limit
      ⟨here, .integer (Int32.ofNat position) :: .integer pointer :: stack, memory, output⟩
      ⟨position, stack, memory, output⟩ := by
  obtain ⟨skipHere, skipMarks, _⟩ := installed.atSkip
  have addressable := installed.managed.addressable
  obtain ⟨test, holds, toTest⟩ := runs_record installed marks names positive
  refine toTest.trans (Runs.trans ?_ (runs_skip installed pointer inside skipMarks))
  refine Runs.branches addressable holds (act_testStatus names within fits _) rfl skipMarks ?_
  simpa [Instruction.test, Record.Spared, Record.status] using spared

/-- A live record is looked at for elements. -/
theorem runs_live (marks : image.Marks Entry.discardRecord here)
    (names : Address.Names pointer record.address) (positive : 0 < record.address)
    (within : record.address + 8 ≤ memory.size) (fits : record.address + 8 ≤ 2147483647)
    (live : ¬ Record.Spared memory record) :
    ∃ next, image.Holds (testStatus Record.statusReference ++ .jumpFalse release ::
        (begin ++ [.label loop])) next ∧ Runs image limit
      ⟨here, .integer (Int32.ofNat position) :: .integer pointer :: stack, memory, output⟩
      ⟨next, .integer pointer :: .integer (Int32.ofNat position) :: stack, memory, output⟩ := by
  obtain ⟨skipHere, skipMarks, _⟩ := installed.atSkip
  have addressable := installed.managed.addressable
  obtain ⟨test, holds, toTest⟩ := runs_record installed marks names positive
  obtain ⟨next, holdsNext, toNext⟩ : ∃ next, image.Holds _ next ∧ Runs image limit
      ⟨test, .integer pointer :: .integer (Int32.ofNat position) :: stack, memory, output⟩
      ⟨next, .integer pointer :: .integer (Int32.ofNat position) :: stack, memory, output⟩ :=
    Runs.passes addressable holds (act_testStatus names within fits _) rfl skipMarks rfl
      (by simpa [Instruction.test, Record.Spared, Record.status] using live)
  exact ⟨next, holdsNext, toTest.trans toNext⟩

/-- Marks the record and gives it back. -/
theorem runs_release (inside : position ≤ image.code.size) (marks : image.Marks release here)
    (names : Address.Names pointer record.address)
    (onHeap : Address.index (image.word Cell.heap) ≤ record.address)
    (within : record.address + 8 ≤ memory.size) (fits : record.address + 8 ≤ 2147483647) :
    ∃ caller, Runs image limit
      ⟨here, .integer pointer :: .integer (Int32.ofNat position) :: stack, memory, output⟩
      ⟨position, stack, discarded image.word memory caller record, output⟩ := by
  have addressable := installed.managed.addressable
  obtain ⟨entry, entryMarks, _⟩ := installed.managed.routines.atDeallocate
  obtain ⟨holds, holdsCall⟩ := Image.holds_append.mp (installed.atRelease.holds marks)
  obtain ⟨_, holdsReturn⟩ := (Image.holds_cons rfl ..).mp holdsCall
  have back : here + mark.size + 1 ≤ image.code.size := by
    obtain ⟨found, _⟩ := (Image.holds_cons rfl ..).mp holdsReturn
    exact Nat.le_of_lt (Array.getElem?_eq_some_iff.mp found).1
  have marked : Runs image limit
      ⟨here, .integer pointer :: .integer (Int32.ofNat position) :: stack, memory, output⟩ _ :=
    Runs.straight holds (act_mark names within fits)
  rw [Heap.eq_ofNat_of_names names] at marked ⊢
  refine ⟨_, marked.trans ((Runs.call addressable holdsCall entryMarks).trans
    ((Heap.runs_deallocate installed.managed onHeap ?_ (by omega) back entryMarks).trans
      (Runs.popPC addressable holdsReturn inside)))⟩
  rw [Memory.size_setWord]
  omega

end

/-! ## Visits as runs -/

section

variable (image : Image) (limit : Option Nat) (start : Memory) (records free : List Block)

/-- A call for the pointer releases what turns `gone` into `later`, and leaves the place in
the enclosing array alone. -/
def Handles (gone : List Block) (pointer : Int32) (later : List Block) : Prop :=
  ∀ ⦃memory entry position⦄ (stack : List Word) (output : ByteArray),
    image.Marks Entry.discardRecord entry → position ≤ image.code.size →
    Discarding image.word start memory records free gone →
    ∃ after, Runs image limit
        ⟨entry, .integer (Int32.ofNat position) :: .integer pointer :: stack, memory, output⟩
        ⟨position, stack, after, output⟩ ∧
      Discarding image.word start after records free later ∧
      ∀ name ∈ [Cell.discardCursor, Cell.discardRemaining],
        after.cell image.word name = memory.cell image.word name

/-- The loop over the elements of an array, from one of them on. -/
def Walks (gone : List Block) (pointers : List Int32) (later : List Block) : Prop :=
  ∀ ⦃memory array base here stop⦄ (stack : List Word) (output : ByteArray),
    image.Marks loop here → image.Marks loopEnd stop →
    Discarding image.word start memory records free gone →
    array ∈ records → Address.index (image.word Cell.heap) ≤ array.address →
    array.address + 16 ≤ base → base + 4 * pointers.length ≤ array.address + array.size →
    Record.wordsFrom start base pointers.length = pointers →
    memory.cell image.word Cell.discardCursor = Int32.ofNat base →
    memory.cell image.word Cell.discardRemaining = Int32.ofNat pointers.length →
    ∃ after, Runs image limit ⟨here, stack, memory, output⟩ ⟨stop, stack, after, output⟩ ∧
      Discarding image.word start after records free later

end

section

variable {image : Image} {limit : Option Nat} {start : Memory} {records free : List Block}
  {gone between later inner : List Block} {pointer : Int32} {pointers : List Int32}
  {record : Block} (installed : Installed image)
  (wellFormed : WellFormed image.word start records free)
include installed

theorem handles_null : Handles image limit start records free gone 0 gone :=
  fun {memory} _ _ _ _ marks inside discarding =>
    ⟨memory, runs_null installed inside marks, discarding, fun _ _ => rfl⟩

include wellFormed

/-- Records that are spared from the start, and those that are released by now. -/
theorem handles_done (known : record ∈ records) (names : Address.Names pointer record.address)
    (done : Record.Spared start record ∨ record ∈ gone) :
    Handles image limit start records free gone pointer gone := by
  intro memory entry position stack output marks inside discarding
  have large := wellFormed.large record known
  have within := wellFormed.inside record known
  have size := discarding.size
  have spared : Record.Spared memory record := by
    by_cases member : record ∈ gone
    · rw [Record.Spared, discarding.marked record member]
      exact Record.spared_of_marked _
    · rw [Record.Spared, discarding.status_kept wellFormed known member]
      exact done.resolve_right member
  exact ⟨memory, runs_spared installed inside marks names (wellFormed.positive record known)
    (by omega) (by omega) spared, discarding, fun _ _ => rfl⟩

theorem walks_nil : Walks image limit start records free gone [] gone := by
  intro memory array base here stop stack output marks stopMarks discarding known onHeap lower
    upper words cursor remaining
  have within := wellFormed.inside array known
  have size := discarding.size
  refine ⟨memory, ?_, discarding⟩
  refine Runs.branches installed.managed.addressable (installed.atLoop.holds marks)
    (installed.cells.act_lastLoad (by decide) (by omega)) rfl stopMarks ?_
  rw [remaining]
  rfl

theorem walks_cons (handles : Handles image limit start records free gone pointer between)
    (walks : Walks image limit start records free between pointers later) :
    Walks image limit start records free gone (pointer :: pointers) later := by
  intro memory array base here stop stack output marks stopMarks discarding known onHeap lower
    upper words cursor remaining
  have within := wellFormed.inside array known
  have size := discarding.size
  have addressable := installed.managed.addressable
  rw [List.length_cons] at upper remaining words
  obtain ⟨first, others⟩ := List.cons.inj words
  obtain ⟨entry, entryMarks, _⟩ := installed.atEntry
  have nonzero : memory.cell image.word Cell.discardRemaining ≠ 0 := by
    rw [remaining]
    exact Heap.names_ne_zero (Address.names_ofNat (by omega)) (Nat.succ_pos _)
  have located : Address.Names (memory.cell image.word Cell.discardCursor) base :=
    cursor ▸ Address.names_ofNat (by omega)
  obtain ⟨next, holds, toElement⟩ : ∃ next, image.Holds _ next ∧
      Runs image limit ⟨here, stack, memory, output⟩ ⟨next, stack, memory, output⟩ :=
    Runs.passes addressable (installed.atLoop.holds marks)
      (installed.cells.act_lastLoad (by decide) (by omega)) rfl stopMarks rfl
      (by simpa [Instruction.test] using nonzero)
  obtain ⟨holdsElement, holdsCall⟩ := Image.holds_append.mp holds
  obtain ⟨_, holdsAdvance⟩ := (Image.holds_cons rfl ..).mp holdsCall
  have back : next + element.size + 1 ≤ image.code.size := by
    obtain ⟨found, _⟩ := (Image.holds_cons rfl ..).mp holdsCall
    exact (Array.getElem?_eq_some_iff.mp found).1
  have acts : Code.act image.word element stack memory =
      some (.integer pointer :: stack, memory) := by
    rw [act_element installed.cells (by omega) located (by omega),
      discarding.word_kept wellFormed known (by omega) (by omega), first]
  obtain ⟨handled, runs, handledDiscarding, kept⟩ :=
    handles stack output entryMarks back discarding
  have room : Address.index (image.word Cell.heap) ≤ handled.size := by
    have handledSize := handledDiscarding.size
    omega
  have advances : Code.act image.word advance stack handled = some (stack, _) :=
    act_advance installed.cells room
  rw [kept _ (by decide), kept _ (by decide), cursor, remaining] at advances
  have moved := handledDiscarding.setCell wellFormed Cell.discardCursor installed.cells (by decide)
    (by decide) (Int32.ofNat base + 4)
  have advanced := moved.setCell wellFormed Cell.discardRemaining installed.cells (by decide)
    (by decide) (Int32.ofNat (pointers.length + 1) - 1)
  obtain ⟨after, walk, discarded⟩ := walks stack output marks stopMarks advanced known onHeap
    (Nat.le_trans lower (Nat.le_add_right base 4)) (by omega) others
    (by
      rw [installed.cells.cell_setCell_other (by decide) (by decide) (by decide),
        installed.cells.cell_setCell (by decide) room, Int32.ofNat_add]
      rfl)
    (by
      rw [installed.cells.cell_setCell (by decide) (by rwa [Memory.size_setCell]), Int32.ofNat_add]
      exact Int32.add_sub_cancel ..)
  refine ⟨after, toElement.trans ((Runs.straight holdsElement acts).trans
    ((Runs.call addressable holdsCall entryMarks).trans (runs.trans (Runs.trans ?_ walk)))),
    discarded⟩
  exact Runs.jumps addressable holdsAdvance advances marks

/-- A live record without elements is released. -/
theorem handles_leaf (known : record ∈ records) (names : Address.Names pointer record.address)
    (live : ¬ Record.Spared start record) (leaf : ¬ Record.IsArrayOfRecords start record)
    (absent : record ∉ gone) :
    Handles image limit start records free gone pointer (gone ++ [record]) := by
  intro memory entry position stack output marks inside discarding
  have large := wellFormed.large record known
  have within := wellFormed.inside record known
  have size := discarding.size
  have onHeap := wellFormed.onHeap record known live
  have header : record.address + 8 ≤ memory.size := by omega
  have status := discarding.status_kept wellFormed known absent
  obtain ⟨releaseHere, releaseMarks, _⟩ := installed.atRelease
  obtain ⟨next, holds, toTest⟩ := runs_live installed marks names
    (wellFormed.positive record known) header (by omega)
    (by rwa [Record.Spared, status])
  obtain ⟨caller, released⟩ := runs_release installed inside releaseMarks names onHeap header
    (by omega)
  refine ⟨_, toTest.trans (Runs.trans ?_ released),
    discarding_discarded installed.managed.cells wellFormed discarding known live absent,
    fun name place => cell_discarded installed.cells place onHeap⟩
  refine Runs.branches installed.managed.addressable holds
    (act_testStatus names header (by omega) _) rfl releaseMarks ?_
  rw [Record.IsArrayOfRecords, ← status] at leaf
  simpa [Instruction.test, Record.status] using leaf

/-- From the test for elements to the end of the loop over them. -/
theorem runs_elements {memory : Memory} {test stop : Nat} {stack : List Word} {output : ByteArray}
    (holdsTest : image.Holds (testStatus Record.statusReference ++ .jumpFalse release ::
      (begin ++ [.label loop])) test) (stopMarks : image.Marks loopEnd stop)
    (discarding : Discarding image.word start memory records free gone)
    (known : record ∈ records) (live : ¬ Record.Spared start record)
    (array : Record.IsArrayOfRecords start record) (absent : record ∉ gone)
    (walks : Walks image limit start records free gone (Record.elements start record) between) :
    ∃ after, Runs image limit
        ⟨test, .integer (Int32.ofNat record.address) :: stack, memory, output⟩
        ⟨stop, .integer (Int32.ofNat record.address) ::
          .integer (memory.cell image.word Cell.discardRemaining) ::
          .integer (memory.cell image.word Cell.discardCursor) :: stack, after, output⟩ ∧
      Discarding image.word start after records free between := by
  have within := wellFormed.inside record known
  have size := discarding.size
  have onHeap := wellFormed.onHeap record known live
  have status := discarding.status_kept wellFormed known absent
  have addressable := installed.managed.addressable
  have names : Address.Names (Int32.ofNat record.address) record.address :=
    Address.names_ofNat (by omega)
  obtain ⟨nonnegative, room, _⟩ := wellFormed.array record known live array
  have floor : Address.index (image.word Cell.heap) ≤ memory.size := by omega
  have header : record.address + 8 ≤ memory.size := by omega
  obtain ⟨loopHere, loopMarks, _⟩ := installed.atLoop
  obtain ⟨releaseHere, releaseMarks, _⟩ := installed.atRelease
  obtain ⟨next, holds, toBegin⟩ : ∃ next, image.Holds _ next ∧ Runs image limit
      ⟨test, .integer (Int32.ofNat record.address) :: stack, memory, output⟩
      ⟨next, .integer (Int32.ofNat record.address) :: stack, memory, output⟩ :=
    Runs.passes addressable holdsTest (act_testStatus names header (by omega) _) rfl
      releaseMarks rfl (by
        rw [Record.IsArrayOfRecords, ← status] at array
        simpa [Instruction.test, Record.status] using array)
  have count : memory.word (record.address + 12) = Int32.ofNat (Record.length start record) := by
    rw [discarding.word_kept wellFormed known (by omega) (by omega)]
    exact Heap.eq_ofNat_of_names (Address.names_index nonnegative)
  have begins : Code.act image.word begin (.integer (Int32.ofNat record.address) :: stack) memory =
      some (_, _) :=
    act_begin installed.cells floor names (by omega) (by omega) onHeap
  rw [count] at begins
  have parked := discarding.setCell wellFormed Cell.discardPointer installed.cells (by decide)
    (by decide) (Int32.ofNat record.address)
  have moved := parked.setCell wellFormed Cell.discardCursor installed.cells (by decide)
    (by decide) (Int32.ofNat record.address + Record.arrayHeaderSize)
  have begun := moved.setCell wellFormed Cell.discardRemaining installed.cells (by decide)
    (by decide) (Int32.ofNat (Record.length start record))
  rw [Record.elements, if_pos array] at walks
  obtain ⟨walked, walk, walkedDiscarding⟩ := walks _ output loopMarks stopMarks begun known onHeap
    (Nat.le_refl _) (by rw [Record.length_wordsFrom]; omega) (by rw [Record.length_wordsFrom])
    (by
      rw [installed.cells.cell_setCell_other (by decide) (by decide) (by decide),
        installed.cells.cell_setCell (by decide) (by simpa using floor), Int32.ofNat_add]
      rfl)
    (by
      rw [installed.cells.cell_setCell (by decide) (by simpa using floor),
        Record.length_wordsFrom])
  exact ⟨walked, toBegin.trans ((Runs.falls holds begins loopMarks).trans walk), walkedDiscarding⟩

/-- From the end of the loop on: the array itself is released, and the place in the
enclosing one is back. -/
theorem runs_finish {memory : Memory} {here position : Nat} {stack : List Word}
    {output : ByteArray} (marks : image.Marks loopEnd here)
    (inside : position ≤ image.code.size)
    (discarding : Discarding image.word start memory records free gone)
    (known : record ∈ records) (live : ¬ Record.Spared start record) (absent : record ∉ gone)
    (cursor remaining : Int32) :
    ∃ after, Runs image limit
        ⟨here, .integer (Int32.ofNat record.address) :: .integer remaining :: .integer cursor ::
          .integer (Int32.ofNat position) :: stack, memory, output⟩
        ⟨position, stack, after, output⟩ ∧
      Discarding image.word start after records free (gone ++ [record]) ∧
      after.cell image.word Cell.discardCursor = cursor ∧
      after.cell image.word Cell.discardRemaining = remaining := by
  have large := wellFormed.large record known
  have within := wellFormed.inside record known
  have size := discarding.size
  have onHeap := wellFormed.onHeap record known live
  have floor : Address.index (image.word Cell.heap) ≤ memory.size := by omega
  obtain ⟨releaseHere, releaseMarks, _⟩ := installed.atRelease
  have parked := discarding.setCell wellFormed Cell.discardPointer installed.cells (by decide)
    (by decide) (Int32.ofNat record.address)
  have moved := parked.setCell wellFormed Cell.discardRemaining installed.cells (by decide)
    (by decide) remaining
  have finished := moved.setCell wellFormed Cell.discardCursor installed.cells (by decide)
    (by decide) cursor
  have header : record.address + 8 ≤ start.size := by omega
  rw [← finished.size] at header
  obtain ⟨caller, released⟩ := runs_release installed inside releaseMarks
    (Address.names_ofNat (by omega)) onHeap header (by omega)
  refine ⟨_, (Runs.falls (installed.atLoopEnd.holds marks)
    (act_finish installed.cells floor cursor remaining) releaseMarks).trans released,
    discarding_discarded installed.managed.cells wellFormed finished known live absent, ?_, ?_⟩
  · rw [cell_discarded installed.cells (by decide) onHeap,
      installed.cells.cell_setCell (by decide) (by simpa using floor)]
  · rw [cell_discarded installed.cells (by decide) onHeap,
      installed.cells.cell_setCell_other (by decide) (by decide) (by decide),
      installed.cells.cell_setCell (by decide) (by simpa using floor)]

/-- A live array of records is released after what its elements lead to. -/
theorem handles_array (known : record ∈ records) (names : Address.Names pointer record.address)
    (live : ¬ Record.Spared start record) (array : Record.IsArrayOfRecords start record)
    (absent : record ∉ gone) (absentLater : record ∉ between)
    (walks : Walks image limit start records free gone (Record.elements start record) between) :
    Handles image limit start records free gone pointer (between ++ [record]) := by
  intro memory entry position stack output marks inside discarding
  have large := wellFormed.large record known
  have within := wellFormed.inside record known
  have size := discarding.size
  have header : record.address + 8 ≤ memory.size := by omega
  obtain ⟨stop, stopMarks, _⟩ := installed.atLoopEnd
  obtain ⟨test, holdsTest, toTest⟩ := runs_live installed marks names
    (wellFormed.positive record known) header (by omega)
    (by rwa [Record.Spared, discarding.status_kept wellFormed known absent])
  rw [Heap.eq_ofNat_of_names names] at toTest ⊢
  obtain ⟨walked, walk, walkedDiscarding⟩ := runs_elements installed wellFormed holdsTest stopMarks
    discarding known live array absent walks
  obtain ⟨after, finish, finished, cursor, remaining⟩ := runs_finish installed wellFormed stopMarks
    inside walkedDiscarding known live absentLater
    (memory.cell image.word Cell.discardCursor) (memory.cell image.word Cell.discardRemaining)
  refine ⟨after, toTest.trans (walk.trans finish), finished, ?_⟩
  simpa using ⟨cursor, remaining⟩

/-- A live record is released after what it leads to. -/
theorem handles_record (acyclic : Record.Acyclic start records) (known : record ∈ records)
    (names : Address.Names pointer record.address) (live : ¬ Record.Spared start record)
    (absent : record ∉ gone)
    (children : Record.Visits start records gone (Record.elements start record) inner)
    (walks : Walks image limit start records free gone (Record.elements start record)
      (gone ++ inner)) :
    Handles image limit start records free gone pointer (gone ++ inner ++ [record]) := by
  have absentLater : record ∉ gone ++ inner := by
    simpa [absent] using children.not_mem_children acyclic known live
  by_cases array : Record.IsArrayOfRecords start record
  · exact handles_array installed wellFormed known names live array absent absentLater walks
  · rw [Record.elements, if_neg array] at children
    cases children
    rw [List.append_nil]
    exact handles_leaf installed wellFormed known names live array absent

/-- The loop makes the visit. -/
theorem walks_of_visits (acyclic : Record.Acyclic start records)
    (visits : Record.Visits start records gone pointers later) :
    Walks image limit start records free gone pointers (gone ++ later) := by
  induction visits with
  | nil gone =>
      rw [List.append_nil]
      exact walks_nil installed wellFormed
  | null others walks => exact walks_cons installed wellFormed (handles_null installed) walks
  | pass known names done others walks =>
      exact walks_cons installed wellFormed (handles_done installed wellFormed known names done)
        walks
  | record known names live absent children others walks otherWalks =>
      have handles := handles_record installed wellFormed acyclic known names live absent children
        walks
      simpa using walks_cons installed wellFormed handles otherWalks

/-- A call makes the visit from one pointer. -/
theorem handles_of_visits (acyclic : Record.Acyclic start records)
    (visits : Record.Visits start records gone [pointer] later) :
    Handles image limit start records free gone pointer (gone ++ later) := by
  cases visits with
  | null others =>
      cases others
      rw [List.append_nil]
      exact handles_null installed
  | pass known names done others =>
      cases others
      rw [List.append_nil]
      exact handles_done installed wellFormed known names done
  | record known names live absent children others =>
      cases others
      simpa using handles_record installed wellFormed acyclic known names live absent children
        (walks_of_visits installed wellFormed acyclic children)

end

/-! ## Discarding as a whole -/

/-- What discarding leaves: the released records are marked and stacked on the free list,
in their order, and nothing else of the records has changed. -/
structure Discarded (word : String → Int32) (before after : Memory)
    (records free released : List Block) : Prop where
  size : after.size = before.size
  marked : ∀ record ∈ released,
    Record.status after record = Record.status before record ||| Record.statusDeleted
  linked : Heap.Linked after (after.cell word Cell.freeList) (released.reverse ++ free)
  kept : ∀ record ∈ records, ∀ index, record.Covers index →
    (record ∈ released → record.address + 8 ≤ index) → after.byte index = before.byte index
  cursor : after.cell word Cell.discardCursor = before.cell word Cell.discardCursor
  remaining : after.cell word Cell.discardRemaining = before.cell word Cell.discardRemaining

/-- A call for the pointer releases the live records that it leads to, once each and in the
order of the visit, and returns; another call then does nothing. -/
def Releases (image : Image) (limit : Option Nat) (memory : Memory) (records free : List Block)
    (pointer : Int32) (caller : Heap.Caller) : Prop :=
  ∃ entry released after, image.Marks Entry.discardRecord entry ∧
    Record.Visits memory records [] [pointer] released ∧ released.Nodup ∧
    (∀ record, record ∈ released ↔ Record.Reaches memory records pointer record) ∧
    Runs image limit
      ⟨entry, .integer (Int32.ofNat caller.position) :: .integer pointer :: caller.stack, memory,
        caller.output⟩
      ⟨caller.position, caller.stack, after, caller.output⟩ ∧
    Discarded image.word memory after records free released ∧
    ∀ later : Memory, later.size = after.size →
      (∀ record ∈ records, Record.status later record = Record.status after record) →
      Runs image limit
        ⟨entry, .integer (Int32.ofNat caller.position) :: .integer pointer :: caller.stack, later,
          caller.output⟩
        ⟨caller.position, caller.stack, later, caller.output⟩

section

variable {image : Image} {limit : Option Nat} {memory : Memory} {records free : List Block}
  {pointer : Int32}

theorem Discarding.discarded {word : String → Int32} {before after : Memory}
    {released : List Block} (wellFormed : WellFormed word before records free)
    (discarding : Discarding word before after records free released)
    (restored : ∀ name ∈ [Cell.discardCursor, Cell.discardRemaining],
      after.cell word name = before.cell word name) :
    Discarded word before after records free released where
  size := discarding.size
  marked := discarding.marked
  linked := discarding.linked
  kept record known index covers outside := by
    refine discarding.kept index (wellFormed.clear record known index covers) fun other gone => ?_
    by_cases same : other = record
    · exact .inr (same ▸ outside (same ▸ gone))
    · obtain ⟨otherKnown, _⟩ := discarding.known other gone
      have large := wellFormed.large other otherKnown
      have apart := wellFormed.apart other otherKnown record known same
      unfold Heap.Block.Covers at covers
      omega
  cursor := restored _ (by decide)
  remaining := restored _ (by decide)

theorem releases (installed : Installed image)
    (wellFormed : WellFormed image.word memory records free)
    (acyclic : Record.Acyclic memory records) (pointed : Record.Points records pointer)
    (caller : Heap.Caller) (inside : caller.position ≤ image.code.size) :
    Releases image limit memory records free pointer caller := by
  obtain ⟨released, visits⟩ :=
    Record.Visits.exists_of_acyclic acyclic wellFormed.points pointed
  obtain ⟨entry, marks, _⟩ := installed.atEntry
  have handles : Handles image limit memory records free [] pointer ([] ++ released) :=
    handles_of_visits installed wellFormed acyclic visits
  obtain ⟨after, runs, discarding, restored⟩ :=
    handles caller.stack caller.output marks inside wellFormed.discarding
  rw [List.nil_append] at discarding
  refine ⟨entry, released, after, marks, visits, visits.nodup acyclic,
    fun record => visits.mem_iff_reaches wellFormed.located, runs,
    discarding.discarded wellFormed restored, fun later size statuses => ?_⟩
  obtain rfl | ⟨record, known, names⟩ := pointed
  · exact runs_null installed inside marks
  · have large := wellFormed.large record known
    have within := wellFormed.inside record known
    have afterSize := discarding.size
    refine runs_spared installed inside marks names (wellFormed.positive record known) (by omega)
      (by omega) ?_
    rw [Record.Spared, statuses record known]
    by_cases member : record ∈ released
    · rw [discarding.marked record member]
      exact Record.spared_of_marked _
    · rw [discarding.status_kept wellFormed known member]
      intro live
      exact member ((visits.mem_iff_reaches wellFormed.located).mpr
        ⟨record, known, not_not.mpr live, names, .refl⟩)

end

end DiscardRecord

namespace Program

open Heap (Block)

variable {program : Program} {code : Code} {image : Image} {memory : Memory} {limit : Option Nat}
  {records free : List Block} {pointer : Int32}

theorem lays_discardCells (compiled : program.compile ⟨true⟩ = .ok code) :
    ∀ name ∈ DiscardRecord.cells, code.Lays name 4 := by
  obtain ⟨main, _, rfl⟩ := compile_eq_ok.mp compiled
  have layout : ∀ name ∈ DiscardRecord.cells, (name, (4 : Int32)) ∈ Cell.scratch ∨
      name ∈ Heap.cells := by decide
  intro name member
  obtain scratch | heap := layout name member
  · exact (Environment.lays_scratch 4 true scratch).join (by simp)
  · exact (Heap.lays_cells heap).join (by simp)

/-- The routine is part of every program that has the heap manager. -/
theorem discard_installed (compiled : program.compile ⟨true⟩ = .ok code)
    (assembled : Image.assemble code = .ok image) (addressable : image.Addressable)
    (fits : image.dataSize ≤ 2147483647) : DiscardRecord.Installed image := by
  obtain ⟨before, parts⟩ := ends_in_manager compiled
  obtain ⟨managed, start⟩ := Heap.managed_of_assemble assembled parts addressable fits
  have cells : Cells image.word DiscardRecord.cells (Address.index (image.word Cell.heap)) := by
    rw [start]
    exact Image.cells_of_assemble assembled (lays_discardCells compiled) (Nat.le_refl _) (by omega)
  have holds := Image.holds_of_assemble assembled
  obtain ⟨main, _, rfl⟩ := compile_eq_ok.mp compiled
  obtain ⟨_, environment⟩ : ∃ position, image.Holds (Environment.code true) position :=
    Image.exists_holds_of_mem holds (by simp)
  obtain ⟨_, routine⟩ : ∃ position, image.Holds DiscardRecord.code position :=
    Image.exists_holds_of_mem environment (by simp)
  exact DiscardRecord.installed_of_holds managed cells routine

/-- In a heap of well-formed records without cycles, discarding a pointer releases the live
records that it leads to. -/
theorem discard_releases (compiled : program.compile ⟨true⟩ = .ok code)
    (assembled : Image.assemble code = .ok image) (addressable : image.Addressable)
    (fits : image.dataSize ≤ 2147483647)
    (wellFormed : DiscardRecord.WellFormed image.word memory records free)
    (acyclic : Record.Acyclic memory records) (pointed : Record.Points records pointer)
    (caller : Heap.Caller) (inside : caller.position ≤ image.code.size) :
    DiscardRecord.Releases image limit memory records free pointer caller :=
  DiscardRecord.releases (discard_installed compiled assembled addressable fits) wellFormed acyclic
    pointed caller inside

/-! An array that holds another one twice. -/

def pair : Block := ⟨65536, 24⟩

def part : Block := ⟨65600, 16⟩

def pairMemory : Memory :=
  ((((Memory.zeros 131072).setWord 65540 Record.statusReference).setWord 65548 2).setWord 65552
    65600).setWord 65556 65600

theorem elements_pair : Record.elements pairMemory pair = [65600, 65600] := by decide +kernel

theorem elements_part : Record.elements pairMemory part = [] := by decide +kernel

theorem points_pair : ∀ record ∈ [pair, part],
    ∀ element ∈ Record.elements pairMemory record, element = 65600 := by
  simp [elements_pair, elements_part]

theorem acyclic_pair : Record.Acyclic pairMemory [pair, part] := by
  refine Record.acyclic_of_increasing fun record other refers => ?_
  obtain ⟨⟨known, _⟩, _, element, listed, names⟩ := refers
  obtain rfl := points_pair record known element listed
  have later : (65600 : Int) = other.address := names
  obtain rfl | rfl : record = pair ∨ record = part := by simpa using known
  · show 65536 < other.address
    omega
  · rw [elements_part] at listed
    cases listed

theorem wellFormed_pair {word : String → Int32}
    (cells : Cells word DiscardRecord.cells (Address.index (word Cell.heap)))
    (small : Address.index (word Cell.heap) ≤ 65536) :
    DiscardRecord.WellFormed word pairMemory [pair, part] [] where
  positive := by decide
  large := by decide
  inside := by decide
  apart := by decide
  clear record known index covers := by
    have lower : ∀ record ∈ [pair, part], 65536 ≤ record.address := by decide
    exact cells.misses_of_floor_le (Nat.le_trans small (Nat.le_trans (lower record known) covers.1))
  onHeap record known _ := by
    have lower : ∀ record ∈ [pair, part], 65536 ≤ record.address := by decide
    exact Nat.le_trans small (lower record known)
  array record known _ array := by
    obtain rfl | rfl : record = pair ∨ record = part := by simpa using known
    · refine ⟨by decide +kernel, by decide +kernel, fun element listed => .inr ?_⟩
      obtain rfl := points_pair pair known element listed
      exact ⟨part, by decide, by decide⟩
    · exact absurd array (by decide +kernel)
  linked := by
    have below := cells.below Cell.freeList (by decide)
    show pairMemory.word (Address.index (word Cell.freeList)) = 0
    simp (disch := omega) only [pairMemory, Memory.word_setWord_of_apart]
    rfl
  freeClear _ member := nomatch member
  freeApart _ member := nomatch member

theorem visits_pair : Record.Visits pairMemory [pair, part] [] [65536] [part, pair] := by
  have first : pair ∈ [pair, part] := by decide
  have second : part ∈ [pair, part] := by decide
  have inside : Record.Visits pairMemory [pair, part] [] (Record.elements pairMemory part) [] :=
    elements_part ▸ .nil []
  have again : Record.Visits pairMemory [pair, part] [part] [65600] [] :=
    .pass second (by decide) (.inr (by decide)) (.nil _)
  have children := Record.Visits.record second (by decide : Address.Names 65600 part.address)
    (by decide +kernel) (by decide) inside again
  rw [← elements_pair] at children
  exact Record.Visits.record first (by decide) (by decide +kernel) (by decide) children (.nil _)

/-- Discards the array: the shared part is released once, and before the array. -/
theorem pair_released :
    ∃ code image, idle.compile ⟨true⟩ = .ok code ∧ Image.assemble code = .ok image ∧
      image.Addressable ∧ image.dataSize ≤ 2147483647 ∧
      DiscardRecord.WellFormed image.word pairMemory [pair, part] [] ∧
      Record.Acyclic pairMemory [pair, part] ∧ Record.Points [pair, part] 65536 ∧
      Record.Visits pairMemory [pair, part] [] [65536] [part, pair] ∧
      DiscardRecord.Releases image none pairMemory [pair, part] [] 65536 ⟨0, [], .empty⟩ := by
  obtain ⟨code, image, compiled, assembled, addressable, small⟩ := exists_idle_image
  have installed := discard_installed compiled assembled addressable (by omega)
  obtain ⟨before, parts⟩ := ends_in_manager compiled
  obtain ⟨_, start⟩ := Heap.managed_of_assemble assembled parts addressable (by omega)
  have wellFormed := wellFormed_pair installed.cells (by omega)
  have pointed : Record.Points [pair, part] 65536 := .inr ⟨pair, by decide, by decide⟩
  exact ⟨code, image, compiled, assembled, addressable, by omega, wellFormed, acyclic_pair, pointed,
    visits_pair, discard_releases compiled assembled addressable (by omega) wellFormed acyclic_pair
      pointed ⟨0, [], .empty⟩ (Nat.zero_le _)⟩

end Program

end StackBackend
