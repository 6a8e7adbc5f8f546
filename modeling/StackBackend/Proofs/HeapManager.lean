import StackBackend.Proofs.Blocks
import StackBackend.Proofs.Cells
import StackBackend.Proofs.Ledger

namespace StackBackend

/-! The two routines of the heap manager keep the heap sound, whatever is asked of them
and whatever is written into the blocks that are handed out. -/

namespace Heap

open Code

/-! ## The blocks of the routines -/

/-- Parks the arguments and turns to the first free block. -/
def begin : Code :=
  Code.join [storeWord allocateReturn, storeWord allocateSize, [.pushI 0],
    storeWord allocatePrevious, loadWord Cell.freeList, storeWord allocateCurrent]

/-- The size of the current block less the size that is wanted. -/
def surplus : Code :=
  Code.join [loadWord allocateCurrent, [.pushI 4, .subtract, .loadI], loadWord allocateSize,
    [.subtract]]

def unlinkInner : Code :=
  Code.join [loadWord allocatePrevious, loadWord allocateCurrent, [.loadI, .storeI]]

def unlinkFirst : Code :=
  Code.join [[.pushD Cell.freeList], loadWord allocateCurrent, [.loadI, .storeI]]

def advance : Code :=
  Code.join [loadWord allocateCurrent, storeWord allocatePrevious, loadWord allocateCurrent,
    [.loadI], storeWord allocateCurrent]

/-- Makes a new block at the end of the heap. -/
def carve : Code :=
  Code.join [loadWord Cell.bumpPointer, addOffset 4, loadWord Cell.bumpPointer,
    loadWord allocateSize, [.storeI, .duplicate], loadWord allocateSize, [.add],
    storeWord Cell.bumpPointer]

def giveBack : Code :=
  Code.join [storeWord deallocateReturn, [.duplicate], loadWord Cell.freeList, [.storeI],
    storeWord Cell.freeList, loadWord deallocateReturn]

/-- The blocks of both routines in an image. -/
structure Routines (image : Image) : Prop where
  atAllocate : image.Labelled Entry.allocate (begin ++ [.label search])
  atSearch : image.Labelled search (loadWord allocateCurrent ++ .jumpFalse bump ::
    (surplus ++ .jumpNeg next :: (loadWord allocatePrevious ++ .jumpFalse unlinkHead ::
      (unlinkInner ++ [.jump found, .label unlinkHead]))))
  atUnlinkHead : image.Labelled unlinkHead (unlinkFirst ++ [.label found])
  atFound : image.Labelled found (loadWord allocateCurrent ++ [.jump exit, .label next])
  atNext : image.Labelled next (advance ++ [.jump search, .label bump])
  atBump : image.Labelled bump (carve ++ [.label exit])
  atExit : image.Labelled exit (loadWord allocateReturn ++ [.popPC, .label Entry.deallocate])
  atDeallocate : image.Labelled Entry.deallocate (giveBack ++ [.popPC])

theorem routines_of_holds {image : Image} {position : Nat} (holds : image.Holds manager position) :
    Routines image := by
  have code : manager =
      (cells.flatMap fun cell => [Instruction.dataLabel cell, Instruction.dataI 0]) ++
      Instruction.label Entry.allocate :: (begin ++ Instruction.label search ::
        ((loadWord allocateCurrent ++ Instruction.jumpFalse bump ::
          (surplus ++ Instruction.jumpNeg next ::
            (loadWord allocatePrevious ++ Instruction.jumpFalse unlinkHead ::
              (unlinkInner ++ [Instruction.jump found])))) ++ Instruction.label unlinkHead ::
        (unlinkFirst ++ Instruction.label found ::
        ((loadWord allocateCurrent ++ [Instruction.jump exit]) ++ Instruction.label next ::
        ((advance ++ [Instruction.jump search]) ++ Instruction.label bump ::
        (carve ++ Instruction.label exit ::
        ((loadWord allocateReturn ++ [Instruction.popPC]) ++ Instruction.label Entry.deallocate ::
        ((giveBack ++ [Instruction.popPC]) ++ [Instruction.dataLabel Cell.heap])))))))) := rfl
  rw [code] at holds
  obtain ⟨atAllocate, rest⟩ := (Image.labelled_of_holds holds).split
  obtain ⟨atSearch, rest⟩ := rest.split
  obtain ⟨atUnlinkHead, rest⟩ := rest.split
  obtain ⟨atFound, rest⟩ := rest.split
  obtain ⟨atNext, rest⟩ := rest.split
  obtain ⟨atBump, rest⟩ := rest.split
  obtain ⟨atExit, position, marks, holds⟩ := rest.split
  exact ⟨atAllocate, atSearch, atUnlinkHead, atFound, atNext, atBump, atExit,
    position, marks, (Image.holds_append.mp holds).1⟩

/-! ## What the blocks do -/

/-- The cells that allocation works in. -/
def working : List String :=
  [allocateReturn, allocateSize, allocatePrevious, allocateCurrent]

theorem working_subset : ∀ name ∈ working, name ∈ cells := by decide

/-- The state of a search: the arguments, and the two blocks it looks at. -/
structure Searching (word : String → Int32) (before memory : Memory)
    (caller size previous current : Int32) : Prop where
  only : Cells.Only word working before memory
  caller : memory.cell word allocateReturn = caller
  wanted : memory.cell word allocateSize = size
  previous : memory.cell word allocatePrevious = previous
  current : memory.cell word allocateCurrent = current

section

variable {word : String → Int32} {floor : Nat} {before memory : Memory} {stack : List Word}
  {caller size previous current : Int32} (cells : Cells word cells floor)
include cells

theorem act_begin (inside : floor ≤ memory.size) :
    ∃ after, Code.act word begin (.integer caller :: .integer size :: stack) memory =
        some (stack, after) ∧
      Searching word memory after caller size 0 (memory.cell word Cell.freeList) := by
  refine ⟨(((memory.setCell word allocateReturn caller).setCell word allocateSize size).setCell
    word allocatePrevious 0).setCell word allocateCurrent (memory.cell word Cell.freeList), ?_, ?_⟩
  · simp (disch := first | assumption | (simp only [Memory.size_setCell]; assumption) | decide) only
      [begin, join_cons, join_nil, List.cons_append, List.nil_append, cells.act_storeCell,
      cells.act_loadCell, act_pushI, act_nil, cells.cell_setCell_other]
  · constructor
    · exact (((((Cells.Only.refl memory).setCell (by decide) _).setCell (by decide) _).setCell
        (by decide) _).setCell (by decide) _)
    all_goals
      simp (disch := first | assumption | (simp only [Memory.size_setCell]; assumption) | decide)
        only [cells.cell_setCell, cells.cell_setCell_other]

variable (searching : Searching word before memory caller size previous current)
include searching

/-- A word of the heap is as it was. -/
theorem Searching.word_heap {index : Nat} (above : floor ≤ index) :
    memory.word index = before.word index :=
  searching.only.word_above cells working_subset above

/-- The two cells of the heap itself are as they were. -/
theorem Searching.freeList_kept :
    memory.cell word Cell.freeList = before.cell word Cell.freeList :=
  searching.only.cell cells working_subset (by decide) (by decide)

theorem Searching.bump_kept :
    memory.cell word Cell.bumpPointer = before.cell word Cell.bumpPointer :=
  searching.only.cell cells working_subset (by decide) (by decide)

variable (inside : floor ≤ before.size)
include inside

theorem act_loadCurrent :
    Code.act word (loadWord allocateCurrent) stack memory =
      some (.integer current :: stack, memory) := by
  have inside := searching.only.floor_le inside
  rw [cells.act_lastLoad (by decide) inside, searching.current]

theorem act_loadPrevious :
    Code.act word (loadWord allocatePrevious) stack memory =
      some (.integer previous :: stack, memory) := by
  have inside := searching.only.floor_le inside
  rw [cells.act_lastLoad (by decide) inside, searching.previous]

theorem act_surplus {address : Nat} (names : Address.Names current address)
    (above : floor + 4 ≤ address) (below : address ≤ before.size) (fits : address < 2147483648) :
    Code.act word surplus stack memory =
      some (.integer (before.word (address - 4) - size) :: stack, memory) := by
  have inside := searching.only.floor_le inside
  have header : Address.Names (current - 4) (address - 4) :=
    names.sub (by change (address : Int) - 4 = _; omega) (by omega)
  have room : address - 4 + 4 ≤ memory.size := by
    rw [searching.only.size]
    omega
  simp only [surplus, join_cons, join_nil, List.cons_append, List.nil_append]
  rw [cells.act_loadCell (by decide) inside, searching.current, act_pushI, act_subtract,
    act_loadAt header room, searching.word_heap cells (by omega),
    cells.act_loadCell (by decide) inside, searching.wanted, act_subtract, act_nil]

theorem act_advance {address : Nat} (names : Address.Names current address)
    (above : floor ≤ address) (below : address + 4 ≤ before.size) :
    ∃ after, Code.act word advance stack memory = some (stack, after) ∧
      Searching word before after caller size current (before.word address) := by
  have inside := searching.only.floor_le inside
  have room : address + 4 ≤ memory.size := searching.only.size ▸ below
  refine ⟨(memory.setCell word allocatePrevious current).setCell word allocateCurrent
    (before.word address), ?_, ?_⟩
  · simp only [advance, join_cons, join_nil, List.cons_append, List.nil_append]
    rw [cells.act_loadCell (by decide) inside, searching.current,
      cells.act_storeCell (by decide) inside,
      cells.act_loadCell (by decide) (by rwa [Memory.size_setCell]),
      cells.cell_setCell_other (by decide) (by decide) (by decide), searching.current,
      act_loadAt names (by rwa [Memory.size_setCell]), cells.word_setCell (by decide) above,
      searching.word_heap cells above,
      cells.act_storeCell (by decide) (by rwa [Memory.size_setCell]), act_nil]
  · constructor
    · exact (searching.only.setCell (by decide) _).setCell (by decide) _
    all_goals
      simp (disch := first | assumption | (simp only [Memory.size_setCell]; assumption) | decide)
        only [cells.cell_setCell, cells.cell_setCell_other, searching.caller, searching.wanted]

theorem act_unlinkInner {address target : Nat} (names : Address.Names current address)
    (above : floor ≤ address) (below : address + 4 ≤ before.size)
    (previousNames : Address.Names previous target) (targetBelow : target + 4 ≤ before.size) :
    Code.act word unlinkInner stack memory =
      some (stack, memory.setWord target (before.word address)) := by
  have inside := searching.only.floor_le inside
  have room : address + 4 ≤ memory.size := searching.only.size ▸ below
  have targetRoom : target + 4 ≤ memory.size := searching.only.size ▸ targetBelow
  simp only [unlinkInner, join_cons, join_nil, List.cons_append, List.nil_append]
  rw [cells.act_loadCell (by decide) inside, searching.previous,
    cells.act_loadCell (by decide) inside, searching.current, act_loadAt names room,
    searching.word_heap cells above, act_setWord previousNames targetRoom, act_nil]

theorem act_unlinkFirst {address : Nat} (names : Address.Names current address)
    (above : floor ≤ address) (below : address + 4 ≤ before.size) :
    Code.act word unlinkFirst stack memory =
      some (stack, memory.setCell word Cell.freeList (before.word address)) := by
  have inside := searching.only.floor_le inside
  have room : address + 4 ≤ memory.size := searching.only.size ▸ below
  have member : Cell.freeList ∈ Heap.cells := by decide
  simp only [unlinkFirst, join_cons, join_nil, List.cons_append, List.nil_append]
  rw [act_pushD, cells.act_loadCell (by decide) inside, searching.current,
    act_loadAt names room, searching.word_heap cells above,
    act_setWord (cells.located _ member) (Nat.le_trans (cells.below _ member) inside), act_nil]
  rfl

theorem act_carve {address : Nat}
    (names : Address.Names (before.cell word Cell.bumpPointer) address)
    (above : floor ≤ address) (below : address + 4 ≤ before.size) :
    Code.act word carve stack memory =
      some (.integer (before.cell word Cell.bumpPointer + 4) :: stack,
        (memory.setWord address size).setCell word Cell.bumpPointer
          (before.cell word Cell.bumpPointer + 4 + size)) := by
  have inside := searching.only.floor_le inside
  have room : address + 4 ≤ memory.size := searching.only.size ▸ below
  have bump := searching.bump_kept cells
  simp only [carve, join_cons, join_nil, List.cons_append, List.nil_append]
  rw [cells.act_loadCell (by decide) inside, bump, act_addOffset,
    cells.act_loadCell (by decide) inside, bump, cells.act_loadCell (by decide) inside,
    searching.wanted, act_setWord names room, act_duplicate,
    cells.act_loadCell (by decide) (by rwa [Memory.size_setWord]),
    cells.cell_setWord (by decide) above, searching.wanted, act_add,
    cells.act_storeCell (by decide) (by rwa [Memory.size_setWord]), act_nil]

end

/-! ## What a call leaves -/

/-- What a request for a block leaves: the size of the block is in the word before it. The
other bytes are as they were, but for the cells of the manager and the words in the free
blocks that link them. -/
structure Handed (word : String → Int32) (before after : Memory) (ledger : Ledger)
    (wanted : Nat) : Prop where
  size : after.size = before.size
  header : Address.Names (after.word ((ledger.allocate wanted).1.address - 4))
    (ledger.allocate wanted).1.size
  kept : ∀ index, Cells.Misses word cells index →
    index < (ledger.allocate wanted).1.address - 4 ∨ (ledger.allocate wanted).1.address ≤ index →
    (∀ block ∈ (ledger.allocate wanted).2.free,
      index < block.address ∨ block.address + 4 ≤ index) → after.byte index = before.byte index

/-- What an allocation leaves: the heap is sound for the ledger with the block handed out,
no byte of a block that was handed out before has changed, and nothing beyond the heap. -/
structure Allocated (word : String → Int32) (before after : Memory) (ledger : Ledger)
    (wanted : Nat) : Prop extends Handed word before after ledger wanted where
  sound : Sound word after (ledger.allocate wanted).2
  live : ∀ block ∈ ledger.live, ∀ index, block.Covers index →
    after.byte index = before.byte index
  above : ∀ index, (ledger.allocate wanted).2.bump ≤ index →
    after.byte index = before.byte index

section

variable {word : String → Int32} {before after memory : Memory} {ledger : Ledger}
  {block : Block} {passed rest : List Block} {wanted : Nat} {caller size previous current : Int32}
  (cells : Cells word cells (Address.index (word Cell.heap)))
  (sound : Sound word before ledger)
include cells sound

/-- No block that was handed out is touched, nor anything beyond the heap. -/
theorem allocated_of_handed (handed : Handed word before after ledger wanted)
    (soundAfter : Sound word after (ledger.allocate wanted).2) :
    Allocated word before after ledger wanted := by
  have bounds := sound.allocate_bounds wanted
  refine ⟨handed, soundAfter, fun other member index covers => ?_, fun index above => ?_⟩
  · obtain ⟨known, notFree⟩ := Ledger.mem_live.mp member
    have otherBounds := sound.bounds known
    have apart := sound.allocate_apart wanted member
    unfold Block.Covers at covers
    refine handed.kept index (cells.misses_of_floor_le (by omega)) (by omega) ?_
    intro block remains
    have free := Ledger.free_allocate wanted block remains
    exact sound.tiled.first_apart known (sound.known block free)
      (fun same => notFree (same ▸ free)) covers
  · refine handed.kept index (cells.misses_of_floor_le (by omega)) (by omega) ?_
    intro block remains
    have known := sound.tiled.bounds (sound.known block (Ledger.free_allocate wanted block remains))
    have bump := ledger.bump_le_allocate wanted
    omega

variable (searching : Searching word before memory caller size previous current)
include searching

theorem allocated_first (free : ledger.free = block :: rest) (fits : wanted ≤ block.size) :
    Allocated word before (memory.setCell word Cell.freeList (before.word block.address))
      ledger wanted := by
  have inside : Address.index (word Cell.heap) ≤ before.size :=
    Nat.le_trans sound.tiled.start_le sound.inside
  have words : ∀ index, Address.index (word Cell.heap) ≤ index →
      (memory.setCell word Cell.freeList (before.word block.address)).word index =
        before.word index := fun index above =>
    (cells.word_setCell (by decide) above).trans (searching.word_heap cells above)
  have once := sound.once
  have known := sound.known
  have linked := sound.linked
  rw [free] at once known linked
  have parts : ledger.free = [] ++ block :: rest := free
  have allocated : ledger.allocate wanted = (block, { ledger with free := rest }) :=
    Ledger.allocate_of_fit parts sound.once (by simp) fits
  refine allocated_of_handed cells sound ⟨(Memory.size_setCell ..).trans searching.only.size, ?_,
    fun index misses _ _ => ?_⟩ ?_
  · rw [allocated]
    have bounds := sound.bounds (sound.known block (by simp [free]))
    rw [words _ (by dsimp only; omega)]
    exact sound.tiled.header (sound.known block (by simp [free]))
  · exact (Memory.byte_setWord_of_outside (misses _ (by decide))).trans
      (searching.only.kept index fun name member => misses name (working_subset name member))
  · rw [allocated]
    refine sound.relinked ((Memory.size_setCell ..).trans searching.only.size) ?_ ?_ ?_
      (List.nodup_cons.mp once).2 fun other member => known other (List.mem_cons_of_mem _ member)
    · rw [cells.cell_setCell_other (by decide) (by decide) (by decide),
        searching.bump_kept cells]
    · intro other member
      have bounds := sound.bounds member
      exact words _ (by omega)
    · rw [cells.cell_setCell (by decide) (searching.only.floor_le inside)]
      refine linked.2.congr fun other member => ?_
      have bounds := sound.bounds (known other (List.mem_cons_of_mem _ member))
      exact words _ (by omega)

theorem allocated_inner {last : Block} (free : ledger.free = passed ++ last :: block :: rest)
    (small : ∀ other ∈ passed ++ [last], other.size < wanted) (fits : wanted ≤ block.size) :
    Allocated word before (memory.setWord last.address (before.word block.address))
      ledger wanted := by
  have parts : ledger.free = (passed ++ [last]) ++ block :: rest := by simp [free]
  have allocated := Ledger.allocate_of_fit parts sound.once small fits
  have isFree : last ∈ ledger.free := by simp [free]
  have lastKnown := sound.known last isFree
  have lastBounds := sound.bounds lastKnown
  have words : ∀ index, Address.index (word Cell.heap) ≤ index →
      index + 4 ≤ last.address ∨ last.address + 4 ≤ index →
      (memory.setWord last.address (before.word block.address)).word index =
        before.word index := fun index above apart =>
    (Memory.word_setWord_of_apart apart).trans (searching.word_heap cells above)
  have others : ∀ other ∈ ledger.free, other ≠ last →
      (memory.setWord last.address (before.word block.address)).word other.address =
        before.word other.address := by
    intro other member different
    have bounds := sound.bounds (sound.known other member)
    have apart := sound.tiled.apart (sound.known other member) lastKnown different
    exact words _ (by omega) (by omega)
  have once := sound.once
  have linked := sound.linked
  rw [free] at once linked
  have size : (memory.setWord last.address (before.word block.address)).size = before.size :=
    (Memory.size_setWord ..).trans searching.only.size
  refine allocated_of_handed cells sound ⟨size, ?_, fun index misses _ unlinked => ?_⟩ ?_
  · have known := sound.known block (by simp [free])
    have bounds := sound.bounds known
    rw [allocated, words _ (by omega) (sound.tiled.header_apart known lastKnown)]
    exact sound.tiled.header known
  · rw [allocated] at unlinked
    rw [Memory.byte_setWord_of_outside (unlinked last (by simp))]
    exact searching.only.kept index fun name member => misses name (working_subset name member)
  · rw [allocated]
    refine sound.relinked size ?_ ?_ ?_ ?_ fun other member => sound.known other ?_
    · rw [cells.cell_setWord (by decide) (by omega), searching.bump_kept cells]
    · intro other member
      have bounds := sound.bounds member
      exact words _ (by omega) (sound.tiled.header_apart member lastKnown)
    · rw [cells.cell_setWord (by decide) (by omega), searching.freeList_kept cells,
        List.append_assoc, List.singleton_append]
      refine linked.relink (fun other member => others other (by simp [free, member]) ?_) ?_
      · rintro rfl
        exact (List.nodup_append.mp once).2.2 other member other (by simp) rfl
      · rw [Memory.word_setWord (by rw [searching.only.size]; omega)]
        have follows : Linked before (before.word block.address) rest := by
          rw [← List.singleton_append, ← List.append_assoc] at linked
          exact linked.follows
        refine follows.congr fun other member => others other (by simp [free, member]) ?_
        rintro rfl
        simp_all [List.nodup_append, List.nodup_cons]
    · have sublist : (passed ++ [last] ++ rest).Sublist (passed ++ last :: block :: rest) := by
        simp
      exact once.sublist sublist
    · rw [parts]
      simp only [List.mem_append, List.mem_cons] at member ⊢
      grind

/-- A new block, if there is room for its size at least. -/
theorem handed_new (small : ∀ other ∈ ledger.free, other.size < wanted)
    (named : Address.Names size wanted) (inside : ledger.bump + 4 ≤ before.size)
    (pointer : Int32) :
    Handed word before ((memory.setWord ledger.bump size).setCell word Cell.bumpPointer pointer)
      ledger wanted := by
  have allocated := Ledger.allocate_of_none (Ledger.fit?_eq_none small)
  have room : ledger.bump + 4 ≤ memory.size := searching.only.size ▸ inside
  refine ⟨by simp [searching.only.size], ?_, fun index misses outside _ => ?_⟩
  · rw [allocated]
    change Address.Names (Memory.word _ ledger.bump) wanted
    rw [cells.word_setCell (by decide) sound.tiled.start_le, Memory.word_setWord room]
    exact named
  · rw [allocated] at outside
    have written : ((memory.setWord ledger.bump size).setCell word Cell.bumpPointer pointer).byte
        index = (memory.setWord ledger.bump size).byte index :=
      Memory.byte_setWord_of_outside (misses _ (by decide))
    rw [written, Memory.byte_setWord_of_outside (by dsimp only at outside; omega)]
    exact searching.only.kept index fun name member => misses name (working_subset name member)

theorem allocated_new (small : ∀ other ∈ ledger.free, other.size < wanted)
    (named : Address.Names size wanted) (large : 4 ≤ wanted)
    (inside : ledger.bump + 4 + wanted ≤ before.size)
    (fits : ledger.bump + 4 + wanted ≤ 2147483647) :
    Allocated word before
      ((memory.setWord ledger.bump size).setCell word Cell.bumpPointer
        (before.cell word Cell.bumpPointer + 4 + size)) ledger wanted := by
  have start := sound.tiled.start_le
  have allocated : ledger.allocate wanted = (⟨ledger.bump + 4, wanted⟩, { ledger with
      blocks := ledger.blocks ++ [⟨ledger.bump + 4, wanted⟩],
      bump := ledger.bump + 4 + wanted }) :=
    Ledger.allocate_of_none (Ledger.fit?_eq_none small)
  have floorInside : Address.index (word Cell.heap) ≤ (memory.setWord ledger.bump size).size := by
    rw [Memory.size_setWord, searching.only.size]
    omega
  have words : ∀ index, Address.index (word Cell.heap) ≤ index →
      index + 4 ≤ ledger.bump →
      ((memory.setWord ledger.bump size).setCell word Cell.bumpPointer
        (before.cell word Cell.bumpPointer + 4 + size)).word index = before.word index := by
    intro index above below
    rw [cells.word_setCell (by decide) above, Memory.word_setWord_of_apart (.inl below),
      searching.word_heap cells above]
  refine allocated_of_handed cells sound
    (handed_new cells sound searching small named (by omega) _) ?_
  · rw [allocated]
    constructor
    · refine (sound.tiled.congr fun other member => ?_).concat large ?_
      · have bounds := sound.tiled.bounds member
        exact words _ (by omega) (by omega)
      · rw [cells.word_setCell (by decide) start, Memory.word_setWord]
        · exact named
        · rw [searching.only.size]
          omega
    · rw [cells.cell_setCell (by decide) floorInside]
      have first : Address.Names (before.cell word Cell.bumpPointer + 4) (ledger.bump + 4) :=
        sound.bump.add (by rfl) (by omega)
      change Address.Names _ (ledger.bump + 4 + wanted)
      refine first.add ?_ (by omega)
      rw [show size.toInt = (wanted : Int) from named]
      simp
    · simp only [Memory.size_setCell, Memory.size_setWord, searching.only.size]
      exact inside
    · exact fits
    · rw [cells.cell_setCell_other (by decide) (by decide) (by decide),
        cells.cell_setWord (by decide) start, searching.freeList_kept cells]
      refine sound.linked.congr fun other member => ?_
      have bounds := sound.tiled.bounds (sound.known other member)
      exact words _ (by omega) (by omega)
    · exact sound.once
    · exact fun other member => List.mem_append_left _ (sound.known other member)

end

/-! ## Calls -/

/-- An image with the heap manager in it. -/
structure Managed (image : Image) : Prop where
  addressable : image.Addressable
  routines : Routines image
  cells : Cells image.word cells (Address.index (image.word Cell.heap))

/-- The address of a word: zero means there is none. -/
theorem names_ne_zero {pointer : Int32} {address : Nat} (names : Address.Names pointer address)
    (positive : 0 < address) : pointer ≠ 0 := by
  rintro rfl
  have zero : (0 : Int32).toInt = (address : Int) := names
  rw [Int32.toInt_zero] at zero
  omega

theorem eq_ofNat_of_names {pointer : Int32} {address : Nat}
    (names : Address.Names pointer address) : pointer = Int32.ofNat address := by
  have lower := Int32.toInt_lt pointer
  have fits : address < 2147483648 := by
    have same : pointer.toInt = (address : Int) := names
    omega
  exact Int32.toInt_inj.mp (names.trans (Address.names_ofNat fits).symm)

section

variable {image : Image} {limit : Option Nat} {before memory : Memory} {ledger : Ledger}
  {stack : List Word} {output : ByteArray} {size previous current : Int32} {wanted position : Nat}

/-- The end of an allocation, with the pointer on the stack. -/
theorem runs_exit (managed : Managed image) (inside : position ≤ image.code.size) {here : Nat}
    (marks : image.Marks exit here) (room : Address.index (image.word Cell.heap) ≤ memory.size)
    (caller : memory.cell image.word allocateReturn = Int32.ofNat position) :
    Runs image limit ⟨here, stack, memory, output⟩ ⟨position, stack, memory, output⟩ := by
  refine Runs.leaves managed.addressable (managed.routines.atExit.holds marks) inside ?_
  rw [managed.cells.act_lastLoad (by decide) room, caller]

/-- The end of an allocation that has unlinked the current block. -/
theorem runs_found (managed : Managed image) (inside : position ≤ image.code.size) {here : Nat}
    (marks : image.Marks found here) (room : Address.index (image.word Cell.heap) ≤ memory.size)
    (caller : memory.cell image.word allocateReturn = Int32.ofNat position) :
    Runs image limit ⟨here, stack, memory, output⟩
      ⟨position, .integer (memory.cell image.word allocateCurrent) :: stack, memory, output⟩ := by
  obtain ⟨exitHere, exitMarks, _⟩ := managed.routines.atExit
  exact (Runs.jumps managed.addressable (managed.routines.atFound.holds marks)
    (managed.cells.act_lastLoad (by decide) room) exitMarks).trans
      (runs_exit managed inside exitMarks room caller)

/-- Nothing fits: a new block is made. -/
theorem runs_new (managed : Managed image) (sound : Sound image.word before ledger)
    (named : Address.Names size wanted) (large : 4 ≤ wanted)
    (inside : position ≤ image.code.size) {here : Nat} (marks : image.Marks bump here)
    (searching : Searching image.word before memory (Int32.ofNat position) size previous current)
    (small : ∀ block ∈ ledger.free, block.size < wanted)
    (within : ledger.bump + 4 + wanted ≤ before.size)
    (fits : ledger.bump + 4 + wanted ≤ 2147483647) :
    ∃ after, Runs image limit ⟨here, stack, memory, output⟩
        ⟨position, .integer (Int32.ofNat (ledger.allocate wanted).1.address) :: stack, after,
          output⟩ ∧
      Allocated image.word before after ledger wanted := by
  have start := sound.tiled.start_le
  have floor : Address.index (image.word Cell.heap) ≤ before.size := by omega
  have pointer : Address.Names (before.cell image.word Cell.bumpPointer + 4) (ledger.bump + 4) :=
    sound.bump.add (by rfl) (by omega)
  have allocated : (ledger.allocate wanted).1.address = ledger.bump + 4 := by
    rw [Ledger.allocate, Ledger.fit?_eq_none small]
  obtain ⟨exitHere, exitMarks, _⟩ := managed.routines.atExit
  refine ⟨_, ?_, allocated_new managed.cells sound searching small named large within fits⟩
  rw [allocated, ← eq_ofNat_of_names pointer]
  refine (Runs.falls (managed.routines.atBump.holds marks)
    (act_carve managed.cells searching floor sound.bump start (by omega)) exitMarks).trans
    (runs_exit managed inside exitMarks ?_ ?_)
  · simp only [Memory.size_setCell, Memory.size_setWord, searching.only.size]
    exact floor
  · rw [managed.cells.cell_setCell_other (by decide) (by decide) (by decide),
      managed.cells.cell_setWord (by decide) start, searching.caller]

/-- The first free block fits. -/
theorem runs_unlinkFirst (managed : Managed image) (sound : Sound image.word before ledger)
    (inside : position ≤ image.code.size) {here : Nat} (marks : image.Marks unlinkHead here)
    {block : Block} {rest : List Block} (free : ledger.free = block :: rest)
    (fits : wanted ≤ block.size)
    (searching : Searching image.word before memory (Int32.ofNat position) size previous current)
    (names : Address.Names current block.address) :
    ∃ after, Runs image limit ⟨here, stack, memory, output⟩
        ⟨position, .integer (Int32.ofNat block.address) :: stack, after, output⟩ ∧
      Allocated image.word before after ledger wanted := by
  have bounds := sound.bounds (sound.known block (by simp [free]))
  have floor : Address.index (image.word Cell.heap) ≤ before.size := by omega
  obtain ⟨foundHere, foundMarks, _⟩ := managed.routines.atFound
  refine ⟨_, ?_, allocated_first managed.cells sound searching free fits⟩
  refine (Runs.falls (managed.routines.atUnlinkHead.holds marks)
    (act_unlinkFirst managed.cells searching floor names (by omega) (by omega))
    foundMarks).trans ?_
  have current : (memory.setCell image.word Cell.freeList (before.word block.address)).cell
      image.word allocateCurrent = Int32.ofNat block.address := by
    rw [managed.cells.cell_setCell_other (by decide) (by decide) (by decide), searching.current,
      eq_ofNat_of_names names]
  rw [← current]
  refine runs_found managed inside foundMarks ?_ ?_
  · rw [Memory.size_setCell]
    exact searching.only.floor_le floor
  · rw [managed.cells.cell_setCell_other (by decide) (by decide) (by decide), searching.caller]

/-- A later free block fits. -/
theorem runs_unlinkInner (managed : Managed image) (sound : Sound image.word before ledger)
    (inside : position ≤ image.code.size) {here : Nat}
    (holds : image.Holds (unlinkInner ++ [.jump found, .label unlinkHead]) here)
    {last block : Block} {passed rest : List Block}
    (free : ledger.free = passed ++ last :: block :: rest)
    (small : ∀ other ∈ passed ++ [last], other.size < wanted) (fits : wanted ≤ block.size)
    (searching : Searching image.word before memory (Int32.ofNat position) size previous current)
    (names : Address.Names current block.address)
    (lastNames : Address.Names previous last.address) :
    ∃ after, Runs image limit ⟨here, stack, memory, output⟩
        ⟨position, .integer (Int32.ofNat block.address) :: stack, after, output⟩ ∧
      Allocated image.word before after ledger wanted := by
  have bounds := sound.bounds (sound.known block (by simp [free]))
  have lastBounds := sound.bounds (sound.known last (by simp [free]))
  have floor : Address.index (image.word Cell.heap) ≤ before.size := by omega
  obtain ⟨foundHere, foundMarks, _⟩ := managed.routines.atFound
  refine ⟨_, ?_, allocated_inner managed.cells sound searching free small fits⟩
  refine (Runs.jumps managed.addressable holds
    (act_unlinkInner managed.cells searching floor names (by omega) (by omega) lastNames
      (by omega)) foundMarks).trans ?_
  have current : (memory.setWord last.address (before.word block.address)).cell
      image.word allocateCurrent = Int32.ofNat block.address := by
    rw [managed.cells.cell_setWord (by decide) (by omega), searching.current,
      eq_ofNat_of_names names]
  rw [← current]
  refine runs_found managed inside foundMarks ?_ ?_
  · rw [Memory.size_setWord]
    exact searching.only.floor_le floor
  · rw [managed.cells.cell_setWord (by decide) (by omega), searching.caller]

/-- A search that has come to the end of the free list. -/
theorem runs_end (managed : Managed image)
    (floor : Address.index (image.word Cell.heap) ≤ before.size) {here : Nat}
    (marks : image.Marks search here) {bumpHere : Nat} (bumpMarks : image.Marks bump bumpHere)
    {caller : Int32} (searching : Searching image.word before memory caller size previous 0) :
    Runs image limit ⟨here, stack, memory, output⟩ ⟨bumpHere, stack, memory, output⟩ :=
  Runs.branches managed.addressable (managed.routines.atSearch.holds marks)
    (act_loadCurrent managed.cells searching floor) rfl bumpMarks rfl

/-- The current block is compared with what is wanted: a smaller one is passed over, a
larger one is unlinked. -/
theorem runs_compare (managed : Managed image) (sound : Sound image.word before ledger)
    (named : Address.Names size wanted) {here : Nat} (marks : image.Marks search here)
    {block : Block} (known : block ∈ ledger.blocks) {caller : Int32}
    (searching : Searching image.word before memory caller size previous current)
    (names : Address.Names current block.address) :
    (block.size < wanted → ∃ after,
        Runs image limit ⟨here, stack, memory, output⟩ ⟨here, stack, after, output⟩ ∧
        Searching image.word before after caller size current (before.word block.address)) ∧
      (wanted ≤ block.size → ∃ unlink, image.Holds (loadWord allocatePrevious ++
          .jumpFalse unlinkHead :: (unlinkInner ++ [.jump found, .label unlinkHead])) unlink ∧
        Runs image limit ⟨here, stack, memory, output⟩ ⟨unlink, stack, memory, output⟩) := by
  have floor : Address.index (image.word Cell.heap) ≤ before.size :=
    Nat.le_trans sound.tiled.start_le sound.inside
  have bounds := sound.bounds known
  obtain ⟨bumpHere, bumpMarks, _⟩ := managed.routines.atBump
  obtain ⟨nextHere, nextMarks, _⟩ := managed.routines.atNext
  obtain ⟨compare, holdsCompare, toCompare⟩ : ∃ next, image.Holds _ next ∧
      Runs image limit ⟨here, stack, memory, output⟩ ⟨next, stack, memory, output⟩ :=
    Runs.passes managed.addressable (managed.routines.atSearch.holds marks)
      (act_loadCurrent managed.cells searching floor) rfl bumpMarks rfl
      (by simp [Instruction.test, names_ne_zero names (by omega)])
  have header : (before.word (block.address - 4)).toInt = (block.size : Int) :=
    sound.tiled.header known
  have wish : size.toInt = (wanted : Int) := named
  have acts : Code.act image.word surplus stack memory = _ :=
    act_surplus managed.cells searching floor names (by omega) (by omega) (by omega)
  have bound := Int32.toInt_lt size
  have difference : (before.word (block.address - 4) - size).toInt =
      (block.size : Int) - wanted := by
    rw [Address.toInt_sub, header, wish] <;> omega
  have negative : before.word (block.address - 4) - size < 0 ↔ block.size < wanted := by
    rw [Int32.lt_iff_toInt_lt, difference, Int32.toInt_zero]
    omega
  refine ⟨fun small => ?_, fun fits => ?_⟩
  · have toNext : Runs image limit ⟨compare, stack, memory, output⟩
        ⟨nextHere, stack, memory, output⟩ :=
      Runs.branches managed.addressable holdsCompare acts rfl nextMarks
        (by simp only [Instruction.test, negative, small, decide_true])
    obtain ⟨advanced, advances, searchingNext⟩ :=
      act_advance managed.cells searching floor names (by omega) (by omega)
    refine ⟨advanced, toCompare.trans (toNext.trans ?_), searchingNext⟩
    exact Runs.jumps managed.addressable (managed.routines.atNext.holds nextMarks) advances marks
  · obtain ⟨unlink, holdsUnlink, toUnlink⟩ : ∃ next, image.Holds _ next ∧
        Runs image limit ⟨compare, stack, memory, output⟩ ⟨next, stack, memory, output⟩ :=
      Runs.passes managed.addressable holdsCompare acts rfl nextMarks rfl
        (by simp only [Instruction.test, negative, Nat.not_lt.mpr fits, decide_false])
    exact ⟨unlink, holdsUnlink, toCompare.trans toUnlink⟩

/-- A search for which all free blocks are too small. -/
theorem runs_exhausted (managed : Managed image) (sound : Sound image.word before ledger)
    (named : Address.Names size wanted) {here : Nat} (marks : image.Marks search here)
    {bumpHere : Nat} (bumpMarks : image.Marks bump bumpHere) {caller : Int32} (rest : List Block)
    (known : ∀ block ∈ rest, block ∈ ledger.blocks)
    (small : ∀ block ∈ rest, block.size < wanted)
    (searching : Searching image.word before memory caller size previous current)
    (linked : Linked before current rest) :
    ∃ after previous, Runs image limit ⟨here, stack, memory, output⟩
        ⟨bumpHere, stack, after, output⟩ ∧
      Searching image.word before after caller size previous 0 := by
  have floor : Address.index (image.word Cell.heap) ≤ before.size :=
    Nat.le_trans sound.tiled.start_le sound.inside
  induction rest generalizing memory previous current with
  | nil =>
      obtain rfl : current = 0 := linked
      exact ⟨memory, previous, runs_end managed floor marks bumpMarks searching, searching⟩
  | cons block others induction =>
      obtain ⟨knownFirst, knownRest⟩ := List.forall_mem_cons.mp known
      obtain ⟨smallFirst, smallRest⟩ := List.forall_mem_cons.mp small
      obtain ⟨names, linked⟩ := linked
      obtain ⟨advanced, passes, searchingNext⟩ :=
        (runs_compare managed sound named marks knownFirst searching names).1 smallFirst
      obtain ⟨after, last, runs, ended⟩ := induction knownRest smallRest searchingNext linked
      exact ⟨after, last, passes.trans runs, ended⟩

/-- A search from a block of the free list on, when those before it are too small. -/
theorem runs_search (managed : Managed image) (sound : Sound image.word before ledger)
    (named : Address.Names size wanted) (large : 4 ≤ wanted)
    (room : ledger.fit? wanted = none →
      ledger.bump + 4 + wanted ≤ before.size ∧ ledger.bump + 4 + wanted ≤ 2147483647)
    (inside : position ≤ image.code.size) {here : Nat} (marks : image.Marks search here)
    (rest passed : List Block) (free : ledger.free = passed ++ rest)
    (small : ∀ block ∈ passed, block.size < wanted)
    (searching : Searching image.word before memory (Int32.ofNat position) size previous current)
    (linked : Linked before current rest)
    (last : match passed.getLast? with
      | none => previous = 0
      | some block => Address.Names previous block.address) :
    ∃ after, Runs image limit ⟨here, stack, memory, output⟩
        ⟨position, .integer (Int32.ofNat (ledger.allocate wanted).1.address) :: stack, after,
          output⟩ ∧
      Allocated image.word before after ledger wanted := by
  have floor : Address.index (image.word Cell.heap) ≤ before.size :=
    Nat.le_trans sound.tiled.start_le sound.inside
  obtain ⟨bumpHere, bumpMarks, _⟩ := managed.routines.atBump
  obtain ⟨headHere, headMarks, _⟩ := managed.routines.atUnlinkHead
  induction rest generalizing passed memory previous current with
  | nil =>
      rw [List.append_nil] at free
      obtain rfl : current = 0 := linked
      obtain ⟨within, fits⟩ := room (Ledger.fit?_eq_none (free ▸ small))
      obtain ⟨after, runs, allocated⟩ := runs_new managed sound named large inside bumpMarks
        searching (free ▸ small) within fits
      exact ⟨after, (runs_end managed floor marks bumpMarks searching).trans runs, allocated⟩
  | cons block others induction =>
      have known := sound.known block (by simp [free])
      have bounds := sound.bounds known
      obtain ⟨names, linked⟩ := linked
      obtain ⟨passesOver, unlinks⟩ := @runs_compare image limit before memory ledger stack output
        size previous current wanted managed sound named here marks block known _ searching names
      by_cases fits : wanted ≤ block.size
      · obtain ⟨unlink, holdsUnlink, toUnlink⟩ := unlinks fits
        rw [Ledger.allocate_of_fit free sound.once small fits]
        have loads : Code.act image.word (loadWord allocatePrevious) stack memory = _ :=
          act_loadPrevious managed.cells searching floor
        cases shape : passed.getLast? with
        | none =>
            rw [shape] at last
            rw [List.getLast?_eq_none_iff.mp shape, List.nil_append] at free
            obtain ⟨after, runs, allocated⟩ :=
              runs_unlinkFirst managed sound inside headMarks free fits searching names
            refine ⟨after, toUnlink.trans (Runs.trans ?_ runs), allocated⟩
            exact Runs.branches managed.addressable holdsUnlink loads rfl headMarks
              (by rw [show previous = 0 from last]; rfl)
        | some previousBlock =>
            rw [shape] at last
            obtain ⟨earlier, rfl⟩ := List.getLast?_eq_some_iff.mp shape
            have lastKnown := sound.known previousBlock (by simp [free])
            have lastBounds := sound.bounds lastKnown
            rw [List.append_assoc, List.singleton_append] at free
            obtain ⟨inner, holdsInner, toInner⟩ : ∃ next, image.Holds _ next ∧
                Runs image limit ⟨unlink, stack, memory, output⟩ ⟨next, stack, memory, output⟩ :=
              Runs.passes managed.addressable holdsUnlink loads rfl headMarks rfl
                (by simp [Instruction.test, names_ne_zero last (by omega)])
            obtain ⟨after, runs, allocated⟩ := runs_unlinkInner managed sound inside holdsInner free
              small fits searching names last
            exact ⟨after, toUnlink.trans (toInner.trans runs), allocated⟩
      · obtain ⟨advanced, passes, searchingNext⟩ := passesOver (Nat.lt_of_not_le fits)
        obtain ⟨after, runs, allocated⟩ := induction (passed ++ [block]) (by simp [free])
          (by simpa [or_imp, forall_and] using ⟨small, Nat.lt_of_not_le fits⟩) searchingNext linked
          (by simpa using names)
        exact ⟨after, passes.trans runs, allocated⟩

/-- Allocation hands out the block that the ledger says. -/
theorem runs_allocate (managed : Managed image) (sound : Sound image.word memory ledger)
    (named : Address.Names size wanted) (large : 4 ≤ wanted)
    (room : ledger.fit? wanted = none →
      ledger.bump + 4 + wanted ≤ memory.size ∧ ledger.bump + 4 + wanted ≤ 2147483647)
    (inside : position ≤ image.code.size) {here : Nat} (marks : image.Marks Entry.allocate here) :
    ∃ after, Runs image limit
        ⟨here, .integer (Int32.ofNat position) :: .integer size :: stack, memory, output⟩
        ⟨position, .integer (Int32.ofNat (ledger.allocate wanted).1.address) :: stack, after,
          output⟩ ∧
      Allocated image.word memory after ledger wanted := by
  have floor : Address.index (image.word Cell.heap) ≤ memory.size :=
    Nat.le_trans sound.tiled.start_le sound.inside
  obtain ⟨searchHere, searchMarks, _⟩ := managed.routines.atSearch
  obtain ⟨begun, begins, searching⟩ := act_begin managed.cells floor
  obtain ⟨after, runs, allocated⟩ := runs_search managed sound named large room inside searchMarks
    ledger.free [] rfl (by simp) searching sound.linked rfl
  refine ⟨after, Runs.trans ?_ runs, allocated⟩
  exact Runs.falls (managed.routines.atAllocate.holds marks) begins searchMarks

/-- Not even the size of a new block fits in the memory. -/
theorem traps_carve (managed : Managed image)
    (floor : Address.index (image.word Cell.heap) ≤ before.size) {address : Nat}
    (names : Address.Names (before.cell image.word Cell.bumpPointer) address) {caller : Int32}
    (searching : Searching image.word before memory caller size previous current)
    (outside : before.size < address + 4) {rest : Code} {here : Nat}
    (holds : image.Holds (carve ++ rest) here) :
    Configuration.Traps image limit ⟨here, stack, memory, output⟩ := by
  have inside := searching.only.floor_le floor
  have bump := searching.bump_kept managed.cells
  have parts : carve ++ rest = Code.join [loadWord Cell.bumpPointer, addOffset 4,
      loadWord Cell.bumpPointer, loadWord allocateSize] ++ .storeI ::
        (.duplicate :: (loadWord allocateSize ++ (.add :: (storeWord Cell.bumpPointer ++ rest)))) :=
    rfl
  have acts : Code.act image.word (Code.join [loadWord Cell.bumpPointer, addOffset 4,
      loadWord Cell.bumpPointer, loadWord allocateSize]) stack memory =
        some (.integer size :: .integer (before.cell image.word Cell.bumpPointer) ::
          .integer (before.cell image.word Cell.bumpPointer + 4) :: stack, memory) := by
    simp only [join_cons, join_nil]
    rw [managed.cells.act_loadCell (by decide) inside, bump, act_addOffset,
      managed.cells.act_loadCell (by decide) inside, bump,
      managed.cells.act_loadCell (by decide) inside, searching.wanted, act_nil]
  refine Configuration.traps_storeI (parts ▸ holds) acts ?_
  refine Option.eq_none_iff_forall_ne_some.mpr fun index found => ?_
  obtain ⟨named, within⟩ := Memory.index?_eq_some.mp found
  rw [searching.only.size, named.unique names] at within
  omega

/-- A request for which there is no room comes to a new block beyond it, or to a machine error. -/
theorem runs_or_traps (managed : Managed image) (sound : Sound image.word memory ledger)
    (named : Address.Names size wanted) (none : ledger.fit? wanted = none)
    (inside : position ≤ image.code.size) {here : Nat} (marks : image.Marks Entry.allocate here) :
    Configuration.Traps image limit
        ⟨here, .integer (Int32.ofNat position) :: .integer size :: stack, memory, output⟩ ∨
      ∃ after, Runs image limit
          ⟨here, .integer (Int32.ofNat position) :: .integer size :: stack, memory, output⟩
          ⟨position, .integer (Int32.ofNat (ledger.allocate wanted).1.address) :: stack, after,
            output⟩ ∧
        Handed image.word memory after ledger wanted := by
  have start := sound.tiled.start_le
  have floor : Address.index (image.word Cell.heap) ≤ memory.size :=
    Nat.le_trans start sound.inside
  have small : ∀ block ∈ ledger.free, block.size < wanted := by
    simpa [Ledger.fit?] using none
  obtain ⟨searchHere, searchMarks, _⟩ := managed.routines.atSearch
  obtain ⟨bumpHere, bumpMarks, _⟩ := managed.routines.atBump
  obtain ⟨exitHere, exitMarks, _⟩ := managed.routines.atExit
  obtain ⟨searched, previous, toBump, searching⟩ : ∃ after previous, Runs image limit
      ⟨here, .integer (Int32.ofNat position) :: .integer size :: stack, memory, output⟩
      ⟨bumpHere, stack, after, output⟩ ∧
      Searching image.word memory after (Int32.ofNat position) size previous 0 := by
    obtain ⟨begun, begins, searching⟩ := act_begin managed.cells floor
    obtain ⟨searched, previous, searches, ended⟩ := runs_exhausted managed sound named searchMarks
      bumpMarks ledger.free sound.known small searching sound.linked
    exact ⟨searched, previous, (Runs.falls (managed.routines.atAllocate.holds marks) begins
      searchMarks).trans searches, ended⟩
  have holds := managed.routines.atBump.holds bumpMarks
  by_cases room : ledger.bump + 4 ≤ memory.size
  · refine .inr ⟨_, toBump.trans ?_, handed_new managed.cells sound searching small named room
      (memory.cell image.word Cell.bumpPointer + 4 + size)⟩
    have pointer : Int32.ofNat (ledger.allocate wanted).1.address =
        memory.cell image.word Cell.bumpPointer + 4 := by
      rw [Ledger.allocate_of_none none, eq_ofNat_of_names sound.bump]
      exact Int32.ofNat_add ledger.bump 4
    rw [pointer]
    refine (Runs.falls holds (act_carve managed.cells searching floor sound.bump start room)
      exitMarks).trans (runs_exit managed inside exitMarks ?_ ?_)
    · simp only [Memory.size_setCell, Memory.size_setWord, searching.only.size]
      exact floor
    · rw [managed.cells.cell_setCell_other (by decide) (by decide) (by decide),
        managed.cells.cell_setWord (by decide) start, searching.caller]
  · exact .inl (.of_runs toBump (traps_carve managed floor sound.bump searching (by omega) holds))

/-- A request is served, unless there is no room for it: then the block may reach beyond it, or
the run ends in a machine error. -/
theorem allocate_or_traps (managed : Managed image) (sound : Sound image.word memory ledger)
    (named : Address.Names size wanted) (large : 4 ≤ wanted) (inside : position ≤ image.code.size)
    {here : Nat} (marks : image.Marks Entry.allocate here) :
    (¬ ledger.Room memory.size wanted ∧ Configuration.Traps image limit
        ⟨here, .integer (Int32.ofNat position) :: .integer size :: stack, memory, output⟩) ∨
      ∃ after, Runs image limit
          ⟨here, .integer (Int32.ofNat position) :: .integer size :: stack, memory, output⟩
          ⟨position, .integer (Int32.ofNat (ledger.allocate wanted).1.address) :: stack, after,
            output⟩ ∧
        Handed image.word memory after ledger wanted ∧
        (ledger.Room memory.size wanted → Sound image.word after (ledger.allocate wanted).2) := by
  by_cases room : ledger.Room memory.size wanted
  · obtain ⟨after, runs, allocated⟩ := runs_allocate managed sound named large room inside marks
    exact .inr ⟨after, runs, allocated.toHanded, fun _ => allocated.sound⟩
  · have none : ledger.fit? wanted = none := Decidable.byContradiction fun some =>
      room fun none => absurd none some
    obtain traps | ⟨after, runs, handed⟩ := runs_or_traps managed sound named none inside marks
    · exact .inl ⟨room, traps⟩
    · exact .inr ⟨after, runs, handed, fun fits => absurd fits room⟩

/-- Code that leaves the size of a request on the stack and calls the allocator. -/
theorem request_or_traps (managed : Managed image) {request rest : Code} {pc : Nat}
    {operands : List Word} {first : Memory}
    (holds : image.Holds (request ++ .call Entry.allocate :: rest) pc)
    (requests : Code.act image.word request operands first =
      some (.integer size :: stack, memory))
    (sound : Sound image.word memory ledger) (named : Address.Names size wanted)
    (large : 4 ≤ wanted) :
    (¬ ledger.Room memory.size wanted ∧
        Configuration.Traps image limit ⟨pc, operands, first, output⟩) ∨
      ∃ after, Runs image limit ⟨pc, operands, first, output⟩
          ⟨pc + request.size + 1,
            .integer (Int32.ofNat (ledger.allocate wanted).1.address) :: stack, after, output⟩ ∧
        Handed image.word memory after ledger wanted ∧
        (ledger.Room memory.size wanted → Sound image.word after (ledger.allocate wanted).2) := by
  obtain ⟨holdsRequest, holdsCall⟩ := Image.holds_append.mp holds
  obtain ⟨here, marks, _⟩ := managed.routines.atAllocate
  obtain ⟨found, _⟩ := (Image.holds_cons rfl _ _).mp holdsCall
  obtain ⟨returns, _⟩ := Array.getElem?_eq_some_iff.mp found
  have calls : Runs image limit ⟨pc, operands, first, output⟩ ⟨here, _, _, output⟩ :=
    (Runs.straight holdsRequest requests).trans (.call managed.addressable holdsCall marks)
  obtain ⟨full, traps⟩ | ⟨after, allocates, handing, soundAfter⟩ :=
    allocate_or_traps managed sound named large returns marks
  · exact .inl ⟨full, .of_runs calls traps⟩
  · exact .inr ⟨after, calls.trans allocates, handing, soundAfter⟩

/-- The memory after a block was given back: its first word leads to what was the first
free block, and it is the first free block now. -/
def released (word : String → Int32) (memory : Memory) (caller : Int32) (address : Nat) :
    Memory :=
  ((memory.setCell word deallocateReturn caller).setWord address
    (memory.cell word Cell.freeList)).setCell word Cell.freeList (Int32.ofNat address)

theorem runs_deallocate (managed : Managed image) {address : Nat}
    (above : Address.index (image.word Cell.heap) ≤ address) (below : address + 4 ≤ memory.size)
    (fits : address < 2147483648) (inside : position ≤ image.code.size) {here : Nat}
    (marks : image.Marks Entry.deallocate here) :
    Runs image limit
      ⟨here, .integer (Int32.ofNat position) :: .integer (Int32.ofNat address) :: stack, memory,
        output⟩
      ⟨position, stack, released image.word memory (Int32.ofNat position) address, output⟩ := by
  have cells := managed.cells
  have floor : Address.index (image.word Cell.heap) ≤ memory.size := by omega
  refine Runs.leaves managed.addressable (managed.routines.atDeallocate.holds marks) inside ?_
  simp only [giveBack, join_cons, join_nil, List.cons_append, List.nil_append]
  rw [cells.act_storeCell (by decide) floor, act_duplicate,
    cells.act_loadCell (by decide) (by rwa [Memory.size_setCell]),
    cells.cell_setCell_other (by decide) (by decide) (by decide),
    act_setWord (Address.names_ofNat fits) (by rwa [Memory.size_setCell]),
    cells.act_storeCell (by decide) (by rwa [Memory.size_setWord, Memory.size_setCell]),
    cells.act_loadCell (by decide)
      (by rwa [Memory.size_setCell, Memory.size_setWord, Memory.size_setCell]),
    cells.cell_setCell_other (by decide) (by decide) (by decide),
    cells.cell_setWord (by decide) above, cells.cell_setCell (by decide) floor, act_nil]
  rfl

end

section

variable {word : String → Int32} {memory : Memory} {ledger : Ledger} {block : Block}
  {caller : Int32} (cells : Cells word cells (Address.index (word Cell.heap)))
include cells

theorem byte_released {address index : Nat} (above : Address.index (word Cell.heap) ≤ index)
    (outside : index < address ∨ address + 4 ≤ index) :
    (released word memory caller address).byte index = memory.byte index := by
  rw [released, cells.byte_setCell (by decide) above, Memory.byte_setWord_of_outside outside,
    cells.byte_setCell (by decide) above]

theorem word_released {address index : Nat} (above : Address.index (word Cell.heap) ≤ index)
    (apart : index + 4 ≤ address ∨ address + 4 ≤ index) :
    (released word memory caller address).word index = memory.word index := by
  rw [released, cells.word_setCell (by decide) above, Memory.word_setWord_of_apart apart,
    cells.word_setCell (by decide) above]

theorem freeList_released {address : Nat} (floor : Address.index (word Cell.heap) ≤ memory.size) :
    (released word memory caller address).cell word Cell.freeList = Int32.ofNat address := by
  rw [released, cells.cell_setCell (by decide) (by simpa using floor)]

theorem link_released {address : Nat} (above : Address.index (word Cell.heap) ≤ address)
    (below : address + 4 ≤ memory.size) :
    (released word memory caller address).word address = memory.cell word Cell.freeList := by
  rw [released, cells.word_setCell (by decide) above, Memory.word_setWord (by simpa using below)]

/-- Giving back a block that is handed out keeps the heap sound. -/
theorem sound_released (sound : Sound word memory ledger) (member : block ∈ ledger.live) :
    Sound word (released word memory caller block.address) (ledger.deallocate block) := by
  obtain ⟨known, notFree⟩ := Ledger.mem_live.mp member
  have bounds := sound.bounds known
  have floor : Address.index (word Cell.heap) ≤ memory.size := by omega
  refine sound.relinked ?_ ?_ ?_ ?_ (List.nodup_cons.mpr ⟨notFree, sound.once⟩)
    (List.forall_mem_cons.mpr ⟨known, sound.known⟩)
  · simp [released]
  · rw [released, cells.cell_setCell_other (by decide) (by decide) (by decide),
      cells.cell_setWord (by decide) (by omega),
      cells.cell_setCell_other (by decide) (by decide) (by decide)]
  · intro other otherKnown
    have otherBounds := sound.bounds otherKnown
    exact word_released cells (by omega) (sound.tiled.header_apart otherKnown known)
  · rw [freeList_released cells floor]
    refine ⟨Address.names_ofNat (by omega), ?_⟩
    rw [link_released cells (by omega) (by omega)]
    refine sound.linked.congr fun other otherFree => ?_
    have otherKnown := sound.known other otherFree
    have otherBounds := sound.bounds otherKnown
    have apart := sound.tiled.apart otherKnown known fun same => notFree (same ▸ otherFree)
    exact word_released cells (by omega) (by omega)

end

end Heap

end StackBackend
