import StackBackend.Proofs.Assembling
import StackBackend.Proofs.HeapManager
import StackBackend.Proofs.Layout

namespace StackBackend

/-! The heap over any history of requests. Programs ask for blocks, give them back and
write into those they hold; at every point of such a history the memory spells out which
blocks there are and which of them are free. -/

namespace Heap

inductive Request where
  | allocate (size : Int32)
  | deallocate (block : Block)
  /-- Writes bytes of the program's own. -/
  | write (index : Nat) (values : List UInt8)

/-- From where a routine is called: where it returns to, and what it leaves alone. -/
structure Caller where
  position : Nat
  stack : List Word
  output : ByteArray

namespace Ledger

/-- The ledger of a heap without blocks. -/
def initial (start : Nat) : Ledger :=
  ⟨[], [], start⟩

/-- Blocks hold a word at least, and a new one has to fit in the memory and below the
largest address. Only blocks that are handed out are given back and written to. -/
def Permits (ledger : Ledger) (memorySize : Nat) : Request → Prop
  | .allocate size =>
      4 ≤ size.toInt ∧ (ledger.fit? (Address.index size) = none →
        ledger.bump + 4 + Address.index size ≤ memorySize ∧
          ledger.bump + 4 + Address.index size ≤ 2147483647)
  | .deallocate block => block ∈ ledger.live
  | .write index values =>
      ∃ block ∈ ledger.live, block.address ≤ index ∧
        index + values.length ≤ block.address + block.size

def after (ledger : Ledger) : Request → Ledger
  | .allocate size => (ledger.allocate (Address.index size)).2
  | .deallocate block => ledger.deallocate block
  | .write .. => ledger

end Ledger

/-- The memory spells out the ledger, and the blocks that are handed out lie apart. -/
def Orderly (word : String → Int32) (memory : Memory) (ledger : Ledger) : Prop :=
  Sound word memory ledger ∧
    ∀ block ∈ ledger.live, ∀ other ∈ ledger.live, block ≠ other →
      block.address + block.size ≤ other.address ∨ other.address + other.size ≤ block.address

/-- The routines return to their callers; allocation returns the block of the ledger. -/
def Serves (image : Image) (limit : Option Nat) (ledger : Ledger) (caller : Caller)
    (before after : Memory) : Request → Prop
  | .allocate size =>
      ∃ entry, image.Marks Entry.allocate entry ∧ Runs image limit
        ⟨entry, .integer (Int32.ofNat caller.position) :: .integer size :: caller.stack, before,
          caller.output⟩
        ⟨caller.position,
          .integer (Int32.ofNat (ledger.allocate (Address.index size)).1.address) :: caller.stack,
          after, caller.output⟩
  | .deallocate block =>
      ∃ entry, image.Marks Entry.deallocate entry ∧ Runs image limit
        ⟨entry, .integer (Int32.ofNat caller.position) :: .integer (Int32.ofNat block.address) ::
          caller.stack, before, caller.output⟩
        ⟨caller.position, caller.stack, after, caller.output⟩
  | .write index values => after = before.write index values

/-- The routines change no byte of a block that is handed out, but for the first word of a
block that is given back. -/
def Spares (ledger : Ledger) (before after : Memory) : Request → Prop
  | .allocate _ => ∀ block ∈ ledger.live, ∀ index, block.Covers index →
      after.byte index = before.byte index
  | .deallocate freed => ∀ block ∈ ledger.live, ∀ index, block.Covers index →
      index < freed.address ∨ freed.address + 4 ≤ index → after.byte index = before.byte index
  | .write .. => True

/-- The heap is orderly at every point of the history, and each request that may be made
is served. -/
def Upholds (image : Image) (limit : Option Nat) :
    Memory → Ledger → List (Caller × Request) → Prop
  | memory, ledger, [] => Orderly image.word memory ledger
  | memory, ledger, (caller, request) :: rest =>
      Orderly image.word memory ledger ∧
        (caller.position ≤ image.code.size → ledger.Permits memory.size request →
          ∃ after, Serves image limit ledger caller memory after request ∧
            Spares ledger memory after request ∧
            Upholds image limit after (ledger.after request) rest)

section

variable {image : Image} {limit : Option Nat} {memory : Memory} {ledger : Ledger}

theorem Sound.orderly {word : String → Int32} (sound : Sound word memory ledger) :
    Orderly word memory ledger :=
  ⟨sound, fun _ member _ otherMember => sound.live_apart member otherMember⟩

/-- Writing into a block that is handed out keeps the heap sound. -/
theorem sound_write {word : String → Int32}
    (cells : Cells word cells (Address.index (word Cell.heap)))
    (sound : Sound word memory ledger) {block : Block} (member : block ∈ ledger.live)
    {index : Nat} {values : List UInt8} (lower : block.address ≤ index)
    (upper : index + values.length ≤ block.address + block.size) :
    Sound word (memory.write index values) ledger := by
  obtain ⟨known, notFree⟩ := Ledger.mem_live.mp member
  have bounds := sound.bounds known
  have words : ∀ other, other + 4 ≤ index ∨ index + values.length ≤ other →
      (memory.write index values).word other = memory.word other :=
    fun _ apart => Memory.word_write_of_apart apart
  have kept : ∀ name ∈ Heap.cells,
      (memory.write index values).cell word name = memory.cell word name := by
    intro name member
    have below := cells.below name member
    exact words _ (by omega)
  refine sound.relinked (Memory.size_write ..) (kept _ (by decide)) ?_ ?_ sound.once sound.known
  · intro other otherKnown
    have otherBounds := sound.bounds otherKnown
    refine words _ ?_
    by_cases same : other = block
    · subst same
      omega
    · have apart := sound.tiled.apart otherKnown known same
      omega
  · rw [kept _ (by decide)]
    refine sound.linked.congr fun other otherFree => ?_
    have otherKnown := sound.known other otherFree
    have otherBounds := sound.bounds otherKnown
    have apart := sound.tiled.apart otherKnown known fun same => notFree (same ▸ otherFree)
    exact words _ (by omega)

/-- One request keeps the heap sound. -/
theorem serves (managed : Managed image) (sound : Sound image.word memory ledger)
    (caller : Caller) (inside : caller.position ≤ image.code.size) (request : Request)
    (permitted : ledger.Permits memory.size request) :
    ∃ after, Serves image limit ledger caller memory after request ∧
      Spares ledger memory after request ∧ Sound image.word after (ledger.after request) := by
  cases request with
  | allocate size =>
      obtain ⟨large, room⟩ := permitted
      obtain ⟨entry, marks, _⟩ := managed.routines.atAllocate
      have named : Address.Names size (Address.index size) := Address.names_index (by omega)
      have enough : 4 ≤ Address.index size := by
        have same : size.toInt = (Address.index size : Int) := named
        omega
      obtain ⟨after, runs, allocated⟩ := runs_allocate managed sound named enough room inside marks
      exact ⟨after, ⟨entry, marks, runs⟩, allocated.live, allocated.sound⟩
  | deallocate block =>
      obtain ⟨entry, marks, _⟩ := managed.routines.atDeallocate
      have bounds := sound.bounds (Ledger.mem_live.mp permitted).1
      refine ⟨_, ⟨entry, marks, runs_deallocate managed (by omega) (by omega) (by omega) inside
        marks⟩, ?_, sound_released managed.cells sound permitted⟩
      intro other member index covers outside
      have otherBounds := sound.bounds (Ledger.mem_live.mp member).1
      exact byte_released managed.cells (Nat.le_trans (by omega) covers.1) outside
  | write index values =>
      obtain ⟨block, member, lower, upper⟩ := permitted
      exact ⟨_, rfl, trivial, sound_write managed.cells sound member lower upper⟩

/-- The heap stays orderly over any history. -/
theorem upholds (managed : Managed image) (sound : Sound image.word memory ledger)
    (history : List (Caller × Request)) : Upholds image limit memory ledger history := by
  induction history generalizing memory ledger with
  | nil => exact sound.orderly
  | cons call rest induction =>
      refine ⟨sound.orderly, fun inside permitted => ?_⟩
      obtain ⟨after, served, spared, sound⟩ := serves managed sound call.1 inside call.2 permitted
      exact ⟨after, served, spared, induction sound⟩

theorem sound_initial {word : String → Int32}
    (heap : Address.Names (word Cell.heap) (Address.index (word Cell.heap)))
    (room : Address.index (word Cell.heap) ≤ memory.size)
    (free : memory.cell word Cell.freeList = 0)
    (bump : memory.cell word Cell.bumpPointer = word Cell.heap) :
    Sound word memory (Ledger.initial (Address.index (word Cell.heap))) := by
  have upper := Int32.toInt_lt (word Cell.heap)
  have names : (word Cell.heap).toInt = (Address.index (word Cell.heap) : Int) := heap
  refine ⟨rfl, ?_, room, ?_, free, List.nodup_nil, fun _ member => nomatch member⟩
  · rw [bump]
    exact heap
  · show Address.index (word Cell.heap) ≤ 2147483647
    omega

end

/-! ## Programs -/

/-- The heap begins where the data ends. -/
theorem word_heap {code before : Code} {image : Image} (assembled : Image.assemble code = .ok image)
    (parts : code = before ++ manager) : image.word Cell.heap = Int32.ofNat image.dataSize := by
  have last : code = (before ++ Code.join [cells.flatMap fun cell => [.dataLabel cell, .dataI 0],
      allocate, deallocate]) ++ [.dataLabel Cell.heap] := by
    simp [parts, manager]
  have size := Image.dataSize_of_assemble assembled
  have symbol := Image.symbol_of_assemble assembled last
  rw [last, Code.dataSize_append] at size
  rw [Image.word, symbol, size]
  rfl

theorem managed_of_assemble {code before : Code} {image : Image}
    (assembled : Image.assemble code = .ok image) (parts : code = before ++ manager)
    (addressable : image.Addressable) (fits : image.dataSize ≤ 2147483647) :
    Managed image ∧ Address.index (image.word Cell.heap) = image.dataSize := by
  have index : Address.index (image.word Cell.heap) = image.dataSize := by
    rw [word_heap assembled parts]
    exact Int32.toNatClampNeg_ofNat_of_lt (by omega)
  have holds : image.Holds manager (0 + before.size) :=
    (Image.holds_append.mp (parts ▸ Image.holds_of_assemble assembled)).2
  refine ⟨⟨addressable, routines_of_holds holds, ?_⟩, index⟩
  rw [index]
  refine Image.cells_of_assemble assembled (fun name member => ?_) (Nat.le_refl _) (by omega)
  exact parts ▸ (lays_cells member).right before

end Heap

namespace Program

variable {program : Program} {code : Code} {image : Image} {memory : Memory} {limit : Option Nat}

theorem ends_in_manager (compiled : program.compile ⟨true⟩ = .ok code) :
    ∃ before, code = before ++ Heap.manager := by
  obtain ⟨main, _, rfl⟩ := compile_eq_ok.mp compiled
  exact ⟨Heap.initialization ++ (Environment.code true ++ main), by simp⟩

/-- From a heap without blocks on, the heap of a program is orderly at every point of every
history, and every request that may be made is served. -/
theorem heap_upholds (compiled : program.compile ⟨true⟩ = .ok code)
    (assembled : Image.assemble code = .ok image) (addressable : image.Addressable)
    (fits : image.dataSize ≤ 2147483647) (room : image.dataSize ≤ memory.size)
    (free : memory.cell image.word Cell.freeList = 0)
    (bump : memory.cell image.word Cell.bumpPointer = image.word Cell.heap)
    (history : List (Heap.Caller × Heap.Request)) :
    Heap.Upholds image limit memory (.initial image.dataSize) history := by
  obtain ⟨before, parts⟩ := ends_in_manager compiled
  obtain ⟨managed, start⟩ := Heap.managed_of_assemble assembled parts addressable fits
  have heap : Address.Names (image.word Cell.heap) (Address.index (image.word Cell.heap)) := by
    rw [start, Heap.word_heap assembled parts]
    exact Address.names_ofNat (by omega)
  rw [← start]
  exact Heap.upholds managed (Heap.sound_initial heap (by omega) free bump) history

/-- A program that does nothing. -/
def idle : Program where
  globalSize := 0
  body := []

theorem exists_idle_image :
    ∃ code image, idle.compile ⟨true⟩ = .ok code ∧ Image.assemble code = .ok image ∧
      image.Addressable ∧ image.dataSize ≤ 65536 := by
  have plain : Plain idle.operations := by simp [Plain, idle, operations, blockOperations]
  exact exists_small_image (by decide +kernel) plain (by decide)

/-- Takes a block, gives it back and takes it again for less, from the top level of a
program that does nothing else. -/
theorem idle_heap_upholds :
    ∃ code image memory, idle.compile ⟨true⟩ = .ok code ∧ Image.assemble code = .ok image ∧
      image.Addressable ∧ image.dataSize ≤ 2147483647 ∧ image.dataSize ≤ memory.size ∧
      memory.cell image.word Cell.freeList = 0 ∧
      memory.cell image.word Cell.bumpPointer = image.word Cell.heap ∧
      Heap.Upholds image none memory (.initial image.dataSize)
        [(⟨0, [], .empty⟩, .allocate 16), (⟨0, [], .empty⟩, .deallocate ⟨image.dataSize + 4, 16⟩),
          (⟨0, [], .empty⟩, .allocate 8)] := by
  obtain ⟨code, image, compiled, assembled, addressable, small⟩ := exists_idle_image
  obtain ⟨before, parts⟩ := ends_in_manager compiled
  obtain ⟨managed, start⟩ := Heap.managed_of_assemble assembled parts addressable (by omega)
  let memory := (Memory.zeros 65536).setCell image.word Cell.bumpPointer (image.word Cell.heap)
  have size : memory.size = 65536 := Memory.size_setCell ..
  have floor : Address.index (image.word Cell.heap) ≤ (Memory.zeros 65536).size :=
    start ▸ small
  have free : memory.cell image.word Cell.freeList = 0 :=
    managed.cells.cell_setCell_other (by decide) (by decide) (by decide)
  have bump : memory.cell image.word Cell.bumpPointer = image.word Cell.heap :=
    managed.cells.cell_setCell (by decide) floor
  exact ⟨code, image, memory, compiled, assembled, addressable, by omega, by omega, free, bump,
    heap_upholds compiled assembled addressable (by omega) (by omega) free bump _⟩

end Program

end StackBackend
