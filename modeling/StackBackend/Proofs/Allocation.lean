import StackBackend.Operator.Sequence
import StackBackend.Proofs.ByteRanges

namespace StackBackend

/-! A fresh array is a sound record: its block holds all of its elements, they are zero, and
nothing else has changed. A negative length is a fault, and a length for which there is no
room ends in a machine error unless the record fits all the same. -/

theorem Address.Names.mul {left right : Int32} {first second : Nat} (names : Names left first)
    (others : Names right second) (fits : first * second < 2147483648) :
    Names (left * right) (first * second) := by
  unfold Names at *
  rw [Int32.toInt_mul, names, others, ← Int.natCast_mul]
  exact Int.bmod_eq_of_le (by omega) (by omega)

theorem Address.index_of_names {address : Int32} {index : Nat} (names : Names address index) :
    Address.index address = index := by
  unfold Names at names
  unfold Address.index Int32.toNatClampNeg
  omega

/-- An index below twice the range that is used as an address is in the range. -/
theorem Address.eq_of_names_ofNat {index target : Nat} (small : index < 4294967296)
    (names : Names (Int32.ofNat index) target) : target = index := by
  have bound := Int32.toInt_lt (Int32.ofNat index)
  unfold Names at names
  rw [names] at bound
  rw [Int32.toInt_ofNat', Int32.size, Int.bmod_def] at names
  omega

namespace Heap

open Address

/-- The heap stays sound when what the manager keeps in it stays: its own cells, the words
before the blocks, and the first words of the free blocks. -/
theorem Sound.congr {word : String → Int32} {before after : Memory} {ledger : Ledger}
    (sound : Sound word before ledger) (size : after.size = before.size)
    (kept : ∀ name ∈ [Cell.freeList, Cell.bumpPointer],
      after.cell word name = before.cell word name)
    (headers : ∀ block ∈ ledger.blocks,
      after.word (block.address - 4) = before.word (block.address - 4))
    (links : ∀ block ∈ ledger.free, after.word block.address = before.word block.address) :
    Sound word after ledger := by
  refine sound.relinked size (kept _ (by simp)) headers ?_ sound.once sound.known
  rw [kept _ (by simp)]
  exact sound.linked.congr links

/-- Writing within a block that is handed out keeps the heap sound. -/
theorem Sound.within {word : String → Int32} {before after : Memory} {ledger : Ledger}
    (sound : Sound word before ledger) {block : Block} (member : block ∈ ledger.live)
    (size : after.size = before.size)
    (cellsKept : ∀ name ∈ [Cell.freeList, Cell.bumpPointer],
      after.cell word name = before.cell word name)
    (kept : ∀ index, Address.index (word Cell.heap) ≤ index → ¬ block.Covers index →
      after.byte index = before.byte index) :
    Sound word after ledger := by
  obtain ⟨known, notFree⟩ := Ledger.mem_live.mp member
  have bounds := sound.bounds known
  unfold Block.Covers at kept
  refine sound.congr size cellsKept (fun other otherKnown => ?_) fun other otherFree => ?_
  · have otherBounds := sound.bounds otherKnown
    refine Memory.word_congr fun index lower upper => kept index (by omega) ?_
    by_cases same : other = block
    · subst same
      omega
    · have apart := sound.tiled.apart otherKnown known same
      omega
  · have otherKnown := sound.known other otherFree
    have otherBounds := sound.bounds otherKnown
    have apart := sound.tiled.apart otherKnown known fun same => notFree (same ▸ otherFree)
    exact Memory.word_congr fun index lower upper => kept index (by omega) (by omega)

end Heap

namespace Record

open Code Address

/-! ## The words of a record -/

/-- The four words that an array begins with. -/
structure Begins (memory : Memory) (address : Nat) (status : Int32) (element : Ty)
    (length : Nat) : Prop where
  typeId : memory.word address = arrayTypeId
  status : memory.word (address + 4) = status
  elementSize : memory.word (address + 8) = element.size
  length : Names (memory.word (address + 12)) length

/-- Writes a word of the record that is on the stack. -/
def field (value : Code) (offset : Int32) : Code :=
  .duplicate :: (value ++ writeWord offset)

section

variable {image : Image} {limit : Option Nat} {memory : Memory} {stack : List Word}
  {output : ByteArray} {pc : Nat} {value rest : Code} {offset pointer datum : Int32}

/-- The store of a word at an offset computes its address first. -/
theorem act_writeWord {word : String → Int32} (offset base value : Int32) :
    ∃ before, writeWord offset = before ++ [.storeI] ∧
      Code.act word before (.integer value :: .integer base :: stack) memory =
        some (.integer value :: .integer (base + offset) :: stack, memory) := by
  unfold writeWord
  split
  · rename_i zero
    exact ⟨[], rfl, by rw [zero, Int32.add_zero, act_nil]⟩
  · exact ⟨[.exchange, .pushI offset, .add, .exchange], rfl, rfl⟩

/-- A word of the record is written, or it is outside the memory. -/
theorem field_or_traps (holds : image.Holds (field value offset ++ rest) pc)
    (evaluates : Code.act image.word value (.integer pointer :: .integer pointer :: stack) memory =
      some (.integer datum :: .integer pointer :: .integer pointer :: stack, memory)) :
    (memory.index? (pointer + offset) 4 = none ∧
        Configuration.Traps image limit ⟨pc, .integer pointer :: stack, memory, output⟩) ∨
      ∃ index, memory.index? (pointer + offset) 4 = some index ∧
        image.Holds rest (pc + (field value offset).size) ∧
        Runs image limit ⟨pc, .integer pointer :: stack, memory, output⟩
          ⟨pc + (field value offset).size, .integer pointer :: stack, memory.setWord index datum,
            output⟩ := by
  obtain ⟨before, same, addresses⟩ :=
    @act_writeWord memory (.integer pointer :: stack) image.word offset pointer datum
  have acts : Code.act image.word (.duplicate :: (value ++ before)) (.integer pointer :: stack)
      memory = some (.integer datum :: .integer (pointer + offset) :: .integer pointer :: stack,
        memory) := by
    rw [act_duplicate, act_append_eq evaluates, addresses]
  have parts : field value offset = (.duplicate :: (value ++ before)) ++ [.storeI] := by
    simp [field, same]
  cases found : memory.index? (pointer + offset) 4 with
  | none =>
      rw [parts, List.append_assoc] at holds
      exact .inl ⟨rfl, Configuration.traps_storeI holds acts found⟩
  | some index =>
      obtain ⟨holdsField, holdsRest⟩ := Image.holds_append.mp holds
      obtain ⟨named, within⟩ := Memory.index?_eq_some.mp found
      refine .inr ⟨index, rfl, holdsRest, .straight holdsField ?_⟩
      rw [parts, act_append_eq acts, act_setWord named within, act_nil]

end

/-! ## The blocks of the code -/

/-- Parks the length and the size of the elements, and leaves the size of the record. -/
def prepare (elementSize : Int32) : Code :=
  Code.join [[.duplicate], storeWord Cell.arrayLength, [.pushI elementSize, .multiply, .duplicate],
    storeWord Cell.arrayDataSize, addOffset arrayHeaderSize]

/-- Writes the words that an array begins with. -/
def inscribe (status elementSize : Int32) : Code :=
  Code.join [field [.pushI arrayTypeId] typeIdOffset, field [.pushI status] statusOffset,
    field [.pushI elementSize] arrayElementSizeOffset,
    field (loadWord Cell.arrayLength) arrayLengthOffset]

/-- Leaves the range of the elements above the record. -/
def range : Code :=
  Code.join [[.duplicate], addOffset arrayHeaderSize, loadWord Cell.arrayDataSize]

theorem allocateEmptyArray_eq (status elementSize : Int32) :
    allocateEmptyArray status elementSize =
      .duplicate :: .jumpNeg Fault.negativeArrayLength.handler :: (prepare elementSize ++
        .call Entry.allocate :: (inscribe status elementSize ++
          (range ++ [.call Entry.clearBytes]))) := by
  simp only [allocateEmptyArray, allocateRecord, prepare, inscribe, range, field, join_cons,
    join_nil, List.append_assoc, List.cons_append, List.nil_append, List.append_nil]

/-- The cells that the allocation of an array works in. -/
def cells : List String :=
  [Cell.arrayLength, Cell.arrayDataSize] ++ ClearBytes.cells ++ Heap.cells

/-- The code that the allocation of an array calls, in an image. -/
structure Installed (image : Image) : Prop where
  managed : Heap.Managed image
  clearing : ClearBytes.Installed image
  start : Address.index (image.word Cell.heap) = image.dataSize
  cells : Cells image.word cells (Address.index (image.word Cell.heap))
  fault : ∃ position, image.Marks Fault.negativeArrayLength.handler position

section

variable {word : String → Int32} {memory : Memory} {stack : List Word} {floor : Nat}

theorem act_prepare (layout : Cells word cells floor) (inside : floor ≤ memory.size)
    (length elementSize : Int32) :
    ∃ after, Code.act word (prepare elementSize) (.integer length :: stack) memory =
        some (.integer (length * elementSize + arrayHeaderSize) :: stack, after) ∧
      Cells.Only word [Cell.arrayLength, Cell.arrayDataSize] memory after ∧
      after.cell word Cell.arrayLength = length ∧
      after.cell word Cell.arrayDataSize = length * elementSize := by
  refine ⟨(memory.setCell word Cell.arrayLength length).setCell word Cell.arrayDataSize
    (length * elementSize), ?_, ((Cells.Only.refl memory).setCell (by simp) _).setCell (by simp) _,
    ?_, layout.cell_setCell (by decide) (by simpa using inside)⟩
  · simp only [prepare, join_cons, join_nil, List.cons_append, List.nil_append]
    rw [act_duplicate, layout.act_storeCell (by decide) inside, act_pushI, act_multiply,
      act_duplicate, layout.act_storeCell (by decide) (by simpa using inside), act_addOffset,
      act_nil]
  · rw [layout.cell_setCell_other (by decide) (by decide) (by decide),
      layout.cell_setCell (by decide) inside]

/-- The memory with the first words of an array written. -/
def inscribed (memory : Memory) (address : Nat) (status elementSize length : Int32) : Memory :=
  (((memory.setWord address arrayTypeId).setWord (address + 4) status).setWord (address + 8)
    elementSize).setWord (address + 12) length

theorem byte_inscribed {address index : Nat} {status elementSize length : Int32}
    (outside : index < address ∨ address + 16 ≤ index) :
    (inscribed memory address status elementSize length).byte index = memory.byte index := by
  rw [inscribed, Memory.byte_setWord_of_outside (by omega),
    Memory.byte_setWord_of_outside (by omega), Memory.byte_setWord_of_outside (by omega),
    Memory.byte_setWord_of_outside (by omega)]

theorem begins_inscribed {address count : Nat} {status length : Int32} {element : Ty}
    (within : address + 16 ≤ memory.size) (counted : Names length count) :
    Begins (inscribed memory address status element.size length) address status element count where
  typeId := by
    rw [inscribed, Memory.word_setWord_of_apart (by omega), Memory.word_setWord_of_apart (by omega),
      Memory.word_setWord_of_apart (by omega), Memory.word_setWord (by omega)]
  status := by
    rw [inscribed, Memory.word_setWord_of_apart (by omega), Memory.word_setWord_of_apart (by omega),
      Memory.word_setWord (by rw [Memory.size_setWord]; omega)]
  elementSize := by
    rw [inscribed, Memory.word_setWord_of_apart (by omega),
      Memory.word_setWord (by simp only [Memory.size_setWord]; omega)]
  length := by
    rw [inscribed, Memory.word_setWord (by simp only [Memory.size_setWord]; omega)]
    exact counted

theorem Begins.congr {before after : Memory} {address count : Nat} {status : Int32} {element : Ty}
    (begins : Begins before address status element count)
    (same : ∀ index, address ≤ index → index < address + 16 →
      after.byte index = before.byte index) :
    Begins after address status element count where
  typeId := (Memory.word_congr fun index _ _ => same index (by omega) (by omega)).trans begins.typeId
  status := (Memory.word_congr fun index _ _ => same index (by omega) (by omega)).trans begins.status
  elementSize :=
    (Memory.word_congr fun index _ _ => same index (by omega) (by omega)).trans begins.elementSize
  length := by
    rw [Memory.word_congr fun index _ _ => same index (by omega) (by omega)]
    exact begins.length

end

/-! ## What an allocation comes to -/

/-- A fresh array: its bytes are zero and lie in the block that the manager reserved, which
lies apart from all blocks that were handed out before. Nothing has changed but the block, the
word before it, the cells, and the words that link the free blocks. -/
structure Formed (word : String → Int32) (before after : Memory) (ledger : Heap.Ledger)
    (block : Heap.Block) (status : Int32) (element : Ty) (length bytes : Nat) : Prop where
  size : after.size = before.size
  begins : Begins after block.address status element length
  zero : ∀ index, block.address + 16 ≤ index →
    index < block.address + 16 + bytes → after.byte index = 0
  room : 16 + bytes ≤ block.size
  header : Names (after.word (block.address - 4)) block.size
  fresh : ∀ other ∈ ledger.live,
    block.address + block.size + 4 ≤ other.address ∨ other.address + other.size + 4 ≤ block.address
  kept : ∀ index, Cells.Misses word cells index →
    index < block.address - 4 ∨ block.address + block.size ≤ index →
    (∀ free ∈ ledger.free, index < free.address ∨ free.address + 4 ≤ index) →
    after.byte index = before.byte index

section

variable {image : Image} {limit : Option Nat} {memory : Memory} {ledger : Heap.Ledger}
  {stack : List Word} {output : ByteArray} {status length : Int32} {element : Ty}
  {pc address count bytes : Nat} (installed : Installed image)
include installed

omit installed in
/-- A word at a distance from the beginning is written, or the block reaches beyond the
memory. -/
theorem field_at {extent : Nat} (distance : Nat) (datum : Int32) {value rest : Code}
    (near : distance + 4 ≤ extent) (small : address + extent ≤ 4294967296)
    (holds : image.Holds (field value (Int32.ofNat distance) ++ rest) pc)
    (evaluates : Code.act image.word value
        (.integer (Int32.ofNat address) :: .integer (Int32.ofNat address) :: stack) memory =
      some (.integer datum :: .integer (Int32.ofNat address) :: .integer (Int32.ofNat address) ::
        stack, memory)) :
    (¬ (address + extent ≤ memory.size ∧ address + extent ≤ 2147483647) ∧
        Configuration.Traps image limit
          ⟨pc, .integer (Int32.ofNat address) :: stack, memory, output⟩) ∨
      Names (Int32.ofNat (address + distance)) (address + distance) ∧
        address + distance + 4 ≤ memory.size ∧
        image.Holds rest (pc + (field value (Int32.ofNat distance)).size) ∧
        Runs image limit ⟨pc, .integer (Int32.ofNat address) :: stack, memory, output⟩
          ⟨pc + (field value (Int32.ofNat distance)).size,
            .integer (Int32.ofNat address) :: stack, memory.setWord (address + distance) datum,
            output⟩ := by
  obtain ⟨none, traps⟩ | ⟨index, found, holdsRest, runs⟩ :=
    @field_or_traps image limit memory stack output pc value rest (Int32.ofNat distance)
      (Int32.ofNat address) datum holds evaluates
  · refine .inl ⟨fun ⟨within, fits⟩ => ?_, traps⟩
    have named : Names (Int32.ofNat (address + distance)) (address + distance) :=
      names_ofNat (by omega)
    rw [← Int32.ofNat_add, Memory.index?_eq_some.mpr ⟨named, by omega⟩] at none
    cases none
  · rw [← Int32.ofNat_add] at found
    obtain ⟨named, within⟩ := Memory.index?_eq_some.mp found
    obtain rfl := eq_of_names_ofNat (by omega) named
    exact .inr ⟨named, within, holdsRest, runs⟩

/-- The words of the record are written, or the block reaches beyond the memory. -/
theorem inscribe_or_traps {rest : Code}
    (floor : Address.index (image.word Cell.heap) ≤ address) (small : address + 16 ≤ 4294967296)
    (inside : Address.index (image.word Cell.heap) ≤ memory.size)
    (parked : memory.cell image.word Cell.arrayLength = length)
    (holds : image.Holds (inscribe status element.size ++ rest) pc) :
    (¬ (address + 16 ≤ memory.size ∧ address + 16 ≤ 2147483647) ∧
        Configuration.Traps image limit
          ⟨pc, .integer (Int32.ofNat address) :: stack, memory, output⟩) ∨
      Names (Int32.ofNat address) address ∧ address + 16 ≤ memory.size ∧
        Runs image limit ⟨pc, .integer (Int32.ofNat address) :: stack, memory, output⟩
          ⟨pc + (inscribe status element.size).size, .integer (Int32.ofNat address) :: stack,
            inscribed memory address status element.size length, output⟩ := by
  simp only [inscribe, join_cons, join_nil, List.append_assoc, List.nil_append] at holds
  obtain failed | ⟨named, _, holds, typed⟩ :=
    field_at 0 arrayTypeId (by omega) small holds rfl
  · exact .inl failed
  obtain failed | ⟨_, _, holds, marked⟩ := field_at 4 status (by omega) small holds rfl
  · exact .inl ⟨by simpa using failed.1, .of_runs typed failed.2⟩
  obtain failed | ⟨_, _, holds, sized⟩ := field_at 8 element.size (by omega) small holds rfl
  · exact .inl ⟨by simpa using failed.1, .of_runs (typed.trans marked) failed.2⟩
  have loads : ∀ stack : List Word, Code.act image.word (loadWord Cell.arrayLength) stack
      (((memory.setWord (address + 0) arrayTypeId).setWord (address + 4) status).setWord
        (address + 8) element.size) = some (.integer length :: stack, _) := fun stack => by
    rw [installed.cells.act_lastLoad (by decide) (by simpa using inside),
      installed.cells.cell_setWord (by decide) (by omega),
      installed.cells.cell_setWord (by decide) (by omega),
      installed.cells.cell_setWord (by decide) (by omega), parked]
  obtain failed | ⟨_, within, _, measured⟩ :=
    field_at 12 length (by omega) small holds (loads _)
  · exact .inl ⟨by simpa using failed.1, .of_runs ((typed.trans marked).trans sized) failed.2⟩
  simp only [Memory.size_setWord] at within
  refine .inr ⟨named, within, ?_⟩
  simp only [inscribe, join_cons, join_nil, Code.size_append, ← Nat.add_assoc]
  exact ((typed.trans marked).trans sized).trans measured

/-- The elements are cleared, or the block reaches beyond the memory. -/
theorem clear_or_traps {rest : Code} (named : Names (Int32.ofNat address) address)
    (floor : Address.index (image.word Cell.heap) ≤ address)
    (inside : Address.index (image.word Cell.heap) ≤ memory.size)
    (parked : Names (memory.cell image.word Cell.arrayDataSize) count)
    (holds : image.Holds (range ++ .call Entry.clearBytes :: rest) pc) :
    (¬ (address + 16 + count ≤ memory.size ∧ address + 16 + count ≤ 2147483647) ∧
        Configuration.Traps image limit
          ⟨pc, .integer (Int32.ofNat address) :: stack, memory, output⟩) ∨
      ∃ start after, (0 < count → start = address + 16) ∧
        Runs image limit ⟨pc, .integer (Int32.ofNat address) :: stack, memory, output⟩
          ⟨pc + range.size + 1, .integer (Int32.ofNat address) :: stack, after, output⟩ ∧
        ClearBytes.Cleared image.word memory after start count := by
  obtain ⟨holdsRange, holdsCall⟩ := Image.holds_append.mp holds
  obtain ⟨entry, marks, _⟩ := installed.clearing.atEntry
  have returns : pc + range.size + 1 ≤ image.code.size := by
    obtain ⟨found, _⟩ := (Image.holds_cons rfl _ _).mp holdsCall
    obtain ⟨bound, _⟩ := Array.getElem?_eq_some_iff.mp found
    exact bound
  have acts : Code.act image.word range (.integer (Int32.ofNat address) :: stack) memory =
      some (.integer (memory.cell image.word Cell.arrayDataSize) ::
        .integer (Int32.ofNat address + arrayHeaderSize) :: .integer (Int32.ofNat address) :: stack,
        memory) := by
    simp only [range, join_cons, join_nil, List.cons_append, List.nil_append]
    rw [act_duplicate, act_addOffset, installed.cells.act_loadCell (by decide) inside, act_nil]
  have begins : ∀ {target : Nat}, Names (Int32.ofNat address + arrayHeaderSize) target →
      target = address + 16 := named.of_add (show Names arrayHeaderSize 16 by decide)
  have enters : Runs image limit ⟨pc, .integer (Int32.ofNat address) :: stack, memory, output⟩
      ⟨entry, _ :: _, memory, output⟩ :=
    (Runs.straight holdsRange acts).trans
      (Runs.call installed.managed.addressable holdsCall marks)
  obtain ⟨far, traps⟩ | ⟨after, clears, cleared, reached⟩ := ClearBytes.runs_or_traps
    installed.clearing (by rw [← installed.start]; exact inside)
    (Int32.ofNat address + arrayHeaderSize) parked
    (fun names index lower upper => (installed.clearing.cells).misses_of_floor_le (by
      rw [begins names] at lower
      rw [← installed.start]
      omega)) returns marks
  · refine .inl ⟨fun ⟨within, fits⟩ => far ?_, .of_runs enters traps⟩
    have names : Names (Int32.ofNat address + arrayHeaderSize) (address + 16) :=
      named.add rfl (by omega)
    rw [index_of_names names]
    exact ⟨names, within, by omega⟩
  · exact .inr ⟨_, after, fun positive => begins (reached positive), enters.trans clears, cleared⟩

/-- The record is written and its elements are cleared, or the block reaches beyond the
memory. -/
theorem fill_or_traps (floor : Address.index (image.word Cell.heap) ≤ address)
    (small : address + 16 ≤ 4294967296)
    (inside : Address.index (image.word Cell.heap) ≤ memory.size)
    (parkedLength : memory.cell image.word Cell.arrayLength = length)
    (parkedSize : Names (memory.cell image.word Cell.arrayDataSize) count)
    (holdsInscribe : image.Holds (inscribe status element.size) pc)
    (holdsRange : image.Holds (range ++ [.call Entry.clearBytes])
      (pc + (inscribe status element.size).size)) :
    (¬ (address + 16 + count ≤ memory.size ∧ address + 16 + count ≤ 2147483647) ∧
        Configuration.Traps image limit
          ⟨pc, .integer (Int32.ofNat address) :: stack, memory, output⟩) ∨
      ∃ start after, (0 < count → start = address + 16) ∧ address + 16 ≤ memory.size ∧
        Runs image limit ⟨pc, .integer (Int32.ofNat address) :: stack, memory, output⟩
          ⟨pc + (inscribe status element.size).size + range.size + 1,
            .integer (Int32.ofNat address) :: stack, after, output⟩ ∧
        ClearBytes.Cleared image.word (inscribed memory address status element.size length) after
          start count := by
  obtain ⟨beyond, traps⟩ | ⟨named, within, inscribes⟩ := inscribe_or_traps installed floor small
    inside parkedLength (Image.holds_append.mpr ⟨holdsInscribe, holdsRange⟩)
  · exact .inl ⟨fun ⟨room, fits⟩ => beyond (by omega), traps⟩
  have size : (inscribed memory address status element.size length).size = memory.size := by
    simp only [inscribed, Memory.size_setWord]
  have below := installed.cells.below Cell.arrayDataSize (by decide)
  have kept : (inscribed memory address status element.size length).cell image.word
      Cell.arrayDataSize = memory.cell image.word Cell.arrayDataSize :=
    Memory.word_congr fun index _ upper => byte_inscribed (.inl (by omega))
  rw [← kept] at parkedSize
  obtain ⟨beyond, traps⟩ | ⟨start, after, begins, clears, cleared⟩ := clear_or_traps installed named
    floor (size.symm ▸ inside) parkedSize holdsRange
  · exact .inl ⟨size ▸ beyond, .of_runs inscribes traps⟩
  · exact .inr ⟨start, after, begins, within, inscribes.trans clears, cleared⟩

/-- Filling a block that is handed out keeps the heap sound. -/
theorem sound_filled {after : Memory} {block : Heap.Block} {start : Nat} {elementSize : Int32}
    (sound : Heap.Sound image.word memory ledger) (member : block ∈ ledger.live)
    (large : 16 + count ≤ block.size) (begins : 0 < count → start = block.address + 16)
    (cleared : ClearBytes.Cleared image.word
      (inscribed memory block.address status elementSize length) after start count) :
    Heap.Sound image.word after ledger := by
  have bounds := sound.bounds (Heap.Ledger.mem_live.mp member).1
  have same : ∀ index, Cells.Misses image.word ClearBytes.cells index → ¬ block.Covers index →
      after.byte index = memory.byte index := by
    intro index misses uncovered
    unfold Heap.Block.Covers at uncovered
    rw [cleared.kept index (by omega) misses, byte_inscribed (by omega)]
  refine sound.within member ?_ (fun name known => ?_) fun index above =>
    same index (installed.clearing.cells.misses_of_floor_le (installed.start ▸ above))
  · rw [cleared.size]
    simp only [inscribed, Memory.size_setWord]
  · have manages : name ∈ Heap.cells := by
      simp only [List.mem_cons, List.not_mem_nil, or_false] at known
      rcases known with rfl | rfl <;> decide
    have notClearing : ∀ other ∈ ClearBytes.cells, other ≠ name := by
      simp only [List.mem_cons, List.not_mem_nil, or_false] at known
      rcases known with rfl | rfl <;> decide
    have below := installed.managed.cells.below name manages
    refine Memory.word_congr fun index lower upper => same index (fun other clears => ?_) ?_
    · have apart := installed.cells.apart other
        (List.mem_append_left _ (List.mem_append_right _ clears)) name
        (List.mem_append_right _ manages) (notClearing other clears)
      omega
    · unfold Heap.Block.Covers
      omega

/-- The heap is sound when the length and the size of the elements are parked. -/
theorem sound_parked {parked : Memory} (sound : Heap.Sound image.word memory ledger)
    (only : Cells.Only image.word [Cell.arrayLength, Cell.arrayDataSize] memory parked) :
    Heap.Sound image.word parked ledger := by
  have above : ∀ index, Address.index (image.word Cell.heap) ≤ index →
      parked.word index = memory.word index := fun index =>
    only.word_above installed.cells (by decide)
  refine sound.congr only.size (fun name member => only.cell installed.cells (by decide) ?_ ?_)
    (fun block known => ?_) fun block free => ?_
  · simp only [List.mem_cons, List.not_mem_nil, or_false] at member
    rcases member with rfl | rfl <;> decide
  · simp only [List.mem_cons, List.not_mem_nil, or_false] at member
    rcases member with rfl | rfl <;> decide
  · have bounds := sound.bounds known
    exact above _ (by omega)
  · have bounds := sound.bounds (sound.known block free)
    exact above _ (by omega)

/-- Scratch cells keep their words when a block is handed out. -/
theorem cell_handed {before after : Memory} {wanted : Nat} {name : String}
    (sound : Heap.Sound image.word before ledger)
    (handed : Heap.Handed image.word before after ledger wanted) (member : name ∈ cells)
    (scratch : name ∉ Heap.cells) :
    after.cell image.word name = before.cell image.word name := by
  have below := installed.cells.below name member
  have bounds := sound.allocate_bounds wanted
  refine Memory.word_congr fun index lower upper => handed.kept index (fun other known => ?_)
    (by omega) fun block remains => ?_
  · have apart := installed.cells.apart name member other
      (List.mem_append_right _ known) fun same => scratch (same ▸ known)
    omega
  · have bounds := sound.bounds (sound.known block (Heap.Ledger.free_allocate wanted block remains))
    omega

/-- What has been done to the memory when the elements are clear. -/
theorem formed_of_cleared {before parked handed after : Memory} {start : Nat}
    (sound : Heap.Sound image.word before ledger) (counted : Names length count)
    (only : Cells.Only image.word [Cell.arrayLength, Cell.arrayDataSize] before parked)
    (handing : Heap.Handed image.word parked handed ledger (16 + bytes))
    (cleared : ClearBytes.Cleared image.word (inscribed handed
      (ledger.allocate (16 + bytes)).1.address status element.size length) after
      start bytes)
    (within : (ledger.allocate (16 + bytes)).1.address + 16 ≤ handed.size)
    (begins : 0 < bytes →
      start = (ledger.allocate (16 + bytes)).1.address + 16) :
    Formed image.word before after ledger (ledger.allocate (16 + bytes)).1 status
      element count bytes := by
  have bounds := sound.allocate_bounds (16 + bytes)
  have large := @Heap.Ledger.le_size_allocate ledger (16 + bytes)
  have clearCells : ∀ index, Address.index (image.word Cell.heap) ≤ index →
      Cells.Misses image.word ClearBytes.cells index := fun index above =>
    installed.clearing.cells.misses_of_floor_le (installed.start ▸ above)
  -- Clearing leaves the words before the elements alone, even when there are none.
  have before16 : ∀ index, Address.index (image.word Cell.heap) ≤ index →
      index < (ledger.allocate (16 + bytes)).1.address + 16 →
      after.byte index = (inscribed handed
        (ledger.allocate (16 + bytes)).1.address status element.size length).byte
          index := fun index above below =>
    cleared.kept index (by
      by_cases positive : 0 < bytes
      · exact .inl (begins positive ▸ below)
      · omega) (clearCells index above)
  constructor
  · rw [cleared.size, ← only.size, ← handing.size]
    simp only [inscribed, Memory.size_setWord]
  · exact (begins_inscribed within counted).congr fun index lower upper =>
      before16 index (by omega) upper
  · intro index lower upper
    have first := begins (by omega)
    exact cleared.clear index (by omega) (by omega)
  · exact large
  · rw [Memory.word_congr fun index lower upper =>
      (before16 index (by omega) (by omega)).trans (byte_inscribed (by omega))]
    exact handing.header
  · exact fun other member => sound.allocate_apart _ member
  · intro index misses outside unlinked
    have missesHeap : Cells.Misses image.word Heap.cells index :=
      fun name member => misses name (List.mem_append_right _ member)
    have missesClear : Cells.Misses image.word ClearBytes.cells index :=
      fun name member => misses name (List.mem_append_left _ (List.mem_append_right _ member))
    have missesParked : Cells.Misses image.word [Cell.arrayLength, Cell.arrayDataSize] index :=
      fun name member => misses name (List.mem_append_left _ (List.mem_append_left _ member))
    rw [cleared.kept index (by omega) missesClear, byte_inscribed (by omega),
      handing.kept index missesHeap (by omega) fun block remains =>
        unlinked block (Heap.Ledger.free_allocate _ block remains), only.kept index missesParked]

/-- The array is formed and its pointer left on the stack, or there is no room for it and the
run ends in a machine error. -/
theorem form_or_traps (sound : Heap.Sound image.word memory ledger)
    (counted : Names length count) (product : Names (length * element.size) bytes)
    (fits : 16 + bytes ≤ 2147483647)
    (holds : image.Holds (allocateEmptyArray status element.size) pc) :
    (¬ ledger.Room memory.size (16 + bytes) ∧
        Configuration.Traps image limit ⟨pc, .integer length :: stack, memory, output⟩) ∨
      ∃ after, Runs image limit ⟨pc, .integer length :: stack, memory, output⟩
          ⟨pc + (allocateEmptyArray status element.size).size,
            .integer (Int32.ofNat (ledger.allocate (16 + bytes)).1.address) :: stack,
            after, output⟩ ∧
        Formed image.word memory after ledger (ledger.allocate (16 + bytes)).1
          status element count bytes ∧
        (ledger.Room memory.size (16 + bytes) →
          Heap.Sound image.word after (ledger.allocate (16 + bytes)).2) := by
  have inside : Address.index (image.word Cell.heap) ≤ memory.size :=
    Nat.le_trans sound.tiled.start_le sound.inside
  rw [allocateEmptyArray_eq] at holds ⊢
  have holdsTest := ((Image.holds_cons rfl _ _).mp holds).2
  have holdsRest := ((Image.holds_cons rfl _ _).mp holdsTest).2
  obtain ⟨_, holdsCall⟩ := Image.holds_append.mp holdsRest
  obtain ⟨holdsInscribe, holdsRange⟩ :=
    Image.holds_append.mp ((Image.holds_cons rfl _ _).mp holdsCall).2
  -- The length is not negative.
  obtain ⟨handler, faultMarks⟩ := installed.fault
  have nonnegative : ¬ length < 0 := by
    rw [Int32.lt_iff_toInt_lt, counted, Int32.toInt_zero]
    omega
  obtain ⟨parked, prepares, only, parkedLength, parkedSize⟩ : ∃ after,
      Code.act image.word (prepare element.size) (.integer length :: stack) memory = some (_, after) ∧
      _ := act_prepare installed.cells inside length element.size
  have soundParked := sound_parked installed sound only
  have wanted : Names (length * element.size + arrayHeaderSize) (16 + bytes) :=
    product.add (by rw [show arrayHeaderSize.toInt = 16 from rfl]; omega) (by omega)
  have test : image.Holds ([.duplicate] ++ .jumpNeg Fault.negativeArrayLength.handler :: _) pc :=
    holds
  have passes : Runs image limit ⟨pc, .integer length :: stack, memory, output⟩
      ⟨pc + 1 + 1, .integer length :: stack, memory, output⟩ :=
    .passesOver installed.managed.addressable test rfl rfl faultMarks
      (by simp only [Instruction.test, nonnegative, decide_false])
  have fitsBelow := sound.fits
  have bounds := soundParked.allocate_bounds (16 + bytes)
  have large := @Heap.Ledger.le_size_allocate ledger (16 + bytes)
  rw [← only.size]
  obtain ⟨full, traps⟩ | ⟨handed, allocates, handing, soundHanded⟩ :=
    Heap.request_or_traps installed.managed holdsRest prepares soundParked wanted (by omega)
  · exact .inl ⟨full, .of_runs passes traps⟩
  have above : Address.index (image.word Cell.heap) ≤ handed.size := by
    rw [handing.size, only.size]
    exact inside
  have stillLength : handed.cell image.word Cell.arrayLength = length :=
    (cell_handed installed soundParked handing (by decide) (by decide)).trans parkedLength
  have stillSize : handed.cell image.word Cell.arrayDataSize = length * element.size :=
    (cell_handed installed soundParked handing (by decide) (by decide)).trans parkedSize
  have measured : Names (handed.cell image.word Cell.arrayDataSize) bytes := stillSize ▸ product
  obtain ⟨beyond, traps⟩ | ⟨start, after, begins, within, fills, cleared⟩ := fill_or_traps installed
    (Nat.le_trans (Nat.le_add_right ..) bounds.1) (Nat.le_trans (Nat.add_le_add_right bounds.2.2 16)
      (by omega)) above stillLength measured holdsInscribe holdsRange
  · refine .inl ⟨fun room => beyond ?_, .of_runs (passes.trans allocates) traps⟩
    have inside := (soundHanded room).inside
    have fits := (soundHanded room).fits
    omega
  have formed := formed_of_cleared installed sound counted only handing cleared within begins
  refine .inr ⟨after, ?_, formed, fun room => ?_⟩
  · have position : pc + Code.size (.duplicate :: .jumpNeg Fault.negativeArrayLength.handler ::
        (prepare element.size ++ .call Entry.allocate :: (inscribe status element.size ++
          (range ++ [.call Entry.clearBytes])))) =
        pc + 1 + 1 + (prepare element.size).size + 1 + (inscribe status element.size).size +
          range.size + 1 := by
      simp only [Code.size_append, Code.size_cons, Code.size_nil, Instruction.isDirective,
        Bool.false_eq_true, if_false]
      omega
    rw [position]
    exact (passes.trans allocates).trans fills
  · exact sound_filled installed (soundHanded room)
      ((soundParked.live_allocate _).mpr (.inl rfl)) large begins cleared

end

end Record

namespace Program

open Heap (Block)

variable {program : Program} {code : Code} {image : Image} {memory : Memory} {limit : Option Nat}
  {ledger : Heap.Ledger} {element : Ty} {status length : Int32} {stack : List Word}
  {output : ByteArray} {pc : Nat}

/-- The cells of a word each that the environment and the manager lay out. -/
def wordCells : List String :=
  [Cell.framePointer, Cell.stackPointer] ++
    ((Cell.scratch.filter fun cell => cell.2 == 4).map Prod.fst ++
      (ClearBytes.cells ++ (CopyBytes.cells ++ Heap.cells)))

theorem clearCells_known : ∀ name ∈ ClearBytes.cells, name ∈ wordCells := fun name member => by
  simp only [wordCells, List.mem_append, member, true_or, or_true]

theorem copyCells_known : ∀ name ∈ CopyBytes.cells, name ∈ wordCells := fun name member => by
  simp only [wordCells, List.mem_append, member, true_or, or_true]

theorem heapCells_known : ∀ name ∈ Heap.cells, name ∈ wordCells := fun name member => by
  simp only [wordCells, List.mem_append, member, or_true]

theorem recordCells_known : ∀ name ∈ Record.cells, name ∈ wordCells :=
  List.forall_mem_append.mpr
    ⟨List.forall_mem_append.mpr ⟨by decide, clearCells_known⟩, heapCells_known⟩

theorem copyCells_unmanaged : ∀ name ∈ CopyBytes.cells,
    name ∉ [Cell.freeList, Cell.bumpPointer] := by
  decide

theorem lays_wordCells (compiled : program.compile ⟨true⟩ = .ok code) :
    ∀ name ∈ wordCells, code.Lays name 4 := by
  obtain ⟨main, _, rfl⟩ := compile_eq_ok.mp compiled
  intro name member
  have clearing (listed : name ∈ ClearBytes.cells) : ClearBytes.code.Lays name 4 :=
    (Environment.lays_wordCells listed).join (List.mem_cons_self ..)
  have copying (listed : name ∈ CopyBytes.cells) : CopyBytes.code.Lays name 4 :=
    (Environment.lays_wordCells listed).join (List.mem_cons_self ..)
  have environment (lays : (Environment.code true).Lays name 4) :
      (Code.join [Heap.initialization, Environment.code true, main, Heap.manager]).Lays name 4 :=
    lays.join (by simp)
  simp only [wordCells, List.mem_append] at member
  obtain pointer | scratch | clears | copies | heap := member
  · exact environment (Environment.lays_pointers true pointer)
  · obtain ⟨⟨cell, size⟩, listed, rfl⟩ := List.mem_map.mp scratch
    obtain ⟨listed, four⟩ := List.mem_filter.mp listed
    obtain rfl : size = 4 := by simpa using four
    exact environment (Environment.lays_scratch 4 true listed)
  · exact environment ((clearing clears).join (by simp))
  · exact environment ((copying copies).join (by simp))
  · exact (Heap.lays_cells heap).join (by simp)

theorem word_cells (compiled : program.compile ⟨true⟩ = .ok code)
    (assembled : Image.assemble code = .ok image) (fits : image.dataSize ≤ 2147483647) :
    Cells image.word wordCells image.dataSize :=
  Image.cells_of_assemble assembled (lays_wordCells compiled) (Nat.le_refl _) (by omega)

/-- What the allocation of arrays calls is part of every program that has the manager. -/
theorem record_installed (compiled : program.compile ⟨true⟩ = .ok code)
    (assembled : Image.assemble code = .ok image) (addressable : image.Addressable)
    (fits : image.dataSize ≤ 2147483647) : Record.Installed image := by
  obtain ⟨before, parts⟩ := ends_in_manager compiled
  obtain ⟨managed, start⟩ := Heap.managed_of_assemble assembled parts addressable fits
  have cells := word_cells compiled assembled fits
  obtain ⟨body, composed⟩ := exists_composed compiled
  have prepared := composed.prepared assembled addressable fits
  obtain ⟨handler, fault, _⟩ := prepared.labelled_handler .negativeArrayLength
  exact
    { managed
      clearing := prepared.clearBytes_installed
      start
      cells := start.symm ▸ cells.mono recordCells_known
      fault := ⟨handler, fault⟩ }

/-- The allocation of an array of a length that is not negative forms the array or, without room
for it, ends in a machine error; a negative length is a fault before anything is allocated. The
elements may not take more bytes than a word can count: otherwise the array is as long as asked
for, and its block is not. -/
theorem array_formed_or_traps (compiled : program.compile ⟨true⟩ = .ok code)
    (assembled : Image.assemble code = .ok image) (addressable : image.Addressable)
    (fits : image.dataSize ≤ 2147483647) (sound : Heap.Sound image.word memory ledger)
    (holds : image.Holds (Record.allocateEmptyArray status element.size) pc) :
    (∀ count, Address.Names length count → 16 + count * element.width ≤ 2147483647 →
      (¬ ledger.Room memory.size (16 + count * element.width) ∧
          Configuration.Traps image limit ⟨pc, .integer length :: stack, memory, output⟩) ∨
        ∃ block later after, ledger.allocate (16 + count * element.width) = (block, later) ∧
          Runs image limit ⟨pc, .integer length :: stack, memory, output⟩
            ⟨pc + (Record.allocateEmptyArray status element.size).size,
              .integer (Int32.ofNat block.address) :: stack, after, output⟩ ∧
          Record.Formed image.word memory after ledger block status element count
            (count * element.width) ∧
          (ledger.Room memory.size (16 + count * element.width) →
            Heap.Sound image.word after later)) ∧
    (length < 0 → ∃ handler, image.Marks Fault.negativeArrayLength.handler handler ∧
      Configuration.Next image limit ⟨pc, .integer length :: stack, memory, output⟩
        ⟨pc + 1, .integer length :: .integer length :: stack, memory, output⟩ ∧
      Configuration.Next image limit
        ⟨pc + 1, .integer length :: .integer length :: stack, memory, output⟩
        ⟨handler, .integer length :: stack, memory, output⟩) := by
  have installed := record_installed compiled assembled addressable fits
  refine ⟨fun count counted small => ?_, fun negative => ?_⟩
  · obtain ⟨full, traps⟩ | ⟨after, runs, formed, soundAfter⟩ := Record.form_or_traps installed sound
      counted (counted.mul element.toInt_size (by omega)) small holds
    · exact .inl ⟨full, traps⟩
    · exact .inr ⟨_, _, after, rfl, runs, formed, soundAfter⟩
  · obtain ⟨handler, marks⟩ := installed.fault
    rw [Record.allocateEmptyArray_eq] at holds
    obtain ⟨duplicates, tests⟩ := (Image.holds_cons rfl _ _).mp holds
    refine ⟨handler, marks, Configuration.next_of_execute duplicates fun steps => rfl, ?_⟩
    have taken : (Instruction.jumpNeg Fault.negativeArrayLength.handler).test (.integer length) =
        some true := by simp only [Instruction.test, negative, decide_true]
    exact Configuration.next_branch addressable tests rfl marks taken

/-- Allocates an array of integers and puts it into a global variable. -/
def reserving (length : Int32) : Program where
  globalSize := 4
  body := [.declaration ⟨"numbers", .array .integer, .global 0, false⟩
    (.typed (.array .integer) (.operation (.snippet .arrayAllocate)
      [.typed .integer (.integer length)])) false]

theorem exists_reserving_image (length : Int32)
    (brief : (reserving length).isBrief = true) :
    ∃ code image pc, (reserving length).compile ⟨true⟩ = .ok code ∧
      Image.assemble code = .ok image ∧ image.Addressable ∧ image.dataSize ≤ 65536 ∧
      image.Holds (Record.allocateEmptyArray 0 Ty.integer.size) pc := by
  have plain : Plain (reserving length).operations := by
    simp [Plain, reserving, operations, blockOperations, Statement.operations, Expr.operations,
      Form.operations, exprsOperations]
  obtain ⟨code, image, body, _, pc, compiled, assembled, addressable, fits, made, holds⟩ :=
    exists_body_image brief plain (by simp [reserving])
  have body_eq : blockCode {} (reserving length).body 0 =
      .ok ([.pushD Cell.globalBlock, .pushI 0, .add, .pushI length] ++
        Record.allocateEmptyArray 0 Ty.integer.size ++ Ty.integer.storeCode, 0) := rfl
  cases body_eq.symm.trans made
  exact ⟨code, image, _, compiled, assembled, addressable, fits,
    (Image.holds_append.mp (Image.holds_append.mp holds).1).2⟩

/-- Before anything is allocated, the heap of a program is sound. -/
theorem exists_sound (compiled : program.compile ⟨true⟩ = .ok code)
    (assembled : Image.assemble code = .ok image) (addressable : image.Addressable)
    (small : image.dataSize ≤ 65536) :
    ∃ memory, memory.size = 131072 ∧
      Heap.Sound image.word memory (.initial image.dataSize) := by
  obtain ⟨before, parts⟩ := ends_in_manager compiled
  obtain ⟨managed, start⟩ := Heap.managed_of_assemble assembled parts addressable (by omega)
  have floor : Address.index (image.word Cell.heap) ≤ (Memory.zeros 131072).size := by
    rw [start]
    exact Nat.le_trans small (by decide)
  have heap : Address.Names (image.word Cell.heap) (Address.index (image.word Cell.heap)) := by
    rw [start, Heap.word_heap assembled parts]
    exact Address.names_ofNat (by omega)
  refine ⟨(Memory.zeros 131072).setCell image.word Cell.bumpPointer (image.word Cell.heap),
    Memory.size_setCell .., start ▸ Heap.sound_initial heap ?_ ?_ ?_⟩
  · rwa [Memory.size_setCell]
  · exact managed.cells.cell_setCell_other (by decide) (by decide) (by decide)
  · exact managed.cells.cell_setCell (by decide) floor

/-- Three integers take the first block of the heap. -/
theorem three_formed :
    ∃ code image pc memory after, (reserving 3).compile ⟨true⟩ = .ok code ∧
      Image.assemble code = .ok image ∧ image.Addressable ∧ image.dataSize ≤ 2147483647 ∧
      Heap.Sound image.word memory (.initial image.dataSize) ∧
      image.Holds (Record.allocateEmptyArray 0 Ty.integer.size) pc ∧
      Runs image none ⟨pc, [.integer 3], memory, .empty⟩
        ⟨pc + (Record.allocateEmptyArray 0 Ty.integer.size).size,
          [.integer (Int32.ofNat (image.dataSize + 4))], after, .empty⟩ ∧
      Record.Formed image.word memory after (.initial image.dataSize) ⟨image.dataSize + 4, 28⟩ 0
        .integer 3 12 := by
  obtain ⟨code, image, pc, compiled, assembled, addressable, small, holds⟩ :=
    exists_reserving_image 3 (by decide +kernel)
  obtain ⟨memory, size, sound⟩ := exists_sound compiled assembled addressable small
  obtain ⟨formed, _⟩ := @array_formed_or_traps _ code image memory none _ .integer 0 3 [] .empty pc
    compiled assembled addressable (by omega) sound holds
  have room : (Heap.Ledger.initial image.dataSize).Room memory.size 28 := fun _ => by
    simp only [Heap.Ledger.initial]
    omega
  have first : (Heap.Ledger.initial image.dataSize).allocate 28 =
      (⟨image.dataSize + 4, 28⟩, _) := rfl
  obtain ⟨full, _⟩ | ⟨_, _, after, allocated, runs, formed, _⟩ := formed 3 (by decide) (by decide)
  · exact absurd room full
  cases first.symm.trans allocated
  exact ⟨code, image, pc, memory, after, compiled, assembled, addressable, by omega, sound, holds,
    runs, formed⟩

/-- An array of a length whose bytes no word counts is as long as asked for, and its block has
room for the words before the elements alone. -/
theorem overlong_not_reserved :
    ∃ code image pc memory after, (reserving 1073741824).compile ⟨true⟩ = .ok code ∧
      Image.assemble code = .ok image ∧ image.Addressable ∧ image.dataSize ≤ 65536 ∧
      Heap.Sound image.word memory (.initial image.dataSize) ∧
      image.Holds (Record.allocateEmptyArray 0 Ty.integer.size) pc ∧
      Runs image none ⟨pc, [.integer 1073741824], memory, .empty⟩
        ⟨pc + (Record.allocateEmptyArray 0 Ty.integer.size).size,
          [.integer (Int32.ofNat (image.dataSize + 4))], after, .empty⟩ ∧
      Record.Begins after (image.dataSize + 4) 0 .integer 1073741824 ∧
      Address.Names (after.word image.dataSize) 16 ∧
      16 < 16 + 1073741824 * Ty.integer.width := by
  obtain ⟨code, image, pc, compiled, assembled, addressable, small, holds⟩ :=
    exists_reserving_image 1073741824 (by decide +kernel)
  obtain ⟨memory, size, sound⟩ := exists_sound compiled assembled addressable small
  have room : (Heap.Ledger.initial image.dataSize).Room memory.size 16 := fun _ => by
    simp only [Heap.Ledger.initial]
    omega
  have product : Address.Names (1073741824 * Ty.integer.size) 0 := by decide
  obtain ⟨full, _⟩ | ⟨after, runs, formed, _⟩ := @Record.form_or_traps image none memory _ []
    .empty 0 1073741824 .integer pc 1073741824 0
    (record_installed compiled assembled addressable (by omega)) sound (by decide) product
    (by decide) holds
  · exact absurd room full
  · exact ⟨code, image, pc, memory, after, compiled, assembled, addressable, small, sound, holds,
      runs, formed.begins, formed.header, by decide⟩

end Program

end StackBackend
