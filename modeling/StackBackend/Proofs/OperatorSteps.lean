import StackBackend.Proofs.Callbacks

namespace StackBackend

/-! The parts that operators are made of, in the course of a run: subroutines, allocations, the
words of the operators and counted loops. -/

/-! ## Subroutines

No subroutine calls a value, so each is the same routine in an image that halts there. -/

section

variable {image : Image}

theorem Heap.Managed.mute (managed : Managed image) : Managed image.mute where
  addressable := Image.addressable_mute managed.addressable
  cells := managed.cells
  routines :=
    { atAllocate := managed.routines.atAllocate.mute (by decide)
      atSearch := managed.routines.atSearch.mute (by decide)
      atUnlinkHead := managed.routines.atUnlinkHead.mute (by decide)
      atFound := managed.routines.atFound.mute (by decide)
      atNext := managed.routines.atNext.mute (by decide)
      atBump := managed.routines.atBump.mute (by decide)
      atExit := managed.routines.atExit.mute (by decide)
      atDeallocate := managed.routines.atDeallocate.mute (by decide) }

theorem CopyBytes.Installed.mute (installed : Installed image) : Installed image.mute where
  addressable := Image.addressable_mute installed.addressable
  cells := installed.cells
  atEntry := installed.atEntry.mute (by decide)
  atLoop := installed.atLoop.mute (by decide)
  atExit := installed.atExit.mute (by decide)

theorem Record.Installed.mute (installed : Installed image) : Installed image.mute where
  managed := installed.managed.mute
  clearing :=
    { addressable := Image.addressable_mute installed.clearing.addressable
      cells := installed.clearing.cells
      atEntry := installed.clearing.atEntry.mute (by decide)
      atLoop := installed.clearing.atLoop.mute (by decide)
      atExit := installed.clearing.atExit.mute (by decide) }
  start := installed.start
  cells := installed.cells
  fault :=
    let ⟨position, marks⟩ := installed.fault
    ⟨position, Image.marks_mute.mpr marks⟩

end

/-! ## Allocations -/

/-- Setting a cell keeps the other cells and everything beyond them. -/
theorem Cells.steady_setCell {word : String → Int32} {all names : List String} {floor : Nat}
    {memory : Memory} {name : String} (cells : Cells word all floor) (known : name ∈ all)
    (value : Int32) (others : ∀ other ∈ names, other ∈ all ∧ other ≠ name) :
    Steady word names (fun index => floor ≤ index) memory (memory.setCell word name value) where
  size := Memory.size_setCell ..
  cells other member := cells.cell_setCell_other known (others other member).1
    (others other member).2.symm
  bytes _ above := cells.byte_setCell known above

/-- Writing beyond the cells keeps them, and everything but the bytes that are written. -/
theorem Cells.steady_write {word : String → Int32} {names : List String} {floor : Nat}
    {memory : Memory} {index : Nat} {values : List UInt8} (cells : Cells word names floor)
    (above : floor ≤ index) : Steady word names
      (fun other => other < index ∨ index + values.length ≤ other) memory
      (memory.write index values) where
  size := Memory.size_write ..
  cells name member := by
    have below := cells.below name member
    exact Memory.word_write_of_apart (.inl (by omega))
  bytes other outside := Memory.byte_write_of_outside memory index other values outside

theorem Record.quiet_allocateEmptyArray (status elementSize : Int32) :
    (allocateEmptyArray status elementSize).Quiet := by
  have writes (offset : Int32) : (Code.writeWord offset).Quiet := by
    unfold Code.writeWord
    split <;> simp
  have adds (offset : Int32) : (Code.addOffset offset).Quiet := by
    unfold Code.addOffset
    split <;> simp
  simp [allocateEmptyArray, allocateRecord, Code.storeWord, Code.loadWord, writes, adds]

/-- The heap stays sound when nothing below its end and no cell of the manager changes. -/
theorem Heap.Sound.steady {word : String → Int32} {before after : Memory} {ledger : Ledger}
    (sound : Sound word before ledger)
    (steady : Steady word [Cell.freeList, Cell.bumpPointer]
      (fun index => Address.index (word Cell.heap) ≤ index ∧ index < ledger.bump) before after) :
    Sound word after ledger := by
  refine sound.congr steady.size steady.cells (fun block known => ?_) fun block free => ?_
  · have bounds := sound.tiled.bounds known
    exact steady.word_eq fun index lower upper => by omega
  · have bounds := sound.tiled.bounds (sound.known block free)
    exact steady.word_eq fun index lower upper => by omega

section

variable {image : Image} {limit : Option Nat} {start : Configuration} {calls : List Excursion}
  {before after memory : Memory} {ledger : Heap.Ledger} {status length : Int32} {element : Ty}
  {count bytes pc : Nat} {stack : List Word} {output : ByteArray} {names : List String}

/-- Forming an array keeps the blocks that are handed out, what lies beyond the heap, and all
cells but its own. -/
theorem Record.Formed.steady (installed : HigherOrder.Installed image)
    (sound : Heap.Sound image.word before ledger)
    (formed : Formed image.word before after ledger (ledger.allocate (16 + bytes)).1 status element
      count bytes)
    (known : ∀ name ∈ names, name ∈ HigherOrder.followed)
    (others : ∀ name ∈ names, name ∉ Record.cells) :
    Steady image.word names (fun index => (∃ block ∈ ledger.live, block.Covers index) ∨
      (ledger.allocate (16 + bytes)).2.bump ≤ index) before after := by
  have first := installed.record.start
  have handed := sound.allocate_bounds (16 + bytes)
  have higher := ledger.bump_le_allocate (16 + bytes)
  have misses {index : Nat} (above : image.dataSize ≤ index) :
      Cells.Misses image.word Record.cells index :=
    (installed.cells.mono Program.recordCells_known).misses_of_floor_le above
  refine ⟨formed.size, fun name member => ?_, fun index outside => ?_⟩
  · have laid := HigherOrder.followed_known name (known name member)
    have below := installed.cells.below name laid
    refine Memory.word_congr fun index lower upper => formed.kept index (fun other listed => ?_)
      (by omega) fun free member => ?_
    · have apart := installed.cells.apart name laid other
        (Program.recordCells_known other listed) fun same => others name member (same ▸ listed)
      omega
    · have bounds := sound.bounds (sound.known free member)
      omega
  · obtain ⟨block, live, covers⟩ | beyond := outside
    · obtain ⟨listed, notFree⟩ := Heap.Ledger.mem_live.mp live
      have bounds := sound.bounds listed
      have fresh := formed.fresh block live
      have within := id covers
      unfold Heap.Block.Covers at within
      refine formed.kept index (misses (by omega)) (by omega) fun free member => ?_
      exact sound.tiled.first_apart listed (sound.known free member)
        (fun same => notFree (same ▸ member)) covers
    · refine formed.kept index (misses (by omega)) (by omega) fun free member => ?_
      have bounds := sound.tiled.bounds (sound.known free member)
      omega

/-- A course goes on through the allocation of an array for which there is room. -/
theorem Course.allocates (installed : HigherOrder.Installed image)
    (reached : Course image limit calls start ⟨pc, .integer length :: stack, memory, output⟩)
    (holds : image.Holds (Record.allocateEmptyArray status element.size) pc)
    (sound : Heap.Sound image.word memory ledger) (counted : Address.Names length count)
    (room : (ledger.allocate (16 + count * element.width)).2.bump ≤ memory.size)
    (fits : (ledger.allocate (16 + count * element.width)).2.bump ≤ 2147483647) :
    ∃ after, Course image limit calls start
        ⟨pc + (Record.allocateEmptyArray status element.size).size,
          .integer (Int32.ofNat (ledger.allocate (16 + count * element.width)).1.address) :: stack,
          after, output⟩ ∧
      Record.Formed image.word memory after ledger
        (ledger.allocate (16 + count * element.width)).1 status element count
        (count * element.width) ∧
      Heap.Sound image.word after (ledger.allocate (16 + count * element.width)).2 := by
  have handed := sound.allocate_bounds (16 + count * element.width)
  have large := @Heap.Ledger.le_size_allocate ledger (16 + count * element.width)
  have enough : ledger.Room memory.size (16 + count * element.width) := fun none => by
    rw [Heap.Ledger.allocate_of_none none] at room fits
    exact ⟨room, fits⟩
  obtain ⟨full, _⟩ | ⟨after, runs, formed, soundAfter⟩ := Record.form_or_traps
    installed.record.mute sound counted (counted.mul element.toInt_size (by omega)) (by omega)
    (holds.mute (Record.quiet_allocateEmptyArray _ _))
  · exact absurd enough full
  · exact ⟨after, reached.further runs, formed, soundAfter enough⟩

end

/-! ## Counted loops

A loop of an operator goes through the indices below the length. What holds at the head of the
loop is a relation between the index, the excursions so far, the stack and the memory. -/

namespace HigherOrder

variable {image : Image} {memory : Memory} {stack : List Word} {index last : Nat}

/-- The length and the index are in their words. -/
structure Counts (image : Image) (memory : Memory) (index last : Nat) : Prop where
  inside : image.dataSize ≤ memory.size
  index : Address.Names (memory.cell image.word Cell.operatorIndex) index
  length : Address.Names (memory.cell image.word Cell.operatorLength) last

/-- Leaves how much of the length is missing at the index. -/
def difference : Code :=
  Code.loadWord Cell.operatorLength ++ (Code.loadWord Cell.operatorIndex ++ [.subtract])

theorem loopTest_eq (done : String) : loopTest done = difference ++ [.jumpFalse done] := by
  simp [loopTest, difference]

theorem loop_eq (labels : LabelGroup) (first : Int32) (body : Code) :
    loop labels first body = (.pushI first :: Code.storeWord Cell.operatorIndex) ++
      .label (labels.label "loop") :: (loopTest (labels.label "done") ++ (body ++
        (Code.increment Cell.operatorIndex ++
          [.jump (labels.label "loop"), .label (labels.label "done")]))) := by
  simp [loop]

theorem act_difference (installed : Installed image) (counts : Counts image memory index last) :
    Code.act image.word difference stack memory =
      some (.integer (memory.cell image.word Cell.operatorLength -
        memory.cell image.word Cell.operatorIndex) :: stack, memory) := by
  rw [difference, installed.words.act_loadCell (by simp [words]) counts.inside,
    installed.words.act_loadCell (by simp [words]) counts.inside, Code.act_subtract, Code.act_nil]

theorem Counts.missing (counts : Counts image memory index last) (below : index ≤ last) :
    Address.Names (memory.cell image.word Cell.operatorLength -
      memory.cell image.word Cell.operatorIndex) (last - index) := by
  have first := counts.index
  have second := counts.length
  have bound := Int32.toInt_lt (memory.cell image.word Cell.operatorLength)
  unfold Address.Names at *
  rw [Address.toInt_sub] <;> omega

end HigherOrder

namespace Course

open HigherOrder (Counts loopTest difference loopTest_eq loop_eq act_difference)

variable {image : Image} {limit : Option Nat} {start : Configuration} {calls : List Excursion}
  {pc index last : Nat} {stack : List Word} {memory : Memory} {output : ByteArray}
  {again done : String} {body : Code}
  (Inv : Nat → List Excursion → List Word → Memory → Prop)

/-- A course goes through a counted loop. -/
theorem counted (installed : HigherOrder.Installed image)
    (holds : image.Holds (.label again :: (loopTest done ++ (body ++
      (Code.increment Cell.operatorIndex ++ [.jump again, .label done])))) pc)
    (counts : ∀ {index calls stack memory}, Inv index calls stack memory →
      Counts image memory index last)
    (turns : ∀ {position index calls stack memory output}, image.Holds body position →
      index < last → Inv index calls stack memory →
      Course image limit calls start ⟨position, stack, memory, output⟩ →
      ∃ calls' stack' memory' output', Course image limit calls' start
          ⟨position + body.size, stack', memory', output'⟩ ∧
        image.dataSize ≤ memory'.size ∧
        Inv (index + 1) calls' stack' (memory'.setCell image.word Cell.operatorIndex
          (memory'.cell image.word Cell.operatorIndex + 1)))
    (inv : Inv index calls stack memory) (below : index ≤ last)
    (reached : Course image limit calls start ⟨pc, stack, memory, output⟩) :
    ∃ calls' stack' memory' output', Course image limit calls' start
        ⟨pc + (loopTest done).size + body.size + (Code.increment Cell.operatorIndex).size + 1,
          stack', memory', output'⟩ ∧
      Inv last calls' stack' memory' := by
  obtain ⟨againMarks, holdsTest⟩ := (Image.holds_label ..).mp holds
  obtain ⟨holdsTest, holdsBody⟩ := Image.holds_append.mp holdsTest
  obtain ⟨holdsBody, holdsNext⟩ := Image.holds_append.mp holdsBody
  obtain ⟨holdsNext, holdsJump⟩ := Image.holds_append.mp holdsNext
  obtain ⟨doneMarks, _⟩ := (Image.holds_label ..).mp ((Image.holds_cons rfl _ _).mp holdsJump).2
  have passed : pc + difference.size + 1 = pc + (loopTest done).size := by
    rw [loopTest_eq, Code.size_append_cons _ _ rfl]
    rfl
  rw [loopTest_eq] at holdsTest
  obtain ⟨holdsFront, holdsBranch⟩ := Image.holds_append.mp holdsTest
  -- The induction is on what is missing at the head of the loop.
  obtain ⟨remaining, missing⟩ := Nat.exists_eq_add_of_le below
  induction remaining generalizing index calls stack memory output with
  | zero =>
      obtain rfl : last = index := missing
      have spent := Address.eq_zero_of_names
        (by simpa using (counts inv).missing (Nat.le_refl last))
      have acts : Code.act image.word difference stack memory = _ :=
        act_difference installed (counts inv)
      rw [spent] at acts
      exact ⟨calls, stack, memory, output, (reached.straight holdsFront acts).branch
        installed.addressable holdsBranch rfl doneMarks rfl, inv⟩
  | succ remaining induction =>
      have acts : Code.act image.word difference stack memory = _ :=
        act_difference installed (counts inv)
      have left := Address.ne_zero_of_names ((counts inv).missing below) (by omega)
      have tests : (Instruction.jumpFalse done).test (.integer
          (memory.cell image.word Cell.operatorLength -
            memory.cell image.word Cell.operatorIndex)) = some false := by
        simp [Instruction.test, left]
      have entered := (reached.straight holdsFront acts).branch installed.addressable holdsBranch
        rfl doneMarks tests
      rw [if_neg Bool.false_ne_true, passed] at entered
      obtain ⟨calls', stack', memory', output', turned, inside, inv'⟩ :=
        turns holdsBody (by omega) inv entered
      have steps : Code.act image.word (Code.increment Cell.operatorIndex) stack' memory' =
          some (stack', memory'.setCell image.word Cell.operatorIndex
            (memory'.cell image.word Cell.operatorIndex + 1)) :=
        installed.words.act_lastIncrement (by simp [HigherOrder.words]) inside
      exact induction inv' (by omega)
        ((turned.straight holdsNext steps).jump installed.addressable holdsJump againMarks)
        (by omega)

/-- A course goes through the loop of an operator. -/
theorem loops (installed : HigherOrder.Installed image) {labels : LabelGroup} {first : Int32}
    (holds : image.Holds (HigherOrder.loop labels first body) pc)
    (inside : image.dataSize ≤ memory.size)
    (counts : ∀ {index calls stack memory}, Inv index calls stack memory →
      Counts image memory index last)
    (turns : ∀ {position index calls stack memory output}, image.Holds body position →
      index < last → Inv index calls stack memory →
      Course image limit calls start ⟨position, stack, memory, output⟩ →
      ∃ calls' stack' memory' output', Course image limit calls' start
          ⟨position + body.size, stack', memory', output'⟩ ∧
        image.dataSize ≤ memory'.size ∧
        Inv (index + 1) calls' stack' (memory'.setCell image.word Cell.operatorIndex
          (memory'.cell image.word Cell.operatorIndex + 1)))
    (inv : Inv index calls stack (memory.setCell image.word Cell.operatorIndex first))
    (below : index ≤ last)
    (reached : Course image limit calls start ⟨pc, stack, memory, output⟩) :
    ∃ calls' stack' memory' output', Course image limit calls' start
        ⟨pc + (HigherOrder.loop labels first body).size, stack', memory', output'⟩ ∧
      Inv last calls' stack' memory' := by
  rw [loop_eq] at holds ⊢
  obtain ⟨holdsFirst, holdsLoop⟩ := Image.holds_append.mp holds
  have sets : Code.act image.word (.pushI first :: Code.storeWord Cell.operatorIndex) stack
      memory = some (stack, memory.setCell image.word Cell.operatorIndex first) := by
    rw [Code.act_pushI, installed.words.act_lastStore (by simp [HigherOrder.words]) inside]
  obtain ⟨calls', stack', memory', output', looped, inv'⟩ :=
    counted Inv installed holdsLoop counts turns inv below (reached.straight holdsFirst sets)
  refine ⟨calls', stack', memory', output', ?_, inv'⟩
  simpa only [Code.size_append, Code.size_cons, Code.size_nil, Instruction.isDirective,
    Bool.false_eq_true, if_false, if_true, Nat.add_assoc, Nat.zero_add] using looped

end Course

/-! ## Elements -/

/-- The bytes of an element of the array at an address. -/
def Record.item (memory : Memory) (address : Nat) (element : Ty) (index : Nat) : List UInt8 :=
  memory.read (address + 16 + index * element.width) element.width

theorem Record.length_item (memory : Memory) (address : Nat) (element : Ty) (index : Nat) :
    (item memory address element index).length = element.width :=
  Memory.length_read ..

/-- The elements of an array lie behind each other. -/
theorem Record.item_le (element : Ty) {index count : Nat} (below : index < count) :
    index * element.width + element.width ≤ count * element.width := by
  rw [← Nat.succ_mul]
  exact Nat.mul_le_mul_right _ below

/-- The address of an element is computed from those of the array and its index. -/
theorem Record.exists_elementAddress (word : String → Int32) {header base index : Int32}
    {offset address position : Nat} (element : Ty) (headed : Address.Names header offset)
    (names : Address.Names base address) (counted : Address.Names index position)
    (fits : address + offset + position * element.width < 2147483648) :
    ∃ slot, Address.Names slot (address + offset + position * element.width) ∧
      ∀ memory stack rest,
        Code.act word (elementAddress header element.size ++ rest)
            (.integer index :: .integer base :: stack) memory =
          Code.act word rest (.integer slot :: stack) memory := by
  have product : Address.Names (index * element.size) (position * element.width) :=
    counted.mul element.toInt_size (by omega)
  have sum : Address.Names (base + index * element.size) (address + position * element.width) := by
    refine names.add ?_ (by omega)
    rw [product]
    exact (Int.natCast_add ..).symm
  refine ⟨base + index * element.size + header, ?_, fun memory stack rest => ?_⟩
  · unfold Address.Names at headed
    exact sum.add (by omega) (by omega)
  · unfold elementAddress
    split
    · rename_i single
      rw [single, Int32.mul_one, List.nil_append, List.append_assoc, List.cons_append,
        List.nil_append, Code.act_add, Code.act_addOffset]
    · rw [List.append_assoc, List.append_assoc, List.cons_append, List.cons_append,
        List.nil_append, List.cons_append, List.nil_append, Code.act_pushI, Code.act_multiply,
        Code.act_add, Code.act_addOffset]

/-- The first element of an array is right behind its header. -/
theorem Record.names_arrayHeaderSize : Address.Names arrayHeaderSize 16 := rfl

namespace HigherOrder

variable {image : Image} {floor top index last count : Nat} {memory : Memory} {element : Ty}
  {cell : String} {block : Heap.Block} {code : Code} {stack : List Word}

/-- An array is parked in a word of the operators. -/
structure Parks (image : Image) (floor : Nat) (memory : Memory) (cell : String)
    (block : Heap.Block) (element : Ty) (count : Nat) : Prop where
  known : cell ∈ words
  names : Address.Names (memory.cell image.word cell) block.address
  above : image.dataSize ≤ block.address
  below : block.address + block.size ≤ floor
  room : 16 + count * element.width ≤ block.size

/-- Passing values changes nothing in an array. -/
theorem item_of_calm (installed : Installed image) {after : Memory}
    (parks : Parks image floor memory cell block element count)
    (calm : Frame.Calm image.word floor top memory after) (below : index < count) :
    Record.item after block.address element index =
      Record.item memory block.address element index := by
  have within := Record.item_le element below
  have above := parks.above
  have inside := parks.below
  have room := parks.room
  exact Memory.read_congr fun other lower upper => calm.kept other
    ((installed.frames (Nat.le_refl _)).misses_of_floor_le (by omega)) (.inl (by omega))

/-- The current element of an array is fetched whatever passing values has done. -/
theorem fetches_currentElement (installed : Installed image)
    (generated : currentElement cell element = .ok code)
    (parks : Parks image floor memory cell block element count)
    (counts : Counts image memory index last) (below : index < count)
    (inside : floor ≤ memory.size) (fits : floor ≤ 2147483647) :
    Frame.Fetches image.word floor top memory code element
      (Record.item memory block.address element index) := by
  obtain ⟨isValue, rfl⟩ := currentElement_eq_ok.mp generated
  refine ⟨Record.length_item .., fun after calm stack rest => ?_⟩
  have size := calm.size
  have above := parks.above
  have low := parks.below
  have room := parks.room
  have within := Record.item_le element below
  have indexed : Cell.operatorIndex ∈ words := by simp [words]
  obtain ⟨slot, named, computes⟩ := Record.exists_elementAddress image.word element
    Record.names_arrayHeaderSize parks.names counts.index (by omega)
  simp only [Code.join_cons, Code.join_nil, List.append_assoc, List.append_nil]
  rw [installed.words.act_loadCell parks.known (by omega),
    installed.words.act_loadCell indexed (by omega),
    installed.cell_of_calm calm (by omega) parks.known,
    installed.cell_of_calm calm (by omega) indexed, computes,
    Ty.act_loadCode isValue named (by omega) (by omega)]
  exact congrArg (fun bytes => Code.act image.word rest (element.words bytes ++ stack) after)
    (item_of_calm installed parks calm below)

/-- The address of the current element of the result. -/
theorem exists_resultSlot (installed : Installed image)
    (parks : Parks image floor memory Cell.operatorResult block element count)
    (counts : Counts image memory index last) (below : index < count)
    (inside : floor ≤ memory.size) (fits : floor ≤ 2147483647) :
    ∃ slot, Address.Names slot (block.address + 16 + index * element.width) ∧
      ∀ stack rest, Code.act image.word (resultSlot element.size ++ rest) stack memory =
        Code.act image.word rest (.integer slot :: stack) memory := by
  have above := parks.above
  have low := parks.below
  have room := parks.room
  have within := Record.item_le element below
  obtain ⟨slot, named, computes⟩ := Record.exists_elementAddress image.word element
    Record.names_arrayHeaderSize parks.names counts.index (by omega)
  refine ⟨slot, named, fun stack rest => ?_⟩
  rw [resultSlot, List.append_assoc, List.append_assoc,
    installed.words.act_loadCell parks.known (by omega),
    installed.words.act_loadCell (by simp [words]) (by omega), computes]

/-! ## What the steps keep -/

/-- Setting a cell keeps the other cells and everything beyond the data. -/
theorem Installed.steady_setCell (installed : Installed image) {name : String}
    (known : name ∈ followed) (value : Int32) {names : List String}
    (others : ∀ other ∈ names, other ∈ followed ∧ other ≠ name) :
    Steady image.word names (fun index => image.dataSize ≤ index) memory
      (memory.setCell image.word name value) :=
  (installed.cells.mono followed_known).steady_setCell known value others

/-- Storing a value beyond the data keeps all cells but those that a store goes through. -/
theorem Installed.steady_stored (installed : Installed image) {after : Memory} {bytes : List UInt8}
    (stored : Ty.Stored image.word element index bytes memory after)
    (above : image.dataSize ≤ index) {names : List String}
    (others : ∀ name ∈ names, name ∈ followed ∧ name ∉ Ty.storeCells) :
    Steady image.word names (fun other => image.dataSize ≤ other ∧
      (other < index ∨ index + element.width ≤ other)) memory after where
  size := stored.size
  cells name member := by
    have listed := followed_known name (others name member).1
    have below := installed.cells.below name listed
    refine Memory.word_congr fun other lower upper => stored.kept other (.inl (by omega)) ?_
    intro cell stores
    have apart := installed.cells.apart name listed cell (storeCells_known cell stores)
      fun same => (others name member).2 (same ▸ stores)
    omega
  bytes other outside := stored.kept other outside.2
    ((installed.cells.mono storeCells_known).misses_of_floor_le outside.1)

end HigherOrder

/-- The pointers stand as long as their cells stay. -/
theorem Frame.Stands.of_steady {word : String → Int32} {floor top : Nat} {framePointer : Int32}
    {before after : Memory} {kept : Nat → Prop}
    (stands : Stands word floor before top framePointer)
    (steady : Steady word [Cell.stackPointer, Cell.framePointer] kept before after) :
    Stands word floor after top framePointer where
  stack := by
    rw [show stackWord word after = stackWord word before from steady.cells _ (by simp)]
    exact stands.stack
  frame := (steady.cells _ (by simp)).trans stands.frame
  above := stands.above
  inside := steady.size.symm ▸ stands.inside

end StackBackend
