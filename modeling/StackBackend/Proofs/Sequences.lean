import StackBackend.Operator.Text
import StackBackend.Proofs.ForLoops
import StackBackend.Proofs.Operands
import StackBackend.Proofs.Reserving

namespace StackBackend

/-! Arrays and strings alike: a record at rest whose length is where its layout says, and the test
whether a number is a position of it. -/

namespace SequenceLayout

/-- The numbers of the layout are those that the code uses, and the length is in the header. -/
structure Proper (layout : SequenceLayout) : Prop where
  header : Address.Names layout.headerSize layout.header
  length : Address.Names layout.lengthOffset layout.lengthAt
  within : layout.lengthAt + 4 ≤ layout.header
  element : ∃ type : Ty, layout.elementSize = type.size

theorem proper_of_found {layout : SequenceLayout} {type : Ty}
    (found : type.sequenceLayout = .ok layout) : layout.Proper := by
  cases type with
  | string =>
      cases found
      exact ⟨rfl, rfl, Nat.le_of_ble_eq_true rfl, .character, rfl⟩
  | array element =>
      cases found
      exact ⟨rfl, rfl, Nat.le_of_ble_eq_true rfl, element, rfl⟩
  | _ => cases found

/-- The bytes of an element. -/
def item (layout : SequenceLayout) (memory : Memory) (base index : Nat) : List UInt8 :=
  memory.read (base + layout.header + index * layout.elementWidth) layout.elementWidth

/-- The elements of a record in their order. -/
def items (layout : SequenceLayout) (memory : Memory) (base count : Nat) : List (List UInt8) :=
  (List.range count).map (layout.item memory base)

/-- The elements lie behind each other. -/
theorem flatten_items (layout : SequenceLayout) (memory : Memory) (base count : Nat) :
    (layout.items memory base count).flatten =
      memory.read (base + layout.header) (count * layout.elementWidth) := by
  induction count with
  | zero =>
      rw [Nat.zero_mul]
      rfl
  | succ count induction =>
      have last : layout.items memory base (count + 1) =
          layout.items memory base count ++ [layout.item memory base count] := by
        simp [items, List.range_succ]
      rw [last, List.flatten_append, induction, List.flatten_singleton, Nat.succ_mul,
        Memory.read_append]
      rfl

/-- The pointer is to a record at rest with so many elements. -/
structure Stores (layout : SequenceLayout) (image : Image) (ledger : Heap.Ledger) (memory : Memory)
    (pointer : Int32) (base count : Nat) : Prop where
  names : Address.Names pointer base
  length : Address.Names (memory.word (base + layout.lengthAt)) count
  rests : Record.Rests image ledger base (layout.header + count * layout.elementWidth)

namespace Stores

variable {layout : SequenceLayout} {image : Image} {ledger : Heap.Ledger} {memory after : Memory}
  {pointer : Int32} {base count index : Nat}

theorem ne_zero (stores : layout.Stores image ledger memory pointer base count) : pointer ≠ 0 :=
  Heap.names_ne_zero stores.names stores.rests.positive

theorem congr (stores : layout.Stores image ledger memory pointer base count)
    (proper : layout.Proper)
    (same : ∀ index, base ≤ index → index < base + layout.header →
      after.byte index = memory.byte index) :
    layout.Stores image ledger after pointer base count := by
  have within := proper.within
  refine { stores with length := ?_ }
  rw [Memory.word_congr fun index lower upper => same index (by omega) (by omega)]
  exact stores.length

theorem item_le (layout : SequenceLayout) (below : index < count) :
    index * layout.elementWidth + layout.elementWidth ≤ count * layout.elementWidth := by
  rw [← Nat.succ_mul]
  exact Nat.mul_le_mul_right _ below

variable (stores : layout.Stores image ledger memory pointer base count)
  (installed : HigherOrder.Installed image) (sound : Heap.Sound image.word memory ledger)
include stores installed sound

theorem bounds : base + layout.header + count * layout.elementWidth ≤ memory.size ∧
    base + layout.header + count * layout.elementWidth ≤ 2147483647 := by
  have bounds := stores.rests.bounds installed sound
  omega

/-- Cells are not in the record. -/
theorem byte_only {names : List String} (only : Cells.Only image.word names memory after)
    (known : ∀ name ∈ names, name ∈ Program.wordCells) (lower : base ≤ index)
    (upper : index < base + layout.header + count * layout.elementWidth) :
    after.byte index = memory.byte index := by
  have misses := stores.rests.misses installed sound lower (by omega)
  exact only.kept index fun name member => misses name (known name member)

theorem only {names : List String} (proper : layout.Proper)
    (only : Cells.Only image.word names memory after)
    (known : ∀ name ∈ names, name ∈ Program.wordCells) :
    layout.Stores image ledger after pointer base count :=
  stores.congr proper fun index lower upper =>
    stores.byte_only installed sound only known lower (by omega)

/-- Reserving a block changes no record. -/
theorem reserved {names : List String} {wanted : Nat} (proper : layout.Proper)
    (reserved : Heap.Reserved image names ledger wanted memory after)
    (known : ∀ name ∈ names, name ∈ Program.wordCells) :
    layout.Stores image (ledger.allocate wanted).2 after pointer base count :=
  { stores.congr proper fun index lower upper => reserved.byte_rests installed sound known
      stores.rests lower (by omega) with
    rests := stores.rests.allocate sound wanted }

/-- The length of the record that a cell points to is read. -/
theorem act_length {cell : String} (proper : layout.Proper) (member : cell ∈ Program.wordCells)
    (parked : memory.cell image.word cell = pointer) (stack : List Word) (rest : Code) :
    Code.act image.word (Code.loadWord cell ++ (Code.readWord layout.lengthOffset ++ rest)) stack
        memory =
      Code.act image.word rest (.integer (memory.word (base + layout.lengthAt)) :: stack)
        memory := by
  have start := installed.record.start
  have within := proper.within
  have bounds := stores.bounds installed sound
  have first := sound.tiled.start_le
  have inside := sound.inside
  have offset : layout.lengthOffset.toInt = layout.lengthAt := proper.length
  have named : Address.Names (pointer + layout.lengthOffset) (base + layout.lengthAt) :=
    stores.names.add (by omega) (by omega)
  rw [installed.cells.act_loadCell member (by omega), parked, Code.act_readWord named (by omega)]

/-- The address of an element is computed. -/
theorem exists_elementAddress (proper : layout.Proper) {position : Int32}
    (named : Address.Names position index) (below : index < count) :
    ∃ slot, Address.Names slot (base + layout.header + index * layout.elementWidth) ∧
      ∀ memory stack rest,
        Code.act image.word
            (Record.elementAddress layout.headerSize layout.elementSize ++ rest)
            (.integer position :: .integer pointer :: stack) memory =
          Code.act image.word rest (.integer slot :: stack) memory := by
  rcases proper.element with ⟨element, size⟩
  have width : layout.elementWidth = element.width := by
    rw [elementWidth, size, Ty.width]
  have bounds := stores.bounds installed sound
  have within := Record.item_le element below
  have header := proper.header
  rw [width] at bounds ⊢
  rcases Record.exists_elementAddress image.word element header stores.names named
    (by omega) with ⟨slot, slotted, computes⟩
  rw [size]
  exact ⟨slot, slotted, computes⟩

end Stores

/-- Where the parts of an array are. -/
def ofArray (element : Ty) : SequenceLayout :=
  ⟨Record.arrayHeaderSize, Record.arrayLengthOffset, element.size⟩

theorem proper_ofArray (element : Ty) : (ofArray element).Proper :=
  have found : (Ty.array element).sequenceLayout = .ok (ofArray element) := rfl
  proper_of_found found

/-- An array in a block that has been handed out is at rest. -/
theorem Stores.of_isArray {image : Image} {ledger : Heap.Ledger} {memory : Memory}
    {pointer : Int32} {block : Heap.Block} {element : Ty} {count : Nat}
    (installed : HigherOrder.Installed image) (sound : Heap.Sound image.word memory ledger)
    (array : Record.IsArray memory ledger pointer block element count) :
    (ofArray element).Stores image ledger memory pointer block.address count := by
  have start := installed.record.start
  have bounds := sound.bounds (Heap.Ledger.mem_live.mp array.live).1
  exact ⟨array.names, array.length, ⟨by omega, .inl ⟨block, array.live, rfl, array.room⟩⟩⟩

end SequenceLayout

/-! ## Tests of positions -/

namespace Sequence

open Code

/-- Faults unless the number in the cell is a position of the record whose length is read. -/
def boundsTest (cell : String) (length : Code) (passed : String) : Code :=
  loadWord cell ++ .jumpNeg Fault.indexOutOfBounds.handler ::
    ((loadWord cell ++ (length ++ [.subtract])) ++
      [.jumpNeg passed, .jump Fault.indexOutOfBounds.handler, .label passed])

/-- A difference of numbers that are not negative does not wrap around. -/
theorem sub_neg_iff {position length : Int32} {count : Nat} (nonnegative : 0 ≤ position.toInt)
    (counted : Address.Names length count) : position - length < 0 ↔ position.toInt < count := by
  have upper := Int32.toInt_lt position
  have bound := Int32.toInt_lt length
  unfold Address.Names at counted
  rw [Int32.lt_iff_toInt_lt, Int32.toInt_sub, Int32.toInt_zero,
    Int.bmod_eq_of_le (by omega) (by omega)]
  omega

theorem jumpNeg_test (name : String) (value : Int32) :
    (Instruction.jumpNeg name).test (.integer value) = some (decide (value < 0)) := rfl

/-- The test is passed for positions, and a fault for all other numbers. -/
theorem boundsTest_runs (limit : Option Nat) (stack : List Word) (output : ByteArray)
    {image : Image} {memory : Memory} {cell passed : String} {lengthCode rest : Code}
    {length : Int32} {count pc : Nat} (installed : HigherOrder.Installed image)
    (member : cell ∈ Program.wordCells) (inside : image.dataSize ≤ memory.size)
    (holds : image.Holds (boundsTest cell lengthCode passed ++ rest) pc)
    (reads : ∀ stack rest, Code.act image.word (lengthCode ++ rest) stack memory =
      Code.act image.word rest (.integer length :: stack) memory)
    (counted : Address.Names length count) :
    (0 ≤ (memory.cell image.word cell).toInt ∧ (memory.cell image.word cell).toInt < count →
        Runs image limit ⟨pc, stack, memory, output⟩
          ⟨pc + (boundsTest cell lengthCode passed).size, stack, memory, output⟩) ∧
      (¬ (0 ≤ (memory.cell image.word cell).toInt ∧ (memory.cell image.word cell).toInt < count) →
        ∃ handler, image.Marks Fault.indexOutOfBounds.handler handler ∧
          Runs image limit ⟨pc, stack, memory, output⟩ ⟨handler, stack, memory, output⟩) := by
  rcases installed.faults .indexOutOfBounds with ⟨handler, fault⟩
  have addressable := installed.addressable
  have loads : Code.act image.word (loadWord cell) stack memory =
      some (.integer (memory.cell image.word cell) :: stack, memory) :=
    installed.cells.act_lastLoad member inside
  have compares : Code.act image.word (loadWord cell ++ (lengthCode ++ [.subtract])) stack memory =
      some (.integer (memory.cell image.word cell - length) :: stack, memory) := by
    rw [installed.cells.act_loadCell member inside, reads, Code.act_subtract, Code.act_nil]
  rw [boundsTest, List.append_assoc, List.cons_append, List.append_assoc] at holds
  have sign := jumpNeg_test Fault.indexOutOfBounds.handler (memory.cell image.word cell)
  by_cases negative : memory.cell image.word cell < 0
  · have below := Int32.lt_iff_toInt_lt.mp negative
    rw [Int32.toInt_zero] at below
    rw [decide_eq_true negative] at sign
    refine ⟨fun range => by omega, fun _ => ⟨handler, fault, ?_⟩⟩
    exact .branches addressable holds loads rfl fault sign
  · have nonnegative : 0 ≤ (memory.cell image.word cell).toInt := by
      rw [Int32.lt_iff_toInt_lt, Int32.toInt_zero] at negative
      omega
    rw [decide_eq_false negative] at sign
    have first : Runs image limit ⟨pc, stack, memory, output⟩
        ⟨pc + (loadWord cell).size + 1, stack, memory, output⟩ :=
      .passesOver addressable holds loads rfl fault sign
    have holdsSecond := ((Image.holds_cons rfl _ _).mp (Image.holds_append.mp holds).2).2
    have holdsJump := ((Image.holds_cons rfl _ _).mp (Image.holds_append.mp holdsSecond).2).2
    have holdsLabel := ((Image.holds_cons rfl _ _).mp holdsJump).2
    have marks := ((Image.holds_label ..).mp holdsLabel).1
    have difference := jumpNeg_test passed (memory.cell image.word cell - length)
    rw [decide_eq_decide.mpr (sub_neg_iff nonnegative counted)] at difference
    constructor
    · rintro ⟨_, within⟩
      rw [decide_eq_true within] at difference
      have size : pc + (boundsTest cell lengthCode passed).size =
          pc + (loadWord cell).size + 1 +
            Code.size (loadWord cell ++ (lengthCode ++ [.subtract])) + 1 + 1 := by
        simp only [boundsTest, Code.size_append, Code.size_cons, Code.size_nil,
          Instruction.isDirective, Bool.false_eq_true, if_false, if_true]
        omega
      rw [size]
      exact first.trans (.branches addressable holdsSecond compares rfl marks difference)
    · intro outside
      have beyond : ¬ (memory.cell image.word cell).toInt < count := fun within =>
        outside ⟨nonnegative, within⟩
      rw [decide_eq_false beyond] at difference
      refine ⟨handler, fault, first.trans (Runs.trans
        (.passesOver addressable holdsSecond compares rfl marks difference)
        (.jump addressable holdsJump fault))⟩

/-- A pointer that is null is a fault, and another one is parked. -/
theorem parks_or_faults (limit : Option Nat) (stack : List Word) (output : ByteArray)
    (pointer : Int32) {image : Image} {memory : Memory} {cell : String} {rest : Code} {pc : Nat}
    (installed : HigherOrder.Installed image) (member : cell ∈ Program.wordCells)
    (inside : image.dataSize ≤ memory.size)
    (holds : image.Holds (Record.nullCheck ++ (storeWord cell ++ rest)) pc) :
    (pointer = 0 → ∃ handler, image.Marks Fault.nullArray.handler handler ∧
      Runs image limit ⟨pc, .integer pointer :: stack, memory, output⟩
        ⟨handler, .integer 0 :: stack, memory, output⟩) ∧
    (pointer ≠ 0 → image.Holds rest (pc + Record.nullCheck.size + (storeWord cell).size) ∧
      Runs image limit ⟨pc, .integer pointer :: stack, memory, output⟩
        ⟨pc + Record.nullCheck.size + (storeWord cell).size, stack,
          memory.setCell image.word cell pointer, output⟩) := by
  rcases installed.faults .nullArray with ⟨handler, fault⟩
  rcases Image.holds_append.mp holds with ⟨holdsTest, holdsStore⟩
  rcases Image.holds_append.mp holdsStore with ⟨holdsStore, holdsRest⟩
  have parts : Record.nullCheck = [.duplicate] ++ [.jumpFalse Fault.nullArray.handler] := rfl
  rw [parts] at holdsTest
  constructor
  · rintro rfl
    exact ⟨handler, fault,
      .branches installed.addressable holdsTest (act_duplicate ..) rfl fault rfl⟩
  · intro present
    have test : (Instruction.jumpFalse Fault.nullArray.handler).test (.integer pointer) =
        some false := by
      simp [Instruction.test, present]
    have stores : Code.act image.word (storeWord cell) (.integer pointer :: stack) memory =
        some (stack, memory.setCell image.word cell pointer) :=
      installed.cells.act_lastStore member inside
    refine ⟨holdsRest, Runs.trans ?_ (.straight holdsStore stores)⟩
    exact .passesOver installed.addressable holdsTest (act_duplicate ..) rfl fault test

/-! ## Indexing -/

/-- The cells that indexing works in. -/
def indexCells : List String :=
  [Cell.indexedIndex, Cell.indexedArray]

/-- What indexing does with the operands that it has parked. -/
def indexed (layout : SequenceLayout) (passed : String) : Code :=
  boundsTest Cell.indexedIndex (loadWord Cell.indexedArray ++ readWord layout.lengthOffset)
    passed ++ (loadWord Cell.indexedArray ++ (loadWord Cell.indexedIndex ++
      Record.elementAddress layout.headerSize layout.elementSize))

/-- What indexing comes to when its operands have been evaluated: a fault for a null sequence, the
address of an element that lies in the record, or a fault for a number that is no position. -/
structure Indexes (image : Image) (limit : Option Nat) (layout : SequenceLayout) (code : Code)
    (pointer position : Int32) (start evaluated : Configuration) : Prop where
  null : pointer = 0 → ∃ handler after, image.Marks Fault.nullArray.handler handler ∧
    Runs image limit start ⟨handler, .integer 0 :: start.stack, after, evaluated.output⟩ ∧
    Cells.Only image.word indexCells evaluated.memory after
  element : ∀ ledger base count index, Heap.Sound image.word evaluated.memory ledger →
    layout.Stores image ledger evaluated.memory pointer base count → index < count →
    Address.Names position index →
      ∃ slot after, Runs image limit start
          ⟨start.pc + code.size, .integer slot :: start.stack, after, evaluated.output⟩ ∧
        Address.Names slot (base + layout.header + index * layout.elementWidth) ∧
        index * layout.elementWidth + layout.elementWidth ≤ count * layout.elementWidth ∧
        base + layout.header + count * layout.elementWidth ≤ after.size ∧
        Cells.Only image.word indexCells evaluated.memory after
  outside : ∀ ledger base count, Heap.Sound image.word evaluated.memory ledger →
    layout.Stores image ledger evaluated.memory pointer base count →
    ¬ (0 ≤ position.toInt ∧ position.toInt < count) →
      ∃ handler after, image.Marks Fault.indexOutOfBounds.handler handler ∧
        Runs image limit start ⟨handler, start.stack, after, evaluated.output⟩ ∧
        Cells.Only image.word indexCells evaluated.memory after

theorem index_parts {sequence index code : Code} {type : Ty} {last next : Nat}
    (generated : Sequence.index sequence index type last = .ok (code, next)) :
    ∃ layout, type.sequenceLayout = .ok layout ∧
      code = sequence ++ (index ++ (storeWord Cell.indexedIndex ++ (Record.nullCheck ++
        (storeWord Cell.indexedArray ++
          indexed layout (LabelGroup.label ⟨"index", last + 1⟩ "in-bounds"))))) := by
  simp only [Sequence.index, Generation.bind_eq_ok, Generation.pure_eq_ok, Generation.lift_eq_ok,
    Generation.freshLabels_eq_ok] at generated
  rcases generated with ⟨layout, _, ⟨found, rfl⟩, labels, _, ⟨rfl, rfl⟩, rfl, rfl⟩
  refine ⟨layout, found, ?_⟩
  simp [indexed, boundsTest]

section

variable {image : Image} {limit : Option Nat} {ledger : Heap.Ledger} {memory parked : Memory}
  {layout : SequenceLayout} {pointer : Int32} {base count pc : Nat} {stack : List Word}
  {output : ByteArray} {passed : String}

/-- The operands have been parked: positions lead to addresses of elements, and all other numbers
are a fault. -/
theorem indexed_runs (limit : Option Nat) (stack : List Word) (output : ByteArray)
    (installed : HigherOrder.Installed image) (sound : Heap.Sound image.word memory ledger)
    (proper : layout.Proper) (stores : layout.Stores image ledger memory pointer base count)
    (only : Cells.Only image.word indexCells memory parked)
    (array : parked.cell image.word Cell.indexedArray = pointer)
    (holds : image.Holds (indexed layout passed) pc) :
    (∀ index < count, Address.Names (parked.cell image.word Cell.indexedIndex) index →
        ∃ slot, Address.Names slot (base + layout.header + index * layout.elementWidth) ∧
          Runs image limit ⟨pc, stack, parked, output⟩
            ⟨pc + (indexed layout passed).size, .integer slot :: stack, parked, output⟩) ∧
      (¬ (0 ≤ (parked.cell image.word Cell.indexedIndex).toInt ∧
          (parked.cell image.word Cell.indexedIndex).toInt < count) →
        ∃ handler, image.Marks Fault.indexOutOfBounds.handler handler ∧
          Runs image limit ⟨pc, stack, parked, output⟩ ⟨handler, stack, parked, output⟩) := by
  have start := installed.record.start
  have known : ∀ name ∈ indexCells, name ∈ Program.wordCells := by decide
  have soundParked := sound.only installed only (by decide)
  have still := stores.only installed sound proper only known
  have inside : image.dataSize ≤ parked.size := by
    have first := soundParked.tiled.start_le
    have inside := soundParked.inside
    omega
  rcases Image.holds_append.mp holds with ⟨holdsTest, holdsAddress⟩
  have reads (stack : List Word) (rest : Code) :
      Code.act image.word ((loadWord Cell.indexedArray ++ readWord layout.lengthOffset) ++ rest)
        stack parked =
      Code.act image.word rest (.integer (parked.word (base + layout.lengthAt)) :: stack)
        parked := by
    rw [List.append_assoc]
    exact still.act_length installed soundParked proper
      (known Cell.indexedArray (by decide)) array stack rest
  rcases boundsTest_runs limit stack output installed
    (known Cell.indexedIndex (by decide)) inside holds reads still.length with
    ⟨passes, faults⟩
  refine ⟨fun index below named => ?_, faults⟩
  rcases still.exists_elementAddress installed soundParked proper named below with
    ⟨slot, slotted, computes⟩
  refine ⟨slot, slotted, ?_⟩
  have acts : Code.act image.word (loadWord Cell.indexedArray ++ (loadWord Cell.indexedIndex ++
      Record.elementAddress layout.headerSize layout.elementSize)) stack parked =
        some (.integer slot :: stack, parked) := by
    rw [installed.cells.act_loadCell (known _ (by decide)) inside,
      installed.cells.act_loadCell (known _ (by decide)) inside, array,
      ← List.append_nil (Record.elementAddress _ _), computes, Code.act_nil]
  have position : (_ : Int) = (index : Int) := named
  rw [indexed, Code.size_append, ← Nat.add_assoc]
  exact (passes (by omega)).trans (.straight holdsAddress acts)

variable {sequence index code : Code} {type : Ty} {last next : Nat} {position : Int32}
  {start evaluated : Configuration}

/-- The operands are parked unless the sequence is null. -/
theorem index_parks (limit : Option Nat) (stack : List Word) (output : ByteArray)
    (pointer position : Int32) (installed : HigherOrder.Installed image) {rest : Code}
    {memory : Memory} (inside : image.dataSize ≤ memory.size)
    (holds : image.Holds (storeWord Cell.indexedIndex ++
      (Record.nullCheck ++ (storeWord Cell.indexedArray ++ rest))) pc) :
    (pointer = 0 → ∃ handler, image.Marks Fault.nullArray.handler handler ∧
      Runs image limit ⟨pc, .integer position :: .integer pointer :: stack, memory, output⟩
        ⟨handler, .integer 0 :: stack, memory.setCell image.word Cell.indexedIndex position,
          output⟩) ∧
    (pointer ≠ 0 → ∃ place parked, image.Holds rest place ∧
      place = pc + (storeWord Cell.indexedIndex).size + Record.nullCheck.size +
        (storeWord Cell.indexedArray).size ∧
      Runs image limit ⟨pc, .integer position :: .integer pointer :: stack, memory, output⟩
        ⟨place, stack, parked, output⟩ ∧
      Cells.Only image.word indexCells memory parked ∧
      parked.cell image.word Cell.indexedArray = pointer ∧
      parked.cell image.word Cell.indexedIndex = position) := by
  have known : ∀ name ∈ indexCells, name ∈ Program.wordCells := by decide
  have array : Cell.indexedArray ∈ Program.wordCells := known _ (by decide)
  have number : Cell.indexedIndex ∈ Program.wordCells := known _ (by decide)
  have parks : Code.act image.word (storeWord Cell.indexedIndex)
      (.integer position :: .integer pointer :: stack) memory =
        some (.integer pointer :: stack,
          memory.setCell image.word Cell.indexedIndex position) :=
    installed.cells.act_lastStore number inside
  have within : image.dataSize ≤ (memory.setCell image.word Cell.indexedIndex position).size := by
    rwa [Memory.size_setCell]
  rcases Image.holds_append.mp holds with ⟨holdsStore, holdsCheck⟩
  have begun : Runs image limit ⟨pc, .integer position :: .integer pointer :: stack, memory, output⟩
      ⟨_, _, _, _⟩ := .straight holdsStore parks
  rcases parks_or_faults limit stack output pointer
    installed array within holdsCheck with ⟨faults, stores⟩
  constructor
  · intro null
    rcases faults null with ⟨handler, marks, faulted⟩
    exact ⟨handler, marks, begun.trans faulted⟩
  intro present
  rcases stores present with ⟨holdsRest, parked⟩
  refine ⟨_, _, holdsRest, rfl, begun.trans parked, ?_, ?_, ?_⟩
  · exact ((Cells.Only.refl memory).setCell (by decide) _).setCell (by decide) _
  · exact installed.cells.cell_setCell array within
  · rw [installed.cells.cell_setCell_other array number (by decide),
      installed.cells.cell_setCell number inside]

/-- Indexing comes to the address of an element, or to a fault. -/
theorem index_indexes (installed : HigherOrder.Installed image)
    (generated : Sequence.index sequence index type last = .ok (code, next))
    (found : type.sequenceLayout = .ok layout) (holds : image.Holds code start.pc)
    (runs : Runs image limit start evaluated)
    (pc : evaluated.pc = start.pc + sequence.size + index.size)
    (stack : evaluated.stack = .integer position :: .integer pointer :: start.stack)
    (inside : image.dataSize ≤ evaluated.memory.size) :
    Indexes image limit layout code pointer position start evaluated := by
  rcases evaluated with ⟨place, operands, memory, output⟩
  rcases index_parts generated with ⟨other, same, rfl⟩
  cases Except.ok.inj (found.symm.trans same)
  obtain rfl : place = _ := pc
  obtain rfl : operands = _ := stack
  have proper := SequenceLayout.proper_of_found found
  have holdsRest := (Image.holds_append.mp (Image.holds_append.mp holds).2).2
  rcases index_parks limit start.stack output pointer position installed inside
    holdsRest with ⟨faults, parks⟩
  constructor
  · intro null
    rcases faults null with ⟨handler, marks, faulted⟩
    exact ⟨handler, _, marks, runs.trans faulted,
      (Cells.Only.refl memory).setCell (by decide) _⟩
  · intro ledger base count index sound stores below named
    rcases parks stores.ne_zero with
      ⟨place, parked, holdsIndexed, rfl, parking, only, array, number⟩
    rcases (indexed_runs limit start.stack output installed sound proper stores only array
      holdsIndexed).1 index below (number ▸ named) with ⟨slot, slotted, leads⟩
    refine ⟨slot, parked, ?_, slotted, SequenceLayout.Stores.item_le layout below, ?_, only⟩
    · simpa only [Code.size_append, Nat.add_assoc] using (runs.trans parking).trans leads
    · rw [only.size]
      exact (stores.bounds installed sound).1
  · intro ledger base count sound stores outside
    rcases parks stores.ne_zero with
      ⟨place, parked, holdsIndexed, rfl, parking, only, array, number⟩
    rcases (indexed_runs limit start.stack output installed sound proper stores only array
      holdsIndexed).2 (number ▸ outside) with ⟨handler, marks, faulted⟩
    exact ⟨handler, parked, marks, (runs.trans parking).trans faulted, only⟩

end

end Sequence

end StackBackend
