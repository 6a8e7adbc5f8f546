import StackBackend.Proofs.OperatorSteps

namespace StackBackend

/-! The operands of operators and the bracket around them. The code of an operand is known by what
it leaves: a value on the stack, and the words of the operators as they were. -/

/-- The words have been saved. -/
def Bracket.entered (bracket : Bracket) (image : Image) (start : Configuration) : Configuration :=
  ⟨start.pc + bracket.save.size, bracket.saved image.word start.memory ++ start.stack,
    start.memory, start.output⟩

/-- The array that has been evaluated is checked and parked in the cell. -/
def Configuration.parked (evaluated : Configuration) (image : Image) (cell : String)
    (pointer : Int32) : Configuration :=
  ⟨evaluated.pc + (Record.nullCheck ++ Code.storeWord cell).size, evaluated.stack.tail,
    evaluated.memory.setCell image.word cell pointer, evaluated.output⟩

/-- The pointer is to an array in a block that has been handed out. -/
structure Record.IsArray (memory : Memory) (ledger : Heap.Ledger) (pointer : Int32)
    (block : Heap.Block) (element : Ty) (count : Nat) : Prop where
  names : Address.Names pointer block.address
  live : block ∈ ledger.live
  length : Address.Names (memory.word (block.address + 12)) count
  room : 16 + count * element.width ≤ block.size

/-- The elements of an array in their order. -/
def Record.items (memory : Memory) (address : Nat) (element : Ty) (count : Nat) :
    List (List UInt8) :=
  (List.range count).map (item memory address element)

namespace HigherOrder

/-- The code of an operand leaves a value and keeps the words of the operators. -/
structure Evaluates (image : Image) (limit : Option Nat) (calls : List Excursion) (code : Code)
    (value : List Word) (before after : Configuration) : Prop where
  course : Course image limit calls before after
  pc : after.pc = before.pc + code.size
  stack : after.stack = value ++ before.stack
  words : Steady image.word words (fun _ => False) before.memory after.memory

variable {image : Image} {limit : Option Nat} {calls later : List Excursion} {code : Code}
  {start before evaluated : Configuration} {memory : Memory} {stack value : List Word}
  {cell : String} {pointer : Int32} {ledger : Heap.Ledger} {block : Heap.Block} {element : Ty}
  {count pc : Nat} {output : ByteArray} {bracket : Bracket}

/-- An array stays one as long as its length stays. -/
theorem IsArray.steady {word : String → Int32} {names : List String} {kept : Nat → Prop}
    {after : Memory} (array : Record.IsArray memory ledger pointer block element count)
    (steady : Steady word names kept memory after)
    (keeps : ∀ index, block.Covers index → kept index) :
    Record.IsArray after ledger pointer block element count := by
  refine { array with length := ?_ }
  have room := array.room
  rw [steady.word_eq fun index lower upper => keeps index (by unfold Heap.Block.Covers; omega)]
  exact array.length

/-- What follows the code of an operand is where the operand leaves off. -/
theorem Evaluates.rest (evaluates : Evaluates image limit later code value before evaluated)
    {others : Code} (holds : image.Holds (code ++ others) before.pc) :
    image.Holds others evaluated.pc := by
  rw [evaluates.pc]
  exact (Image.holds_append.mp holds).2

/-- A course goes through the saving of words to the first operand. -/
theorem Evaluates.enters
    (evaluates : Evaluates image limit calls code value (bracket.entered image start) evaluated)
    (installed : Installed image) (known : ∀ name ∈ bracket.words, name ∈ HigherOrder.words)
    (inside : image.dataSize ≤ start.memory.size) (holds : image.Holds bracket.save start.pc) :
    Course image limit calls start evaluated := by
  have saves : Code.act image.word bracket.save start.stack start.memory =
      some (bracket.saved image.word start.memory ++ start.stack, start.memory) :=
    Code.act_alone (Bracket.act_save installed.words inside known _)
  exact ((Course.refl start).straight holds saves).append evaluates.course

/-! ## Arrays -/

/-- An array that is not null is parked. -/
theorem parks (installed : Installed image) (member : cell ∈ words)
    (evaluates : Evaluates image limit later code [.integer pointer] before evaluated)
    (inside : image.dataSize ≤ before.memory.size)
    (holds : image.Holds (Record.nullCheck ++ Code.storeWord cell) evaluated.pc)
    (present : pointer ≠ 0) (reached : Course image limit calls start evaluated) :
    Course image limit calls start (evaluated.parked image cell pointer) := by
  obtain ⟨position, stack, memory, output⟩ := evaluated
  have size : memory.size = before.memory.size := evaluates.words.size
  obtain rfl : stack = .integer pointer :: before.stack := evaluates.stack
  obtain ⟨handler, marks⟩ := installed.faults .nullArray
  have parts : Record.nullCheck ++ Code.storeWord cell =
      [.duplicate] ++ .jumpFalse Fault.nullArray.handler :: Code.storeWord cell := rfl
  rw [parts] at holds
  obtain ⟨holdsCopy, holdsTest⟩ := Image.holds_append.mp holds
  have tests : (Instruction.jumpFalse Fault.nullArray.handler).test (.integer pointer) =
      some false := by
    simp [Instruction.test, present]
  have passed := (reached.straight holdsCopy rfl).branch installed.addressable holdsTest rfl marks
    tests
  rw [if_neg Bool.false_ne_true] at passed
  have stores : Code.act image.word (Code.storeWord cell) (.integer pointer :: before.stack)
      memory = some (before.stack, memory.setCell image.word cell pointer) :=
    installed.words.act_lastStore member (by omega)
  have parked := passed.straight ((Image.holds_cons rfl _ _).mp holdsTest).2 stores
  rwa [Nat.add_assoc, Nat.add_assoc] at parked

/-- A later operand finds the array in its cell. -/
theorem Evaluates.parked (installed : Installed image) (member : cell ∈ HigherOrder.words)
    (evaluates : Evaluates image limit later code value (before.parked image cell pointer)
      evaluated)
    (inside : image.dataSize ≤ before.memory.size) :
    evaluated.memory.cell image.word cell = pointer ∧
      ∀ name ∈ HigherOrder.words, name ≠ cell →
        evaluated.memory.cell image.word name = before.memory.cell image.word name := by
  have parked : (before.parked image cell pointer).memory =
      before.memory.setCell image.word cell pointer := rfl
  refine ⟨?_, fun name known other => ?_⟩
  · rw [evaluates.words.cells cell member, parked, installed.words.cell_setCell member inside]
  · rw [evaluates.words.cells name known, parked,
      installed.words.cell_setCell_other member known other.symm]

/-- Setting a word of the operators keeps the heap sound. -/
theorem sound_setCell (installed : Installed image) (sound : Heap.Sound image.word memory ledger)
    (member : cell ∈ words) (value : Int32) :
    Heap.Sound image.word (memory.setCell image.word cell value) ledger := by
  have first := installed.record.start
  have setting : Steady image.word [Cell.freeList, Cell.bumpPointer] _ memory
      (memory.setCell image.word cell value) :=
    installed.steady_setCell (mem_followed member) value fun other listed =>
      ⟨(by decide : ∀ name ∈ _, name ∈ followed) other listed, fun same =>
        (by decide : ∀ name ∈ words, name ∉ [Cell.freeList, Cell.bumpPointer]) cell member
          (same ▸ listed)⟩
  exact sound.steady (setting.mono (fun _ listed => listed) fun index inside => by omega)

/-- Setting a word of the operators changes no array. -/
theorem IsArray.setCell (installed : Installed image) (sound : Heap.Sound image.word memory ledger)
    (array : Record.IsArray memory ledger pointer block element count) (member : cell ∈ words)
    (value : Int32) :
    Record.IsArray (memory.setCell image.word cell value) ledger pointer block element count := by
  have first := installed.record.start
  have bounds := sound.bounds (Heap.Ledger.mem_live.mp array.live).1
  have setting : Steady image.word [] _ memory (memory.setCell image.word cell value) :=
    installed.steady_setCell (mem_followed member) value fun _ listed => nomatch listed
  exact IsArray.steady array setting fun index covers => by
    unfold Heap.Block.Covers at covers
    omega

/-- The pointer to an array is not null. -/
theorem IsArray.ne_zero (sound : Heap.Sound image.word memory ledger)
    (array : Record.IsArray memory ledger pointer block element count) : pointer ≠ 0 := by
  have bounds := sound.bounds (Heap.Ledger.mem_live.mp array.live).1
  exact Heap.names_ne_zero array.names (by omega)

/-- The length of a parked array is read. -/
theorem act_length (installed : Installed image) (sound : Heap.Sound image.word memory ledger)
    (member : cell ∈ words)
    (array : Record.IsArray memory ledger (memory.cell image.word cell) block element count)
    (stack : List Word) (rest : Code) :
    Code.act image.word
        (Code.loadWord cell ++ (Code.readWord Record.arrayLengthOffset ++ rest)) stack memory =
      Code.act image.word rest (.integer (memory.word (block.address + 12)) :: stack) memory := by
  have bounds := sound.bounds (Heap.Ledger.mem_live.mp array.live).1
  have room := array.room
  have first := installed.record.start
  have inside := sound.inside
  have fits := sound.fits
  have named : Address.Names (memory.cell image.word cell + Record.arrayLengthOffset)
      (block.address + 12) := array.names.add rfl (by omega)
  rw [installed.words.act_loadCell member (by omega), Code.act_readWord named (by omega)]

/-- The length of a parked array becomes that of the loop. -/
theorem act_operandLength (installed : Installed image)
    (sound : Heap.Sound image.word memory ledger) (member : cell ∈ words)
    (array : Record.IsArray memory ledger (memory.cell image.word cell) block element count) :
    Code.act image.word (operandLength cell) stack memory =
      some (stack, memory.setCell image.word Cell.operatorLength
        (memory.word (block.address + 12))) := by
  have bounds := sound.bounds (Heap.Ledger.mem_live.mp array.live).1
  have first := installed.record.start
  have inside := sound.inside
  rw [operandLength, List.append_assoc, act_length installed sound member array,
    installed.words.act_lastStore (by simp [words]) (by omega)]

/-! ## Loops over arrays -/

/-- The words that stay while a loop calls the function. -/
def others : List String :=
  [Cell.operatorLambda, Cell.operatorArray, Cell.operatorOtherArray, Cell.operatorLength,
    Cell.operatorResult, Cell.operatorCount]

theorem others_known : ∀ name ∈ others, name ∈ words := by
  decide

theorem Parks.of_steady {floor : Nat} {names : List String} {kept : Nat → Prop} {ready now : Memory}
    (parks : Parks image floor ready cell block element count)
    (steady : Steady image.word names kept ready now) (member : cell ∈ names) :
    Parks image floor now cell block element count := by
  have names : Address.Names (now.cell image.word cell) block.address := by
    rw [steady.cells cell member]
    exact parks.names
  exact { parks with names }

/-- The elements of a block that is kept. -/
theorem item_of_steady {word : String → Int32} {names : List String} {kept : Nat → Prop}
    {before after : Memory} {index : Nat} (steady : Steady word names kept before after)
    (room : 16 + count * element.width ≤ block.size)
    (keeps : ∀ index, block.Covers index → kept index) (below : index < count) :
    Record.item after block.address element index =
      Record.item before block.address element index := by
  have within := Record.item_le element below
  exact steady.read fun other lower upper => keeps other (by unfold Heap.Block.Covers; omega)

theorem items_of_steady {word : String → Int32}
    {names : List String} {kept : Nat → Prop} {before after : Memory}
    (steady : Steady word names kept before after)
    (room : 16 + count * element.width ≤ block.size)
    (keeps : ∀ index, block.Covers index → kept index) :
    Record.items after block.address element count =
      Record.items before block.address element count :=
  List.map_congr_left fun _ listed => item_of_steady steady room keeps (List.mem_range.mp listed)

/-! ## The end of an operator -/

/-- A course goes through the restoring of words under a result. -/
theorem restores (installed : Installed image) {type : Ty} {first : Memory}
    (known : ∀ name ∈ bracket.words, name ∈ words) (admits : type.Admits value)
    (inside : image.dataSize ≤ memory.size)
    (others : ∀ name ∈ words, name ∉ bracket.words →
      memory.cell image.word name = first.cell image.word name)
    (holds : image.Holds (bracket.restoreUnder type Cell.operatorReturn) pc)
    (reached : Course image limit calls start
      ⟨pc, value ++ (bracket.saved image.word first ++ stack), memory, output⟩) :
    ∃ after, Course image limit calls start
        ⟨pc + (bracket.restoreUnder type Cell.operatorReturn).size, value ++ stack, after, output⟩ ∧
      (∀ name ∈ words, after.cell image.word name = first.cell image.word name) ∧
      Steady image.word [Cell.stackPointer, Cell.framePointer, Cell.freeList, Cell.bumpPointer]
        (fun index => image.dataSize ≤ index) memory after := by
  have carrier : bracket.Carrier image.word type Cell.operatorReturn _ memory :=
    Bracket.carrier_of_wide installed.carried inside installed.fits fun name member =>
      words_known name (known name member)
  obtain ⟨after, acts, restored⟩ :=
    Bracket.act_restoreUnder installed.words inside known carrier admits first
  have restoring : Code.act image.word (bracket.restoreUnder type Cell.operatorReturn)
      (value ++ (bracket.saved image.word first ++ stack)) memory = some (value ++ stack, after) :=
    Code.act_alone (acts _)
  have width := type.width_le
  -- Another cell is none that the restoring goes through.
  have stays {name : String} (laid : name ∈ Program.wordCells) (unsaved : name ∉ bracket.words) :
      after.cell image.word name = memory.cell image.word name := by
    refine Memory.word_congr fun index lower upper => restored.bytes index (fun cell member => ?_) ?_
    · have apart := installed.cells.apart name laid cell (words_known cell (known cell member))
        fun same => unsaved (same ▸ member)
      omega
    · have apart := installed.carried.apart name laid
      omega
  have pointers : ∀ name ∈ [Cell.stackPointer, Cell.framePointer, Cell.freeList,
      Cell.bumpPointer], name ∈ Program.wordCells ∧ name ∉ words := by
    decide
  refine ⟨after, reached.straight holds restoring, fun name member => ?_, restored.size,
    fun name member => ?_, fun index above => ?_⟩
  · by_cases saved : name ∈ bracket.words
    · exact restored.words name saved
    · rw [stays (words_known name member) saved, others name member saved]
  · obtain ⟨laid, unsaved⟩ := pointers name member
    exact stays laid fun saved => unsaved (known name saved)
  · have low := installed.carried.below
    exact restored.bytes index ((installed.words.mono known).misses_of_floor_le above) (by omega)

end HigherOrder

end StackBackend
