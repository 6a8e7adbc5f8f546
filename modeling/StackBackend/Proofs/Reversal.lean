import StackBackend.Proofs.Cloning
import StackBackend.Proofs.PureFunctions
import StackBackend.Proofs.TextRecords

namespace StackBackend

/-! Reversing a sequence copies its elements, each as it is, to the mirrored places of a fresh one,
whatever the layout. -/

namespace Sequence

open Code

/-! ## The blocks of the code -/

/-- Leaves the number of the elements that are still to be copied. -/
def remains (layout : SequenceLayout) : Code :=
  sourceLength layout.lengthOffset ++ (loadWord Cell.sequenceIndex ++ [.subtract])

/-- Leaves the size of an element, where it is, and the mirrored place. -/
def mirrorPlaces (layout : SequenceLayout) : Code :=
  .duplicate :: (sourceLength layout.lengthOffset ++ (loadWord Cell.sequenceIndex ++
    (.subtract :: .pushI 1 :: .subtract ::
      (Record.elementAddress layout.headerSize layout.elementSize ++
        (loadWord Cell.sequenceSource ++ (loadWord Cell.sequenceIndex ++
          (Record.elementAddress layout.headerSize layout.elementSize ++
            [.pushI layout.elementSize])))))))

/-- Copies the elements one after the other. -/
def mirrorLoop (layout : SequenceLayout) (loop done : String) : Code :=
  .label loop :: (remains layout ++ .jumpFalse done :: (mirrorPlaces layout ++
    .call Entry.copyBytes :: (increment Cell.sequenceIndex ++ [.jump loop, .label done])))

theorem reverse_parts {sequence : Ty} {code : Code} {last next : Nat}
    (generated : reverse sequence last = .ok (code, next)) :
    ∃ layout allocation loop done, sequence.sequenceLayout = .ok layout ∧
      allocateLike sequence = .ok allocation ∧
      code = Record.nullCheck ++ (storeWord Cell.sequenceSource ++
        (sourceLength layout.lengthOffset ++ (allocation ++
          ((.pushI 0 :: storeWord Cell.sequenceIndex) ++ mirrorLoop layout loop done)))) := by
  simp only [reverse, Generation.bind_eq_ok, Generation.pure_eq_ok, Generation.lift_eq_ok,
    Generation.freshLabels_eq_ok] at generated
  rcases generated with ⟨layout, serial, ⟨found, rfl⟩, labels, _, ⟨rfl, rfl⟩, allocation, _,
    ⟨allocated, rfl⟩, rfl, rfl⟩
  refine ⟨layout, allocation, LabelGroup.label ⟨"reverse", serial + 1⟩ "loop",
    LabelGroup.label ⟨"reverse", serial + 1⟩ "done", found, allocated, ?_⟩
  simp [mirrorLoop, remains, mirrorPlaces]

/-! ## The loop -/

/-- A sequence that is parked, and another one apart from it that has room for its elements. -/
structure Faces (image : Image) (ledger : Heap.Ledger) (layout : SequenceLayout) (memory : Memory)
    (pointer copy : Int32) (base target count : Nat) : Prop where
  source : layout.Stores image ledger memory pointer base count
  copy : layout.Stores image ledger memory copy target count
  above : image.dataSize ≤ target
  apart : base + layout.header + count * layout.elementWidth ≤ target ∨
    target + layout.header + count * layout.elementWidth ≤ base
  parked : memory.cell image.word Cell.sequenceSource = pointer

/-- The elements up to the index have been copied to the mirrored places, and nothing else has been
written but cells. -/
structure Mirrors (image : Image) (layout : SequenceLayout) (before : Memory)
    (base target count index : Nat) (now : Memory) : Prop where
  size : now.size = before.size
  position : Address.Names (now.cell image.word Cell.sequenceIndex) index
  copied : ∀ place < index,
    layout.item now target (count - 1 - place) = layout.item before base place
  kept : ∀ byte, Cells.Misses image.word fillingCells byte →
    byte < target + layout.header ∨ target + layout.header + count * layout.elementWidth ≤ byte →
      now.byte byte = before.byte byte

section

variable {image : Image} {limit : Option Nat} {ledger : Heap.Ledger} {layout : SequenceLayout}
  {before now : Memory} {pointer copy : Int32} {base target count index pc : Nat}
  {stack : List Word} {output : ByteArray}

/-- When all elements have been copied they are in the other order. -/
theorem Mirrors.items (mirrors : Mirrors image layout before base target count count now) :
    layout.items now target count = (layout.items before base count).reverse := by
  apply List.ext_getElem
  · simp [SequenceLayout.items]
  · intro index left right
    have below : index < count := by simpa [SequenceLayout.items] using left
    have copied := mirrors.copied (count - 1 - index) (by omega)
    rw [show count - 1 - (count - 1 - index) = index by omega] at copied
    simpa [SequenceLayout.items, List.getElem_reverse] using copied

variable (installed : HigherOrder.Installed image)
  (sound : Heap.Sound image.word before ledger) (proper : layout.Proper)
  (faces : Faces image ledger layout before pointer copy base target count)
  (mirrors : Mirrors image layout before base target count index now)
include installed sound faces mirrors

/-- The source stays as it is. -/
theorem Mirrors.byte_source {byte : Nat} (lower : base ≤ byte)
    (upper : byte < base + (layout.header + count * layout.elementWidth)) :
    now.byte byte = before.byte byte := by
  have apart := faces.apart
  refine mirrors.kept byte (fun name member => ?_) (by omega)
  exact faces.source.rests.misses installed sound lower upper name
    (cells_known name (fillingCells_known name member).1)

omit faces in
theorem Mirrors.dataSize_le : image.dataSize ≤ now.size := by
  have start := installed.record.start
  have low := sound.tiled.start_le
  have high := sound.inside
  have size := mirrors.size
  omega

omit sound in
/-- The source stays parked. -/
theorem Mirrors.cell_source : now.cell image.word Cell.sequenceSource = pointer := by
  have member : Cell.sequenceSource ∈ Program.wordCells := by decide
  have others : ∀ name ∈ fillingCells, name ∈ Program.wordCells ∧ Cell.sequenceSource ≠ name := by
    decide
  have below := installed.cells.below Cell.sequenceSource member
  have above := faces.above
  refine Eq.trans (Memory.word_congr fun byte lower upper => ?_) faces.parked
  refine mirrors.kept byte (fun name listed => ?_) (.inl (by omega))
  have apart := installed.cells.apart Cell.sequenceSource member name (others name listed).1
    (others name listed).2
  omega

include proper

/-- The length of the source is read. -/
theorem Mirrors.act_sourceLength (operands : List Word) (rest : Code) :
    Code.act image.word (sourceLength layout.lengthOffset ++ rest) operands now =
      Code.act image.word rest (.integer (before.word (base + layout.lengthAt)) :: operands)
        now := by
  have within := proper.within
  have extent := faces.source.bounds installed sound
  have size := mirrors.size
  have named := faces.source.names.plus proper.length (by omega)
  have same : now.word (base + layout.lengthAt) = before.word (base + layout.lengthAt) :=
    Memory.word_congr fun byte lower upper =>
      mirrors.byte_source installed sound faces (by omega) (by omega)
  rw [sourceLength, List.append_assoc, installed.cells.act_loadCell (by decide)
    (mirrors.dataSize_le installed sound), mirrors.cell_source installed faces,
    act_readWord named (by omega), same]

/-- The places of an element and its copy are computed. -/
theorem Mirrors.act_mirrorPlaces (stack : List Word) (below : index < count) :
    ∃ slot origin, Address.Names slot (target + layout.header +
        (count - 1 - index) * layout.elementWidth) ∧
      Address.Names origin (base + layout.header + index * layout.elementWidth) ∧
      Code.act image.word (mirrorPlaces layout) (.integer copy :: stack) now =
        some (.integer layout.elementSize :: .integer origin :: .integer slot ::
          .integer copy :: stack, now) := by
  have length : Address.Names (before.word (base + layout.lengthAt)) count := faces.source.length
  have position : (now.cell image.word Cell.sequenceIndex).toInt = index := mirrors.position
  have inside := mirrors.dataSize_le installed sound
  have rest : Address.Names (before.word (base + layout.lengthAt) -
      now.cell image.word Cell.sequenceIndex) (count - index) := by
    have bound := Int32.toInt_lt (before.word (base + layout.lengthAt))
    unfold Address.Names at length
    exact Address.Names.sub length (by omega) (by omega)
  have mirrored : Address.Names (before.word (base + layout.lengthAt) -
      now.cell image.word Cell.sequenceIndex - 1) (count - 1 - index) := by
    have bound := Int32.toInt_lt (before.word (base + layout.lengthAt))
    have one : (1 : Int32).toInt = 1 := rfl
    unfold Address.Names at length
    exact rest.sub (by omega) (by omega)
  rcases faces.copy.exists_elementAddress installed sound proper mirrored (by omega) with
    ⟨slot, slotted, computesSlot⟩
  rcases faces.source.exists_elementAddress installed sound proper mirrors.position below with
    ⟨origin, originated, computesOrigin⟩
  refine ⟨slot, origin, slotted, originated, ?_⟩
  rw [mirrorPlaces, act_duplicate, mirrors.act_sourceLength installed sound proper faces,
    installed.cells.act_loadCell (by decide) inside, act_subtract, act_pushI, act_subtract,
    computesSlot, installed.cells.act_loadCell (by decide) inside,
    mirrors.cell_source installed faces,
    installed.cells.act_loadCell (by decide) inside, computesOrigin, act_pushI, act_nil]

/-- One element more is copied. -/
theorem Mirrors.turns (limit : Option Nat) (stack : List Word) (output : ByteArray)
    (below : index < count) {rest : Code}
    (holds : image.Holds (mirrorPlaces layout ++ .call Entry.copyBytes ::
      (increment Cell.sequenceIndex ++ rest)) pc) :
    ∃ after, Runs image limit ⟨pc, .integer copy :: stack, now, output⟩
        ⟨pc + (mirrorPlaces layout).size + 1 + (increment Cell.sequenceIndex).size,
          .integer copy :: stack, after, output⟩ ∧
      Mirrors image layout before base target count (index + 1) after := by
  have inside := mirrors.dataSize_le installed sound
  have size := mirrors.size
  have above := faces.above
  have extent := faces.copy.bounds installed sound
  have sourceExtent := faces.source.bounds installed sound
  have apart := faces.apart
  have within := SequenceLayout.Stores.item_le layout (show count - 1 - index < count by omega)
  have sourceWithin := SequenceLayout.Stores.item_le layout below
  have width : Address.Names layout.elementSize layout.elementWidth := by
    rcases proper.element with ⟨element, same⟩
    rw [SequenceLayout.elementWidth, same]
    exact element.toInt_size
  have known : ∀ name ∈ CopyBytes.cells, name ∈ Program.wordCells ∧
      Cell.sequenceIndex ≠ name := by decide
  have member : Cell.sequenceIndex ∈ Program.wordCells := by decide
  rcases mirrors.act_mirrorPlaces installed sound proper faces stack below with
    ⟨slot, origin, slotted, originated, acts⟩
  rcases CopyBytes.copies limit output installed inside holds acts slotted originated width
    (by omega) (fun byte lower upper name listed =>
      faces.source.rests.misses installed sound (by omega) (by omega) name (known name listed).1)
    (by omega) (by omega) (by omega) (by omega) (by omega) with ⟨middle, copies, copied⟩
  have middleSize := copied.size
  -- The index is counted up.
  have isIndex : middle.cell image.word Cell.sequenceIndex =
      now.cell image.word Cell.sequenceIndex := by
    have low := installed.cells.below Cell.sequenceIndex member
    refine Memory.word_congr fun byte lower upper => copied.kept byte (.inl (by omega)) ?_
    intro name listed
    have apart := installed.cells.apart Cell.sequenceIndex member name (known name listed).1
      (known name listed).2
    omega
  have counts : Code.act image.word (increment Cell.sequenceIndex) (.integer copy :: stack)
      middle = some (.integer copy :: stack, middle.setCell image.word Cell.sequenceIndex
        (now.cell image.word Cell.sequenceIndex + 1)) := by
    rw [installed.cells.act_lastIncrement member (by omega), isIndex]
  have holdsCount := ((Image.holds_cons rfl _ _).mp (Image.holds_append.mp holds).2).2
  have high {byte : Nat} (lower : image.dataSize ≤ byte) :
      (middle.setCell image.word Cell.sequenceIndex
        (now.cell image.word Cell.sequenceIndex + 1)).byte byte = middle.byte byte :=
    installed.cells.byte_setCell member lower
  refine ⟨_, copies.trans (.straight (Image.holds_append.mp holdsCount).1 counts), ?_, ?_, ?_, ?_⟩
  · rw [Memory.size_setCell]
    omega
  · rw [installed.cells.cell_setCell member (by omega)]
    have position := mirrors.position
    have bound := Int32.toInt_lt (before.word (base + layout.lengthAt))
    have length : (_ : Int) = (count : Int) := faces.source.length
    have one : Address.Names 1 1 := rfl
    exact position.plus one (by omega)
  · intro place earlier
    have slots : layout.item (middle.setCell image.word Cell.sequenceIndex
        (now.cell image.word Cell.sequenceIndex + 1)) target (count - 1 - place) =
          layout.item middle target (count - 1 - place) :=
      Memory.read_congr fun byte lower upper => high (by omega)
    rw [slots]
    rcases Nat.lt_or_eq_of_le (Nat.le_of_lt_succ earlier) with before | rfl
    · rw [← mirrors.copied place before]
      have apart := SequenceLayout.Stores.item_le layout
        (show count - 1 - index < count - 1 - place by omega)
      exact Memory.read_congr fun byte lower upper => copied.kept byte (by omega)
        (installed.copying.cells.misses_of_floor_le (by omega))
    · refine (Memory.read_shift copied.same).trans (Memory.read_congr fun byte lower upper => ?_)
      exact mirrors.byte_source installed sound faces (by omega) (by omega)
  · intro byte misses outside
    have cell := misses Cell.sequenceIndex (List.mem_cons_self ..)
    refine (Memory.byte_setWord_of_outside (by omega)).trans ?_
    rw [copied.kept byte (by omega) fun name listed => misses name (List.mem_cons_of_mem _ listed)]
    exact mirrors.kept byte misses outside

/-- The number of the elements that are still to be copied is computed. -/
theorem Mirrors.act_remains (stack : List Word) (within : index ≤ count) :
    ∃ value, Address.Names value (count - index) ∧
      Code.act image.word (remains layout) stack now = some (.integer value :: stack, now) := by
  have length : Address.Names (before.word (base + layout.lengthAt)) count := faces.source.length
  have position : (now.cell image.word Cell.sequenceIndex).toInt = index := mirrors.position
  have bound := Int32.toInt_lt (before.word (base + layout.lengthAt))
  refine ⟨before.word (base + layout.lengthAt) - now.cell image.word Cell.sequenceIndex, ?_, ?_⟩
  · unfold Address.Names at length
    exact Address.Names.sub length (by omega) (by omega)
  · rw [remains, mirrors.act_sourceLength installed sound proper faces,
      installed.cells.act_loadCell (by decide) (mirrors.dataSize_le installed sound),
      act_subtract, act_nil]

/-- The loop copies all elements. -/
theorem mirrorLoop_runs (limit : Option Nat) (stack : List Word) (output : ByteArray)
    {loop done : String} (within : index ≤ count)
    (holds : image.Holds (mirrorLoop layout loop done) pc) :
    ∃ after, Runs image limit ⟨pc, .integer copy :: stack, now, output⟩
        ⟨pc + (mirrorLoop layout loop done).size, .integer copy :: stack, after, output⟩ ∧
      Mirrors image layout before base target count count after := by
  have addressable := installed.addressable
  rcases (Image.holds_label ..).mp holds with ⟨loopMarks, holdsTest⟩
  have holdsTurn := ((Image.holds_cons rfl _ _).mp (Image.holds_append.mp holdsTest).2).2
  have holdsJump := (Image.holds_append.mp
    ((Image.holds_cons rfl _ _).mp (Image.holds_append.mp holdsTurn).2).2).2
  have doneMarks := ((Image.holds_label ..).mp ((Image.holds_cons rfl _ _).mp holdsJump).2).1
  rcases Nat.exists_eq_add_of_le within with ⟨rest, total⟩
  induction rest generalizing index now with
  | zero =>
      rcases mirrors.act_remains installed sound proper faces (.integer copy :: stack) within with
        ⟨value, named, acts⟩
      have zero : value = 0 := Address.eq_zero_of_names (by rwa [total, Nat.add_zero,
        Nat.sub_self] at named)
      have test : (Instruction.jumpFalse done).test (.integer value) = some true := by
        simp [Instruction.test, zero]
      have size : pc + (mirrorLoop layout loop done).size = pc + (remains layout).size + 1 +
          (mirrorPlaces layout).size + 1 + (increment Cell.sequenceIndex).size + 1 := by
        simp only [mirrorLoop, Code.size_append, Code.size_cons, Code.size_nil,
          Instruction.isDirective, Bool.false_eq_true, if_false, if_true]
        omega
      rw [size]
      obtain rfl : index = count := total.symm
      exact ⟨now, .branches addressable holdsTest acts rfl doneMarks test, mirrors⟩
  | succ rest induction =>
      rcases mirrors.act_remains installed sound proper faces (.integer copy :: stack) within with
        ⟨value, named, acts⟩
      have nonzero : value ≠ 0 := Address.ne_zero_of_names named (by omega)
      have test : (Instruction.jumpFalse done).test (.integer value) = some false := by
        simp [Instruction.test, nonzero]
      rcases mirrors.turns installed sound proper faces limit stack output (by omega) holdsTurn
        with ⟨next, turns, mirrored⟩
      rcases induction mirrored (by omega) (by omega) with ⟨after, others, all⟩
      have passes : Runs image limit ⟨pc, .integer copy :: stack, now, output⟩ ⟨_, _, _, _⟩ :=
        .passesOver addressable holdsTest acts rfl doneMarks test
      exact ⟨after, ((passes.trans turns).trans (.jump addressable holdsJump loopMarks)).trans
        others, all⟩

end

/-! ## Reversing into a fresh sequence -/

section

variable {image : Image} {limit : Option Nat} {ledger : Heap.Ledger} {layout : SequenceLayout}
  {parked formed : Memory} {pointer : Int32} {base count wanted pc : Nat} {names : List String}
  {stack : List Word} {output : ByteArray}

/-- A fresh sequence of the length of a parked one gets the elements of that in the other order. -/
theorem mirrors_formed (limit : Option Nat) (stack : List Word) (output : ByteArray)
    (installed : HigherOrder.Installed image) (sound : Heap.Sound image.word parked ledger)
    (proper : layout.Proper) (stores : layout.Stores image ledger parked pointer base count)
    (isSource : parked.cell image.word Cell.sequenceSource = pointer)
    (known : ∀ name ∈ names, name ∈ Program.wordCells ∧ name ≠ Cell.sequenceSource)
    (reserved : Heap.Reserved image names ledger wanted parked formed)
    (length : Address.Names
      (formed.word ((ledger.allocate wanted).1.address + layout.lengthAt)) count)
    (extent : layout.header + count * layout.elementWidth ≤ wanted)
    (room : ledger.Room parked.size wanted) {loop done : String}
    (holds : image.Holds ((.pushI 0 :: storeWord Cell.sequenceIndex) ++
      mirrorLoop layout loop done) pc) :
    ∃ after, Runs image limit
        ⟨pc, .integer (Int32.ofNat (ledger.allocate wanted).1.address) :: stack, formed, output⟩
        ⟨pc + Code.size ((.pushI 0 :: storeWord Cell.sequenceIndex) ++ mirrorLoop layout loop done),
          .integer (Int32.ofNat (ledger.allocate wanted).1.address) :: stack, after, output⟩ ∧
      Heap.Reserved image (fillingCells ++ names) ledger wanted parked after ∧
      layout.items after (ledger.allocate wanted).1.address count =
        (layout.items parked base count).reverse ∧
      ∀ byte, image.dataSize ≤ byte →
        byte < (ledger.allocate wanted).1.address + layout.header ∨
          (ledger.allocate wanted).1.address + layout.header + count * layout.elementWidth ≤ byte →
        after.byte byte = formed.byte byte := by
  have start := installed.record.start
  have soundFormed := reserved.sound room
  have bounds := soundFormed.bounds (Heap.Ledger.mem_live.mp
    ((sound.live_allocate wanted).mpr (.inl rfl))).1
  have low := soundFormed.tiled.start_le
  have inside := soundFormed.inside
  have large := reserved.room
  have member : Cell.sequenceIndex ∈ Program.wordCells := by decide
  have fillings : ∀ name ∈ fillingCells, name ∈ Program.wordCells := fun name listed =>
    (fillingCells_known name listed).2.1
  have faces : Faces image (ledger.allocate wanted).2 layout formed pointer
      (Int32.ofNat (ledger.allocate wanted).1.address) base (ledger.allocate wanted).1.address
      count := by
    have apart := stores.rests.apart installed sound wanted
    constructor
    · exact stores.reserved installed sound proper reserved fun name listed => (known name listed).1
    · exact ⟨Address.names_ofNat (by omega), length, reserved.rests sound extent⟩
    · omega
    · omega
    · refine (reserved.cell installed sound (fun name listed => (known name listed).1)
        (by decide) fun listed => ?_).trans isSource
      exact (known _ listed).2 rfl
  -- The index is set to zero.
  rcases Image.holds_append.mp holds with ⟨holdsReset, holdsLoop⟩
  have resets : Code.act image.word (.pushI 0 :: storeWord Cell.sequenceIndex)
      (.integer (Int32.ofNat (ledger.allocate wanted).1.address) :: stack) formed =
        some (.integer (Int32.ofNat (ledger.allocate wanted).1.address) :: stack,
          formed.setCell image.word Cell.sequenceIndex 0) := by
    rw [act_pushI, installed.cells.act_lastStore member (by omega)]
  have mirrors : Mirrors image layout formed base (ledger.allocate wanted).1.address count 0
      (formed.setCell image.word Cell.sequenceIndex 0) := by
    constructor
    · exact Memory.size_setCell ..
    · rw [installed.cells.cell_setCell member (by omega)]
      rfl
    · exact fun place below => absurd below (Nat.not_lt_zero place)
    · exact fun byte misses _ =>
        Memory.byte_setWord_of_outside (misses Cell.sequenceIndex (List.mem_cons_self ..))
  rcases mirrorLoop_runs installed soundFormed proper faces mirrors limit stack output
    (Nat.zero_le _) holdsLoop with ⟨after, loops, mirrored⟩
  refine ⟨after, ?_, ?_, ?_, fun byte above outside => ?_⟩
  · rw [Code.size_append, ← Nat.add_assoc]
    exact (Runs.straight holdsReset resets).trans loops
  · apply (reserved.mono fun name listed => List.mem_append_right fillingCells listed).further
      installed sound fillingCells _ mirrored.size
    · intro byte misses uncovered
      unfold Heap.Block.Covers at uncovered
      exact mirrored.kept byte misses (by omega)
    · exact fun name listed => ⟨List.mem_append_left _ listed, (fillingCells_known name listed).2⟩
  · rw [mirrored.items]
    refine congrArg List.reverse (List.map_congr_left fun index listed => ?_)
    have within := SequenceLayout.Stores.item_le layout (List.mem_range.mp listed)
    exact Memory.read_congr fun byte lower upper => reserved.byte_rests installed sound
      (fun name listed => (known name listed).1) stores.rests (by omega) (by omega)
  · exact mirrored.kept byte ((installed.cells.mono fillings).misses_of_floor_le (by omega)) outside

end

/-! ## The reversed sequences -/

section

variable {image : Image} {limit : Option Nat} {ledger : Heap.Ledger} {memory : Memory}
  {pointer : Int32} {base pc last next : Nat} {element : Ty} {elements : List (List UInt8)}
  {characters : List UInt8} {stack : List Word} {output : ByteArray} {code : Code}
  (installed : HigherOrder.Installed image) (sound : Heap.Sound image.word memory ledger)
include installed sound

/-- Reversing an array leaves a fresh one with the elements in the other order. -/
theorem reverse_array_leaves (limit : Option Nat) (stack : List Word) (output : ByteArray)
    (generated : reverse (.array element) last = .ok (code, next))
    (array : HasElements image ledger memory pointer base element elements)
    (room : ledger.Room memory.size (16 + elements.reverse.length * element.width))
    (holds : image.Holds code pc) :
    Leaves image limit ledger element elements.reverse
      ⟨pc, .integer pointer :: stack, memory, output⟩ (pc + code.size) stack := by
  have start := installed.record.start
  rcases reverse_parts generated with ⟨layout, allocation, loop, done, found, allocated, rfl⟩
  rcases (Except.ok.inj found : SequenceLayout.ofArray element = layout) with rfl
  cases allocated
  have proper := SequenceLayout.proper_ofArray element
  have length : elements.reverse.length = elements.length := List.length_reverse
  rcases source_parks installed sound limit stack output proper array.stores holds with
    ⟨place, parked, count, holdsForm, rfl, counted, parks, only, isSource⟩
  have soundParked := sound.only installed only (by decide)
  have arrayParked := array.only installed sound only (by decide)
  have roomParked : ledger.Room parked.size (16 + elements.length * element.width) := by
    rwa [only.size, ← length]
  rcases Image.holds_append.mp holdsForm with ⟨holdsForm, holdsLoop⟩
  rcases allocate_forms installed soundParked limit stack output counted roomParked holdsForm with
    ⟨formed, forms, begins, reserved⟩
  rcases mirrors_formed limit stack output installed soundParked proper arrayParked.stores isSource
    (by decide) reserved begins.length (Nat.le_refl _) roomParked holdsLoop with
    ⟨after, loops, reservedAfter, items, kept⟩
  have bounds := soundParked.allocate_bounds (16 + elements.length * element.width)
  have made : Made image ledger element elements.reverse memory after := by
    constructor
    · rw [length]
      exact begins.congr fun byte lower upper => kept byte (by omega) (.inl upper)
    · rw [length]
      exact items.trans (congrArg List.reverse arrayParked.items)
    · rw [length]
      exact (reservedAfter.mono (List.forall_mem_append.mpr
        ⟨fun name member => (fillingCells_known name member).1, recordCells_listed⟩)).after_only
        (only.mono (by decide))
  apply made.leaves installed sound room
  rw [length]
  simpa only [Code.size_append, Nat.add_assoc] using (parks.trans forms).trans loops

end

end Sequence

namespace Text

/-- The cells that reversing a string works in. -/
def reversalCells : List String :=
  Cell.sequenceSource :: (Sequence.fillingCells ++ allocationCells)

theorem reversalCells_known : ∀ name ∈ reversalCells, name ∈ Program.wordCells :=
  List.forall_mem_cons.mpr ⟨by decide, List.forall_mem_append.mpr
    ⟨fun name member => (Sequence.fillingCells_known name member).2.1, allocationCells_known⟩⟩

section

variable {image : Image} {limit : Option Nat} {ledger : Heap.Ledger} {memory after : Memory}
  {pointer : Int32} {base target pc last next : Nat} {characters : List UInt8}
  {stack : List Word} {output : ByteArray} {code : Code}

/-- Characters are elements of one byte, so that the other order of the elements is the other order
of the bytes. -/
theorem read_reverse (items : layout.items after target characters.length =
      (layout.items memory base characters.length).reverse)
    (reads : memory.read (base + 12) characters.length = characters) :
    after.read (target + 12) characters.length = characters.reverse := by
  have bytes (memory : Memory) (base : Nat) :
      memory.read (base + 12) characters.length =
        (layout.items memory base characters.length).flatten := by
    rw [SequenceLayout.flatten_items]
    exact congrArg (memory.read _) (Nat.mul_one _).symm
  have single : (layout.items memory base characters.length).map List.reverse =
      layout.items memory base characters.length := by
    refine (List.map_congr_left fun item listed => ?_).trans (List.map_id _)
    rcases List.mem_map.mp listed with ⟨index, _, rfl⟩
    rfl
  rw [bytes, items, ← congrArg List.reverse reads, bytes, List.reverse_flatten, single]

/-- Reversing a string leaves a fresh one with the characters in the other order. -/
theorem reverse_leaves (limit : Option Nat) (stack : List Word) (output : ByteArray)
    (installed : HigherOrder.Installed image) (sound : Heap.Sound image.word memory ledger)
    (generated : Sequence.reverse .string last = .ok (code, next))
    (string : IsString image ledger memory pointer base characters)
    (room : ledger.Room memory.size (13 + characters.reverse.length))
    (holds : image.Holds code pc) :
    Leaves image limit reversalCells ledger characters.reverse
      ⟨pc, .integer pointer :: stack, memory, output⟩ (pc + code.size) stack := by
  have start := installed.record.start
  rcases Sequence.reverse_parts generated with
    ⟨sequence, allocation, loop, done, found, allocated, rfl⟩
  rcases (Except.ok.inj found : layout = sequence) with rfl
  cases allocated
  have length : characters.reverse.length = characters.length := List.length_reverse
  rcases Sequence.source_parks installed sound limit stack output proper_layout string.stores
    holds with
    ⟨place, parked, count, holdsForm, rfl, counted, parks, only, isSource⟩
  have soundParked := sound.only installed only (by decide)
  have still := string.only installed sound only (by decide)
  have roomParked : ledger.Room parked.size (13 + characters.length) := by
    rwa [only.size, ← length]
  have most := soundParked.le_of_room roomParked
  rcases Image.holds_append.mp holdsForm with ⟨holdsForm, holdsLoop⟩
  rcases form_or_traps installed limit stack output soundParked counted (by omega) holdsForm with
    ⟨full, _⟩ | ⟨formed, forms, begins, reserved, _, _⟩
  · exact absurd roomParked full
  have extent : 12 + characters.length * 1 ≤ 13 + characters.length := by omega
  rcases Sequence.mirrors_formed limit stack output installed soundParked proper_layout still.stores
    isSource (by decide) reserved begins.length extent roomParked holdsLoop with
    ⟨after, loops, reservedAfter, items, kept⟩
  have bounds := soundParked.allocate_bounds (13 + characters.length)
  have built : Built image reversalCells ledger characters.reverse memory after := by
    constructor
    · rw [length]
      have header : layout.header = 12 := rfl
      have width : layout.elementWidth = 1 := rfl
      refine begins.congr fun byte lower outside => kept byte (by omega) ?_
      rw [header, width]
      omega
    · rw [length]
      exact read_reverse items still.reads
    · rw [length]
      exact (reservedAfter.mono fun _ => List.mem_cons_of_mem _).after_only (only.mono (by decide))
  apply built.leaves reversalCells_known installed sound
  rw [length]
  simpa only [Code.size_append, Nat.add_assoc] using (parks.trans forms).trans loops

end

end Text

namespace Program

open Sequence (HasElements)
open Text (IsString)

/-- The sequence is reversed, and the reversed one is reversed again. -/
def ReversedTwice (image : Image) (limit : Option Nat) (code : Code) (start : Configuration)
    (stack : List Word) (holds : Heap.Ledger → Memory → Int32 → Nat → Prop) : Prop :=
  ∃ copy between whole after base ledger,
    Runs image limit start ⟨start.pc + code.size, .integer copy :: stack, between, start.output⟩ ∧
    Runs image limit ⟨start.pc, .integer copy :: stack, between, start.output⟩
      ⟨start.pc + code.size, .integer whole :: stack, after, start.output⟩ ∧
    holds ledger after whole base

/-- Clones and reversed sequences are faithful copies. The clone of an array is a fresh array with
the same header and elements. A reversed array or string is a fresh one with the elements, each as
it is, in the other order. What is at rest, the source with it, stays as it was, and reversing twice
gives back the elements. -/
theorem sequences_copied {program : Program} {code : Code} {image : Image} {limit : Option Nat}
    (compiled : program.compile ⟨true⟩ = .ok code) (assembled : Image.assemble code = .ok image)
    (addressable : image.Addressable) (fits : image.dataSize ≤ 2147483647) {ledger : Heap.Ledger}
    {memory : Memory} (sound : Heap.Sound image.word memory ledger) (pc : Nat) (stack : List Word)
    (output : ByteArray) :
    (∀ element elements pointer base,
      HasElements image ledger memory pointer base element elements →
      ledger.Room memory.size (16 + elements.length * element.width) →
        (image.Holds (Sequence.clone element) pc →
          Sequence.Leaves image limit ledger element elements
            ⟨pc, .integer pointer :: stack, memory, output⟩ (pc + (Sequence.clone element).size)
            stack) ∧
        ∀ last next expansion, Sequence.reverse (.array element) last = .ok (expansion, next) →
          image.Holds expansion pc →
            Sequence.Leaves image limit ledger element elements.reverse
              ⟨pc, .integer pointer :: stack, memory, output⟩ (pc + expansion.size) stack ∧
            ((ledger.allocate (16 + elements.length * element.width)).2.Room memory.size
                (16 + elements.length * element.width) →
              ReversedTwice image limit expansion ⟨pc, .integer pointer :: stack, memory, output⟩
                stack fun ledger memory copy base =>
                  HasElements image ledger memory copy base element elements)) ∧
    (∀ characters pointer base, IsString image ledger memory pointer base characters →
      ledger.Room memory.size (13 + characters.length) →
        ∀ last next expansion, Sequence.reverse .string last = .ok (expansion, next) →
          image.Holds expansion pc →
            Text.Leaves image limit Text.reversalCells ledger characters.reverse
              ⟨pc, .integer pointer :: stack, memory, output⟩ (pc + expansion.size) stack ∧
            ((ledger.allocate (13 + characters.length)).2.Room memory.size
                (13 + characters.length) →
              ReversedTwice image limit expansion ⟨pc, .integer pointer :: stack, memory, output⟩
                stack fun ledger memory copy base =>
                  IsString image ledger memory copy base characters)) := by
  have installed := operators_installed compiled assembled addressable fits
  constructor
  · intro element elements pointer base array room
    refine ⟨Sequence.clone_leaves installed sound array room, ?_⟩
    intro last next expansion generated holds
    have length : elements.reverse.length = elements.length := List.length_reverse
    rw [← length] at room ⊢
    have leaves := Sequence.reverse_array_leaves installed sound limit stack output generated array
      room holds
    refine ⟨leaves, fun roomAfter => ?_⟩
    rcases leaves.exists_next room with
      ⟨copy, copyBase, between, first, size, soundBetween, reversed⟩
    have roomAgain : (ledger.allocate (16 + elements.reverse.length * element.width)).2.Room
        between.size (16 + elements.reverse.reverse.length * element.width) := by
      have kept : elements.reverse.reverse.length = elements.reverse.length := List.length_reverse
      rwa [kept, size]
    have again := Sequence.reverse_array_leaves installed soundBetween limit stack output generated
      reversed roomAgain holds
    rcases again.exists_next roomAgain with ⟨whole, wholeBase, after, second, _, _, restored⟩
    rw [List.reverse_reverse] at restored
    exact ⟨copy, between, whole, after, wholeBase, _, first, second, restored⟩
  · intro characters pointer base string room last next expansion generated holds
    have length : characters.reverse.length = characters.length := List.length_reverse
    rw [← length] at room ⊢
    have leaves := Text.reverse_leaves limit stack output installed sound generated string room
      holds
    refine ⟨leaves, fun roomAfter => ?_⟩
    rcases leaves.exists_next Text.reversalCells_known installed sound room with
      ⟨copy, copyBase, between, first, size, soundBetween, reversed, _⟩
    have roomAgain : (ledger.allocate (13 + characters.reverse.length)).2.Room between.size
        (13 + characters.reverse.reverse.length) := by
      have kept : characters.reverse.reverse.length = characters.reverse.length :=
        List.length_reverse
      rwa [kept, size]
    have again := Text.reverse_leaves limit stack output installed soundBetween generated reversed
      roomAgain holds
    rcases again.exists_next Text.reversalCells_known installed soundBetween roomAgain with
      ⟨whole, wholeBase, after, second, _, _, restored, _⟩
    rw [List.reverse_reverse] at restored
    exact ⟨copy, between, whole, after, wholeBase, _, first, second, restored⟩

/-- The clone of an array is reversed. -/
def cloning : Form :=
  .operation (.snippet .arrayReverse) [.typed (.array .integer) (.operation (.snippet .arrayClone)
    [.typed (.array .integer) (.identifier twoNumbers)])]

theorem valueCode_cloning :
    ∃ reversal, ∃ next : Nat, (Expr.typed (.array .integer) cloning).valueCode 0 =
        .ok ((twoNumbersCode ++ Sequence.clone .integer) ++ reversal, next) ∧
      Sequence.reverse (.array .integer) 0 = .ok (reversal, next) :=
  ⟨_, _, rfl, rfl⟩

/-- A string is reversed. -/
def backwards : Form :=
  .operation (.snippet .stringReverse) [.typed .string (.string "ab")]

theorem valueCode_backwards :
    ∃ reversal, ∃ next : Nat, (Expr.typed .string backwards).valueCode 0 =
        .ok (Record.stringLiteral (LabelGroup.label ⟨"string", 1⟩ "literal") "ab" ++ reversal,
          next) ∧
      Sequence.reverse .string 1 = .ok (reversal, next) :=
  ⟨_, _, rfl, rfl⟩

/-- An image of the program has the code of both, and a memory with an array of two numbers. -/
theorem exists_cloning :
    ∃ code image reversal pc place memory elements, ∃ next : Nat,
      (applying (.array .integer) cloning).compile ⟨true⟩ = .ok code ∧
      Image.assemble code = .ok image ∧ image.Addressable ∧ image.dataSize ≤ 65536 ∧
      Sequence.reverse (.array .integer) 0 = .ok (reversal, next) ∧
      image.Holds (Sequence.clone .integer) pc ∧ image.Holds reversal place ∧
      Staged image memory ∧ elements.length = 2 ∧
      HasElements image (stagedLedger image) memory (stagedPointer image)
        (stagedBlock image).address .integer elements := by
  rcases @exists_stage (.array .integer) cloning (by decide +kernel)
    (by simp [Plain, applying, reserving, operations, blockOperations, Statement.operations,
      Expr.operations, Form.operations, exprsOperations, cloning]) with
    ⟨code, image, expansion, next, pc, memory, compiled, assembled, addressable, small, valued,
      holds, staged⟩
  have installed := operators_installed compiled assembled addressable (by omega)
  rcases valueCode_cloning with ⟨reversal, next, same, generated⟩
  cases same.symm.trans valued
  rcases Image.holds_append.mp holds with ⟨holdsClone, holdsReversal⟩
  have holdsClone := (Image.holds_append.mp holdsClone).2
  have stores := SequenceLayout.Stores.of_isArray installed staged.sound staged.array
  have count : (Record.items memory (stagedBlock image).address .integer 2).length = 2 := by
    simp [Record.items]
  have array : HasElements image (stagedLedger image) memory (stagedPointer image)
      (stagedBlock image).address .integer
      (Record.items memory (stagedBlock image).address .integer 2) := by
    constructor
    · exact staged.array.names
    · rw [count]
      exact stores.rests
    · rw [count]
      exact staged.begins
    · rw [count]
  exact ⟨code, image, reversal, _, _, memory, _, next, compiled, assembled, addressable, small,
    generated, holdsClone, holdsReversal, staged, count, array⟩

/-- An image of the program has the code, and memories with a string. -/
theorem exists_backwards :
    ∃ code image reversal pc memory string base, ∃ next : Nat,
      (applying .string backwards).compile ⟨true⟩ = .ok code ∧ Image.assemble code = .ok image ∧
      image.Addressable ∧ image.dataSize ≤ 65536 ∧
      Sequence.reverse .string 1 = .ok (reversal, next) ∧ image.Holds reversal pc ∧
      memory.size = 131072 ∧
      Heap.Sound image.word memory ((stagedLedger image).allocate 15).2 ∧
      IsString image ((stagedLedger image).allocate 15).2 memory string base [97, 98] := by
  rcases @exists_stage .string backwards (by decide +kernel)
    (by simp [Plain, applying, reserving, operations, blockOperations, Statement.operations,
      Expr.operations, Form.operations, exprsOperations, backwards]) with
    ⟨code, image, expansion, next, pc, staging, compiled, assembled, addressable, small, valued,
      holds, staged⟩
  have installed := operators_installed compiled assembled addressable (by omega)
  rcases valueCode_backwards with ⟨reversal, next, same, generated⟩
  cases same.symm.trans valued
  have holdsReversal := (Image.holds_append.mp holds).2
  have initial := staged.size
  have room : (stagedLedger image).Room staging.size 15 := fun _ => by
    have bump : (stagedLedger image).bump = image.dataSize + 28 := rfl
    omega
  rcases Sequence.reverse_parts generated with ⟨layout, allocation, _, _, _, allocated, parts⟩
  rcases (Except.ok.inj allocated : Record.allocateString Record.dynamicStringStatus = allocation)
    with rfl
  rcases Image.holds_append.mp (parts ▸ holdsReversal) with ⟨_, holdsForm⟩
  rcases Image.holds_append.mp (Image.holds_append.mp holdsForm).2 with ⟨_, holdsForm⟩
  rcases Text.exists_string [97, 98] installed staged.sound room
    (Image.holds_append.mp holdsForm).1 with ⟨memory, size, sound, string, _⟩
  exact ⟨code, image, reversal, _, memory, _, _, next, compiled, assembled, addressable, small,
    generated, holdsReversal, by omega, sound, string⟩

/-- An array of two numbers is cloned, reversed, and reversed twice; so is a string but for the
clone. -/
theorem sequences_mirrored :
    (∃ code image reversal pc place memory elements,
      (applying (.array .integer) cloning).compile ⟨true⟩ = .ok code ∧
      Image.assemble code = .ok image ∧ elements.length = 2 ∧
      Sequence.Leaves image none (stagedLedger image) .integer elements
        ⟨pc, [.integer (stagedPointer image)], memory, .empty⟩
        (pc + (Sequence.clone .integer).size) [] ∧
      Sequence.Leaves image none (stagedLedger image) .integer elements.reverse
        ⟨place, [.integer (stagedPointer image)], memory, .empty⟩ (place + reversal.size) [] ∧
      ReversedTwice image none reversal ⟨place, [.integer (stagedPointer image)], memory, .empty⟩
        [] fun ledger memory copy base =>
          HasElements image ledger memory copy base .integer elements) ∧
    ∃ code image reversal pc memory string,
      (applying .string backwards).compile ⟨true⟩ = .ok code ∧ Image.assemble code = .ok image ∧
      Text.Leaves image none Text.reversalCells ((stagedLedger image).allocate 15).2 [98, 97]
        ⟨pc, [.integer string], memory, .empty⟩ (pc + reversal.size) [] ∧
      ReversedTwice image none reversal ⟨pc, [.integer string], memory, .empty⟩ []
        fun ledger memory copy base => IsString image ledger memory copy base [97, 98] := by
  constructor
  · rcases exists_cloning with ⟨code, image, reversal, pc, place, memory, elements, next, compiled,
      assembled, addressable, small, generated, holdsClone, holdsReversal, staged, count, array⟩
    have initial := staged.size
    have fits : image.dataSize ≤ 2147483647 := by omega
    have width : 16 + elements.length * Ty.integer.width = 24 := by rw [count]; rfl
    have room : (stagedLedger image).Room memory.size
        (16 + elements.length * Ty.integer.width) := fun _ => by
      have bump : (stagedLedger image).bump = image.dataSize + 28 := rfl
      omega
    have roomAfter : ((stagedLedger image).allocate
        (16 + elements.length * Ty.integer.width)).2.Room memory.size
          (16 + elements.length * Ty.integer.width) := fun _ => by
      rw [width]
      have bump : ((stagedLedger image).allocate 24).2.bump = image.dataSize + 56 := rfl
      omega
    rcases @sequences_copied _ _ _ none compiled assembled addressable fits _ _ staged.sound pc []
      .empty with ⟨clones, _⟩
    rcases @sequences_copied _ _ _ none compiled assembled addressable fits _ _ staged.sound place
      [] .empty with ⟨reverses, _⟩
    rcases (reverses _ _ _ _ array room).2 _ _ _ generated holdsReversal with ⟨leaves, twice⟩
    exact ⟨code, image, reversal, pc, place, memory, elements, compiled, assembled, count,
      (clones _ _ _ _ array room).1 holdsClone, leaves, twice roomAfter⟩
  · rcases exists_backwards with ⟨code, image, reversal, pc, memory, string, base, next, compiled,
      assembled, addressable, small, generated, holds, size, sound, isString⟩
    have fits : image.dataSize ≤ 2147483647 := by omega
    have room : ((stagedLedger image).allocate 15).2.Room memory.size 15 := fun _ => by
      have bump : ((stagedLedger image).allocate 15).2.bump = image.dataSize + 47 := rfl
      omega
    have roomAfter : (((stagedLedger image).allocate 15).2.allocate 15).2.Room memory.size
        15 := fun _ => by
      have bump : (((stagedLedger image).allocate 15).2.allocate 15).2.bump =
        image.dataSize + 66 := rfl
      omega
    rcases @sequences_copied _ _ _ none compiled assembled addressable fits _ _ sound pc [] .empty
      with ⟨_, reverses⟩
    rcases reverses _ _ _ isString room _ _ _ generated holds with ⟨leaves, twice⟩
    exact ⟨code, image, reversal, pc, memory, string, compiled, assembled, leaves, twice roomAfter⟩

end Program

end StackBackend
