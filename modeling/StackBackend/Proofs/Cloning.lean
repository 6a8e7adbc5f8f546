import StackBackend.Operator.Sequence
import StackBackend.Proofs.Sequences

namespace StackBackend

/-! Arrays with given elements. The clone of an array is a fresh array with the same elements. -/

namespace Sequence

open Code

/-! ## Arrays as values -/

/-- The pointer is to an array at rest with the elements. -/
structure HasElements (image : Image) (ledger : Heap.Ledger) (memory : Memory) (pointer : Int32)
    (base : Nat) (element : Ty) (elements : List (List UInt8)) : Prop where
  names : Address.Names pointer base
  rests : Record.Rests image ledger base (16 + elements.length * element.width)
  begins : Record.Begins memory base (Record.arrayStatus element) element elements.length
  items : Record.items memory base element elements.length = elements

/-- The cells that builders of arrays work in. -/
def cells : List String :=
  [Cell.sequenceSource, Cell.sequenceIndex] ++ (CopyBytes.cells ++ Record.cells)

/-- The cells that are written once an array has been formed. -/
def fillingCells : List String :=
  Cell.sequenceIndex :: CopyBytes.cells

theorem cells_known : ∀ name ∈ cells, name ∈ Program.wordCells :=
  List.forall_mem_append.mpr ⟨by decide,
    List.forall_mem_append.mpr ⟨Program.copyCells_known, Program.recordCells_known⟩⟩

theorem recordCells_listed : ∀ name ∈ Record.cells, name ∈ cells := fun _ member =>
  List.mem_append_right _ (List.mem_append_right _ member)

theorem copyCells_listed : ∀ name ∈ CopyBytes.cells, name ∈ cells ∧ name ∈ Program.wordCells ∧
    name ∉ [Cell.freeList, Cell.bumpPointer] := fun name member =>
  ⟨List.mem_append_right _ (List.mem_append_left _ member), Program.copyCells_known name member,
    Program.copyCells_unmanaged name member⟩

theorem fillingCells_known : ∀ name ∈ fillingCells, name ∈ cells ∧ name ∈ Program.wordCells ∧
    name ∉ [Cell.freeList, Cell.bumpPointer] :=
  List.forall_mem_cons.mpr ⟨by decide, copyCells_listed⟩

/-- A fresh array with the elements has been made. -/
structure Made (image : Image) (ledger : Heap.Ledger) (element : Ty) (elements : List (List UInt8))
    (before after : Memory) : Prop where
  begins : Record.Begins after
    (ledger.allocate (16 + elements.length * element.width)).1.address
    (Record.arrayStatus element) element elements.length
  items : Record.items after (ledger.allocate (16 + elements.length * element.width)).1.address
    element elements.length = elements
  reserved : Heap.Reserved image cells ledger (16 + elements.length * element.width) before after

/-- A run comes to a fresh array with the elements, which is left above the stack. -/
def Leaves (image : Image) (limit : Option Nat) (ledger : Heap.Ledger) (element : Ty)
    (elements : List (List UInt8)) (start : Configuration) (finish : Nat) (stack : List Word) :
    Prop :=
  ∃ pointer after, pointer =
      Int32.ofNat (ledger.allocate (16 + elements.length * element.width)).1.address ∧
    Runs image limit start ⟨finish, .integer pointer :: stack, after, start.output⟩ ∧
    Made image ledger element elements start.memory after ∧
    Record.Undisturbed image ledger start.memory after ∧
    HasElements image (ledger.allocate (16 + elements.length * element.width)).2 after pointer
      (ledger.allocate (16 + elements.length * element.width)).1.address element elements

section

variable {image : Image} {limit : Option Nat} {ledger : Heap.Ledger} {memory parked after : Memory}
  {pointer : Int32} {base count pc : Nat} {element : Ty} {elements : List (List UInt8)}
  {stack : List Word} {output : ByteArray}

theorem items_eq {memory after : Memory} {target base : Nat}
    (same : ∀ index < count * element.width,
      after.byte (target + 16 + index) = memory.byte (base + 16 + index)) :
    Record.items after target element count = Record.items memory base element count := by
  refine List.map_congr_left fun index listed => Memory.read_shift fun inner below => ?_
  have within := Record.item_le element (List.mem_range.mp listed)
  rw [Nat.add_assoc, same _ (by omega), ← Nat.add_assoc]

namespace HasElements

variable (array : HasElements image ledger memory pointer base element elements)
include array

theorem stores : (SequenceLayout.ofArray element).Stores image ledger memory pointer base
    elements.length :=
  ⟨array.names, array.begins.length, array.rests⟩

/-- An array keeps its elements as long as its bytes stay. -/
theorem congr {ledger' : Heap.Ledger}
    (same : ∀ index, base ≤ index → index < base + (16 + elements.length * element.width) →
      after.byte index = memory.byte index)
    (rests : Record.Rests image ledger base (16 + elements.length * element.width) →
      Record.Rests image ledger' base (16 + elements.length * element.width)) :
    HasElements image ledger' after pointer base element elements where
  names := array.names
  rests := rests array.rests
  begins := array.begins.congr fun index lower upper => same index lower (by omega)
  items := by
    refine (items_eq fun index below => ?_).trans array.items
    exact same _ (by omega) (by omega)

variable (installed : HigherOrder.Installed image) (sound : Heap.Sound image.word memory ledger)
include installed sound

theorem only {names : List String} (only : Cells.Only image.word names memory after)
    (known : ∀ name ∈ names, name ∈ Program.wordCells) :
    HasElements image ledger after pointer base element elements :=
  array.congr (fun _ lower upper => only.kept _ fun name member =>
    array.rests.misses installed sound lower upper name (known name member)) id

/-- Reserving a block changes no array. -/
theorem reserved {names : List String} {wanted : Nat}
    (reserved : Heap.Reserved image names ledger wanted memory after)
    (known : ∀ name ∈ names, name ∈ Program.wordCells) :
    HasElements image (ledger.allocate wanted).2 after pointer base element elements :=
  array.congr (fun _ lower upper => reserved.byte_rests installed sound known array.rests lower
    upper) fun rests => rests.allocate sound wanted

end HasElements

/-- What has been made is left by a run that comes to it. -/
theorem Made.leaves {start : Configuration} {finish : Nat}
    (made : Made image ledger element elements start.memory after)
    (installed : HigherOrder.Installed image) (sound : Heap.Sound image.word start.memory ledger)
    (room : ledger.Room start.memory.size (16 + elements.length * element.width))
    (runs : Runs image limit start ⟨finish, .integer (Int32.ofNat
      (ledger.allocate (16 + elements.length * element.width)).1.address) :: stack, after,
      start.output⟩) : Leaves image limit ledger element elements start finish stack := by
  have bounds := (made.reserved.sound room).bounds (Heap.Ledger.mem_live.mp
    ((sound.live_allocate (16 + elements.length * element.width)).mpr (.inl rfl))).1
  refine ⟨_, after, rfl, runs, made, made.reserved.undisturbed installed sound cells_known,
    Address.names_ofNat (by omega), ?_, made.begins, made.items⟩
  exact made.reserved.rests sound (Nat.le_refl _)

/-- What has been left may be used in turn. -/
theorem Leaves.exists_next {start : Configuration} {finish : Nat}
    (leaves : Leaves image limit ledger element elements start finish stack)
    (room : ledger.Room start.memory.size (16 + elements.length * element.width)) :
    ∃ pointer base after, Runs image limit start
        ⟨finish, .integer pointer :: stack, after, start.output⟩ ∧
      after.size = start.memory.size ∧
      Heap.Sound image.word after
        (ledger.allocate (16 + elements.length * element.width)).2 ∧
      HasElements image (ledger.allocate (16 + elements.length * element.width)).2 after pointer
        base element elements := by
  rcases leaves with ⟨pointer, after, _, runs, made, _, array⟩
  exact ⟨pointer, _, after, runs, made.reserved.size, made.reserved.sound room, array⟩

/-! ## Forming the copy -/

variable (installed : HigherOrder.Installed image)
  (sound : Heap.Sound image.word memory ledger)
include installed sound

/-- A sequence is parked and its length is left. -/
theorem source_parks (limit : Option Nat) (stack : List Word) (output : ByteArray)
    {layout : SequenceLayout} (proper : layout.Proper) {rest : Code}
    (stores : layout.Stores image ledger memory pointer base count)
    (holds : image.Holds (Record.nullCheck ++ (storeWord Cell.sequenceSource ++
      (sourceLength layout.lengthOffset ++ rest))) pc) :
    ∃ place parked length, image.Holds rest place ∧
      place = pc + Record.nullCheck.size + (storeWord Cell.sequenceSource).size +
        (sourceLength layout.lengthOffset).size ∧
      Address.Names length count ∧
      Runs image limit ⟨pc, .integer pointer :: stack, memory, output⟩
        ⟨place, .integer length :: stack, parked, output⟩ ∧
      Cells.Only image.word [Cell.sequenceSource] memory parked ∧
      parked.cell image.word Cell.sequenceSource = pointer := by
  have start := installed.record.start
  have low := sound.tiled.start_le
  have high := sound.inside
  have inside : image.dataSize ≤ memory.size := by omega
  have known : ∀ name ∈ [Cell.sequenceSource], name ∈ Program.wordCells := by decide
  have member := known Cell.sequenceSource (List.mem_cons_self ..)
  rcases (parks_or_faults limit stack output pointer installed member inside holds).2
    stores.ne_zero with ⟨holdsLength, parks⟩
  rcases Image.holds_append.mp holdsLength with ⟨holdsLength, holdsRest⟩
  have only : Cells.Only image.word [Cell.sequenceSource] memory
      (memory.setCell image.word Cell.sequenceSource pointer) :=
    (Cells.Only.refl memory).setCell (List.mem_cons_self ..) _
  have isSource : (memory.setCell image.word Cell.sequenceSource pointer).cell image.word
      Cell.sequenceSource = pointer := installed.cells.cell_setCell member inside
  have soundParked := sound.only installed only (by decide)
  have still := stores.only installed sound proper only known
  have reads := still.act_length installed soundParked proper member isSource stack []
  rw [List.append_nil, act_nil] at reads
  exact ⟨_, _, _, holdsRest, rfl, still.length, parks.trans (.straight holdsLength reads), only,
    isSource⟩

/-- An array for which there is room is formed. -/
theorem allocate_forms (limit : Option Nat) (stack : List Word) (output : ByteArray)
    {length : Int32} (counted : Address.Names length count)
    (room : ledger.Room memory.size (16 + count * element.width))
    (holds : image.Holds (allocate element) pc) :
    ∃ after, Runs image limit ⟨pc, .integer length :: stack, memory, output⟩
        ⟨pc + (allocate element).size,
          .integer (Int32.ofNat (ledger.allocate (16 + count * element.width)).1.address) :: stack,
          after, output⟩ ∧
      Record.Begins after (ledger.allocate (16 + count * element.width)).1.address
        (Record.arrayStatus element) element count ∧
      Heap.Reserved image Record.cells ledger (16 + count * element.width) memory after := by
  have most := sound.le_of_room room
  rcases @Record.form_or_traps image limit memory ledger stack output _ length element pc count _
    installed.record sound counted (counted.mul element.toInt_size (by omega)) (by omega) holds with
    ⟨full, _⟩ | ⟨after, runs, formed, soundAfter⟩
  · exact absurd room full
  · exact ⟨after, runs, formed.begins, formed.reserved soundAfter⟩

end

/-! ## Clones -/

/-- Leaves the number of the bytes of the elements, and where they are and go to. -/
def clonePlaces (element : Ty) : Code :=
  .duplicate :: (addOffset Record.arrayHeaderSize ++ (loadWord Cell.sequenceSource ++
    (addOffset Record.arrayHeaderSize ++
      (sourceLength (SequenceLayout.ofArray element).lengthOffset ++
        [.pushI element.size, .multiply]))))

theorem clone_eq (element : Ty) :
    clone element = Record.nullCheck ++ (storeWord Cell.sequenceSource ++
      (sourceLength (SequenceLayout.ofArray element).lengthOffset ++ (allocate element ++
        (clonePlaces element ++ [.call Entry.copyBytes])))) := by
  simp [clone, clonePlaces, SequenceLayout.ofArray]

/-- The clone of an array has its elements. -/
theorem clone_leaves {image : Image} {limit : Option Nat} {ledger : Heap.Ledger} {memory : Memory}
    {pointer : Int32} {base pc : Nat} {element : Ty} {elements : List (List UInt8)}
    {stack : List Word} {output : ByteArray} (installed : HigherOrder.Installed image)
    (sound : Heap.Sound image.word memory ledger)
    (array : HasElements image ledger memory pointer base element elements)
    (room : ledger.Room memory.size (16 + elements.length * element.width))
    (holds : image.Holds (clone element) pc) :
    Leaves image limit ledger element elements ⟨pc, .integer pointer :: stack, memory, output⟩
      (pc + (clone element).size) stack := by
  have start := installed.record.start
  have proper := SequenceLayout.proper_ofArray element
  rw [clone_eq] at holds ⊢
  rcases source_parks installed sound limit stack output proper array.stores holds with
    ⟨place, parked, length, holdsForm, rfl, counted, parks, only, isSource⟩
  have soundParked := sound.only installed only (by decide)
  have arrayParked := array.only installed sound only (by decide)
  have roomParked : ledger.Room parked.size (16 + elements.length * element.width) := by
    rwa [only.size]
  -- A fresh array is formed.
  rcases Image.holds_append.mp holdsForm with ⟨holdsForm, holdsCopy⟩
  rcases allocate_forms installed soundParked limit stack output counted roomParked holdsForm with
    ⟨formed, forms, begins, reserved⟩
  have soundFormed := reserved.sound roomParked
  have known := Program.recordCells_known
  have arrayFormed := arrayParked.reserved installed soundParked reserved known
  have source : formed.cell image.word Cell.sequenceSource = pointer :=
    (reserved.cell installed soundParked known (by decide) (by decide)).trans
      isSource
  have room' := reserved.room
  have apart := arrayParked.rests.apart installed soundParked
    (16 + elements.length * element.width)
  have inner := arrayFormed.rests.bounds installed soundFormed
  have low := soundFormed.tiled.start_le
  have high := soundFormed.inside
  have bounds := soundFormed.bounds (Heap.Ledger.mem_live.mp
    ((soundParked.live_allocate (16 + elements.length * element.width)).mpr (.inl rfl))).1
  have fits := soundFormed.fits
  -- The elements are copied.
  have lengthFormed : Address.Names (formed.word (base + 12)) elements.length :=
    arrayFormed.begins.length
  have total := lengthFormed.mul element.toInt_size (by omega)
  have target : Address.Names (Int32.ofNat
      (ledger.allocate (16 + elements.length * element.width)).1.address + Record.arrayHeaderSize)
      ((ledger.allocate (16 + elements.length * element.width)).1.address + 16) :=
    (Address.names_ofNat (by omega)).plus Record.names_arrayHeaderSize (by omega)
  have origin : Address.Names (pointer + Record.arrayHeaderSize) (base + 16) :=
    array.names.plus Record.names_arrayHeaderSize (by omega)
  have acts : Code.act image.word (clonePlaces element)
      (.integer (Int32.ofNat
        (ledger.allocate (16 + elements.length * element.width)).1.address) :: stack) formed =
        some (.integer (formed.word (base + 12) * element.size) ::
          .integer (pointer + Record.arrayHeaderSize) :: .integer (Int32.ofNat
            (ledger.allocate (16 + elements.length * element.width)).1.address +
              Record.arrayHeaderSize) :: .integer (Int32.ofNat
            (ledger.allocate (16 + elements.length * element.width)).1.address) :: stack,
          formed) := by
    have reads := arrayFormed.stores.act_length installed soundFormed proper (by decide)
      source
    rw [clonePlaces, act_duplicate, act_addOffset,
      installed.cells.act_loadCell (by decide) (by omega), source, act_addOffset,
      sourceLength, List.append_assoc, reads, act_pushI, act_multiply, act_nil]
    rfl
  rcases CopyBytes.copies limit output installed (by omega) holdsCopy acts target origin total
    (by omega) (fun index lower upper name listed =>
      arrayFormed.rests.misses installed soundFormed (by omega) (by omega) name
        (by revert name; decide)) (by omega) (by omega) (by omega) (by omega) (by omega)
    with ⟨after, copies, copied⟩
  have made : Made image ledger element elements memory after := by
    constructor
    · exact begins.congr fun index lower upper => copied.kept index (.inl upper)
        (installed.copying.cells.misses_of_floor_le (by omega))
    · exact (items_eq copied.same).trans arrayFormed.items
    · apply (((reserved.mono recordCells_listed).further installed soundParked
        CopyBytes.cells copyCells_listed copied.size
        fun index misses uncovered => ?_)).after_only (only.mono (by decide))
      unfold Heap.Block.Covers at uncovered
      exact copied.kept index (by omega) misses
  apply made.leaves installed sound room
  simpa only [Code.size_append, Code.size_cons, Code.size_nil, Instruction.isDirective,
    Bool.false_eq_true, if_false, Nat.add_assoc, Nat.zero_add] using
    (parks.trans forms).trans copies

end Sequence

end StackBackend
