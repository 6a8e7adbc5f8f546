import StackBackend.Proofs.OperatorSteps

namespace StackBackend

/-! What building a record leaves alone. A builder reserves a block, writes in it and in cells of
its own, and copies bytes into it from records that are at rest. -/

/-! ## Records at rest -/

/-- The bytes from a place on are at rest: they are in a block that has been handed out, or in the
data apart from all cells. -/
structure Record.Rests (image : Image) (ledger : Heap.Ledger) (base bytes : Nat) : Prop where
  positive : 0 < base
  lies : (∃ block ∈ ledger.live, base = block.address ∧ bytes ≤ block.size) ∨
    base + bytes ≤ image.dataSize ∧ ∀ index, base ≤ index → index < base + bytes →
      Cells.Misses image.word Program.wordCells index

namespace Record.Rests

variable {image : Image} {ledger : Heap.Ledger} {memory : Memory} {base bytes index : Nat}

variable (rests : Rests image ledger base bytes) (installed : HigherOrder.Installed image)
  (sound : Heap.Sound image.word memory ledger)
include rests installed sound

theorem bounds : base + bytes ≤ memory.size ∧ base + bytes ≤ 2147483647 := by
  have start := installed.record.start
  have first := sound.tiled.start_le
  have inside := sound.inside
  have fits := installed.fits
  rcases rests.lies with ⟨block, live, same, room⟩ | ⟨below, _⟩
  · have bounds := sound.bounds (Heap.Ledger.mem_live.mp live).1
    omega
  · omega

/-- No cell is among bytes at rest. -/
theorem misses (lower : base ≤ index) (upper : index < base + bytes) :
    Cells.Misses image.word Program.wordCells index := by
  rcases rests.lies with ⟨block, live, same, _⟩ | ⟨_, misses⟩
  · have start := installed.record.start
    have bounds := sound.bounds (Heap.Ledger.mem_live.mp live).1
    exact installed.cells.misses_of_floor_le (by omega)
  · exact misses index lower upper

/-- A block that is handed out now lies apart. -/
theorem apart (wanted : Nat) :
    base + bytes ≤ (ledger.allocate wanted).1.address - 4 ∨
      (ledger.allocate wanted).1.address + (ledger.allocate wanted).1.size ≤ base := by
  have start := installed.record.start
  have bounds := sound.allocate_bounds wanted
  rcases rests.lies with ⟨block, live, same, room⟩ | ⟨below, _⟩
  · have apart := sound.allocate_apart wanted live
    omega
  · omega

/-- No free block is among bytes at rest. -/
theorem unlinked {free : Heap.Block} (member : free ∈ ledger.free) (lower : base ≤ index)
    (upper : index < base + bytes) : index < free.address ∨ free.address + 4 ≤ index := by
  have known := sound.known free member
  rcases rests.lies with ⟨block, live, rfl, room⟩ | ⟨below, _⟩
  · rcases Heap.Ledger.mem_live.mp live with ⟨listed, notFree⟩
    apply sound.tiled.first_apart listed known fun same => notFree (same ▸ member)
    exact ⟨lower, by omega⟩
  · have start := installed.record.start
    have bounds := sound.bounds known
    omega

omit installed in
/-- The bytes stay at rest when a block is handed out. -/
theorem allocate (wanted : Nat) : Rests image (ledger.allocate wanted).2 base bytes := by
  refine ⟨rests.positive, ?_⟩
  rcases rests.lies with ⟨block, live, same, room⟩ | data
  · exact .inl ⟨block, (sound.live_allocate wanted).mpr (.inr live), same, room⟩
  · exact .inr data

end Record.Rests

/-- Whatever is at rest is as it was. -/
def Record.Undisturbed (image : Image) (ledger : Heap.Ledger) (before after : Memory) : Prop :=
  ∀ base bytes, Rests image ledger base bytes → ∀ index, base ≤ index → index < base + bytes →
    after.byte index = before.byte index

namespace Heap

/-! ## Reserved blocks -/

/-- A block has been reserved, apart from all blocks that were handed out before. Nothing has
changed but the block, the word before it, the cells, and the words that link the free blocks. -/
structure Reserved (image : Image) (cells : List String) (ledger : Ledger) (wanted : Nat)
    (before after : Memory) : Prop where
  size : after.size = before.size
  header : Address.Names (after.word ((ledger.allocate wanted).1.address - 4))
    (ledger.allocate wanted).1.size
  room : wanted ≤ (ledger.allocate wanted).1.size
  fresh : ∀ other ∈ ledger.live,
    (ledger.allocate wanted).1.address + (ledger.allocate wanted).1.size + 4 ≤ other.address ∨
      other.address + other.size + 4 ≤ (ledger.allocate wanted).1.address
  kept : ∀ index, Cells.Misses image.word cells index →
    index < (ledger.allocate wanted).1.address - 4 ∨
      (ledger.allocate wanted).1.address + (ledger.allocate wanted).1.size ≤ index →
    (∀ free ∈ ledger.free, index < free.address ∨ free.address + 4 ≤ index) →
    after.byte index = before.byte index
  sound : ledger.Room before.size wanted → Sound image.word after (ledger.allocate wanted).2

/-- A request for which there is room is for no more than a word can count. -/
theorem Sound.le_of_room {word : String → Int32} {memory : Memory} {ledger : Ledger} {wanted : Nat}
    (sound : Sound word memory ledger) (room : ledger.Room memory.size wanted) :
    wanted ≤ 2147483643 := by
  rcases ledger.allocate_cases wanted with ⟨block, free, fits, _⟩ | ⟨none, _⟩
  · have bounds := sound.bounds (sound.known block free)
    omega
  · have room := room none
    omega

/-- Cells of which none is the manager's keep the heap sound. -/
theorem Sound.only {image : Image} {names : List String} {before after : Memory} {ledger : Ledger}
    (sound : Sound image.word before ledger) (installed : HigherOrder.Installed image)
    (only : Cells.Only image.word names before after)
    (others : ∀ name ∈ names, name ∈ Program.wordCells ∧ name ∉ [Cell.freeList, Cell.bumpPointer]) :
    Sound image.word after ledger := by
  have start := installed.record.start
  have known : ∀ name ∈ names, name ∈ Program.wordCells := fun name member =>
    (others name member).1
  apply sound.steady
  constructor
  · exact only.size
  · intro name member
    have managed : ∀ name ∈ [Cell.freeList, Cell.bumpPointer], name ∈ Program.wordCells := by
      decide
    exact only.cell installed.cells known (managed name member) fun same =>
      (others name same).2 member
  · intro index inside
    exact only.byte_above installed.cells known (by omega)

namespace Reserved

variable {image : Image} {cells more : List String} {ledger : Ledger} {wanted : Nat}
  {before between after : Memory}

theorem mono (reserved : Reserved image cells ledger wanted before after)
    (subset : ∀ name ∈ cells, name ∈ more) : Reserved image more ledger wanted before after :=
  { reserved with
    kept := fun index misses => reserved.kept index fun name member =>
      misses name (subset name member) }

/-- Handing out a block reserves it. -/
theorem of_handed (sound : Sound image.word before ledger)
    (handed : Handed image.word before after ledger wanted)
    (soundAfter : ledger.Room before.size wanted →
      Sound image.word after (ledger.allocate wanted).2) :
    Reserved image Heap.cells ledger wanted before after where
  size := handed.size
  header := handed.header
  room := Ledger.le_size_allocate wanted
  fresh _ member := sound.allocate_apart wanted member
  kept index misses outside unlinked := handed.kept index misses (by omega) fun free remains =>
    unlinked free (Ledger.free_allocate wanted free remains)
  sound := soundAfter

/-- Cells were written before the block was reserved. -/
theorem after_only (reserved : Reserved image cells ledger wanted between after)
    (only : Cells.Only image.word cells before between) :
    Reserved image cells ledger wanted before after :=
  { reserved with
    size := reserved.size.trans only.size
    kept := fun index misses outside unlinked =>
      (reserved.kept index misses outside unlinked).trans (only.kept index misses)
    sound := fun room => reserved.sound (only.size.symm ▸ room) }

variable (installed : HigherOrder.Installed image) (sound : Sound image.word before ledger)
include installed sound

/-- The block and cells are written after it was reserved. -/
theorem further (names : List String) (reserved : Reserved image cells ledger wanted before between)
    (others : ∀ name ∈ names, name ∈ cells ∧ name ∈ Program.wordCells ∧
      name ∉ [Cell.freeList, Cell.bumpPointer])
    (size : after.size = between.size)
    (kept : ∀ index, Cells.Misses image.word names index →
      ¬ (ledger.allocate wanted).1.Covers index → after.byte index = between.byte index) :
    Reserved image cells ledger wanted before after := by
  have start := installed.record.start
  have bounds := sound.allocate_bounds wanted
  have known : ∀ name ∈ names, name ∈ Program.wordCells := fun name member =>
    (others name member).2.1
  have misses {index : Nat} (above : image.dataSize ≤ index) :
      Cells.Misses image.word names index :=
    (installed.cells.mono known).misses_of_floor_le above
  refine { reserved with size := size.trans reserved.size, header := ?_, kept := ?_, sound := ?_ }
  · rw [Memory.word_congr fun index lower upper =>
      kept index (misses (by omega)) (by unfold Block.Covers; omega)]
    exact reserved.header
  · intro index missing outside unlinked
    rw [kept index (fun name member => missing name (others name member).1)
      (by unfold Block.Covers; omega)]
    exact reserved.kept index missing outside unlinked
  · intro room
    apply (reserved.sound room).within ((sound.live_allocate wanted).mpr (.inl rfl)) size
    · intro name member
      have managed : ∀ name ∈ [Cell.freeList, Cell.bumpPointer], name ∈ Program.wordCells := by
        decide
      have below := installed.cells.below name (managed name member)
      refine Memory.word_congr fun index lower upper => kept index (fun other listed => ?_)
        (by unfold Block.Covers; omega)
      have apart := installed.cells.apart name (managed name member) other (known other listed)
        fun same => (others other listed).2.2 (same ▸ member)
      omega
    · intro index above uncovered
      exact kept index (misses (by omega)) uncovered

/-- Bytes at rest are as they were. -/
theorem byte_rests (reserved : Reserved image cells ledger wanted before after)
    (known : ∀ name ∈ cells, name ∈ Program.wordCells) {base bytes index : Nat}
    (rests : Record.Rests image ledger base bytes) (lower : base ≤ index)
    (upper : index < base + bytes) : after.byte index = before.byte index := by
  have apart := rests.apart installed sound wanted
  apply reserved.kept index
  · exact fun name member => rests.misses installed sound lower upper name (known name member)
  · omega
  · exact fun free member => rests.unlinked installed sound member lower upper

theorem undisturbed (reserved : Reserved image cells ledger wanted before after)
    (known : ∀ name ∈ cells, name ∈ Program.wordCells) :
    Record.Undisturbed image ledger before after :=
  fun _ _ rests _ lower upper => reserved.byte_rests installed sound known rests lower upper

/-- A cell that is not written is as it was. -/
theorem cell (reserved : Reserved image cells ledger wanted before after)
    (known : ∀ name ∈ cells, name ∈ Program.wordCells) {name : String}
    (member : name ∈ Program.wordCells) (other : name ∉ cells) :
    after.cell image.word name = before.cell image.word name := by
  have start := installed.record.start
  have bounds := sound.allocate_bounds wanted
  have below := installed.cells.below name member
  refine Memory.word_congr fun index lower upper => reserved.kept index (fun cell listed => ?_)
    (by omega) fun free unused => ?_
  · have apart := installed.cells.apart name member cell (known cell listed) fun same =>
      other (same ▸ listed)
    omega
  · have bounds := sound.bounds (sound.known free unused)
    omega

omit installed in
/-- What fits into the block is at rest. -/
theorem rests (reserved : Reserved image cells ledger wanted before after) {bytes : Nat}
    (le : bytes ≤ wanted) :
    Record.Rests image (ledger.allocate wanted).2 (ledger.allocate wanted).1.address bytes := by
  have bounds := sound.allocate_bounds wanted
  refine ⟨by omega, .inl ⟨_, (sound.live_allocate wanted).mpr (.inl rfl), rfl, ?_⟩⟩
  exact Nat.le_trans le reserved.room

end Reserved

end Heap

/-- Forming an array reserves its block. -/
theorem Record.Formed.reserved {image : Image} {before after : Memory} {ledger : Heap.Ledger}
    {status : Int32} {element : Ty} {count bytes : Nat}
    (formed : Formed image.word before after ledger (ledger.allocate (16 + bytes)).1 status element
      count bytes)
    (sound : ledger.Room before.size (16 + bytes) →
      Heap.Sound image.word after (ledger.allocate (16 + bytes)).2) :
    Heap.Reserved image Record.cells ledger (16 + bytes) before after :=
  ⟨formed.size, formed.header, formed.room, formed.fresh, formed.kept, sound⟩

/-! ## Copying into a block -/

/-- Code that leaves a size and two addresses, and a call of the routine, copy bytes into a place
beyond the data. -/
theorem CopyBytes.copies (limit : Option Nat) (output : ByteArray) {image : Image} {memory : Memory}
    {stack before : List Word} {places rest : Code} {destination source total : Int32}
    {target origin count pc : Nat} (installed : HigherOrder.Installed image)
    (inside : image.dataSize ≤ memory.size)
    (holds : image.Holds (places ++ .call Entry.copyBytes :: rest) pc)
    (acts : Code.act image.word places before memory = some (.integer total :: .integer source ::
      .integer destination :: stack, memory)) (names : Address.Names destination target)
    (sourceNames : Address.Names source origin) (counted : Address.Names total count)
    (above : image.dataSize ≤ target) (unread : Cells.Apart image.word CopyBytes.cells origin count)
    (apart : target + count ≤ origin ∨ origin + count ≤ target)
    (within : target + count ≤ memory.size) (sourceWithin : origin + count ≤ memory.size)
    (fits : target + count ≤ 2147483648) (sourceFits : origin + count ≤ 2147483648) :
    ∃ after, Runs image limit ⟨pc, before, memory, output⟩
        ⟨pc + places.size + 1, stack, after, output⟩ ∧
      CopyBytes.Copied image.word memory after target origin count := by
  rcases Image.holds_append.mp holds with ⟨holdsPlaces, holdsCall⟩
  rcases installed.copying.atEntry with ⟨here, marks, _⟩
  rcases (Image.holds_cons rfl _ _).mp holdsCall with ⟨found, _⟩
  rcases Array.getElem?_eq_some_iff.mp found with ⟨bound, _⟩
  rcases @CopyBytes.runs image limit memory stack output destination source total target origin
    count (pc + places.size + 1) here installed.copying inside names sourceNames counted
    (fun index lower _ => installed.copying.cells.misses_of_floor_le (by omega)) unread (by omega)
    within sourceWithin fits sourceFits bound marks with ⟨after, copies, copied⟩
  refine ⟨after, ?_, copied⟩
  exact ((Runs.straight holdsPlaces acts).trans
    (Runs.call installed.addressable holdsCall marks)).trans copies

end StackBackend
