import StackBackend.Proofs.Judging
import StackBackend.Proofs.PureFunctions

namespace StackBackend

/-! Reduce is a filter that keeps the order. Its second pass copies the elements that the mask
speaks for into a fresh array, and the mask is given back. -/

/-- A call leads to what a subroutine that calls no value comes to. -/
theorem Course.subroutine {image : Image} {limit : Option Nat} {calls : List Excursion}
    {start : Configuration} {pc here : Nat} {stack : List Word} {memory : Memory}
    {output : ByteArray} {name : String} {rest : Code} (addressable : image.Addressable)
    (holds : image.Holds (.call name :: rest) pc) (marks : image.Marks name here)
    (reached : Course image limit calls start ⟨pc, stack, memory, output⟩) :
    pc + 1 ≤ image.mute.code.size ∧
      ∀ last, Runs image.mute limit
          ⟨here, .integer (Int32.ofNat (pc + 1)) :: stack, memory, output⟩ last →
        Course image limit calls start last := by
  obtain ⟨found, _⟩ := (Image.holds_cons rfl _ _).mp holds
  obtain ⟨bound, _⟩ := Array.getElem?_eq_some_iff.mp found
  have alone : image.Holds [.call name] pc := (Image.holds_cons rfl _ _).mpr ⟨found, trivial⟩
  refine ⟨?_, fun _ runs => reached.further ((Runs.call (Image.addressable_mute addressable)
    (alone.mute (by simp)) (Image.marks_mute.mpr marks)).trans runs)⟩
  rw [Image.size_code_mute]
  exact bound

namespace HigherOrder

open Callback (Terms Serves Obliges Manages)

/-! ## The second pass -/

/-- The words that stay while elements are copied. -/
def copyWords : List String :=
  Cell.stackPointer :: Cell.framePointer :: Cell.freeList :: Cell.bumpPointer :: judgeWords

/-- Array and mask are in the words of the operators, and the fresh array is apart from both. -/
structure Copier (image : Image) (floor : Nat) (block mask target : Heap.Block) (element : Ty)
    (count : Nat) (keeps : Nat → Bool) (ready : Memory) : Prop where
  inside : floor ≤ ready.size
  fits : floor ≤ 2147483647
  length : Address.Names (ready.cell image.word Cell.operatorLength) count
  parked : Parks image floor ready Cell.operatorArray block element count
  masked : Parks image floor ready Cell.operatorResult mask .boolean count
  above : image.dataSize ≤ target.address
  below : target.address + target.size ≤ floor
  room : 16 + (chosen keeps count).length * element.width ≤ target.size
  apart : block.address + block.size ≤ target.address ∨
    target.address + target.size ≤ block.address
  maskApart : mask.address + mask.size ≤ target.address ∨
    target.address + target.size ≤ mask.address
  verdicts : ∀ index < count, ∃ byte, Record.item ready mask.address .boolean index = [byte] ∧
    (keeps index = true ↔ ¬ byte = 0)

/-- The elements that are kept below the index have been copied, and nothing else has changed. -/
structure Copying (image : Image) (block target : Heap.Block) (element : Ty) (count : Nat)
    (keeps : Nat → Bool) (ready : Memory) (index : Nat) (now : Memory) : Prop where
  counts : Counts image now index count
  steady : Steady image.word copyWords (fun other => image.dataSize ≤ other ∧
    (other < target.address + 16 ∨
      target.address + 16 + (chosen keeps count).length * element.width ≤ other)) ready now
  kept : Address.Names (now.cell image.word Cell.operatorCount) (chosen keeps index).length
  items : Record.items now target.address element (chosen keeps index).length =
    (chosen keeps index).map (Record.item ready block.address element)

theorem length_chosen_mono (keeps : Nat → Bool) {index last : Nat} (below : index ≤ last) :
    (chosen keeps index).length ≤ (chosen keeps last).length :=
  ((List.range_sublist.mpr below).filter keeps).length_le

theorem items_succ (memory : Memory) (address : Nat) (element : Ty) (count : Nat) :
    Record.items memory address element (count + 1) =
      Record.items memory address element count ++ [Record.item memory address element count] := by
  rw [Record.items, List.range_succ, List.map_append]
  rfl

/-- Copying beyond the data keeps all cells but those of the routine. -/
theorem steady_copied {image : Image} {before after : Memory} {target origin width : Nat}
    (installed : Installed image)
    (copied : CopyBytes.Copied image.word before after target origin width)
    (above : image.dataSize ≤ target) {names : List String}
    (others : ∀ name ∈ names, name ∈ followed ∧ name ∉ CopyBytes.cells) :
    Steady image.word names (fun other => image.dataSize ≤ other ∧
      (other < target ∨ target + width ≤ other)) before after where
  size := copied.size
  cells name member := by
    have known := followed_known name (others name member).1
    have below := installed.cells.below name known
    refine Memory.word_congr fun other lower upper => copied.kept other (.inl (by omega)) ?_
    intro cell listed
    have apart := installed.cells.apart name known cell (Program.copyCells_known cell listed)
      fun same => (others name member).2 (same ▸ listed)
    omega
  bytes other outside := copied.kept other outside.2
    (installed.copying.cells.misses_of_floor_le outside.1)

section

variable {image : Image} {limit : Option Nat} {floor : Nat} {block mask target : Heap.Block}
  {element : Ty} {count index : Nat} {keeps : Nat → Bool} {ready now : Memory}
  {start : Configuration} {calls : List Excursion}

/-- What is kept so far fits into the fresh array. -/
theorem Copier.room_le (copier : Copier image floor block mask target element count keeps ready)
    (below : index < count) : 16 + (chosen keeps (index + 1)).length * element.width ≤ target.size :=
  Nat.le_trans (Nat.add_le_add_left (Nat.mul_le_mul_right _ (length_chosen_mono keeps below)) _)
    copier.room

theorem Copying.parked (copying : Copying image block target element count keeps ready index now)
    (copier : Copier image floor block mask target element count keeps ready) :
    Parks image floor now Cell.operatorArray block element count ∧
      Parks image floor now Cell.operatorResult mask .boolean count :=
  ⟨copier.parked.of_steady copying.steady (by simp [copyWords, judgeWords]),
    copier.masked.of_steady copying.steady (by simp [copyWords, judgeWords])⟩

/-- Neither the elements nor the verdicts have changed. -/
theorem Copying.items_eq (copying : Copying image block target element count keeps ready index now)
    (copier : Copier image floor block mask target element count keeps ready)
    (below : index < count) :
    Record.item now block.address element index = Record.item ready block.address element index ∧
      Record.item now mask.address .boolean index = Record.item ready mask.address .boolean index := by
  have room := copier.room
  have apart := copier.apart
  have maskApart := copier.maskApart
  have above := copier.parked.above
  have maskAbove := copier.masked.above
  constructor
  · refine item_of_steady copying.steady copier.parked.room (fun other covers => ?_) below
    unfold Heap.Block.Covers at covers
    omega
  · refine item_of_steady copying.steady copier.masked.room (fun other covers => ?_) below
    unfold Heap.Block.Covers at covers
    omega

/-- The loop turns to the next index. -/
theorem Copying.next (installed : Installed image)
    (copier : Copier image floor block mask target element count keeps ready)
    (copying : Copying image block target element count keeps ready index now)
    (below : index < count) {moved : Memory}
    (steady : Steady image.word (Cell.operatorIndex :: copyWords)
      (fun other => image.dataSize ≤ other ∧ (other < target.address + 16 ∨
        target.address + 16 + (chosen keeps count).length * element.width ≤ other)) now moved)
    (kept : Address.Names (moved.cell image.word Cell.operatorCount)
      (chosen keeps (index + 1)).length)
    (items : Record.items moved target.address element (chosen keeps (index + 1)).length =
      (chosen keeps (index + 1)).map (Record.item ready block.address element)) :
    Copying image block target element count keeps ready (index + 1)
      (moved.setCell image.word Cell.operatorIndex
        (moved.cell image.word Cell.operatorIndex + 1)) := by
  have inside := copying.counts.inside
  have size := steady.size
  have setting : Steady image.word (Cell.operatorCount :: copyWords) (fun other =>
      image.dataSize ≤ other) moved (moved.setCell image.word Cell.operatorIndex
        (moved.cell image.word Cell.operatorIndex + 1)) :=
    installed.steady_setCell (by decide) _ (by decide)
  have stays := (steady.mono (fun name member => List.mem_cons_of_mem _ member)
    fun _ keeps => keeps).trans (setting.mono (fun name member => List.mem_cons_of_mem _ member)
      fun _ keeps => keeps.1)
  have length : (_ : Int) = (count : Int) := copying.counts.length
  have last := Int32.toInt_lt (now.cell image.word Cell.operatorLength)
  refine ⟨⟨?_, ?_, ?_⟩, copying.steady.trans stays, ?_, ?_⟩
  · rw [Memory.size_setCell]
    omega
  · rw [installed.words.cell_setCell (by simp [words]) (by omega), steady.cells _ (by simp)]
    exact copying.counts.index.add rfl (by omega)
  · rw [stays.cells _ (by simp [copyWords, judgeWords])]
    exact copying.counts.length
  · rw [setting.cells _ (by simp)]
    exact kept
  · rw [← items]
    exact items_of_steady setting (copier.room_le below) fun other covers =>
      Nat.le_trans copier.above covers.1

/-! ## One element -/

/-- Leaves the places between which an element is copied, and its size. -/
def places (size : Int32) : Code :=
  .duplicate :: (Code.loadWord Cell.operatorCount ++
    (Record.elementAddress Record.arrayHeaderSize size ++ (Code.loadWord Cell.operatorArray ++
      (Code.loadWord Cell.operatorIndex ++
        (Record.elementAddress Record.arrayHeaderSize size ++ [.pushI size])))))

/-- The element at the index has been copied behind the ones before it. -/
theorem Copying.copies (installed : Installed image)
    (copier : Copier image floor block mask target element count keeps ready)
    (copying : Copying image block target element count keeps ready index now)
    (below : index < count) (keep : keeps index = true) {pc : Nat} {stack : List Word}
    {output : ByteArray} {rest : Code}
    (holds : image.Holds (places element.size ++ .call Entry.copyBytes :: rest) pc)
    (reached : Course image limit calls start
      ⟨pc, .integer (Int32.ofNat target.address) :: stack, now, output⟩) :
    ∃ moved, Course image limit calls start
        ⟨pc + (places element.size).size + 1,
          .integer (Int32.ofNat target.address) :: stack, moved, output⟩ ∧
      Steady image.word (Cell.operatorIndex :: Cell.operatorCount :: copyWords)
        (fun other => image.dataSize ≤ other ∧ (other < target.address + 16 ∨
          target.address + 16 + (chosen keeps count).length * element.width ≤ other)) now moved ∧
      Record.items moved target.address element (chosen keeps (index + 1)).length =
        (chosen keeps (index + 1)).map (Record.item ready block.address element) := by
  have inside := copier.inside
  have size := copying.steady.size
  have fits := copier.fits
  have above := copier.above
  have under := copier.below
  have room := copier.room
  have apart := copier.apart
  obtain ⟨parked, _⟩ := copying.parked copier
  have origin := parked.above
  have originRoom := parked.room
  have originBelow := parked.below
  have within := Record.item_le element below
  have next : chosen keeps (index + 1) = chosen keeps index ++ [index] := by
    rw [chosen_succ, if_pos keep]
  have more : (chosen keeps (index + 1)).length ≤ _ := length_chosen_mono keeps below
  rw [next, List.length_append, List.length_singleton] at more
  have targetWithin := Record.item_le element more
  obtain ⟨place, placed, computes⟩ := Record.exists_elementAddress image.word element
    Record.names_arrayHeaderSize (show Address.Names (Int32.ofNat target.address) target.address from
      Address.names_ofNat (by omega)) copying.kept (by omega)
  obtain ⟨source, sourced, finds⟩ := Record.exists_elementAddress image.word element
    Record.names_arrayHeaderSize parked.names copying.counts.index (by omega)
  obtain ⟨holdsPlaces, holdsCall⟩ := Image.holds_append.mp holds
  have acts : Code.act image.word (places element.size)
      (.integer (Int32.ofNat target.address) :: stack) now =
        some (.integer element.size :: .integer source :: .integer place ::
          .integer (Int32.ofNat target.address) :: stack, now) := by
    rw [places, Code.act_duplicate, installed.words.act_loadCell (by simp [words])
      copying.counts.inside, computes, installed.words.act_loadCell (by simp [words])
      copying.counts.inside, installed.words.act_loadCell (by simp [words]) copying.counts.inside,
      finds, Code.act_pushI, Code.act_nil]
  obtain ⟨here, marks, _⟩ := installed.copying.atEntry
  have misses {first last : Nat} (above : image.dataSize ≤ first) :
      Cells.Apart image.word CopyBytes.cells first last := fun other lower _ =>
    installed.copying.cells.misses_of_floor_le (by omega)
  obtain ⟨bound, goesOn⟩ := (reached.straight holdsPlaces acts).subroutine installed.addressable
    holdsCall marks
  obtain ⟨moved, runs, copied⟩ := CopyBytes.runs installed.copying.mute
    (show image.dataSize ≤ now.size by omega) placed
    sourced element.toInt_size (misses (by omega)) (misses (by omega)) (by omega) (by omega)
    (by omega) (by omega) (by omega) bound (Image.marks_mute.mpr marks)
  have steady := steady_copied installed copied (by omega)
    (show ∀ name ∈ Cell.operatorIndex :: Cell.operatorCount :: copyWords, _ by decide)
  refine ⟨moved, goesOn _ runs, steady.mono (fun _ listed => listed) fun other outside => ?_, ?_⟩
  · exact ⟨outside.1, by omega⟩
  · rw [next, List.length_append, List.length_singleton, items_succ, List.map_append,
      List.map_singleton, ← copying.items, ← (copying.items_eq copier below).1]
    have earlier : Record.items moved target.address element (chosen keeps index).length =
        Record.items now target.address element (chosen keeps index).length :=
      List.map_congr_left fun other listed => by
        have before := Record.item_le element (List.mem_range.mp listed)
        exact steady.read fun position lower upper => ⟨by omega, .inl (by omega)⟩
    rw [earlier]
    exact congrArg (fun bytes => _ ++ [bytes]) (Memory.read_shift copied.same)

/-- Copies the element at the index if the mask keeps it. -/
def selection (skip : String) (size : Int32) : Code :=
  (resultSlot 1 ++ [.loadC]) ++ .jumpFalse skip :: (places size ++ .call Entry.copyBytes ::
    (Code.increment Cell.operatorCount ++ [.label skip]))

/-- The verdict at the index is read from the mask. -/
theorem Copying.act_verdict (installed : Installed image)
    (copier : Copier image floor block mask target element count keeps ready)
    (copying : Copying image block target element count keeps ready index now)
    (below : index < count) (stack : List Word) :
    ∃ value, Code.act image.word (resultSlot 1 ++ [.loadC]) stack now =
        some (.integer value :: stack, now) ∧ (keeps index = true ↔ ¬ value = 0) := by
  have inside := copier.inside
  have size := copying.steady.size
  have fits := copier.fits
  obtain ⟨_, masked⟩ := copying.parked copier
  have room := masked.room
  have under := masked.below
  have within := Record.item_le .boolean below
  obtain ⟨byte, holdsByte, keep⟩ := copier.verdicts index below
  rw [← (copying.items_eq copier below).2] at holdsByte
  obtain ⟨slot, named, looks⟩ := exists_resultSlot installed masked copying.counts below (by omega)
    (by omega)
  refine ⟨WordBytes.toInt32 [byte], ?_, by rw [keep, toInt32_eq_zero]⟩
  rw [show (1 : Int32) = Ty.boolean.size from rfl, looks,
    show [Instruction.loadC] = Ty.boolean.loadCode ++ [] from rfl,
    Ty.act_loadCode rfl named (by omega) (by omega),
    show now.read _ _ = [byte] from holdsByte, Code.act_nil]
  rfl

/-- One turn of the loop copies the element at the index if the mask keeps it. -/
theorem Copying.turn (installed : Installed image)
    (copier : Copier image floor block mask target element count keeps ready)
    (copying : Copying image block target element count keeps ready index now)
    (below : index < count) {skip : String} {pc : Nat} {stack : List Word} {output : ByteArray}
    (holds : image.Holds (selection skip element.size) pc)
    (reached : Course image limit calls start
      ⟨pc, .integer (Int32.ofNat target.address) :: stack, now, output⟩) :
    ∃ moved, Course image limit calls start
        ⟨pc + (selection skip element.size).size,
          .integer (Int32.ofNat target.address) :: stack, moved, output⟩ ∧
      image.dataSize ≤ moved.size ∧
      Copying image block target element count keeps ready (index + 1)
        (moved.setCell image.word Cell.operatorIndex
          (moved.cell image.word Cell.operatorIndex + 1)) := by
  obtain ⟨value, acts, keep⟩ := copying.act_verdict installed copier below
    (.integer (Int32.ofNat target.address) :: stack)
  obtain ⟨holdsLook, holdsTest⟩ := Image.holds_append.mp holds
  obtain ⟨_, holdsCopy⟩ := (Image.holds_cons rfl _ _).mp holdsTest
  obtain ⟨_, holdsRest⟩ := Image.holds_append.mp holdsCopy
  obtain ⟨holdsCount, holdsLabel⟩ :=
    Image.holds_append.mp ((Image.holds_cons rfl _ _).mp holdsRest).2
  obtain ⟨marks, _⟩ := (Image.holds_label ..).mp holdsLabel
  have final : pc + (selection skip element.size).size =
      pc + Code.size (resultSlot 1 ++ [.loadC]) + 1 + (places element.size).size + 1 +
        (Code.increment Cell.operatorCount).size := by
    simp only [selection, Code.size_append, Code.size_cons, Code.size_nil, Instruction.isDirective,
      Bool.false_eq_true, if_false, if_true]
    omega
  have looked := reached.straight holdsLook acts
  by_cases zero : value = 0
  · have dropped : ¬ keeps index = true := fun kept => keep.mp kept zero
    have skipped := looked.branch installed.addressable holdsTest rfl marks
      (show _ = some true by simp [Instruction.test, zero])
    refine ⟨now, ?_, copying.counts.inside, copying.next installed copier below (.refl now) ?_ ?_⟩
    · rw [final]
      exact skipped
    · rw [chosen_succ, if_neg dropped, List.append_nil]
      exact copying.kept
    · rw [chosen_succ, if_neg dropped, List.append_nil]
      exact copying.items
  · have passed := looked.branch installed.addressable holdsTest rfl marks
      (show _ = some false by simp [Instruction.test, zero])
    obtain ⟨moved, comes, steady, items⟩ := copying.copies installed copier below (keep.mpr zero)
      holdsCopy passed
    have inside : image.dataSize ≤ moved.size := steady.size.symm ▸ copying.counts.inside
    have counts : Code.act image.word (Code.increment Cell.operatorCount)
        (.integer (Int32.ofNat target.address) :: stack) moved =
          some (.integer (Int32.ofNat target.address) :: stack, moved.setCell image.word
            Cell.operatorCount (moved.cell image.word Cell.operatorCount + 1)) :=
      installed.words.act_lastIncrement (by simp [words]) inside
    have setting : Steady image.word (Cell.operatorIndex :: copyWords)
        (fun other => image.dataSize ≤ other) moved (moved.setCell image.word Cell.operatorCount
          (moved.cell image.word Cell.operatorCount + 1)) :=
      installed.steady_setCell (by decide) _ (by decide)
    refine ⟨_, ?_, by rw [Memory.size_setCell]; exact inside,
      copying.next installed copier below ((steady.mono ?_ fun _ keeps => keeps).trans
        (setting.mono (fun _ listed => listed) fun _ keeps => keeps.1)) ?_ ?_⟩
    · rw [final]
      exact comes.straight holdsCount counts
    · decide
    · have length : (_ : Int) = (count : Int) := copying.counts.length
      have last := Int32.toInt_lt (now.cell image.word Cell.operatorLength)
      have fewer := length_chosen_le keeps index
      rw [installed.words.cell_setCell (by simp [words]) inside, steady.cells _ (by simp),
        chosen_succ, if_pos (keep.mpr zero), List.length_append, List.length_singleton]
      exact copying.kept.add rfl (by omega)
    · rw [← items]
      exact items_of_steady setting (copier.room_le below) fun other covers =>
        Nat.le_trans copier.above covers.1

/-! ## The pass -/

/-- Nothing is copied yet. -/
theorem Copier.begin (installed : Installed image)
    (copier : Copier image floor block mask target element count keeps ready)
    (inside : image.dataSize ≤ ready.size) :
    Copying image block target element count keeps ready 0
      ((ready.setCell image.word Cell.operatorCount 0).setCell image.word Cell.operatorIndex 0) := by
  have counting : Steady image.word copyWords (fun other => image.dataSize ≤ other) ready
      (ready.setCell image.word Cell.operatorCount 0) :=
    installed.steady_setCell (by decide) 0 (by decide)
  have indexing : Steady image.word (Cell.operatorCount :: copyWords)
      (fun other => image.dataSize ≤ other) _
      ((ready.setCell image.word Cell.operatorCount 0).setCell image.word Cell.operatorIndex 0) :=
    installed.steady_setCell (by decide) 0 (by decide)
  have steady := counting.trans
    (indexing.mono (fun name member => List.mem_cons_of_mem _ member) fun _ keeps => keeps)
  refine ⟨⟨?_, ?_, ?_⟩, steady.mono (fun _ listed => listed) fun _ outside => outside.1, ?_, ?_⟩
  · rw [Memory.size_setCell, Memory.size_setCell]
    exact inside
  · rw [installed.words.cell_setCell (by simp [words]) (by rw [Memory.size_setCell]; exact inside)]
    rfl
  · rw [steady.cells _ (by simp [copyWords, judgeWords])]
    exact copier.length
  · rw [indexing.cells _ (by simp), installed.words.cell_setCell (by simp [words]) inside]
    rfl
  · rw [chosen, List.range_zero, List.filter_nil, List.map_nil, List.length_nil, Record.items,
      List.range_zero, List.map_nil]

end

/-! ## The mask is given back -/

/-- Gives back the block that is parked where the result would be. -/
def discard : Code :=
  Code.loadWord Cell.operatorResult ++ [.call Entry.deallocate]

section

variable {image : Image} {limit : Option Nat} {mask : Heap.Block} {ledger : Heap.Ledger}
  {memory : Memory} {start : Configuration} {calls : List Excursion} {names : List String}

end

/-! ## From the verdicts to the result -/

/-- The heap without the mask and with the result. -/
def settled (judged : Heap.Ledger) (mask : Heap.Block) (element : Ty) (kept : List (List UInt8)) :
    Heap.Ledger :=
  (judged.allocate (16 + kept.length * element.width)).2.deallocate mask

section

variable {image : Image} {limit : Option Nat} {terms : Terms} {block mask : Heap.Block}
  {element : Ty} {count : Nat} {allots : Heap.Ledger → Heap.Ledger → Prop}
  {first judged : Heap.Ledger} {ready now formed : Memory} {start : Configuration}
  {calls : List Excursion}

/-- The predicate has spoken for the elements whose verdict in the mask is not zero. -/
theorem Judging.verdicts
    (judge : Judge image terms block mask element count allots first ready)
    (judging : Judging image terms block mask element count allots first ready count calls now)
    {index : Nat} (below : index < count) :
    ∃ byte, Record.item now mask.address .boolean index = [byte] ∧
      (speaks terms ready block.address element index = true ↔ ¬ byte = 0) := by
  have item := judging.filling.items index below
  rw [judge.boolean, elements, List.map_singleton] at item
  obtain ⟨byte, single⟩ := List.length_eq_one_iff.mp
    (Record.length_item now mask.address .boolean index)
  refine ⟨byte, single, ?_⟩
  rw [speaks, ← item, single, verdict_singleton]

/-- Array and mask are as before when the fresh array has been allocated. -/
theorem Judging.copier (installed : Installed image)
    (judge : Judge image terms block mask element count allots first ready)
    (judging : Judging image terms block mask element count allots first ready count calls now)
    (sound : Heap.Sound image.word now judged)
    (live : ∀ block ∈ terms.spared, block ∈ judged.live) {wanted : Nat}
    (enough : 16 + (chosen (speaks terms ready block.address element) count).length *
      element.width ≤ wanted)
    (room : (judged.allocate wanted).2.bump ≤ terms.floor) {kept : Nat → Prop}
    (steady : Steady image.word judgeWords kept now formed)
    (keeps : ∀ block ∈ judged.live, ∀ other, block.Covers other → kept other) :
    Copier image terms.floor block mask (judged.allocate wanted).1 element count
      (speaks terms ready block.address element) formed := by
  have heap := installed.record.start
  have handed := sound.allocate_bounds wanted
  have large := @Heap.Ledger.le_size_allocate judged wanted
  have inside := judging.filling.stands.inside
  have under := judging.filling.stands.above
  have small := judging.filling.stands.fits
  have size := steady.size
  have maskLive := live mask judge.filler.targetSpared
  have apart := sound.allocate_apart wanted
    (live block (judge.filler.spared _ (List.mem_singleton_self _)))
  have maskApart := sound.allocate_apart wanted maskLive
  have parked : Parks image terms.floor now Cell.operatorArray block element count :=
    (judge.filler.parked _ (List.mem_singleton_self _)).of_steady judging.filling.steady
      (by simp [judgeWords])
  have masked := judge.filler.filled.of_steady judging.filling.steady (by simp [judgeWords])
  rw [judge.boolean] at masked
  refine ⟨by omega, by omega, ?_, parked.of_steady steady (by simp [judgeWords]),
    masked.of_steady steady (by simp [judgeWords]), by omega, by omega, by omega,
    by omega, by omega, fun index below => ?_⟩
  · rw [steady.cells _ (by simp [judgeWords])]
    exact judging.filling.counts.length
  · obtain ⟨byte, single, speaking⟩ := judging.verdicts judge below
    refine ⟨byte, ?_, speaking⟩
    rw [← single]
    exact item_of_steady steady masked.room (keeps mask maskLive) below

end

/-! ## Reduce -/

section

variable {image : Image} {limit : Option Nat} {terms : Terms} {block mask : Heap.Block}
  {element : Ty} {count : Nat} {allots : Heap.Ledger → Heap.Ledger → Prop}
  {ledger judged : Heap.Ledger} {memory : Memory} {start : Configuration}
  {kept : List (List UInt8)}

variable {next later : Nat} {held ready : Configuration} {code array function : Code}
  {pointer : Int32} {arrayCalls functionCalls : List Excursion}

variable (installed : Installed image)
  (generated : reduce array (.array element) function next = .ok (code, later))
  (holds : image.Holds code start.pc) (inside : image.dataSize ≤ start.memory.size)
  (evaluates : Evaluates image limit arrayCalls array [.integer pointer]
    (reduceBracket.entered image start) held)
include installed generated holds inside evaluates

end

end HigherOrder

namespace Program

open Callback (Terms Obliges Manages)
open HigherOrder

end Program

end StackBackend
