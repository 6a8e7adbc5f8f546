import StackBackend.Proofs.Sequences

namespace StackBackend

/-! A fresh string has its header and its zero byte; its characters are written afterwards. Without
room for it the run ends in a machine error. -/

namespace Text

open Code Record Address

/-! ## Strings -/

/-- The words that a string begins with, and the zero byte behind its characters. -/
structure Begins (memory : Memory) (address : Nat) (status : Int32) (count : Nat) : Prop where
  typeId : memory.word address = stringTypeId
  status : memory.word (address + 4) = status
  length : Names (memory.word (address + 8)) count
  terminated : memory.byte (address + 12 + count) = 0

/-- A string begins as before when neither its header nor its zero byte changes. -/
theorem Begins.congr {before after : Memory} {address count : Nat} {status : Int32}
    (begins : Begins before address status count)
    (same : ∀ index, address ≤ index → index < address + 12 ∨ index = address + 12 + count →
      after.byte index = before.byte index) :
    Begins after address status count where
  typeId :=
    (Memory.word_congr fun index _ _ => same index (by omega) (by omega)).trans begins.typeId
  status :=
    (Memory.word_congr fun index _ _ => same index (by omega) (by omega)).trans begins.status
  length := by
    rw [Memory.word_congr fun index _ _ => same index (by omega) (by omega)]
    exact begins.length
  terminated := (same _ (by omega) (.inr rfl)).trans begins.terminated

/-! ## The blocks of the code -/

/-- Parks the length, and leaves the size of the record. -/
def prepare : Code :=
  .duplicate :: (storeWord Cell.stringLength ++ addOffset (stringHeaderSize + 1))

/-- Writes the words that a string begins with. -/
def inscribe (status : Int32) : Code :=
  field [.pushI stringTypeId] typeIdOffset ++ (field [.pushI status] statusOffset ++
    field (loadWord Cell.stringLength) stringLengthOffset)

/-- Leaves the place behind the characters, and zero. -/
def ending : Code :=
  .duplicate :: (addOffset stringHeaderSize ++ (loadWord Cell.stringLength ++ [.add, .pushI 0]))

theorem allocateString_eq (status : Int32) :
    allocateString status =
      prepare ++ .call Entry.allocate :: (inscribe status ++ (ending ++ [.storeC])) := by
  simp only [allocateString, allocateRecord, prepare, inscribe, ending, field, join_cons, join_nil,
    List.append_assoc, List.cons_append, List.nil_append, List.append_nil]

/-- The cells that the allocation of a string works in. -/
def allocationCells : List String :=
  Cell.stringLength :: Heap.cells

section

variable {image : Image} {limit : Option Nat} {memory : Memory} {ledger : Heap.Ledger}
  {stack : List Word} {output : ByteArray} {status length : Int32} {pc address count : Nat}
  (installed : HigherOrder.Installed image)
include installed

/-- The header is written, or it reaches beyond the memory. -/
theorem inscribe_or_traps (limit : Option Nat) (stack : List Word) (output : ByteArray)
    {rest : Code} (floor : image.dataSize ≤ address) (small : address + 12 ≤ 4294967296)
    (inside : image.dataSize ≤ memory.size)
    (parked : memory.cell image.word Cell.stringLength = length) (counted : Names length count)
    (holds : image.Holds (inscribe status ++ rest) pc) :
    (¬ (address + 12 ≤ memory.size ∧ address + 12 ≤ 2147483647) ∧
        Configuration.Traps image limit
          ⟨pc, .integer (Int32.ofNat address) :: stack, memory, output⟩) ∨
      ∃ after, Runs image limit ⟨pc, .integer (Int32.ofNat address) :: stack, memory, output⟩
          ⟨pc + (inscribe status).size, .integer (Int32.ofNat address) :: stack, after, output⟩ ∧
        Names (Int32.ofNat address) address ∧
        address + 12 ≤ memory.size ∧ after.size = memory.size ∧
        after.word address = stringTypeId ∧ after.word (address + 4) = status ∧
        Names (after.word (address + 8)) count ∧
        ∀ index, index < address ∨ address + 12 ≤ index →
          after.byte index = memory.byte index := by
  have known : Cell.stringLength ∈ Program.wordCells := by decide
  simp only [inscribe, List.append_assoc] at holds
  rcases @Record.field_at image limit _ stack output _ address 12 0 stringTypeId _ _
    (by omega) small holds rfl with failed | ⟨named, _, holds, typed⟩
  · exact .inl failed
  rcases @Record.field_at image limit _ stack output _ address 12 4 status _ _
    (by omega) small holds rfl with failed | ⟨_, _, holds, marked⟩
  · exact .inl ⟨by simpa using failed.1, .of_runs typed failed.2⟩
  have loads (stack : List Word) : Code.act image.word (loadWord Cell.stringLength) stack
      ((memory.setWord (address + 0) stringTypeId).setWord (address + 4) status) =
        some (.integer length :: stack,
          (memory.setWord (address + 0) stringTypeId).setWord (address + 4) status) := by
    rw [installed.cells.act_lastLoad known (by simpa using inside),
      installed.cells.cell_setWord known (by omega), installed.cells.cell_setWord known (by omega),
      parked]
  rcases @Record.field_at image limit _ stack output _ address 12 8 length _ _
    (by omega) small holds (loads _) with failed | ⟨_, within, _, measured⟩
  · exact .inl ⟨by simpa using failed.1, .of_runs (typed.trans marked) failed.2⟩
  simp only [Memory.size_setWord] at within
  refine .inr ⟨((memory.setWord (address + 0) stringTypeId).setWord (address + 4) status).setWord
    (address + 8) length, ?_, named, within, ?_, ?_, ?_, ?_, ?_⟩
  · simp only [inscribe, Code.size_append, ← Nat.add_assoc]
    exact (typed.trans marked).trans measured
  · simp only [Memory.size_setWord]
  · rw [Memory.word_setWord_of_apart (by omega), Memory.word_setWord_of_apart (by omega)]
    exact Memory.word_setWord (by omega) _
  · rw [Memory.word_setWord_of_apart (by omega),
      Memory.word_setWord (by rw [Memory.size_setWord]; omega)]
  · rw [Memory.word_setWord (by simp only [Memory.size_setWord]; omega)]
    exact counted
  · intro index outside
    rw [Memory.byte_setWord_of_outside (by omega), Memory.byte_setWord_of_outside (by omega),
      Memory.byte_setWord_of_outside (by omega)]

/-- The zero byte is written, or the record reaches beyond the memory. -/
theorem end_or_traps (limit : Option Nat) (stack : List Word) (output : ByteArray) (address : Nat)
    (small : address + 13 + count ≤ 4294967296) (inside : image.dataSize ≤ memory.size)
    (parked : memory.cell image.word Cell.stringLength = length) (counted : Names length count)
    (holds : image.Holds (ending ++ [.storeC]) pc) :
    (¬ (address + 13 + count ≤ memory.size ∧ address + 13 + count ≤ 2147483647) ∧
        Configuration.Traps image limit
          ⟨pc, .integer (Int32.ofNat address) :: stack, memory, output⟩) ∨
      address + 13 + count ≤ memory.size ∧ address + 13 + count ≤ 2147483648 ∧
        Runs image limit ⟨pc, .integer (Int32.ofNat address) :: stack, memory, output⟩
          ⟨pc + Code.size (ending ++ [.storeC]), .integer (Int32.ofNat address) :: stack,
            memory.write (address + 12 + count) [0], output⟩ := by
  have known : Cell.stringLength ∈ Program.wordCells := by decide
  have acts : Code.act image.word ending (.integer (Int32.ofNat address) :: stack) memory =
      some (.integer 0 :: .integer (Int32.ofNat address + stringHeaderSize + length) ::
        .integer (Int32.ofNat address) :: stack, memory) := by
    rw [ending, act_duplicate, act_addOffset, installed.cells.act_loadCell known inside, parked,
      act_add, act_pushI, act_nil]
  have place : Int32.ofNat address + stringHeaderSize + length =
      Int32.ofNat (address + 12 + count) := by
    rw [Heap.eq_ofNat_of_names counted, Int32.ofNat_add, Int32.ofNat_add]
    rfl
  rw [place] at acts
  cases found : memory.index? (Int32.ofNat (address + 12 + count)) 1 with
  | none =>
      refine .inl ⟨?_, Configuration.traps_storeC holds acts found⟩
      rintro ⟨within, fits⟩
      rw [Memory.index?_eq_some.mpr ⟨names_ofNat (by omega), by omega⟩] at found
      cases found
  | some index =>
      rcases Memory.index?_eq_some.mp found with ⟨placed, within⟩
      have same := eq_of_names_ofNat (by omega) placed
      have bound := Int32.toInt_lt (Int32.ofNat (address + 12 + count))
      subst same
      have value : (_ : Int) = ((address + 12 + count : Nat) : Int) := placed
      refine .inr ⟨by omega, by omega, .straight holds ?_⟩
      rw [act_append_eq acts]
      exact act_storeC (Memory.store?_eq placed (by simpa using within))

/-- A string of the length is formed, or there is no room for it. -/
theorem form_or_traps (limit : Option Nat) (stack : List Word) (output : ByteArray)
    (sound : Heap.Sound image.word memory ledger) (counted : Names length count)
    (fits : 13 + count ≤ 2147483647) (holds : image.Holds (allocateString status) pc) :
    (¬ ledger.Room memory.size (13 + count) ∧
        Configuration.Traps image limit ⟨pc, .integer length :: stack, memory, output⟩) ∨
      ∃ after, Runs image limit ⟨pc, .integer length :: stack, memory, output⟩
          ⟨pc + (allocateString status).size,
            .integer (Int32.ofNat (ledger.allocate (13 + count)).1.address) :: stack, after,
            output⟩ ∧
        Begins after (ledger.allocate (13 + count)).1.address status count ∧
        Heap.Reserved image allocationCells ledger (13 + count) memory after ∧
        (ledger.allocate (13 + count)).1.address + 13 + count ≤ memory.size ∧
        (ledger.allocate (13 + count)).1.address + 13 + count ≤ 2147483648 := by
  have start := installed.record.start
  have first := sound.tiled.start_le
  have within := sound.inside
  have below := sound.fits
  have bounds := sound.allocate_bounds (13 + count)
  have room := @Heap.Ledger.le_size_allocate ledger (13 + count)
  have known : Cell.stringLength ∈ Program.wordCells := by decide
  rw [allocateString_eq] at holds ⊢
  rcases Image.holds_append.mp holds with ⟨_, holdsCall⟩
  rcases Image.holds_append.mp ((Image.holds_cons rfl _ _).mp holdsCall).2 with
    ⟨holdsInscribe, holdsEnd⟩
  -- The length is parked.
  have prepares : Code.act image.word prepare (.integer length :: stack) memory =
      some (.integer (length + 13) :: stack,
        memory.setCell image.word Cell.stringLength length) := by
    rw [prepare, act_duplicate, installed.cells.act_storeCell known (by omega),
      ← List.append_nil (addOffset _), act_addOffset, act_nil]
    rfl
  have parking : Cells.Only image.word [Cell.stringLength] memory
      (memory.setCell image.word Cell.stringLength length) :=
    (Cells.Only.refl memory).setCell (List.mem_cons_self ..) _
  have parked : (memory.setCell image.word Cell.stringLength length).cell image.word
      Cell.stringLength = length := installed.cells.cell_setCell known (by omega)
  have size : (memory.setCell image.word Cell.stringLength length).size = memory.size :=
    Memory.size_setCell ..
  generalize memory.setCell image.word Cell.stringLength length = middle at *
  have soundParked := sound.only installed parking (by decide)
  -- A block is reserved.
  have wanted : Names (length + 13) (13 + count) := by
    rw [Nat.add_comm]
    exact counted.add rfl (by omega)
  rcases @Heap.request_or_traps image limit _ ledger stack output _ _ installed.record.managed
    _ _ _ _ _ holds prepares soundParked wanted (by omega) with
    ⟨full, traps⟩ | ⟨handed, allocates, handing, soundHanded⟩
  · exact .inl ⟨size ▸ full, traps⟩
  have reserved : Heap.Reserved image allocationCells ledger (13 + count) memory handed :=
    ((Heap.Reserved.of_handed soundParked handing soundHanded).mono
      fun _ => List.mem_cons_of_mem _).after_only
      (parking.mono (by decide))
  have handedSize := reserved.size
  have reaches (fit : ledger.Room memory.size (13 + count)) :
      (ledger.allocate (13 + count)).1.address + 13 + count ≤ handed.size ∧
        (ledger.allocate (13 + count)).1.address + 13 + count ≤ 2147483647 := by
    have sound := reserved.sound fit
    have inside := sound.inside
    have fits := sound.fits
    omega
  have still : handed.cell image.word Cell.stringLength = length :=
    ((Heap.Reserved.of_handed soundParked handing soundHanded).cell installed soundParked
      (by decide) known (by decide)).trans parked
  -- The header and the zero byte are written.
  rcases inscribe_or_traps installed limit stack output
    (show image.dataSize ≤ (ledger.allocate (13 + count)).1.address by omega) (by omega)
    (by omega) still counted (Image.holds_append.mpr ⟨holdsInscribe, holdsEnd⟩) with
    ⟨beyond, traps⟩ |
    ⟨inscribed, inscribes, named, _, inscribedSize, typed, marked, measured, other⟩
  · exact .inl ⟨fun fit => beyond (by have := reaches fit; omega), .of_runs allocates traps⟩
  have address : (_ : Int) = ((ledger.allocate (13 + count)).1.address : Int) := named
  have upper := Int32.toInt_lt (Int32.ofNat (ledger.allocate (13 + count)).1.address)
  have untouched : inscribed.cell image.word Cell.stringLength = length := by
    have low := installed.cells.below Cell.stringLength known
    rw [← still]
    exact Memory.word_congr fun index _ upper => other index (.inl (by omega))
  rcases end_or_traps installed limit stack output (ledger.allocate (13 + count)).1.address
    (by omega) (by omega) untouched counted holdsEnd with
    ⟨beyond, traps⟩ | ⟨inside, fits, ends⟩
  · exact .inl ⟨fun fit => beyond (by have := reaches fit; omega),
      .of_runs (allocates.trans inscribes) traps⟩
  refine .inr ⟨inscribed.write ((ledger.allocate (13 + count)).1.address + 12 + count) [0], ?_,
    ⟨?_, ?_, ?_, ?_⟩, ?_, by omega, fits⟩
  · have whole := (allocates.trans inscribes).trans ends
    simpa only [Code.size_append, Code.size_cons, Code.size_nil, Instruction.isDirective,
      Bool.false_eq_true, if_false, Nat.add_assoc] using whole
  · rw [Memory.word_write_of_apart (.inl (by omega))]
    exact typed
  · rw [Memory.word_write_of_apart (.inl (by omega))]
    exact marked
  · rw [Memory.word_write_of_apart (.inl (by omega))]
    exact measured
  · exact Memory.byte_write_byte (by omega)
  · apply reserved.further installed sound [] (fun _ listed => nomatch listed)
    · rw [Memory.size_write, inscribedSize]
    · intro index _ uncovered
      unfold Heap.Block.Covers at uncovered
      rw [Memory.byte_write_byte_of_ne (by omega), other index (by omega)]

end

/-! ## Strings as values -/

/-- Where the parts of a string are. -/
def layout : SequenceLayout :=
  ⟨stringHeaderSize, stringLengthOffset, 1⟩

theorem proper_layout : layout.Proper :=
  have found : Ty.string.sequenceLayout = .ok layout := rfl
  SequenceLayout.proper_of_found found

/-- The pointer is to a string at rest with the characters. -/
structure IsString (image : Image) (ledger : Heap.Ledger) (memory : Memory) (pointer : Int32)
    (base : Nat) (characters : List UInt8) : Prop where
  stores : layout.Stores image ledger memory pointer base characters.length
  reads : memory.read (base + 12) characters.length = characters

/-- The cells that builders of strings work in. -/
def cells : List String :=
  [Cell.stringLength, Cell.stringFirst, Cell.stringSecond, Cell.stringStart, Cell.stringEnd,
    Cell.stringCharacter] ++ (CopyBytes.cells ++ Heap.cells)

/-- The cells that operands are parked in. -/
def operandCells : List String :=
  [Cell.stringFirst, Cell.stringSecond, Cell.stringStart, Cell.stringEnd, Cell.stringCharacter]

/-- The cells that are written once the operands have been parked. -/
def fillingCells : List String :=
  allocationCells ++ CopyBytes.cells

theorem operandCells_known : ∀ name ∈ operandCells,
    name ∈ Program.wordCells ∧ name ∉ fillingCells ∧ name ∉ [Cell.freeList, Cell.bumpPointer] := by
  decide

theorem allocationCells_known : ∀ name ∈ allocationCells, name ∈ Program.wordCells :=
  List.forall_mem_cons.mpr ⟨by decide, Program.heapCells_known⟩

theorem fillingCells_known : ∀ name ∈ fillingCells, name ∈ Program.wordCells :=
  List.forall_mem_append.mpr ⟨allocationCells_known, Program.copyCells_known⟩

theorem cells_known : ∀ name ∈ cells, name ∈ Program.wordCells :=
  List.forall_mem_append.mpr ⟨by decide,
    List.forall_mem_append.mpr ⟨Program.copyCells_known, Program.heapCells_known⟩⟩

theorem fillingCells_listed : ∀ name ∈ fillingCells, name ∈ cells := by
  intro name member
  simp only [fillingCells, allocationCells, cells, List.mem_append, List.mem_cons] at member ⊢
  tauto

theorem allocationCells_listed : ∀ name ∈ allocationCells, name ∈ fillingCells := fun _ =>
  List.mem_append_left _

/-- A fresh string with the characters has been built, and beside the heap only the cells have been
written. -/
structure Built (image : Image) (names : List String) (ledger : Heap.Ledger)
    (characters : List UInt8) (before after : Memory) : Prop where
  begins : Begins after (ledger.allocate (13 + characters.length)).1.address dynamicStringStatus
    characters.length
  reads : after.read ((ledger.allocate (13 + characters.length)).1.address + 12)
    characters.length = characters
  reserved : Heap.Reserved image names ledger (13 + characters.length) before after

/-- A run comes to a fresh string with the characters, which is left above the stack. -/
def Leaves (image : Image) (limit : Option Nat) (names : List String) (ledger : Heap.Ledger)
    (characters : List UInt8) (start : Configuration) (finish : Nat) (stack : List Word) : Prop :=
  ∃ pointer after, pointer = Int32.ofNat (ledger.allocate (13 + characters.length)).1.address ∧
    Runs image limit start ⟨finish, .integer pointer :: stack, after, start.output⟩ ∧
    Built image names ledger characters start.memory after ∧
    Record.Undisturbed image ledger start.memory after ∧
    (ledger.Room start.memory.size (13 + characters.length) →
      IsString image (ledger.allocate (13 + characters.length)).2 after pointer
        (ledger.allocate (13 + characters.length)).1.address characters)

/-- A run comes to a fresh string with the characters, or there is no room for it. -/
def Builds (image : Image) (limit : Option Nat) (names : List String) (ledger : Heap.Ledger)
    (characters : List UInt8) (start : Configuration) (finish : Nat) (stack : List Word) : Prop :=
  (¬ ledger.Room start.memory.size (13 + characters.length) ∧
      Configuration.Traps image limit start) ∨
    Leaves image limit names ledger characters start finish stack

section

variable {image : Image} {limit : Option Nat} {before ready now memory after : Memory}
  {ledger : Heap.Ledger} {stack : List Word} {output : ByteArray} {pointer : Int32}
  {pc base count : Nat} {characters : List UInt8} {label : String} {names : List String}

namespace IsString

variable (string : IsString image ledger memory pointer base characters)
  (installed : HigherOrder.Installed image) (sound : Heap.Sound image.word memory ledger)
include string installed sound

theorem bounds : base + 12 + characters.length ≤ memory.size ∧
    base + 12 + characters.length ≤ 2147483647 := by
  have bounds := string.stores.bounds installed sound
  have header : layout.header = 12 := rfl
  have width : layout.elementWidth = 1 := rfl
  rwa [header, width, Nat.mul_one] at bounds

omit installed sound in
theorem rests : Record.Rests image ledger base (12 + characters.length) := by
  have rests := string.stores.rests
  have header : layout.header = 12 := rfl
  have width : layout.elementWidth = 1 := rfl
  rwa [header, width, Nat.mul_one] at rests

omit installed sound in
/-- A string stays one as long as its bytes stay. -/
theorem congr {ledger' : Heap.Ledger}
    (same : ∀ index, base ≤ index → index < base + (12 + characters.length) →
      after.byte index = memory.byte index)
    (rests : Record.Rests image ledger base (12 + characters.length) →
      Record.Rests image ledger' base (12 + characters.length)) :
    IsString image ledger' after pointer base characters := by
  have kept : layout.Stores image ledger after pointer base characters.length :=
    string.stores.congr proper_layout fun index lower upper => same index lower (by
      have header : layout.header = 12 := rfl
      omega)
  refine ⟨⟨kept.names, kept.length, ?_⟩, ?_⟩
  · have header : layout.header = 12 := rfl
    have width : layout.elementWidth = 1 := rfl
    rw [header, width, Nat.mul_one]
    exact rests string.rests
  · rw [Memory.read_congr fun index lower upper => same index (by omega) (by omega)]
    exact string.reads

theorem only {names : List String} (only : Cells.Only image.word names memory after)
    (known : ∀ name ∈ names, name ∈ Program.wordCells) :
    IsString image ledger after pointer base characters :=
  string.congr (fun _ lower upper => only.kept _ fun name member =>
    string.rests.misses installed sound lower upper name (known name member)) id

/-- Reserving a block changes no string. -/
theorem reserved {names : List String} {wanted : Nat}
    (reserved : Heap.Reserved image names ledger wanted memory after)
    (known : ∀ name ∈ names, name ∈ Program.wordCells) :
    IsString image (ledger.allocate wanted).2 after pointer base characters :=
  string.congr (fun _ lower upper => reserved.byte_rests installed sound known
    string.rests lower upper) fun rests => rests.allocate sound wanted

/-- The length of the string that a cell points to is read. -/
theorem act_lengthOf (member : label ∈ operandCells)
    (parked : memory.cell image.word label = pointer) (stack : List Word) (rest : Code) :
    Code.act image.word (lengthOf label ++ rest) stack memory =
      Code.act image.word rest (.integer (memory.word (base + 8)) :: stack) memory := by
  rw [lengthOf, List.append_assoc]
  exact string.stores.act_length installed sound proper_layout (operandCells_known label member).1
    parked stack rest

end IsString

/-- What has been built is a string at rest. -/
theorem Built.isString (built : Built image names ledger characters before after)
    (sound : Heap.Sound image.word before ledger)
    (room : ledger.Room before.size (13 + characters.length)) :
    IsString image (ledger.allocate (13 + characters.length)).2 after
      (Int32.ofNat (ledger.allocate (13 + characters.length)).1.address)
      (ledger.allocate (13 + characters.length)).1.address characters := by
  have bounds := (built.reserved.sound room).bounds (Heap.Ledger.mem_live.mp
    ((sound.live_allocate (13 + characters.length)).mpr (.inl rfl))).1
  refine ⟨⟨names_ofNat (by omega), built.begins.length, ?_⟩, built.reads⟩
  have header : layout.header = 12 := rfl
  have width : layout.elementWidth = 1 := rfl
  rw [header, width, Nat.mul_one]
  exact built.reserved.rests sound (by omega)

/-- What has been built is left by a run that comes to it. -/
theorem Built.leaves {start : Configuration} {finish : Nat}
    (built : Built image names ledger characters start.memory after)
    (known : ∀ name ∈ names, name ∈ Program.wordCells)
    (installed : HigherOrder.Installed image) (sound : Heap.Sound image.word start.memory ledger)
    (runs : Runs image limit start ⟨finish,
      .integer (Int32.ofNat (ledger.allocate (13 + characters.length)).1.address) :: stack, after,
      start.output⟩) : Leaves image limit names ledger characters start finish stack :=
  ⟨_, after, rfl, runs, built, built.reserved.undisturbed installed sound known,
    fun room => built.isString sound room⟩

/-- What has been left may be used in turn, and so may all strings that were at rest before. -/
theorem Leaves.exists_next {start : Configuration} {finish : Nat}
    (leaves : Leaves image limit names ledger characters start finish stack)
    (known : ∀ name ∈ names, name ∈ Program.wordCells)
    (installed : HigherOrder.Installed image) (sound : Heap.Sound image.word start.memory ledger)
    (room : ledger.Room start.memory.size (13 + characters.length)) :
    ∃ pointer base after, Runs image limit start
        ⟨finish, .integer pointer :: stack, after, start.output⟩ ∧
      after.size = start.memory.size ∧
      Heap.Sound image.word after (ledger.allocate (13 + characters.length)).2 ∧
      IsString image (ledger.allocate (13 + characters.length)).2 after pointer base characters ∧
      ∀ other place letters, IsString image ledger start.memory other place letters →
        IsString image (ledger.allocate (13 + characters.length)).2 after other place letters := by
  rcases leaves with ⟨pointer, after, rfl, runs, built, _, string⟩
  exact ⟨_, _, after, runs, built.reserved.size, built.reserved.sound room, string room,
    fun _ _ _ other => other.reserved installed sound built.reserved known⟩

/-! ## Filling in characters -/

/-- A string of the length has been formed, and characters are being filled in. -/
structure Blank (image : Image) (ledger : Heap.Ledger) (count : Nat) (ready now : Memory) :
    Prop where
  begins : Begins now (ledger.allocate (13 + count)).1.address dynamicStringStatus count
  reserved : Heap.Reserved image fillingCells ledger (13 + count) ready now
  inside : (ledger.allocate (13 + count)).1.address + 13 + count ≤ now.size
  fits : (ledger.allocate (13 + count)).1.address + 13 + count ≤ 2147483648

/-- Characters have been filled in from a place on, and nothing has been written beside them but
cells of the copying. -/
structure Filled (image : Image) (ledger : Heap.Ledger) (count : Nat) (ready : Memory) (skip : Nat)
    (characters : List UInt8) (now after : Memory) : Prop where
  blank : Blank image ledger count ready after
  reads : after.read ((ledger.allocate (13 + count)).1.address + 12 + skip) characters.length =
    characters
  others : ∀ position length, position + length ≤ skip ∨ skip + characters.length ≤ position →
    after.read ((ledger.allocate (13 + count)).1.address + 12 + position) length =
      now.read ((ledger.allocate (13 + count)).1.address + 12 + position) length

namespace Filled

/-- Characters are filled in behind others. -/
theorem append {skip : Nat} {left right : List UInt8} {middle : Memory}
    (first : Filled image ledger count ready skip left now middle)
    (second : Filled image ledger count ready (skip + left.length) right middle after) :
    Filled image ledger count ready skip (left ++ right) now after where
  blank := second.blank
  reads := by
    rw [List.length_append, Memory.read_append, second.others skip _ (.inl (Nat.le_refl _)),
      first.reads, Nat.add_assoc _ skip, second.reads]
  others := by
    intro position length outside
    rw [List.length_append] at outside
    rw [second.others position length (by omega), first.others position length (by omega)]

/-- All characters have been filled in. -/
theorem built (filled : Filled image ledger count ready 0 characters now after)
    (length : characters.length = count)
    (parking : Cells.Only image.word operandCells before ready) :
    Built image cells ledger characters before after := by
  subst length
  constructor
  · exact filled.blank.begins
  · exact filled.reads
  · exact (filled.blank.reserved.mono fillingCells_listed).after_only
      (parking.mono (by decide))

end Filled

/-- A string of the length that the code leaves is formed, or there is no room for it. -/
theorem blank_or_traps (limit : Option Nat) (output : ByteArray)
    (installed : HigherOrder.Installed image) (sound : Heap.Sound image.word ready ledger)
    {lengths rest : Code} {operands : List Word} {length : Int32}
    (acts : Code.act image.word lengths operands ready =
      some (.integer length :: stack, ready)) (counted : Names length count)
    (fits : 13 + count ≤ 2147483647)
    (holds : image.Holds (lengths ++ (allocateString dynamicStringStatus ++ rest)) pc) :
    (¬ ledger.Room ready.size (13 + count) ∧
        Configuration.Traps image limit ⟨pc, operands, ready, output⟩) ∨
      ∃ formed, Runs image limit ⟨pc, operands, ready, output⟩
          ⟨pc + lengths.size + (allocateString dynamicStringStatus).size,
            .integer (Int32.ofNat (ledger.allocate (13 + count)).1.address) :: stack, formed,
            output⟩ ∧
        Blank image ledger count ready formed := by
  rcases Image.holds_append.mp holds with ⟨holdsLengths, holdsForm⟩
  have reached : Runs image limit ⟨pc, operands, ready, output⟩ ⟨pc + lengths.size, _, _, _⟩ :=
    .straight holdsLengths acts
  rcases form_or_traps installed limit stack output sound counted
    fits (Image.holds_append.mp holdsForm).1 with
    ⟨full, traps⟩ | ⟨formed, forms, begins, reserved, inside, within⟩
  · exact .inl ⟨full, .of_runs reached traps⟩
  · refine .inr ⟨formed, reached.trans forms, begins, reserved.mono allocationCells_listed, ?_,
      within⟩
    rw [reserved.size]
    exact inside

namespace Blank

variable (blank : Blank image ledger count ready now) (installed : HigherOrder.Installed image)
  (sound : Heap.Sound image.word ready ledger)
include blank installed sound

theorem dataSize_le : image.dataSize ≤ now.size := by
  have start := installed.record.start
  have first := sound.tiled.start_le
  have below := sound.inside
  have size := blank.reserved.size
  omega

/-- An operand that has been parked is loaded. -/
theorem act_loadCell (member : label ∈ operandCells) (operands : List Word) (rest : Code) :
    Code.act image.word (loadWord label ++ rest) operands now =
      Code.act image.word rest (.integer (ready.cell image.word label) :: operands) now := by
  rw [installed.cells.act_loadCell (operandCells_known label member).1
    (blank.dataSize_le installed sound), blank.reserved.cell installed sound fillingCells_known
      (operandCells_known label member).1 (operandCells_known label member).2.1]

/-- The length of a string that has been parked is read. -/
theorem act_lengthOf (string : IsString image ledger ready pointer base characters)
    (member : label ∈ operandCells) (parked : ready.cell image.word label = pointer)
    (operands : List Word) (rest : Code) :
    Code.act image.word (lengthOf label ++ rest) operands now =
      Code.act image.word rest (.integer (ready.word (base + 8)) :: operands) now := by
  have extent := string.bounds installed sound
  have size := blank.reserved.size
  have named : Names (pointer + stringLengthOffset) (base + 8) :=
    string.stores.names.add rfl (by omega)
  have same : now.word (base + 8) = ready.word (base + 8) :=
    Memory.word_congr fun index lower upper => blank.reserved.byte_rests installed sound
      fillingCells_known string.rests (by omega) (by omega)
  rw [lengthOf, List.append_assoc, blank.act_loadCell installed sound member, parked,
    Code.act_readWord named (by omega), same]

/-- Characters have been written, and nothing else but cells of the copying. -/
theorem written {skip : Nat} (within : skip + characters.length ≤ count)
    (size : after.size = now.size)
    (reads : after.read ((ledger.allocate (13 + count)).1.address + 12 + skip) characters.length =
      characters)
    (kept : ∀ index, index < (ledger.allocate (13 + count)).1.address + 12 + skip ∨
      (ledger.allocate (13 + count)).1.address + 12 + skip + characters.length ≤ index →
        Cells.Misses image.word CopyBytes.cells index → after.byte index = now.byte index) :
    Filled image ledger count ready skip characters now after := by
  have start := installed.record.start
  have bounds := sound.allocate_bounds (13 + count)
  have room := blank.reserved.room
  have misses {index : Nat} (above : image.dataSize ≤ index) :
      Cells.Misses image.word CopyBytes.cells index :=
    installed.copying.cells.misses_of_floor_le above
  refine ⟨⟨?_, ?_, ?_, blank.fits⟩, reads, fun position length outside => ?_⟩
  · exact blank.begins.congr fun index lower upper => kept index (by omega) (misses (by omega))
  · apply blank.reserved.further installed sound CopyBytes.cells (fun name member =>
      ⟨List.mem_append_right _ member, Program.copyCells_known name member,
        Program.copyCells_unmanaged name member⟩) size
    intro index missing uncovered
    unfold Heap.Block.Covers at uncovered
    exact kept index (by omega) missing
  · rw [size]
    exact blank.inside
  · exact Memory.read_congr fun index lower upper => kept index (by omega) (misses (by omega))

/-- Bytes at rest are copied into the characters. -/
theorem copies (limit : Option Nat) (output : ByteArray) {bytes skip origin : Nat}
    {places rest : Code} {operands : List Word} {destination source total : Int32}
    (rests : Record.Rests image ledger base bytes)
    (holds : image.Holds (places ++ .call Entry.copyBytes :: rest) pc)
    (acts : Code.act image.word places operands now = some (.integer total :: .integer source ::
      .integer destination :: stack, now))
    (names : Names destination ((ledger.allocate (13 + count)).1.address + 12 + skip))
    (sourceNames : Names source origin) (counted : Names total characters.length)
    (lower : base ≤ origin) (upper : origin + characters.length ≤ base + bytes)
    (within : skip + characters.length ≤ count)
    (reads : ready.read origin characters.length = characters) :
    ∃ after, Runs image limit ⟨pc, operands, now, output⟩
        ⟨pc + places.size + 1, stack, after, output⟩ ∧
      Filled image ledger count ready skip characters now after := by
  have start := installed.record.start
  have bounds := sound.allocate_bounds (13 + count)
  have size := blank.reserved.size
  have inside := blank.inside
  have fits := blank.fits
  have room := blank.reserved.room
  have extent := rests.bounds installed sound
  have apart := rests.apart installed sound (13 + count)
  have known := Program.copyCells_known
  rcases CopyBytes.copies limit output installed
    (blank.dataSize_le installed sound) holds acts names sourceNames counted (by omega)
    (fun index lower upper name member => rests.misses installed sound (by omega) (by omega) name
      (known name member)) (by omega) (by omega) (by omega) (by omega) (by omega) with
    ⟨after, runs, copied⟩
  refine ⟨after, runs, blank.written installed sound within copied.size ?_ copied.kept⟩
  rw [Memory.read_shift copied.same]
  refine Eq.trans ?_ reads
  exact Memory.read_congr fun index lower upper => blank.reserved.byte_rests installed sound
    fillingCells_known rests (by omega) (by omega)

end Blank

/-- There are memories with any string for which there is room, besides the strings of others. -/
theorem exists_string (characters : List UInt8) (installed : HigherOrder.Installed image)
    (sound : Heap.Sound image.word before ledger)
    (room : ledger.Room before.size (13 + characters.length))
    (holds : image.Holds (allocateString dynamicStringStatus) pc) :
    ∃ after, after.size = before.size ∧
      Heap.Sound image.word after (ledger.allocate (13 + characters.length)).2 ∧
      IsString image (ledger.allocate (13 + characters.length)).2 after
        (Int32.ofNat (ledger.allocate (13 + characters.length)).1.address)
        (ledger.allocate (13 + characters.length)).1.address characters ∧
      ∀ other place letters, IsString image ledger before other place letters →
        IsString image (ledger.allocate (13 + characters.length)).2 after other place letters := by
  have most := sound.le_of_room room
  have counted : Names (Int32.ofNat characters.length) characters.length := names_ofNat (by omega)
  rcases form_or_traps installed none [] .empty sound counted
    (by omega) holds with ⟨full, _⟩ | ⟨formed, _, begins, reserved, inside, fits⟩
  · exact absurd room full
  have size := reserved.size
  have blank : Blank image ledger characters.length before formed :=
    ⟨begins, reserved.mono allocationCells_listed, by rw [size]; exact inside, fits⟩
  have within : (ledger.allocate (13 + characters.length)).1.address + 12 + 0 +
      characters.length ≤ formed.size := by omega
  have filled : Filled image ledger characters.length before 0 characters formed _ :=
    blank.written installed sound (Nat.le_of_eq (Nat.zero_add _)) (Memory.size_write ..)
      (Memory.read_write formed _ characters within)
      fun index outside _ => Memory.byte_write_of_outside _ _ _ _ outside
  have built := filled.built rfl (.refl before)
  exact ⟨_, filled.blank.reserved.size, built.reserved.sound room, built.isString sound room,
    fun _ _ _ other => other.reserved installed sound built.reserved cells_known⟩

end

end Text

end StackBackend
