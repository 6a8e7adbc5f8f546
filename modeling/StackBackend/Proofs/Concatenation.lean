import StackBackend.Proofs.PureFunctions
import StackBackend.Proofs.TextRecords

namespace StackBackend

/-! Builders of strings concatenate. Their operands are parked, a string of the whole length is
formed, and its two parts are filled in one behind the other, wherever the operands are. -/

namespace Text

open Code Record Address Sequence

/-! ## The blocks of the code -/

/-- Leaves a place among the characters of the fresh string. -/
def placeAt (skip : Int32) : Code :=
  .duplicate :: addOffset (stringHeaderSize + skip)

/-- Leaves the place behind as many characters as the first string has. -/
def placeBehind : Code :=
  .duplicate :: (addOffset stringHeaderSize ++ (lengthOf Cell.stringFirst ++ [.add]))

/-- Writes the character. -/
def putCharacter : Code :=
  loadWord Cell.stringCharacter ++ [.storeC]

theorem concatenate_eq :
    concatenate = nullCheck ++ (storeWord Cell.stringSecond ++ (nullCheck ++
      (storeWord Cell.stringFirst ++ ((lengthOf Cell.stringFirst ++
        (lengthOf Cell.stringSecond ++ [.add])) ++ (allocateString dynamicStringStatus ++
          ((placeAt 0 ++ copyFrom Cell.stringFirst) ++
            (placeBehind ++ copyFrom Cell.stringSecond))))))) := by
  simp [concatenate, copyCharacters, placeAt, placeBehind]

theorem appendCharacter_eq :
    appendCharacter = storeWord Cell.stringCharacter ++ (nullCheck ++
      (storeWord Cell.stringFirst ++ ((lengthOf Cell.stringFirst ++ addOffset 1) ++
        (allocateString dynamicStringStatus ++ ((placeAt 0 ++ copyFrom Cell.stringFirst) ++
          (placeBehind ++ putCharacter)))))) := by
  simp [appendCharacter, copyCharacters, placeAt, placeBehind, putCharacter]

theorem prependCharacter_eq :
    prependCharacter = nullCheck ++ (storeWord Cell.stringFirst ++
      (storeWord Cell.stringCharacter ++ ((lengthOf Cell.stringFirst ++ addOffset 1) ++
        (allocateString dynamicStringStatus ++ ((placeAt 0 ++ putCharacter) ++
          (placeAt 1 ++ copyFrom Cell.stringFirst)))))) := by
  simp [prependCharacter, copyCharacters, placeAt, putCharacter]

/-! ## Filling in parts -/

section

variable {image : Image} {limit : Option Nat} {ledger : Heap.Ledger} {ready : Memory}
  {count skip : Nat} {place code : Code} {characters : List UInt8}

/-- The code leaves a place so many characters into the fresh string. -/
def Places (image : Image) (ledger : Heap.Ledger) (count : Nat) (ready : Memory) (place : Code)
    (skip : Nat) : Prop :=
  ∀ now, Blank image ledger count ready now → ∃ destination,
    Names destination ((ledger.allocate (13 + count)).1.address + 12 + skip) ∧
      ∀ stack rest, Code.act image.word (place ++ rest)
          (.integer (Int32.ofNat (ledger.allocate (13 + count)).1.address) :: stack) now =
        Code.act image.word rest (.integer destination ::
          .integer (Int32.ofNat (ledger.allocate (13 + count)).1.address) :: stack) now

/-- The code fills in the characters from the place on, and keeps the pointer to the string. -/
def Fills (image : Image) (limit : Option Nat) (ledger : Heap.Ledger) (count : Nat) (ready : Memory)
    (code : Code) (skip : Nat) (characters : List UInt8) : Prop :=
  ∀ now pc stack output, Blank image ledger count ready now → image.Holds code pc →
    ∃ after, Runs image limit
        ⟨pc, .integer (Int32.ofNat (ledger.allocate (13 + count)).1.address) :: stack, now, output⟩
        ⟨pc + code.size, .integer (Int32.ofNat (ledger.allocate (13 + count)).1.address) :: stack,
          after, output⟩ ∧
      Filled image ledger count ready skip characters now after

theorem places_at {offset : Int32} (named : Names offset skip) (within : skip ≤ count) :
    Places image ledger count ready (placeAt offset) skip := by
  intro now blank
  have fits := blank.fits
  have inner : Names (Int32.ofNat (ledger.allocate (13 + count)).1.address + stringHeaderSize)
      ((ledger.allocate (13 + count)).1.address + 12) :=
    (names_ofNat (by omega)).add rfl (by omega)
  refine ⟨_, inner.plus named (by omega), fun stack rest => ?_⟩
  rw [placeAt, List.cons_append, act_duplicate, act_addOffset, Int32.add_assoc]

variable (installed : HigherOrder.Installed image)
  (sound : Heap.Sound image.word ready ledger)
include installed sound

theorem places_behind {base : Nat}
    (string : IsString image ledger ready (ready.cell image.word Cell.stringFirst) base characters)
    (within : characters.length ≤ count) :
    Places image ledger count ready placeBehind characters.length := by
  intro now blank
  have fits := blank.fits
  have counted : Names (ready.word (base + 8)) characters.length := string.stores.length
  have inner : Names (Int32.ofNat (ledger.allocate (13 + count)).1.address + stringHeaderSize)
      ((ledger.allocate (13 + count)).1.address + 12) :=
    (names_ofNat (by omega)).add rfl (by omega)
  refine ⟨_, inner.plus counted (by omega), fun stack rest => ?_⟩
  rw [placeBehind, List.cons_append, act_duplicate, List.append_assoc, act_addOffset,
    List.append_assoc, blank.act_lengthOf installed sound string (by decide) rfl,
    List.singleton_append, act_add]

/-- The characters of a string that has been parked are copied in. -/
theorem fills_copyFrom {label : String} {base : Nat}
    (places : Places image ledger count ready place skip) (member : label ∈ operandCells)
    (string : IsString image ledger ready (ready.cell image.word label) base characters)
    (within : skip + characters.length ≤ count) :
    Fills image limit ledger count ready (place ++ copyFrom label) skip characters := by
  intro now pc stack output blank holds
  have extent := string.bounds installed sound
  rcases places now blank with ⟨destination, named, acts⟩
  have source : Names (ready.cell image.word label + stringHeaderSize) (base + 12) :=
    string.stores.names.add rfl (by omega)
  have parts : place ++ copyFrom label =
      (place ++ (charactersOf label ++ lengthOf label)) ++ [.call Entry.copyBytes] := by
    simp [copyFrom]
  have leaves : Code.act image.word (place ++ (charactersOf label ++ lengthOf label))
      (.integer (Int32.ofNat (ledger.allocate (13 + count)).1.address) :: stack) now =
        some (.integer (ready.word (base + 8)) ::
          .integer (ready.cell image.word label + stringHeaderSize) :: .integer destination ::
          .integer (Int32.ofNat (ledger.allocate (13 + count)).1.address) :: stack, now) := by
    rw [acts, charactersOf, List.append_assoc, blank.act_loadCell installed sound member,
      act_addOffset, ← List.append_nil (lengthOf label),
      blank.act_lengthOf installed sound string member rfl, act_nil]
  rw [parts] at holds
  rcases blank.copies installed sound limit output string.rests holds leaves named source
    string.stores.length (by omega) (by omega) within string.reads with
    ⟨after, runs, filled⟩
  refine ⟨after, ?_, filled⟩
  rw [parts, Code.size_append, ← Nat.add_assoc]
  exact runs

/-- The character that has been parked is written. -/
theorem fills_putCharacter {value : Int32} (places : Places image ledger count ready place skip)
    (parked : ready.cell image.word Cell.stringCharacter = value) (within : skip + 1 ≤ count) :
    Fills image limit ledger count ready (place ++ putCharacter) skip
      [value.toUInt32.toUInt8] := by
  intro now pc stack output blank holds
  have inside := blank.inside
  rcases places now blank with ⟨destination, named, acts⟩
  have room : (ledger.allocate (13 + count)).1.address + 12 + skip +
      [value.toUInt32.toUInt8].length ≤ now.size := by
    rw [List.length_singleton]
    omega
  refine ⟨now.write ((ledger.allocate (13 + count)).1.address + 12 + skip)
    [value.toUInt32.toUInt8], .straight holds ?_, ?_⟩
  · rw [acts, putCharacter, blank.act_loadCell installed sound (by decide), parked,
      act_storeC (Memory.store?_eq named room), act_nil]
  · exact blank.written installed sound within (Memory.size_write ..)
      (Memory.read_write _ _ _ room)
      fun index outside _ => Memory.byte_write_of_outside _ _ _ _ outside

/-- A string is built of two parts. -/
theorem parts_built (limit : Option Nat) (output : ByteArray) (left right : List UInt8)
    {before : Memory} {lengths first second : Code} {length : Int32} {pc : Nat} {stack : List Word}
    (parking : Cells.Only image.word operandCells before ready)
    (acts : Code.act image.word lengths stack ready = some (.integer length :: stack, ready))
    (counted : Names length (left.length + right.length))
    (room : ledger.Room ready.size (13 + (left.length + right.length)))
    (fillsFirst : Fills image limit ledger (left.length + right.length) ready first 0 left)
    (fillsSecond : Fills image limit ledger (left.length + right.length) ready second left.length
      right)
    (holds : image.Holds
      (lengths ++ (allocateString dynamicStringStatus ++ (first ++ second))) pc) :
    ∃ after, Runs image limit ⟨pc, stack, ready, output⟩
        ⟨pc + Code.size (lengths ++ (allocateString dynamicStringStatus ++ (first ++ second))),
          .integer (Int32.ofNat (ledger.allocate (13 + (left ++ right).length)).1.address) :: stack,
          after, output⟩ ∧
      Built image cells ledger (left ++ right) before after := by
  have most := sound.le_of_room room
  have total : (left ++ right).length = left.length + right.length := List.length_append
  rcases blank_or_traps limit output installed sound acts counted (by omega) holds with
    ⟨full, _⟩ | ⟨formed, forms, blank⟩
  · exact absurd room full
  rcases Image.holds_append.mp (Image.holds_append.mp (Image.holds_append.mp holds).2).2 with
    ⟨holdsFirst, holdsSecond⟩
  rcases fillsFirst formed _ stack output blank holdsFirst with ⟨middle, begun, filledFirst⟩
  rcases fillsSecond middle _ stack output filledFirst.blank holdsSecond with
    ⟨after, ended, filledSecond⟩
  rw [← Nat.zero_add left.length] at filledSecond
  refine ⟨after, ?_, (filledFirst.append (by simpa using filledSecond)).built total parking⟩
  rw [total]
  simpa only [Code.size_append, Nat.add_assoc] using (forms.trans begun).trans ended

end

/-! ## The builders -/

section

variable {image : Image} {limit : Option Nat} {ledger : Heap.Ledger} {memory parked : Memory}
  {stack : List Word} {output : ByteArray} {pointer first second value : Int32}
  {base otherBase pc : Nat} {characters left right : List UInt8}

/-- Code that leaves as many as the characters of the first string, and one more. -/
theorem act_oneMore (stack : List Word) (installed : HigherOrder.Installed image)
    (sound : Heap.Sound image.word parked ledger)
    (string : IsString image ledger parked (parked.cell image.word Cell.stringFirst) base
      characters) (fits : characters.length + 1 < 2147483648) :
    ∃ length, Names length (characters.length + 1) ∧
      Code.act image.word (lengthOf Cell.stringFirst ++ addOffset 1) stack parked =
        some (.integer length :: stack, parked) := by
  have counted : Names (parked.word (base + 8)) characters.length := string.stores.length
  have longer : Names (parked.word (base + 8) + 1) (characters.length + 1) :=
    counted.plus rfl fits
  refine ⟨_, longer, ?_⟩
  rw [string.act_lengthOf installed sound (by decide) rfl, ← List.append_nil (addOffset 1),
    act_addOffset, act_nil]

/-- A string and a character are in their cells. -/
structure CharacterParked (image : Image) (pointer value : Int32) (memory ready : Memory) :
    Prop where
  only : Cells.Only image.word operandCells memory ready
  string : ready.cell image.word Cell.stringFirst = pointer
  character : ready.cell image.word Cell.stringCharacter = value

variable (installed : HigherOrder.Installed image)
include installed

namespace CharacterParked

variable {ready : Memory} (parks : CharacterParked image pointer value memory ready)
  (sound : Heap.Sound image.word memory ledger)
include parks sound

theorem isSound : Heap.Sound image.word ready ledger :=
  sound.only installed parks.only fun name member =>
    ⟨(operandCells_known name member).1, (operandCells_known name member).2.2⟩

theorem isString (string : IsString image ledger memory pointer base characters) :
    IsString image ledger ready (ready.cell image.word Cell.stringFirst) base characters :=
  parks.string ▸ string.only installed sound parks.only fun name member =>
    (operandCells_known name member).1

end CharacterParked

/-- A character is stored, and then a string is parked. -/
theorem append_parks (limit : Option Nat) (stack : List Word) (output : ByteArray) (value : Int32)
    {rest : Code} (inside : image.dataSize ≤ memory.size) (present : pointer ≠ 0)
    (holds : image.Holds (storeWord Cell.stringCharacter ++ (nullCheck ++
      (storeWord Cell.stringFirst ++ rest))) pc) :
    ∃ place ready, image.Holds rest place ∧
      place = pc + (storeWord Cell.stringCharacter).size + nullCheck.size +
        (storeWord Cell.stringFirst).size ∧
      Runs image limit ⟨pc, .integer value :: .integer pointer :: stack, memory, output⟩
        ⟨place, stack, ready, output⟩ ∧
      CharacterParked image pointer value memory ready := by
  have stringCell : Cell.stringFirst ∈ Program.wordCells :=
    (operandCells_known _ (by decide)).1
  have characterCell : Cell.stringCharacter ∈ Program.wordCells :=
    (operandCells_known _ (by decide)).1
  have within : image.dataSize ≤ (memory.setCell image.word Cell.stringCharacter value).size := by
    rwa [Memory.size_setCell]
  have stores : Code.act image.word (storeWord Cell.stringCharacter)
      (.integer value :: .integer pointer :: stack) memory =
        some (.integer pointer :: stack,
          memory.setCell image.word Cell.stringCharacter value) :=
    installed.cells.act_lastStore characterCell inside
  rcases Image.holds_append.mp holds with ⟨holdsStore, holdsCheck⟩
  rcases (parks_or_faults limit stack output pointer installed stringCell within
    holdsCheck).2 present with ⟨holdsRest, parks⟩
  refine ⟨_, _, holdsRest, rfl, (Runs.straight holdsStore stores).trans parks, ?_, ?_, ?_⟩
  · exact ((Cells.Only.refl memory).setCell (by decide) _).setCell (by decide) _
  · exact installed.cells.cell_setCell stringCell within
  · rw [installed.cells.cell_setCell_other stringCell characterCell (by decide),
      installed.cells.cell_setCell characterCell inside]

/-- A string is parked, and then a character is stored. -/
theorem prepend_parks (limit : Option Nat) (stack : List Word) (output : ByteArray) (value : Int32)
    {rest : Code} (inside : image.dataSize ≤ memory.size) (present : pointer ≠ 0)
    (holds : image.Holds (nullCheck ++ (storeWord Cell.stringFirst ++
      (storeWord Cell.stringCharacter ++ rest))) pc) :
    ∃ place ready, image.Holds rest place ∧
      place = pc + nullCheck.size + (storeWord Cell.stringFirst).size +
        (storeWord Cell.stringCharacter).size ∧
      Runs image limit ⟨pc, .integer pointer :: .integer value :: stack, memory, output⟩
        ⟨place, stack, ready, output⟩ ∧
      CharacterParked image pointer value memory ready := by
  have stringCell : Cell.stringFirst ∈ Program.wordCells :=
    (operandCells_known _ (by decide)).1
  have characterCell : Cell.stringCharacter ∈ Program.wordCells :=
    (operandCells_known _ (by decide)).1
  have within : image.dataSize ≤ (memory.setCell image.word Cell.stringFirst pointer).size := by
    rwa [Memory.size_setCell]
  have stores : Code.act image.word (storeWord Cell.stringCharacter) (.integer value :: stack)
      (memory.setCell image.word Cell.stringFirst pointer) =
        some (stack, (memory.setCell image.word Cell.stringFirst pointer).setCell image.word
          Cell.stringCharacter value) :=
    installed.cells.act_lastStore characterCell within
  rcases (parks_or_faults limit (.integer value :: stack) output pointer installed stringCell
    inside holds).2 present with ⟨holdsStore, parks⟩
  rcases Image.holds_append.mp holdsStore with ⟨holdsStore, holdsRest⟩
  refine ⟨_, _, holdsRest, rfl, parks.trans (.straight holdsStore stores), ?_, ?_, ?_⟩
  · exact ((Cells.Only.refl memory).setCell (by decide) _).setCell (by decide) _
  · rw [installed.cells.cell_setCell_other characterCell stringCell (by decide),
      installed.cells.cell_setCell stringCell inside]
  · exact installed.cells.cell_setCell characterCell within

variable (sound : Heap.Sound image.word memory ledger)
include sound

/-- Concatenating leaves a fresh string with the characters of both. -/
theorem concatenate_leaves (limit : Option Nat) (stack : List Word) (output : ByteArray)
    (holds : image.Holds concatenate pc)
    (firstString : IsString image ledger memory first base left)
    (secondString : IsString image ledger memory second otherBase right)
    (room : ledger.Room memory.size (13 + (left ++ right).length)) :
    Leaves image limit cells ledger (left ++ right)
      ⟨pc, .integer second :: .integer first :: stack, memory, output⟩ (pc + concatenate.size)
      stack := by
  have start := installed.record.start
  have low := sound.tiled.start_le
  have inside := sound.inside
  have known {name : String} (member : name ∈ operandCells) : name ∈ Program.wordCells :=
    (operandCells_known name member).1
  have firstCell : Cell.stringFirst ∈ Program.wordCells := known (by decide)
  have secondCell : Cell.stringSecond ∈ Program.wordCells := known (by decide)
  have within : image.dataSize ≤ (memory.setCell image.word Cell.stringSecond second).size := by
    rw [Memory.size_setCell]
    omega
  rw [concatenate_eq] at holds ⊢
  -- Both operands are parked.
  have inside : image.dataSize ≤ memory.size := by omega
  rcases (parks_or_faults limit (.integer first :: stack) output second installed secondCell
    inside holds).2 secondString.stores.ne_zero with ⟨holdsFirst, parkedSecond⟩
  rcases (parks_or_faults limit stack output first installed firstCell within
    holdsFirst).2 firstString.stores.ne_zero with ⟨holdsBuild, parkedFirst⟩
  have parking : Cells.Only image.word operandCells memory
      ((memory.setCell image.word Cell.stringSecond second).setCell image.word Cell.stringFirst
        first) :=
    ((Cells.Only.refl memory).setCell (by decide) _).setCell (by decide) _
  have isFirst : ((memory.setCell image.word Cell.stringSecond second).setCell image.word
      Cell.stringFirst first).cell image.word Cell.stringFirst = first :=
    installed.cells.cell_setCell firstCell within
  have isSecond : ((memory.setCell image.word Cell.stringSecond second).setCell image.word
      Cell.stringFirst first).cell image.word Cell.stringSecond = second := by
    rw [installed.cells.cell_setCell_other firstCell secondCell (by decide),
      installed.cells.cell_setCell secondCell inside]
  generalize (memory.setCell image.word Cell.stringSecond second).setCell image.word
    Cell.stringFirst first = ready at parking isFirst isSecond parkedFirst
  have soundReady := sound.only installed parking fun name member =>
    ⟨known member, (operandCells_known name member).2.2⟩
  have stillFirst := isFirst ▸ firstString.only installed sound parking fun _ => known
  have stillSecond := isSecond ▸ secondString.only installed sound parking fun _ => known
  rw [List.length_append, ← parking.size] at room
  have most := soundReady.le_of_room room
  have counted : Names (ready.word (base + 8) + ready.word (otherBase + 8))
      (left.length + right.length) := by
    have firstLength : Names (ready.word (base + 8)) left.length := stillFirst.stores.length
    exact firstLength.plus stillSecond.stores.length (by omega)
  have lengths : Code.act image.word (lengthOf Cell.stringFirst ++ (lengthOf Cell.stringSecond ++
      [.add])) stack ready =
        some (.integer (ready.word (base + 8) + ready.word (otherBase + 8)) :: stack, ready) := by
    rw [stillFirst.act_lengthOf installed soundReady (by decide) rfl,
      stillSecond.act_lengthOf installed soundReady (by decide) rfl, act_add, act_nil]
  -- The parts are filled in.
  have atFront : Places image ledger (left.length + right.length) ready (placeAt 0) 0 :=
    places_at rfl (Nat.zero_le _)
  have behind : Places image ledger (left.length + right.length) ready placeBehind left.length :=
    places_behind installed soundReady stillFirst (Nat.le_add_right ..)
  rcases parts_built installed soundReady limit output left right parking lengths counted room
    (fills_copyFrom installed soundReady atFront (by decide) stillFirst (by omega))
    (fills_copyFrom installed soundReady behind (by decide) stillSecond (Nat.le_refl _))
    holdsBuild with ⟨after, runs, built⟩
  apply built.leaves cells_known installed sound
  simpa only [Code.size_append, Nat.add_assoc] using
    (parkedSecond.trans parkedFirst).trans runs

/-- Appending a character leaves a fresh string that ends in it. -/
theorem appendCharacter_leaves (holds : image.Holds appendCharacter pc)
    (string : IsString image ledger memory pointer base characters)
    (room : ledger.Room memory.size (13 + (characters ++ [value.toUInt32.toUInt8]).length)) :
    Leaves image limit cells ledger (characters ++ [value.toUInt32.toUInt8])
      ⟨pc, .integer value :: .integer pointer :: stack, memory, output⟩
      (pc + appendCharacter.size) stack := by
  have start := installed.record.start
  have low := sound.tiled.start_le
  have within := sound.inside
  have inside : image.dataSize ≤ memory.size := by omega
  rw [appendCharacter_eq] at holds ⊢
  rcases append_parks installed limit stack output value inside string.stores.ne_zero holds with
    ⟨place, ready, holdsBuild, rfl, parking, parks⟩
  have soundReady := parks.isSound installed sound
  have still := parks.isString installed sound string
  rw [List.length_append, List.length_singleton, ← parks.only.size] at room
  have most := soundReady.le_of_room room
  rcases act_oneMore stack installed soundReady still (by omega) with
    ⟨length, counted, lengths⟩
  have atFront : Places image ledger (characters.length + 1) ready (placeAt 0) 0 :=
    places_at rfl (Nat.zero_le _)
  have behind : Places image ledger (characters.length + 1) ready placeBehind characters.length :=
    places_behind installed soundReady still (Nat.le_add_right ..)
  rcases parts_built installed soundReady limit output characters [value.toUInt32.toUInt8]
    parks.only lengths counted room
    (fills_copyFrom installed soundReady atFront (by decide) still (by omega))
    (fills_putCharacter installed soundReady behind parks.character (Nat.le_refl _)) holdsBuild with
    ⟨after, runs, built⟩
  apply built.leaves cells_known installed sound
  simpa only [Code.size_append, Nat.add_assoc] using parking.trans runs

/-- Prepending a character leaves a fresh string that begins with it. -/
theorem prependCharacter_leaves (holds : image.Holds prependCharacter pc)
    (string : IsString image ledger memory pointer base characters)
    (room : ledger.Room memory.size (13 + ([value.toUInt32.toUInt8] ++ characters).length)) :
    Leaves image limit cells ledger ([value.toUInt32.toUInt8] ++ characters)
      ⟨pc, .integer pointer :: .integer value :: stack, memory, output⟩
      (pc + prependCharacter.size) stack := by
  have start := installed.record.start
  have low := sound.tiled.start_le
  have within := sound.inside
  have inside : image.dataSize ≤ memory.size := by omega
  rw [prependCharacter_eq] at holds ⊢
  rcases prepend_parks installed limit stack output value inside string.stores.ne_zero holds with
    ⟨place, ready, holdsBuild, rfl, parking, parks⟩
  have soundReady := parks.isSound installed sound
  have still := parks.isString installed sound string
  rw [List.length_append, List.length_singleton, ← parks.only.size] at room
  have most := soundReady.le_of_room room
  rcases act_oneMore stack installed soundReady still (by omega) with
    ⟨length, counted, lengths⟩
  rw [Nat.add_comm] at counted
  have atFront : Places image ledger (1 + characters.length) ready (placeAt 0) 0 :=
    places_at rfl (Nat.zero_le _)
  have behind : Places image ledger (1 + characters.length) ready (placeAt 1) 1 :=
    places_at rfl (Nat.le_add_right ..)
  rcases parts_built installed soundReady limit output [value.toUInt32.toUInt8] characters
    parks.only lengths counted room
    (fills_putCharacter installed soundReady atFront parks.character (by
      rw [List.length_singleton]
      omega))
    (fills_copyFrom installed soundReady behind (by decide) still (Nat.le_refl _)) holdsBuild with
    ⟨after, runs, built⟩
  apply built.leaves cells_known installed sound
  simpa only [Code.size_append, Nat.add_assoc] using parking.trans runs

end

end Text

namespace Text

/-- The first two of three strings are concatenated and then the third with them, or the last two
and then the first with them: both times there is a string with the same characters. -/
def Associates (image : Image) (limit : Option Nat) (pc : Nat) (stack : List Word)
    (output : ByteArray) (memory : Memory) (first second third : Int32)
    (characters : List UInt8) : Prop :=
  ∃ joined between whole after inner otherBetween otherWhole otherAfter base otherBase,
    ∃ ledger otherLedger : Heap.Ledger,
    Runs image limit ⟨pc, .integer second :: .integer first :: stack, memory, output⟩
      ⟨pc + concatenate.size, .integer joined :: stack, between, output⟩ ∧
    Runs image limit ⟨pc, .integer third :: .integer joined :: stack, between, output⟩
      ⟨pc + concatenate.size, .integer whole :: stack, after, output⟩ ∧
    Runs image limit ⟨pc, .integer third :: .integer second :: stack, memory, output⟩
      ⟨pc + concatenate.size, .integer inner :: stack, otherBetween, output⟩ ∧
    Runs image limit ⟨pc, .integer inner :: .integer first :: stack, otherBetween, output⟩
      ⟨pc + concatenate.size, .integer otherWhole :: stack, otherAfter, output⟩ ∧
    IsString image ledger after whole base characters ∧
    IsString image otherLedger otherAfter otherWhole otherBase characters

section

variable {image : Image} {limit : Option Nat} {ledger : Heap.Ledger} {memory : Memory}
  {stack : List Word} {output : ByteArray} {first second third : Int32}
  {base secondBase thirdBase pc : Nat} {left middle right : List UInt8}

/-- The two orders in which three strings are concatenated come to the same characters. -/
theorem concatenate_assoc (installed : HigherOrder.Installed image)
    (sound : Heap.Sound image.word memory ledger) (holds : image.Holds concatenate pc)
    (firstString : IsString image ledger memory first base left)
    (secondString : IsString image ledger memory second secondBase middle)
    (thirdString : IsString image ledger memory third thirdBase right)
    (room : ledger.Room memory.size (13 + (left ++ middle).length))
    (roomAfter : (ledger.allocate (13 + (left ++ middle).length)).2.Room memory.size
      (13 + (left ++ middle ++ right).length))
    (otherRoom : ledger.Room memory.size (13 + (middle ++ right).length))
    (otherRoomAfter : (ledger.allocate (13 + (middle ++ right).length)).2.Room memory.size
      (13 + (left ++ (middle ++ right)).length)) :
    Associates image limit pc stack output memory first second third (left ++ middle ++ right) := by
  rcases (concatenate_leaves installed sound limit stack output holds firstString secondString
    room).exists_next cells_known installed sound room with
    ⟨joined, joinedBase, between, joins, size, soundBetween, joinedString, still⟩
  rcases (concatenate_leaves installed soundBetween limit stack output holds joinedString
    (still _ _ _ thirdString) (size.symm ▸ roomAfter)).exists_next cells_known installed
    soundBetween (size.symm ▸ roomAfter) with
    ⟨whole, wholeBase, after, ends, _, _, wholeString, _⟩
  rcases (concatenate_leaves installed sound limit stack output holds secondString thirdString
    otherRoom).exists_next cells_known installed sound otherRoom with
    ⟨inner, innerBase, otherBetween, otherJoins, otherSize, otherSound, innerString, otherStill⟩
  rcases (concatenate_leaves installed otherSound limit stack output holds
    (otherStill _ _ _ firstString) innerString (otherSize.symm ▸ otherRoomAfter)).exists_next
    cells_known installed otherSound (otherSize.symm ▸ otherRoomAfter) with
    ⟨otherWhole, otherBase, otherAfter, otherEnds, _, _, otherString, _⟩
  rw [← List.append_assoc] at otherString
  exact ⟨joined, between, whole, after, inner, otherBetween, otherWhole, otherAfter, wholeBase,
    otherBase, _, _, joins, ends, otherJoins, otherEnds, wholeString, otherString⟩

end

end Text

namespace Program

open Text (IsString Leaves Associates)

/-- Builders of strings concatenate. They leave a fresh string with the characters of both operands
in their order; what is at rest, the operands with it, stays as it was, and nothing is written but
the block of the string, the cells of the builders and the words of the heap. -/
theorem strings_concatenate {program : Program} {code : Code} {image : Image} {limit : Option Nat}
    (compiled : program.compile ⟨true⟩ = .ok code) (assembled : Image.assemble code = .ok image)
    (addressable : image.Addressable) (fits : image.dataSize ≤ 2147483647) {ledger : Heap.Ledger}
    {memory : Memory} (sound : Heap.Sound image.word memory ledger) (pc : Nat) (stack : List Word)
    (output : ByteArray) :
    (image.Holds Text.concatenate pc → ∀ first base left,
      IsString image ledger memory first base left →
      ∀ second other right, IsString image ledger memory second other right →
        (ledger.Room memory.size (13 + (left ++ right).length) →
          Leaves image limit Text.cells ledger (left ++ right)
            ⟨pc, .integer second :: .integer first :: stack, memory, output⟩
            (pc + Text.concatenate.size) stack) ∧
        (right = [] → ledger.Room memory.size (13 + left.length) →
          Leaves image limit Text.cells ledger left
            ⟨pc, .integer second :: .integer first :: stack, memory, output⟩
            (pc + Text.concatenate.size) stack) ∧
        (left = [] → ledger.Room memory.size (13 + right.length) →
          Leaves image limit Text.cells ledger right
            ⟨pc, .integer second :: .integer first :: stack, memory, output⟩
            (pc + Text.concatenate.size) stack) ∧
        ∀ third place rest, IsString image ledger memory third place rest →
          ledger.Room memory.size (13 + (left ++ right).length) →
          (ledger.allocate (13 + (left ++ right).length)).2.Room memory.size
            (13 + (left ++ right ++ rest).length) →
          ledger.Room memory.size (13 + (right ++ rest).length) →
          (ledger.allocate (13 + (right ++ rest).length)).2.Room memory.size
            (13 + (left ++ (right ++ rest)).length) →
            Associates image limit pc stack output memory first second third
              (left ++ right ++ rest)) ∧
    (image.Holds Text.appendCharacter pc → ∀ string base characters value,
      IsString image ledger memory string base characters →
      ledger.Room memory.size (13 + (characters ++ [value.toUInt32.toUInt8]).length) →
        Leaves image limit Text.cells ledger (characters ++ [value.toUInt32.toUInt8])
          ⟨pc, .integer value :: .integer string :: stack, memory, output⟩
          (pc + Text.appendCharacter.size) stack) ∧
    (image.Holds Text.prependCharacter pc → ∀ string base characters value,
      IsString image ledger memory string base characters →
      ledger.Room memory.size (13 + ([value.toUInt32.toUInt8] ++ characters).length) →
        Leaves image limit Text.cells ledger ([value.toUInt32.toUInt8] ++ characters)
          ⟨pc, .integer string :: .integer value :: stack, memory, output⟩
          (pc + Text.prependCharacter.size) stack) := by
  have installed := operators_installed compiled assembled addressable fits
  refine ⟨fun holds first base left firstString second other right secondString => ⟨?_, ?_, ?_, ?_⟩,
    ?_, ?_⟩
  · exact Text.concatenate_leaves installed sound limit stack output holds firstString secondString
  · rintro rfl room
    have leaves := Text.concatenate_leaves installed sound limit stack output holds firstString
      secondString
    rw [List.append_nil] at leaves
    exact leaves room
  · rintro rfl room
    have leaves := Text.concatenate_leaves installed sound limit stack output holds firstString
      secondString
    rw [List.nil_append] at leaves
    exact leaves room
  · intro third place rest thirdString
    exact Text.concatenate_assoc installed sound holds firstString secondString thirdString
  · intro holds string base characters value isString
    exact Text.appendCharacter_leaves installed sound holds isString
  · intro holds string base characters value isString
    exact Text.prependCharacter_leaves installed sound holds isString

/-- A string with a character behind it, and the string with the character before it. -/
def joining : Form :=
  .operation (.snippet .stringConcatenate) [
    .typed .string (.operation (.snippet .stringCharacterConcatenate)
      [.typed .string (.string "ab"), .typed .character (.character 99)]),
    .typed .string (.operation (.snippet .characterStringConcatenate)
      [.typed .character (.character 99), .typed .string (.string "ab")])]

theorem valueCode_joining :
    ∃ literal other, ∃ next : Nat, (Expr.typed .string joining).valueCode 0 =
      .ok ((literal ++ (Text.appendCharacter ++ (other ++ Text.prependCharacter))) ++
        Text.concatenate, next) := by
  refine ⟨Record.stringLiteral (LabelGroup.label ⟨"string", 1⟩ "literal") "ab" ++ [.pushI 99],
    .pushI 99 :: Record.stringLiteral (LabelGroup.label ⟨"string", 2⟩ "literal") "ab", 2, rfl⟩

/-- An image of the program has the code of all three, and memories with a string and an empty
one. -/
theorem exists_joining :
    ∃ code image pc place last memory string empty base emptyBase,
      (applying .string joining).compile ⟨true⟩ = .ok code ∧ Image.assemble code = .ok image ∧
      image.Addressable ∧ image.dataSize ≤ 65536 ∧ image.Holds Text.concatenate pc ∧
      image.Holds Text.appendCharacter place ∧ image.Holds Text.prependCharacter last ∧
      memory.size = 131072 ∧
      Heap.Sound image.word memory (((stagedLedger image).allocate 15).2.allocate 13).2 ∧
      IsString image (((stagedLedger image).allocate 15).2.allocate 13).2 memory string base
        [97, 98] ∧
      IsString image (((stagedLedger image).allocate 15).2.allocate 13).2 memory empty emptyBase
        [] := by
  rcases @exists_stage .string joining (by decide +kernel)
    (by simp [Plain, applying, reserving, operations, blockOperations, Statement.operations,
      Expr.operations, Form.operations, exprsOperations, joining]) with
    ⟨code, image, expansion, next, pc, staging, compiled, assembled, addressable, small, valued,
      holds, staged⟩
  have installed := operators_installed compiled assembled addressable (by omega)
  rcases valueCode_joining with ⟨literal, other, next, same⟩
  cases same.symm.trans valued
  rcases Image.holds_append.mp holds with ⟨holdsOperands, holdsJoin⟩
  rcases Image.holds_append.mp (Image.holds_append.mp holdsOperands).2 with ⟨holdsAppend, holdsRest⟩
  have initial := staged.size
  have room : (stagedLedger image).Room staging.size 15 := fun _ => by
    have bump : (stagedLedger image).bump = image.dataSize + 28 := rfl
    omega
  rcases Image.holds_append.mp (Text.appendCharacter_eq ▸ holdsAppend) with ⟨_, holdsForm⟩
  rcases Image.holds_append.mp (Image.holds_append.mp holdsForm).2 with ⟨_, holdsForm⟩
  have holdsForm := (Image.holds_append.mp (Image.holds_append.mp holdsForm).2).1
  rcases Text.exists_string [97, 98] installed staged.sound room holdsForm with
    ⟨ready, size, sound, string, _⟩
  have roomAfter : ((stagedLedger image).allocate 15).2.Room ready.size 13 := fun _ => by
    have bump : ((stagedLedger image).allocate 15).2.bump = image.dataSize + 47 := rfl
    omega
  rcases Text.exists_string [] installed sound roomAfter holdsForm with
    ⟨memory, sizeAfter, soundAfter, empty, still⟩
  exact ⟨code, image, _, _, _, memory, _, _, _, _, compiled, assembled, addressable, small,
    holdsJoin, holdsAppend, (Image.holds_append.mp holdsRest).2, by omega, soundAfter,
    still _ _ _ string, empty⟩

/-- A string is joined with itself and with the empty string, and a character is put behind it and
before it. -/
theorem strings_joined :
    ∃ code image pc place last memory string empty ledger,
      (applying .string joining).compile ⟨true⟩ = .ok code ∧ Image.assemble code = .ok image ∧
      image.Holds Text.concatenate pc ∧ image.Holds Text.appendCharacter place ∧
      image.Holds Text.prependCharacter last ∧
      Leaves image none Text.cells ledger [97, 98, 97, 98]
        ⟨pc, [.integer string, .integer string], memory, .empty⟩ (pc + Text.concatenate.size) [] ∧
      Leaves image none Text.cells ledger [97, 98]
        ⟨pc, [.integer empty, .integer string], memory, .empty⟩ (pc + Text.concatenate.size) [] ∧
      Leaves image none Text.cells ledger [97, 98]
        ⟨pc, [.integer string, .integer empty], memory, .empty⟩ (pc + Text.concatenate.size) [] ∧
      Associates image none pc [] .empty memory string empty string [97, 98, 97, 98] ∧
      Leaves image none Text.cells ledger [97, 98, 99]
        ⟨place, [.integer 99, .integer string], memory, .empty⟩
        (place + Text.appendCharacter.size) [] ∧
      Leaves image none Text.cells ledger [99, 97, 98]
        ⟨last, [.integer string, .integer 99], memory, .empty⟩
        (last + Text.prependCharacter.size) [] := by
  rcases exists_joining with ⟨code, image, pc, place, last, memory, string, empty, base, emptyBase,
    compiled, assembled, addressable, small, holds, holdsAppend, holdsPrepend, size, sound,
    isString, isEmpty⟩
  have fits : image.dataSize ≤ 2147483647 := by omega
  have bump : (((stagedLedger image).allocate 15).2.allocate 13).2.bump = image.dataSize + 64 := rfl
  have room {wanted : Nat} (le : wanted ≤ 17) :
      (((stagedLedger image).allocate 15).2.allocate 13).2.Room memory.size wanted := fun _ => by
    omega
  have roomAfter {first wanted : Nat} (le : first ≤ 17) (le' : wanted ≤ 17) :
      ((((stagedLedger image).allocate 15).2.allocate 13).2.allocate first).2.Room memory.size
        wanted := fun _ => by
    have later : ((((stagedLedger image).allocate 15).2.allocate 13).2.allocate first).2.bump =
      image.dataSize + 64 + 4 + first := rfl
    omega
  rcases @strings_concatenate _ _ _ none compiled assembled addressable fits _ _ sound pc [] .empty
    with ⟨joins, _, _⟩
  rcases @strings_concatenate _ _ _ none compiled assembled addressable fits _ _ sound place []
    .empty with ⟨_, appends, _⟩
  rcases @strings_concatenate _ _ _ none compiled assembled addressable fits _ _ sound last []
    .empty with ⟨_, _, prepends⟩
  rcases joins holds _ _ _ isString _ _ _ isEmpty with ⟨_, neutral, _, associates⟩
  refine ⟨code, image, pc, place, last, memory, string, empty,
    (((stagedLedger image).allocate 15).2.allocate 13).2, compiled, assembled, holds, holdsAppend,
    holdsPrepend, ?_, ?_, ?_, ?_, ?_, ?_⟩
  · exact (joins holds _ _ _ isString _ _ _ isString).1 (room (by decide))
  · exact neutral rfl (room (by decide))
  · exact (joins holds _ _ _ isEmpty _ _ _ isString).2.2.1 rfl (room (by decide))
  · exact associates _ _ _ isString (room (by decide)) (roomAfter (by decide) (by decide))
      (room (by decide)) (roomAfter (by decide) (by decide))
  · exact appends holdsAppend _ _ _ 99 isString (room (by decide))
  · exact prepends holdsPrepend _ _ _ 99 isString (room (by decide))

end Program

end StackBackend
