import StackBackend.Proofs.PureFunctions
import StackBackend.Proofs.TextRecords

namespace StackBackend

/-! Neither indexing nor taking part of a string leaves a record. Numbers that are no positions end
in a fault, whatever the differences come to that the code computes of them, and nothing is
allocated then. -/

theorem Memory.read_eq_take_drop (memory : Memory) {start length skip width : Nat}
    (within : skip + width ≤ length) :
    memory.read (start + skip) width = ((memory.read start length).drop skip).take width := by
  rcases Nat.exists_eq_add_of_le within with ⟨rest, rfl⟩
  rw [Nat.add_assoc, read_append, List.drop_left' (length_read ..), read_append,
    List.take_left' (length_read ..)]

namespace Text

open Code Record Address Sequence

/-! ## The tests -/

/-- Faults if the end is behind the characters. -/
def endTest : Code :=
  (lengthOf Cell.stringFirst ++ (loadWord Cell.stringEnd ++ [.subtract])) ++
    [.jumpNeg Fault.indexOutOfBounds.handler]

/-- Faults unless the start is before the end. -/
def orderTest (passed : String) : Code :=
  span ++ [.jumpPos passed, .jump Fault.substringIndices.handler, .label passed]

/-- All tests of the numbers that have been parked. -/
def substringTests (started ordered : String) : Code :=
  boundsTest Cell.stringStart (lengthOf Cell.stringFirst) started ++ (endTest ++ orderTest ordered)

/-- Leaves the number of characters, the first of them, and the place that they go to. -/
def substringPlaces : Code :=
  .duplicate :: (addOffset stringHeaderSize ++ (charactersOf Cell.stringFirst ++
    (loadWord Cell.stringStart ++ (.add :: span))))

/-- Builds the part of the string between the numbers that have been parked. -/
def extraction : Code :=
  span ++ (allocateString dynamicStringStatus ++ (substringPlaces ++ [.call Entry.copyBytes]))

theorem substring_parts {code : Code} {last next : Nat}
    (generated : substring last = .ok (code, next)) :
    ∃ started ordered, code = (storeWord Cell.stringEnd ++ storeWord Cell.stringStart) ++
      (nullCheck ++ (storeWord Cell.stringFirst ++
        (substringTests started ordered ++ extraction))) := by
  simp only [substring, Generation.bind_eq_ok, Generation.pure_eq_ok,
    Generation.freshLabels_eq_ok] at generated
  rcases generated with ⟨labels, _, ⟨rfl, rfl⟩, rfl, rfl⟩
  refine ⟨LabelGroup.label ⟨"substring", last + 1⟩ "start-ok",
    LabelGroup.label ⟨"substring", last + 1⟩ "indices-ok", ?_⟩
  simp [substringTests, boundsTest, endTest, orderTest, extraction, substringPlaces]

/-- The difference of the length and a number is negative if the number is too large, and also if it
is so small that the difference wraps around. -/
theorem length_sub_neg {length stop : Int32} {count : Nat} (counted : Names length count) :
    length - stop < 0 ↔ (count : Int) < stop.toInt ∨ 2147483648 ≤ (count : Int) - stop.toInt := by
  have upper := Int32.toInt_lt length
  have lower := Int32.le_toInt stop
  have most := Int32.toInt_lt stop
  unfold Names at counted
  rw [Int32.lt_iff_toInt_lt, Int32.toInt_sub, Int32.toInt_zero, counted, Int.bmod_def]
  omega

/-- A number that is not too small for the length may be subtracted from. -/
theorem span_pos {first stop : Int32} {count : Nat} (nonnegative : 0 ≤ first.toInt)
    (below : first.toInt < count) (near : (count : Int) - stop.toInt < 2147483648) :
    0 < stop - first ↔ first.toInt < stop.toInt := by
  have most := Int32.toInt_lt stop
  rw [Int32.lt_iff_toInt_lt, Int32.toInt_sub, Int32.toInt_zero,
    Int.bmod_eq_of_le (by omega) (by omega)]
  omega

/-- The numbers are the ends of a part of a string with so many characters. -/
def InOrder (count : Nat) (first stop : Int32) : Prop :=
  0 ≤ first.toInt ∧ first.toInt < count ∧ first.toInt < stop.toInt ∧ stop.toInt ≤ count

instance (count : Nat) (first stop : Int32) : Decidable (InOrder count first stop) :=
  inferInstanceAs (Decidable (_ ∧ _))

section

variable {image : Image} {limit : Option Nat} {ledger : Heap.Ledger} {memory parked : Memory}
  {stack : List Word} {output : ByteArray} {pointer first stop : Int32} {base count pc : Nat}
  {characters : List UInt8} {started ordered : String}

/-- The operands are in their cells. -/
structure Parked (image : Image) (pointer first stop : Int32) (memory parked : Memory) : Prop where
  only : Cells.Only image.word [Cell.stringEnd, Cell.stringStart, Cell.stringFirst] memory parked
  string : parked.cell image.word Cell.stringFirst = pointer
  first : parked.cell image.word Cell.stringStart = first
  stop : parked.cell image.word Cell.stringEnd = stop

theorem Parked.act_span (parks : Parked image pointer first stop memory parked)
    (installed : HigherOrder.Installed image) (inside : image.dataSize ≤ parked.size)
    (stack : List Word) (rest : Code) :
    Code.act image.word (span ++ rest) stack parked =
      Code.act image.word rest (.integer (stop - first) :: stack) parked := by
  have known : ∀ name ∈ operandCells, name ∈ Program.wordCells := fun name member =>
    (operandCells_known name member).1
  rw [span, List.append_assoc, List.append_assoc,
    installed.cells.act_loadCell (known _ (by decide)) inside,
    installed.cells.act_loadCell (known _ (by decide)) inside, parks.first, parks.stop,
    List.singleton_append, act_subtract]

/-- The tests are passed for the ends of a part of the string, and a fault for all other numbers. -/
theorem substringTests_run (limit : Option Nat) (stack : List Word) (output : ByteArray)
    (installed : HigherOrder.Installed image) (sound : Heap.Sound image.word parked ledger)
    (string : IsString image ledger parked pointer base characters)
    (parks : Parked image pointer first stop memory parked) (inside : image.dataSize ≤ parked.size)
    (holds : image.Holds (substringTests started ordered) pc) :
    (InOrder characters.length first stop → Runs image limit ⟨pc, stack, parked, output⟩
        ⟨pc + (substringTests started ordered).size, stack, parked, output⟩) ∧
      (¬ InOrder characters.length first stop →
        ∃ fault ∈ [Fault.indexOutOfBounds, Fault.substringIndices], ∃ handler,
          image.Marks fault.handler handler ∧
          Runs image limit ⟨pc, stack, parked, output⟩ ⟨handler, stack, parked, output⟩) := by
  rcases installed.faults .indexOutOfBounds with ⟨outside, outsideMarks⟩
  rcases installed.faults .substringIndices with ⟨disorder, disorderMarks⟩
  have addressable := installed.addressable
  have counted : Names (parked.word (base + 8)) characters.length := string.stores.length
  have reads := string.act_lengthOf installed sound (by decide) parks.string
  rcases Image.holds_append.mp holds with ⟨holdsBounds, holdsEnds⟩
  rw [← List.append_nil (boundsTest _ _ _)] at holdsBounds
  rcases boundsTest_runs limit stack output installed
    (operandCells_known Cell.stringStart (by decide)).1 inside holdsBounds reads counted with
    ⟨passes, faults⟩
  rw [parks.first] at passes faults
  by_cases position : 0 ≤ first.toInt ∧ first.toInt < characters.length
  swap
  · rcases faults position with ⟨handler, marks, runs⟩
    exact ⟨fun order => absurd ⟨order.1, order.2.1⟩ position,
      fun _ => ⟨_, List.mem_cons_self .., handler, marks, runs⟩⟩
  have begun := passes position
  rcases Image.holds_append.mp holdsEnds with ⟨holdsEnd, holdsOrder⟩
  have remains : Code.act image.word (lengthOf Cell.stringFirst ++
      (loadWord Cell.stringEnd ++ [.subtract])) stack parked =
        some (.integer (parked.word (base + 8) - stop) :: stack, parked) := by
    rw [reads, installed.cells.act_loadCell (operandCells_known _ (by decide)).1 inside, parks.stop,
      act_subtract, act_nil]
  have tests := jumpNeg_test Fault.indexOutOfBounds.handler (parked.word (base + 8) - stop)
  by_cases beyond : parked.word (base + 8) - stop < 0
  · rw [decide_eq_true beyond] at tests
    have far := (length_sub_neg counted).mp beyond
    refine ⟨fun order => ?_, fun _ => ⟨_, List.mem_cons_self .., outside, outsideMarks, ?_⟩⟩
    · have bound := Int32.toInt_lt (parked.word (base + 8))
      unfold InOrder at order
      unfold Names at counted
      omega
    · exact begun.trans (.branches addressable holdsEnd remains rfl outsideMarks tests)
  rw [decide_eq_false beyond] at tests
  have near := mt (length_sub_neg counted).mpr beyond
  have ended := begun.trans
    (.passesOver addressable holdsEnd remains rfl outsideMarks tests)
  have spans : Code.act image.word span stack parked =
      some (.integer (stop - first) :: stack, parked) :=
    act_alone (parks.act_span installed inside stack)
  have compares : (Instruction.jumpPos ordered).test (.integer (stop - first)) =
      some (decide (first.toInt < stop.toInt)) :=
    congrArg some (decide_eq_decide.mpr (span_pos position.1 position.2 (by omega)))
  have place : pc + (boundsTest Cell.stringStart (lengthOf Cell.stringFirst) started).size +
      Code.size (lengthOf Cell.stringFirst ++ (loadWord Cell.stringEnd ++ [.subtract])) + 1 =
        pc + (boundsTest Cell.stringStart (lengthOf Cell.stringFirst) started).size +
          endTest.size := by
    simp only [endTest, Code.size_append, Code.size_cons, Code.size_nil, Instruction.isDirective,
      Bool.false_eq_true, if_false]
    omega
  rw [place] at ended
  have holdsJump := ((Image.holds_cons rfl _ _).mp (Image.holds_append.mp holdsOrder).2).2
  have marks := ((Image.holds_label ..).mp ((Image.holds_cons rfl _ _).mp holdsJump).2).1
  by_cases order : first.toInt < stop.toInt
  · rw [decide_eq_true order] at compares
    refine ⟨fun _ => ?_, fun disordered => absurd ⟨position.1, position.2, order, ?_⟩ disordered⟩
    · have last : pc + (substringTests started ordered).size =
          pc + (boundsTest Cell.stringStart (lengthOf Cell.stringFirst) started).size +
            endTest.size + span.size + 1 + 1 := by
        simp only [substringTests, orderTest, Code.size_append, Code.size_cons, Code.size_nil,
          Instruction.isDirective, Bool.false_eq_true, if_false, if_true]
        omega
      rw [last]
      exact ended.trans (.branches addressable holdsOrder spans rfl marks compares)
    · omega
  · rw [decide_eq_false order] at compares
    refine ⟨fun inOrder => absurd inOrder.2.2.1 order, fun _ => ⟨_, List.mem_cons_of_mem _
      (List.mem_cons_self ..), disorder, disorderMarks, ended.trans (Runs.trans
        (.passesOver addressable holdsOrder spans rfl marks compares)
        (.jump addressable holdsJump disorderMarks))⟩⟩

/-- The operands have been parked: a part of the string is built, or there is no room for it. -/
theorem Parked.builds (limit : Option Nat) (stack : List Word) (output : ByteArray)
    (installed : HigherOrder.Installed image) (sound : Heap.Sound image.word memory ledger)
    (string : IsString image ledger memory pointer base characters)
    (parks : Parked image pointer first stop memory parked) {skip width : Nat}
    (begins : Names first skip) (ends : Names stop (skip + width))
    (within : skip + width ≤ characters.length) (holds : image.Holds extraction pc) :
    (¬ ledger.Room memory.size (13 + width) ∧
        Configuration.Traps image limit ⟨pc, stack, parked, output⟩) ∨
      ∃ after, Runs image limit ⟨pc, stack, parked, output⟩
          ⟨pc + extraction.size,
            .integer (Int32.ofNat (ledger.allocate (13 + width)).1.address) :: stack, after,
            output⟩ ∧
        Built image cells ledger ((characters.drop skip).take width) memory after := by
  have start := installed.record.start
  have extent := string.bounds installed sound
  have positive := string.stores.rests.positive
  have known : ∀ name ∈ [Cell.stringEnd, Cell.stringStart, Cell.stringFirst],
      name ∈ operandCells := by decide
  have soundParked := sound.only installed parks.only (by decide)
  have still := string.only installed sound parks.only fun name member =>
    (operandCells_known name (known name member)).1
  have size := parks.only.size
  have low := soundParked.tiled.start_le
  have high := soundParked.inside
  have firstValue : first.toInt = skip := begins
  have stopValue : stop.toInt = ((skip + width : Nat) : Int) := ends
  have length : ((characters.drop skip).take width).length = width := by
    rw [List.length_take, List.length_drop]
    omega
  have spans : Code.act image.word span stack parked =
      some (.integer (stop - first) :: stack, parked) :=
    act_alone (parks.act_span installed (by omega) stack)
  have counted : Names (stop - first) width := by
    have bound := Int32.toInt_lt stop
    unfold Names
    rw [Int32.toInt_sub, Int.bmod_eq_of_le (by omega) (by omega)]
    omega
  rcases blank_or_traps limit output installed soundParked spans counted (by omega) holds with
    ⟨full, traps⟩ | ⟨formed, forms, blank⟩
  · exact .inl ⟨size ▸ full, traps⟩
  have loads {label : String} (member : label ∈ operandCells) (stack : List Word) (rest : Code) :=
    blank.act_loadCell installed soundParked member stack rest
  have acts : Code.act image.word substringPlaces
      (.integer (Int32.ofNat (ledger.allocate (13 + width)).1.address) :: stack) formed =
        some (.integer (stop - first) :: .integer (pointer + stringHeaderSize + first) ::
          .integer (Int32.ofNat (ledger.allocate (13 + width)).1.address + stringHeaderSize) ::
          .integer (Int32.ofNat (ledger.allocate (13 + width)).1.address) :: stack, formed) := by
    rw [substringPlaces, act_duplicate, act_addOffset, charactersOf, List.append_assoc,
      loads (by decide), act_addOffset, loads (by decide), act_add, span, List.append_assoc,
      loads (by decide), loads (by decide), parks.string, parks.first, parks.stop, act_subtract,
      act_nil]
  have fits := blank.fits
  have destination : Names (Int32.ofNat (ledger.allocate (13 + width)).1.address +
      stringHeaderSize) ((ledger.allocate (13 + width)).1.address + 12 + 0) :=
    (names_ofNat (by omega)).add rfl (by omega)
  have inner : Names (pointer + stringHeaderSize) (base + 12) :=
    string.stores.names.add rfl (by omega)
  have source : Names (pointer + stringHeaderSize + first) (base + 12 + skip) :=
    inner.add (by omega) (by omega)
  have part : parked.read (base + 12 + skip) ((characters.drop skip).take width).length =
      (characters.drop skip).take width := by
    rw [length, Memory.read_eq_take_drop parked within, still.reads]
  rw [← length] at counted
  rcases blank.copies installed soundParked limit output still.rests
    (Image.holds_append.mp (Image.holds_append.mp holds).2).2 acts destination source counted
    (by omega) (by omega) (by omega) part with ⟨after, copies, filled⟩
  refine .inr ⟨after, ?_, ?_⟩
  · simpa only [extraction, Code.size_append, Code.size_cons, Code.size_nil,
      Instruction.isDirective, Bool.false_eq_true, if_false, Nat.add_assoc] using
      forms.trans copies
  · exact filled.built length (parks.only.mono known)

/-! ## Parts of strings -/

/-- What taking part of a string comes to: a fault for a null string, a fresh string with the part
unless there is no room for it, or a fault for numbers that are not the ends of a part. -/
structure Extracts (image : Image) (limit : Option Nat) (finish : Nat) (pointer first stop : Int32)
    (stack : List Word) (start : Configuration) : Prop where
  null : pointer = 0 → ∃ handler after, image.Marks Fault.nullArray.handler handler ∧
    Runs image limit start ⟨handler, .integer 0 :: stack, after, start.output⟩ ∧
    Cells.Only image.word operandCells start.memory after
  part : ∀ ledger base characters, Heap.Sound image.word start.memory ledger →
    IsString image ledger start.memory pointer base characters →
    InOrder characters.length first stop →
      Builds image limit cells ledger (characters.extract first.toInt.toNat stop.toInt.toNat) start
        finish stack
  outside : ∀ ledger base characters, Heap.Sound image.word start.memory ledger →
    IsString image ledger start.memory pointer base characters →
    ¬ InOrder characters.length first stop →
      ∃ fault ∈ [Fault.indexOutOfBounds, Fault.substringIndices], ∃ handler after,
        image.Marks fault.handler handler ∧
        Runs image limit start ⟨handler, stack, after, start.output⟩ ∧
        Cells.Only image.word operandCells start.memory after ∧
        Heap.Sound image.word after ledger

/-- The operands are parked unless the string is null. -/
theorem substring_parks (limit : Option Nat) (stack : List Word) (output : ByteArray)
    (pointer first stop : Int32) (installed : HigherOrder.Installed image) {rest : Code}
    (inside : image.dataSize ≤ memory.size)
    (holds : image.Holds ((storeWord Cell.stringEnd ++ storeWord Cell.stringStart) ++
      (nullCheck ++ (storeWord Cell.stringFirst ++ rest))) pc) :
    (pointer = 0 → ∃ handler after, image.Marks Fault.nullArray.handler handler ∧
      Runs image limit
        ⟨pc, .integer stop :: .integer first :: .integer pointer :: stack, memory, output⟩
        ⟨handler, .integer 0 :: stack, after, output⟩ ∧
      Cells.Only image.word operandCells memory after) ∧
    (pointer ≠ 0 → ∃ place parked, image.Holds rest place ∧
      place = pc + Code.size (storeWord Cell.stringEnd ++ storeWord Cell.stringStart) +
        nullCheck.size + (storeWord Cell.stringFirst).size ∧
      Runs image limit
        ⟨pc, .integer stop :: .integer first :: .integer pointer :: stack, memory, output⟩
        ⟨place, stack, parked, output⟩ ∧
      Parked image pointer first stop memory parked) := by
  have known {name : String} (member : name ∈ operandCells) : name ∈ Program.wordCells :=
    (operandCells_known name member).1
  have ending : Cell.stringEnd ∈ Program.wordCells := known (by decide)
  have starting : Cell.stringStart ∈ Program.wordCells := known (by decide)
  have string : Cell.stringFirst ∈ Program.wordCells := known (by decide)
  have within : image.dataSize ≤ (memory.setCell image.word Cell.stringEnd stop).size := by
    rwa [Memory.size_setCell]
  have acts : Code.act image.word (storeWord Cell.stringEnd ++ storeWord Cell.stringStart)
      (.integer stop :: .integer first :: .integer pointer :: stack) memory =
        some (.integer pointer :: stack,
          (memory.setCell image.word Cell.stringEnd stop).setCell image.word Cell.stringStart
            first) := by
    rw [installed.cells.act_storeCell ending inside, installed.cells.act_lastStore starting within]
  have within' : image.dataSize ≤ ((memory.setCell image.word Cell.stringEnd stop).setCell
      image.word Cell.stringStart first).size := by
    rwa [Memory.size_setCell]
  have only {names : List String} (ended : Cell.stringEnd ∈ names)
      (started : Cell.stringStart ∈ names) : Cells.Only image.word names memory
        ((memory.setCell image.word Cell.stringEnd stop).setCell image.word Cell.stringStart
          first) :=
    ((Cells.Only.refl memory).setCell ended _).setCell started _
  rcases Image.holds_append.mp holds with ⟨holdsStore, holdsCheck⟩
  have begun : Runs image limit
      ⟨pc, .integer stop :: .integer first :: .integer pointer :: stack, memory, output⟩
      ⟨_, _, _, _⟩ := .straight holdsStore acts
  rcases parks_or_faults limit stack output pointer installed string within' holdsCheck with
    ⟨faults, parks⟩
  constructor
  · intro null
    rcases faults null with ⟨handler, marks, faulted⟩
    exact ⟨handler, _, marks, begun.trans faulted, only (by decide) (by decide)⟩
  · intro present
    rcases parks present with ⟨holdsRest, ends⟩
    refine ⟨_, _, holdsRest, rfl, begun.trans ends, ?_, ?_, ?_, ?_⟩
    · exact (only (by decide) (by decide)).setCell (by decide) _
    · exact installed.cells.cell_setCell string within'
    · rw [installed.cells.cell_setCell_other string starting (by decide),
        installed.cells.cell_setCell starting within]
    · rw [installed.cells.cell_setCell_other string ending (by decide),
        installed.cells.cell_setCell_other starting ending (by decide),
        installed.cells.cell_setCell ending inside]

/-- Numbers in order are the ends of a part. -/
theorem InOrder.exists_part {count : Nat} (order : InOrder count first stop) :
    ∃ skip width, Address.Names first skip ∧ Address.Names stop (skip + width) ∧
      skip + width ≤ count ∧ skip = first.toInt.toNat ∧ skip + width = stop.toInt.toNat := by
  rcases order with ⟨nonnegative, _, less, within⟩
  refine ⟨first.toInt.toNat, (stop.toInt - first.toInt).toNat, ?_, ?_, ?_, rfl, ?_⟩
  · unfold Address.Names
    omega
  · unfold Address.Names
    omega
  · omega
  · omega

/-- Taking part of a string comes to a fresh string, or to a fault. -/
theorem substring_extracts (installed : HigherOrder.Installed image) {code : Code}
    {last next : Nat} {start : Configuration}
    (generated : substring last = .ok (code, next)) (holds : image.Holds code start.pc)
    (operands : start.stack = .integer stop :: .integer first :: .integer pointer :: stack)
    (inside : image.dataSize ≤ start.memory.size) :
    Extracts image limit (start.pc + code.size) pointer first stop stack start := by
  rcases start with ⟨place, words, memory, output⟩
  cases operands
  rcases substring_parts generated with ⟨started, ordered, rfl⟩
  rcases substring_parks limit stack output pointer first stop installed inside holds with
    ⟨faults, parks⟩
  constructor
  · exact faults
  · intro ledger base characters sound string order
    rcases parks string.stores.ne_zero with ⟨tests, parked, holdsRest, rfl, parking, parks⟩
    have soundParked := sound.only installed parks.only (by decide)
    have still := string.only installed sound parks.only (by decide)
    have size := parks.only.size
    rcases Image.holds_append.mp holdsRest with ⟨holdsTests, holdsBuild⟩
    have passed := (substringTests_run limit stack output installed soundParked still parks
      (by omega) holdsTests).1 order
    rcases order.exists_part with ⟨skip, width, begins, ends, within, skips, stops⟩
    have part : (characters.drop skip).take width =
        characters.extract first.toInt.toNat stop.toInt.toNat := by
      rw [List.extract_eq_take_drop, ← skips, ← stops, Nat.add_sub_cancel_left]
    have length : ((characters.drop skip).take width).length = width := by
      rw [List.length_take, List.length_drop]
      omega
    rw [← part]
    rcases parks.builds limit stack output installed sound string begins ends within
      holdsBuild with ⟨full, traps⟩ | ⟨after, builds, built⟩
    · rw [← length] at full
      exact .inl ⟨full, .of_runs (parking.trans passed) traps⟩
    · apply Or.inr
      apply built.leaves cells_known installed sound
      rw [length]
      simpa only [Code.size_append, Nat.add_assoc] using (parking.trans passed).trans builds
  · intro ledger base characters sound string disorder
    rcases parks string.stores.ne_zero with ⟨tests, parked, holdsRest, rfl, parking, parks⟩
    have soundParked := sound.only installed parks.only (by decide)
    have still := string.only installed sound parks.only (by decide)
    have size := parks.only.size
    rcases (substringTests_run limit stack output installed
      soundParked still parks (by omega) (Image.holds_append.mp holdsRest).1).2 disorder with
      ⟨fault, listed, handler, marks, runs⟩
    exact ⟨fault, listed, handler, parked, marks, parking.trans runs,
      parks.only.mono (by decide), soundParked⟩

end

end Text

namespace Program

open Sequence (Indexes)
open Text (Extracts)

/-- Numbers that are no positions of a sequence end in a fault. The index of an element leads to its
address, and all bytes of the element are in the record; numbers that are the ends of a part of a
string lead to a fresh string with the part. For all other numbers nothing is allocated. -/
theorem positions_checked {program : Program} {code : Code} {image : Image} {limit : Option Nat}
    (compiled : program.compile ⟨true⟩ = .ok code) (assembled : Image.assemble code = .ok image)
    (addressable : image.Addressable) (fits : image.dataSize ≤ 2147483647) :
    (∀ sequence index expansion type layout last next pointer position start evaluated,
      Sequence.index sequence index type last = .ok (expansion, next) →
      type.sequenceLayout = .ok layout → image.Holds expansion start.pc →
      Runs image limit start evaluated →
      evaluated.pc = start.pc + sequence.size + index.size →
      evaluated.stack = .integer position :: .integer pointer :: start.stack →
      image.dataSize ≤ evaluated.memory.size →
        Indexes image limit layout expansion pointer position start evaluated) ∧
    (∀ expansion last next pointer first stop stack start,
      Text.substring last = .ok (expansion, next) → image.Holds expansion start.pc →
      start.stack = .integer stop :: .integer first :: .integer pointer :: stack →
      image.dataSize ≤ start.memory.size →
        Extracts image limit (start.pc + expansion.size) pointer first stop stack start) := by
  have installed := operators_installed compiled assembled addressable fits
  constructor
  · intro sequence index expansion type layout last next pointer position start evaluated
      generated found holds runs pc stack inside
    exact Sequence.index_indexes installed generated found holds runs pc stack inside
  · intro expansion last next pointer first stop stack start generated holds operands inside
    exact Text.substring_extracts installed generated holds operands inside

/-- The part of a string up to the second of two numbers. -/
def positioned : Form :=
  .operation (.snippet .substring) [.typed .string (.string "ab"), .typed .integer (.integer 0),
    .typed .integer (.operation (.full .arrayIndex)
      [.typed (.array .integer) (.identifier twoNumbers), .typed .integer (.integer 1)])]

theorem valueCode_positioned :
    ∃ index substring, ∃ last next : Nat,
      (Expr.typed .string positioned).valueCode 0 =
        .ok ((Record.stringLiteral (LabelGroup.label ⟨"string", 1⟩ "literal") "ab" ++ [.pushI 0]) ++
          (index ++ (.loadI :: substring)), next) ∧
      Sequence.index twoNumbersCode [.pushI 1] (.array .integer) 1 = .ok (index, last) ∧
      Text.substring last = .ok (substring, next) :=
  ⟨_, _, _, _, rfl, rfl, rfl⟩

/-- An image of the program has the code of both, and memories with an array and a string. -/
theorem exists_positioned :
    ∃ code image index substring pc place memory base ready, ∃ last next : Nat,
      (applying .string positioned).compile ⟨true⟩ = .ok code ∧ Image.assemble code = .ok image ∧
      image.Addressable ∧ image.dataSize ≤ 65536 ∧
      Sequence.index twoNumbersCode [.pushI 1] (.array .integer) 1 = .ok (index, last) ∧
      Text.substring last = .ok (substring, next) ∧ image.Holds index pc ∧
      image.Holds substring place ∧ Staged image memory ∧ ready.size = 131072 ∧
      Heap.Sound image.word ready ((stagedLedger image).allocate 15).2 ∧
      Text.IsString image ((stagedLedger image).allocate 15).2 ready (Int32.ofNat base) base
        [97, 98] := by
  rcases @exists_stage .string positioned (by decide +kernel)
    (by simp [Plain, applying, reserving, operations, blockOperations, Statement.operations,
      Expr.operations, Form.operations, exprsOperations, positioned]) with
    ⟨code, image, expansion, next, pc, memory, compiled, assembled, addressable, small, valued,
      holds, staged⟩
  have installed := operators_installed compiled assembled addressable (by omega)
  rcases valueCode_positioned with ⟨index, substring, last, next, same, indexed, taken⟩
  cases same.symm.trans valued
  rcases Image.holds_append.mp (Image.holds_append.mp holds).2 with ⟨holdsIndex, holdsPart⟩
  have holdsPart := ((Image.holds_cons rfl _ _).mp holdsPart).2
  rcases Text.substring_parts taken with ⟨_, _, parts⟩
  have room : (stagedLedger image).Room memory.size 15 := fun _ => by
    have size := staged.size
    have bump : (stagedLedger image).bump = image.dataSize + 4 + 24 := rfl
    omega
  rcases Image.holds_append.mp (parts ▸ holdsPart) with ⟨_, holdsPart'⟩
  rcases Image.holds_append.mp holdsPart' with ⟨_, holdsPart'⟩
  rcases Image.holds_append.mp holdsPart' with ⟨_, holdsPart'⟩
  rcases Image.holds_append.mp (Image.holds_append.mp holdsPart').2 with ⟨_, holdsForm⟩
  rcases Text.exists_string [97, 98] installed staged.sound room
    (Image.holds_append.mp holdsForm).1 with ⟨ready, size, sound, string, _⟩
  exact ⟨code, image, index, substring, _, _, memory, _, ready, last, _, compiled, assembled,
    addressable, small, indexed, taken, holdsIndex, holdsPart, staged, size.trans staged.size,
    sound, string⟩

/-- The second of two numbers is indexed, but no third; a string is copied in full, and the largest
difference is a fault. -/
theorem two_positions :
    ∃ code image index substring pc place memory ready pointer, ∃ last next : Nat,
      (applying .string positioned).compile ⟨true⟩ = .ok code ∧ Image.assemble code = .ok image ∧
      Sequence.index twoNumbersCode [.pushI 1] (.array .integer) 1 = .ok (index, last) ∧
      Text.substring last = .ok (substring, next) ∧ image.Holds index pc ∧
      image.Holds substring place ∧
      (∃ slot after, Address.Names slot (image.dataSize + 24) ∧
        Runs image none ⟨pc, [], memory, .empty⟩
          ⟨pc + index.size, [.integer slot], after, .empty⟩) ∧
      (∃ copy after, Runs image none
          ⟨place, [.integer 2, .integer 0, .integer pointer], ready, .empty⟩
          ⟨place + substring.size, [.integer copy], after, .empty⟩ ∧
        Text.Built image Text.cells ((stagedLedger image).allocate 15).2 [97, 98] ready after) ∧
      ∃ fault ∈ [Fault.indexOutOfBounds, Fault.substringIndices], ∃ handler after,
        image.Marks fault.handler handler ∧
        Runs image none
          ⟨place, [.integer (-2147483648), .integer 1, .integer pointer], ready, .empty⟩
          ⟨handler, [], after, .empty⟩ := by
  rcases exists_positioned with ⟨code, image, index, substring, pc, place, memory, base, ready,
    last, next, compiled, assembled, addressable, small, indexed, taken, holdsIndex, holdsPart,
    staged, size, sound, string⟩
  have installed := operators_installed compiled assembled addressable (by omega)
  have initial := staged.size
  have fits : image.dataSize ≤ 2147483647 := by omega
  have inside : image.dataSize ≤ memory.size := by omega
  have insideReady : image.dataSize ≤ ready.size := by omega
  rcases @positions_checked _ _ _ none compiled assembled addressable fits with
    ⟨indexes, extracts⟩
  refine ⟨code, image, index, substring, pc, place, memory, ready, Int32.ofNat base, last, next,
    compiled, assembled, indexed, taken, holdsIndex, holdsPart, ?_, ?_, ?_⟩
  · have holdsFirst := holdsIndex
    rcases Sequence.index_parts indexed with ⟨layout, _, rfl⟩
    rw [← List.append_assoc] at holdsFirst
    have acts : Code.act image.word (twoNumbersCode ++ [.pushI 1]) [] memory =
        some ([.integer 1, .integer (stagedPointer image)], memory) := by
      rw [@Staged.act_twoNumbers image memory staged memory (fun _ => True) (.refl memory),
        Code.act_pushI, Code.act_nil]
    have runs : Runs image none ⟨pc, [], memory, .empty⟩ ⟨_, _, _, .empty⟩ :=
      .straight (Image.holds_append.mp holdsFirst).1 acts
    rcases (indexes _ _ _ _ _ _ _ _ _ ⟨pc, [], memory, .empty⟩ _ indexed rfl holdsIndex runs
      (by rw [Code.size_append, ← Nat.add_assoc]) rfl inside).element _ _ _ 1 staged.sound
      (.of_isArray installed staged.sound staged.array) (by decide) rfl with
      ⟨slot, after, finishes, named, _⟩
    exact ⟨slot, after, named, finishes⟩
  · have room : ((stagedLedger image).allocate 15).2.Room ready.size 15 := fun _ => by
      have bump : ((stagedLedger image).allocate 15).2.bump = image.dataSize + 28 + 4 + 15 := rfl
      omega
    rcases (extracts _ _ _ _ 0 2 [] ⟨place, _, ready, .empty⟩ taken holdsPart rfl
      insideReady).part _ _ _ sound string (by decide) with
      ⟨full, _⟩ | ⟨copy, after, _, runs, built, _⟩
    · exact absurd room full
    · exact ⟨copy, after, runs, built⟩
  · rcases (extracts _ _ _ _ 1 (-2147483648) [] ⟨place, _, ready, .empty⟩ taken holdsPart rfl
      insideReady).outside _ _ _ sound string (by decide) with
      ⟨fault, listed, handler, after, marks, runs, _⟩
    exact ⟨fault, listed, handler, after, marks, runs⟩

end Program

end StackBackend
