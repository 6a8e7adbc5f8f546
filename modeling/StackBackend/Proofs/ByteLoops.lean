import Mathlib.Data.Nat.Find
import StackBackend.Environment
import StackBackend.Proofs.Blocks
import StackBackend.Proofs.Cells

namespace StackBackend

/-! The two byte loops do exactly their range. They work through cells of their own, so
everything here is about ranges of memory that lie apart from those cells. -/

namespace Memory

variable {word : String → Int32} {names : List String} {name : String} {memory : Memory}
  {index : Nat} {value : UInt8}

/-- A byte outside the cells is written without touching them. -/
theorem cell_write_byte (member : name ∈ names) (misses : Cells.Misses word names index) :
    (memory.write index [value]).cell word name = memory.cell word name := by
  have apart := misses name member
  exact word_write_of_apart (by simp only [List.length_singleton]; omega)

theorem byte_write_byte (inside : index < memory.size) :
    (memory.write index [value]).byte index = value := by
  simp [write, byte_set, inside]

theorem byte_write_byte_of_ne {other : Nat} (different : other ≠ index) :
    (memory.write index [value]).byte other = memory.byte other :=
  byte_write_of_outside memory index other [value] (by simp only [List.length_singleton]; omega)

end Memory

namespace Address

/-- An address so many bytes further on, as long as that is in the 32-bit range. -/
theorem Names.addNat {address : Int32} {index : Nat} (names : Names address index) {count : Nat}
    (fits : index + count < 2147483648) : Names (address + Int32.ofNat count) (index + count) :=
  names.add (by rw [Int32.toInt_ofNat_of_lt (by omega)]; simp) fits

theorem Names.subNat {address : Int32} {index : Nat} (names : Names address index) {count : Nat}
    (enough : count ≤ index) : Names (address - Int32.ofNat count) (index - count) := by
  have bound := Int32.toInt_lt address
  unfold Names at names
  exact Names.sub names (by rw [Int32.toInt_ofNat_of_lt (by omega)]; omega) (by omega)

/-- A sum that is an address has not wrapped around. -/
theorem Names.of_add {address offset : Int32} {index distance target : Nat}
    (names : Names address index) (far : Names offset distance)
    (named : Names (address + offset) target) : target = index + distance := by
  have upper := Int32.toInt_lt address
  have bound := Int32.toInt_lt offset
  have lower := Int32.le_toInt (address + offset)
  unfold Names at names far named
  rw [Int32.toInt_add, names, far, Int.bmod_def] at named
  omega

theorem ne_zero_of_names {value : Int32} {count : Nat} (names : Names value count)
    (positive : 0 < count) : value ≠ 0 := by
  rintro rfl
  unfold Names at names
  simp only [Int32.toInt_zero] at names
  omega

theorem eq_zero_of_names {value : Int32} (names : Names value 0) : value = 0 :=
  Int32.toInt_inj.mp (names.trans Int32.toInt_zero.symm)

theorem add_ofNat_succ (value : Int32) (count : Nat) :
    value + Int32.ofNat count + 1 = value + Int32.ofNat (count + 1) := by
  rw [Int32.ofNat_add, Int32.add_assoc]
  rfl

theorem sub_ofNat_succ (value : Int32) (count : Nat) :
    value - Int32.ofNat count - 1 = value - Int32.ofNat (count + 1) := by
  rw [Int32.ofNat_add, Int32.sub_sub]
  rfl

end Address

/-- Every address of the range is one of a byte of the memory. A range without addresses may
start anywhere. -/
def Memory.Spans (memory : Memory) (start : Int32) (count : Nat) : Prop :=
  ∀ index < count, (memory.index? (start + Int32.ofNat index) 1).isSome

theorem Memory.spans_of_fits {memory : Memory} {start : Int32} {index count : Nat}
    (names : Address.Names start index) (within : index + count ≤ memory.size)
    (fits : index + count ≤ 2147483648) : memory.Spans start count := fun offset below =>
  Option.isSome_iff_exists.mpr
    ⟨_, Memory.index?_eq_some.mpr ⟨names.addNat (show index + offset < _ by omega), by omega⟩⟩

/-- The addresses of a range inside the memory are in a row. -/
theorem Memory.Spans.reach {memory : Memory} {start : Int32} {count : Nat}
    (spans : memory.Spans start count) (few : count ≤ 2147483648) :
    ∀ index < count, memory.index? (start + Int32.ofNat index) 1 =
      some (Address.index start + index) := by
  intro index below
  obtain ⟨first, reached⟩ := Option.isSome_iff_exists.mp (spans 0 (by omega))
  have located : Address.Names start first := by
    simpa using (Memory.index?_eq_some.mp reached).1
  have names : Address.Names start (Address.index start) :=
    Address.names_index (by unfold Address.Names at located; omega)
  obtain ⟨target, found⟩ := Option.isSome_iff_exists.mp (spans index below)
  have named := (Memory.index?_eq_some.mp found).1
  rw [found, names.of_add (Address.names_ofNat (by omega)) named]

/-- The range is in none of the cells. -/
def Cells.Apart (word : String → Int32) (names : List String) (start count : Nat) : Prop :=
  ∀ index, start ≤ index → index < start + count → Misses word names index

/-! ## Clearing -/

namespace ClearBytes

open Code Address

def cells : List String :=
  [returnCell, countCell, cursorCell]

def park : Code :=
  Code.join [storeWord returnCell, storeWord countCell, storeWord cursorCell]

/-- Clears a byte and turns to the next one. -/
def turn : Code :=
  Code.join [loadWord cursorCell, [.pushI 0, .storeC], increment cursorCell,
    decrement countCell]

/-- The routine in an image. -/
structure Installed (image : Image) : Prop where
  addressable : image.Addressable
  cells : Cells image.word cells image.dataSize
  atEntry : image.Labelled Entry.clearBytes (park ++ [.label loop])
  atLoop : image.Labelled loop
    (loadWord countCell ++ .jumpFalse exit :: (turn ++ .jump loop :: [.label exit]))
  atExit : image.Labelled exit (loadWord returnCell ++ [.popPC])

theorem installed_of_holds {image : Image} (addressable : image.Addressable)
    (layout : Cells image.word cells image.dataSize) {position : Nat}
    (holds : image.Holds code position) : Installed image := by
  have parts : code = Environment.wordCells cells ++ Instruction.label Entry.clearBytes ::
      (park ++ Instruction.label loop ::
      ((loadWord countCell ++ Instruction.jumpFalse exit :: (turn ++ [Instruction.jump loop])) ++
        Instruction.label exit :: (loadWord returnCell ++ [Instruction.popPC]))) := rfl
  rw [parts] at holds
  obtain ⟨atEntry, rest⟩ := (Image.labelled_of_holds holds).split
  obtain ⟨atLoop, atExit⟩ := rest.split
  exact ⟨addressable, layout, atEntry, by simpa using atLoop, atExit⟩

/-- The range is clear, and nothing else has changed but for the cells. -/
structure Cleared (word : String → Int32) (before after : Memory) (start count : Nat) : Prop where
  size : after.size = before.size
  clear : ∀ index, start ≤ index → index < start + count → after.byte index = 0
  kept : ∀ index, index < start ∨ start + count ≤ index → Cells.Misses word cells index →
    after.byte index = before.byte index

/-- The loop at work on the bytes from an address on, some of which it has cleared. -/
structure Clearing (word : String → Int32) (before : Memory) (caller base total : Int32)
    (start done : Nat) (memory : Memory) : Prop where
  cleared : Cleared word before memory start done
  caller : memory.cell word returnCell = caller
  cursor : memory.cell word cursorCell = base + Int32.ofNat done
  count : memory.cell word countCell = total - Int32.ofNat done

section

variable {word : String → Int32} {floor : Nat} {before memory : Memory} {stack : List Word}
  {caller base total : Int32} {start done : Nat} (layout : Cells word cells floor)
include layout

theorem act_park (start : Nat) (inside : floor ≤ memory.size) :
    ∃ after, Code.act word park (.integer caller :: .integer total :: .integer base :: stack)
        memory = some (stack, after) ∧
      Clearing word memory caller base total start 0 after := by
  have only : Cells.Only word cells memory (((memory.setCell word returnCell caller).setCell word
      countCell total).setCell word cursorCell base) :=
    (((Cells.Only.refl memory).setCell (by decide) _).setCell (by decide) _).setCell (by decide) _
  refine ⟨_, ?_, ⟨only.size, fun index lower upper => by omega, fun index _ misses =>
    only.kept index misses⟩, ?_, ?_, ?_⟩
  · simp (disch := first | assumption | (simp only [Memory.size_setCell]; assumption) | decide) only
      [park, join_cons, join_nil, layout.act_storeCell, act_nil]
  · simp (disch := first | assumption | (simp only [Memory.size_setCell]; assumption) | decide)
      only [layout.cell_setCell, layout.cell_setCell_other]
  · simp (disch := first | assumption | (simp only [Memory.size_setCell]; assumption) | decide)
      only [layout.cell_setCell]
    exact (Int32.add_zero base).symm
  · simp (disch := first | assumption | (simp only [Memory.size_setCell]; assumption) | decide)
      only [layout.cell_setCell, layout.cell_setCell_other]
    exact (Int32.sub_zero total).symm

variable (inside : floor ≤ before.size)
  (clearing : Clearing word before caller base total start done memory)
include inside clearing

theorem act_count :
    Code.act word (loadWord countCell) stack memory =
      some (.integer (total - Int32.ofNat done) :: stack, memory) := by
  rw [layout.act_lastLoad (by decide) (clearing.cleared.size.symm ▸ inside), clearing.count]

theorem act_return :
    Code.act word (loadWord returnCell) stack memory = some (.integer caller :: stack, memory) := by
  rw [layout.act_lastLoad (by decide) (clearing.cleared.size.symm ▸ inside), clearing.caller]

theorem act_turn (named : Names (base + Int32.ofNat done) (start + done))
    (within : start + done < before.size) (apart : Cells.Apart word cells start (done + 1)) :
    ∃ after, Code.act word turn stack memory = some (stack, after) ∧
      Clearing word before caller base total start (done + 1) after := by
  have size := clearing.cleared.size
  have floorLe : floor ≤ (memory.write (start + done) [0]).size := by
    rw [Memory.size_write, size]
    exact inside
  have stored : memory.store? (base + Int32.ofNat done) [(0 : Int32).toUInt32.toUInt8] =
      some (memory.write (start + done) [0]) :=
    Memory.store?_eq named (by rw [size]; exact within)
  have cell : ∀ name ∈ cells,
      (memory.write (start + done) [0]).cell word name = memory.cell word name :=
    fun name member => Memory.cell_write_byte member (apart _ (by omega) (by omega))
  have only : Cells.Only word cells (memory.write (start + done) [0])
      (((memory.write (start + done) [0]).setCell word cursorCell
        (base + Int32.ofNat done + 1)).setCell word countCell (total - Int32.ofNat done - 1)) :=
    ((Cells.Only.refl _).setCell (by decide) _).setCell (by decide) _
  refine ⟨_, ?_, ⟨only.size.trans ((Memory.size_write ..).trans size), fun index lower upper => ?_,
    fun index outside missed => ?_⟩, ?_, ?_, ?_⟩
  · simp only [turn, join_cons, join_nil, List.cons_append, List.nil_append]
    rw [layout.act_loadCell (by decide) (size.symm ▸ inside), clearing.cursor, act_pushI,
      act_storeC stored, layout.act_incrementCell (by decide) floorLe, cell _ (by decide),
      clearing.cursor, layout.act_decrementCell (by decide) (by rwa [Memory.size_setCell]),
      layout.cell_setCell_other (by decide) (by decide) (by decide), cell _ (by decide),
      clearing.count, act_nil]
  · rw [only.kept index (apart index lower upper)]
    by_cases last : index = start + done
    · rw [last, Memory.byte_write_byte (by rw [size]; exact within)]
    · rw [Memory.byte_write_byte_of_ne last, clearing.cleared.clear index lower (by omega)]
  · rw [only.kept index missed, Memory.byte_write_byte_of_ne (by omega),
      clearing.cleared.kept index (by omega) missed]
  · rw [layout.cell_setCell_other (by decide) (by decide) (by decide),
      layout.cell_setCell_other (by decide) (by decide) (by decide), cell _ (by decide),
      clearing.caller]
  · rw [layout.cell_setCell_other (by decide) (by decide) (by decide),
      layout.cell_setCell (by decide) floorLe, add_ofNat_succ]
  · rw [layout.cell_setCell (by decide) (by rwa [Memory.size_setCell]), sub_ofNat_succ]

end

section

variable {image : Image} {limit : Option Nat} {before memory : Memory} {stack : List Word}
  {output : ByteArray} {caller base total : Int32} {start done count position here : Nat}
  (installed : Installed image) (floor : image.dataSize ≤ before.size)
include installed floor

/-- Some rounds of the loop, from its label back to it. -/
theorem runs_rounds (counted : Names total count) {rounds : Nat} (enough : rounds ≤ count)
    (reach : ∀ index < rounds,
      before.index? (base + Int32.ofNat index) 1 = some (start + index))
    (apart : Cells.Apart image.word cells start rounds)
    (clearing : Clearing image.word before caller base total start 0 memory)
    (marks : image.Marks loop here) :
    ∃ after, Runs image limit ⟨here, stack, memory, output⟩ ⟨here, stack, after, output⟩ ∧
      Clearing image.word before caller base total start rounds after := by
  obtain ⟨exitHere, exitMarks, _⟩ := installed.atExit
  refine Runs.rounds installed.addressable installed.atLoop exitMarks
    (Clearing image.word before caller base total start) (fun done memory clearing below => ?_)
    (fun done memory clearing below => ?_) marks clearing
    (Nat.zero_le rounds)
  · exact ⟨_, ne_zero_of_names (counted.subNat (by omega)) (by omega),
      act_count installed.cells floor clearing⟩
  · obtain ⟨named, within⟩ := Memory.index?_eq_some.mp (reach done below)
    exact act_turn installed.cells floor clearing named within
      fun index lower upper => apart index lower (by omega)

/-- A round for a byte outside the memory. -/
theorem traps_round (counted : Names total count) (more : done < count)
    (outside : before.index? (base + Int32.ofNat done) 1 = none)
    (clearing : Clearing image.word before caller base total start done memory)
    (marks : image.Marks loop here) :
    Configuration.Traps image limit ⟨here, stack, memory, output⟩ := by
  obtain ⟨exitHere, exitMarks, _⟩ := installed.atExit
  obtain ⟨next, holds, runs⟩ : ∃ next, image.Holds (turn ++ .jump loop :: [.label exit]) next ∧
      Runs image limit ⟨here, stack, memory, output⟩ ⟨next, stack, memory, output⟩ :=
    Runs.passes installed.addressable (installed.atLoop.holds marks)
      (act_count installed.cells floor clearing) rfl exitMarks rfl
      (by simp [Instruction.test, ne_zero_of_names (counted.subNat (Nat.le_of_lt more))
        (Nat.sub_pos_of_lt more)])
  have size := clearing.cleared.size
  have parts : turn ++ .jump loop :: [.label exit] = (loadWord cursorCell ++ [.pushI 0]) ++
      .storeC :: (increment cursorCell ++ (decrement countCell ++ [.jump loop, .label exit])) := rfl
  have acts : Code.act image.word (loadWord cursorCell ++ [.pushI 0]) stack memory =
      some (.integer 0 :: .integer (base + Int32.ofNat done) :: stack, memory) := by
    rw [installed.cells.act_loadCell (by decide) (size ▸ floor), clearing.cursor, act_pushI, act_nil]
  refine Configuration.Traps.of_runs runs (Configuration.traps_storeC (parts ▸ holds) acts ?_)
  rw [← outside, Memory.index?, Memory.index?, size]

/-- From the entry to the loop. -/
theorem runs_park (caller base total : Int32) (start : Nat)
    (marks : image.Marks Entry.clearBytes here) {test : Nat} (loopMarks : image.Marks loop test) :
    ∃ after, Runs image limit
        ⟨here, .integer caller :: .integer total :: .integer base :: stack, before, output⟩
        ⟨test, stack, after, output⟩ ∧
      Clearing image.word before caller base total start 0 after := by
  obtain ⟨parked, parks, clearing⟩ := act_park installed.cells start floor
  exact ⟨parked, Runs.falls (installed.atEntry.holds marks) parks loopMarks, clearing⟩

/-- A range inside memory is cleared, and the routine returns. -/
theorem runs_reached (counted : Names total count)
    (reach : ∀ index < count, before.index? (base + Int32.ofNat index) 1 = some (start + index))
    (apart : Cells.Apart image.word cells start count) (inside : position ≤ image.code.size)
    (marks : image.Marks Entry.clearBytes here) :
    ∃ after, Runs image limit
        ⟨here, .integer (Int32.ofNat position) :: .integer total :: .integer base :: stack, before,
          output⟩ ⟨position, stack, after, output⟩ ∧
      Cleared image.word before after start count := by
  obtain ⟨test, loopMarks, _⟩ := installed.atLoop
  obtain ⟨exitHere, exitMarks, _⟩ := installed.atExit
  obtain ⟨parked, toLoop, clearing⟩ :=
    runs_park installed floor (Int32.ofNat position) base total start marks loopMarks
  obtain ⟨after, rounds, clearing⟩ :=
    runs_rounds installed floor counted (Nat.le_refl count) reach apart clearing loopMarks
  have spent : total - Int32.ofNat count = 0 :=
    eq_zero_of_names (by simpa using counted.subNat (Nat.le_refl count))
  have tested : Code.act image.word (loadWord countCell) stack after =
      some (.integer 0 :: stack, after) := by
    rw [act_count installed.cells floor clearing, spent]
  refine ⟨after, toLoop.trans (rounds.trans ?_), clearing.cleared⟩
  refine (Runs.branches installed.addressable (installed.atLoop.holds loopMarks) tested rfl
    exitMarks rfl).trans ?_
  exact Runs.leaves installed.addressable (installed.atExit.holds exitMarks) inside
    (act_return installed.cells floor clearing)

/-- Whatever the range is, the routine clears it, or it is not inside memory and the run ends
in a machine error. -/
theorem runs_or_traps (base : Int32) (counted : Names total count)
    (apart : Names base (Address.index base) →
      Cells.Apart image.word cells (Address.index base) count)
    (inside : position ≤ image.code.size) (marks : image.Marks Entry.clearBytes here) :
    (¬ (Names base (Address.index base) ∧ Address.index base + count ≤ before.size ∧
          Address.index base + count ≤ 2147483648) ∧
        Configuration.Traps image limit
          ⟨here, .integer (Int32.ofNat position) :: .integer total :: .integer base :: stack,
            before, output⟩) ∨
      ∃ after, Runs image limit
          ⟨here, .integer (Int32.ofNat position) :: .integer total :: .integer base :: stack,
            before, output⟩ ⟨position, stack, after, output⟩ ∧
        Cleared image.word before after (Address.index base) count ∧
        (0 < count → Names base (Address.index base)) := by
  by_cases reach : ∀ index < count, before.index? (base + Int32.ofNat index) 1 =
      some (Address.index base + index)
  · have first : 0 < count → Names base (Address.index base) := fun positive => by
      simpa using (Memory.index?_eq_some.mp (reach 0 positive)).1
    have rangeApart : Cells.Apart image.word cells (Address.index base) count := by
      intro index lower upper
      exact apart (first (by omega)) index lower upper
    obtain ⟨after, runs, cleared⟩ :=
      runs_reached installed floor counted reach rangeApart inside marks
    exact .inr ⟨after, runs, cleared, first⟩
  · refine .inl ⟨fun ⟨named, within, fits⟩ => reach fun index below =>
      Memory.index?_eq_some.mpr ⟨named.addNat (by omega), by omega⟩, ?_⟩
    -- The loop gets as far as the first byte that is out of reach.
    obtain ⟨rounds, ⟨below, fails⟩, least⟩ :
        ∃ rounds, (rounds < count ∧ before.index? (base + Int32.ofNat rounds) 1 ≠
            some (Address.index base + rounds)) ∧
          ∀ index < rounds, before.index? (base + Int32.ofNat index) 1 =
            some (Address.index base + index) := by
      simp only [not_forall, exists_prop] at reach
      refine ⟨Nat.find reach, Nat.find_spec reach, fun index less => ?_⟩
      have none := Nat.find_min reach less
      have within := (Nat.find_spec reach).1
      exact Decidable.not_not.mp fun differs => none ⟨by omega, differs⟩
    have few : rounds < 2147483648 := by
      have bound := Int32.toInt_lt total
      unfold Names at counted
      omega
    have begins : 0 < rounds → Names base (Address.index base) := fun positive => by
      simpa using (Memory.index?_eq_some.mp (least 0 positive)).1
    have outside : before.index? (base + Int32.ofNat rounds) 1 = none := by
      refine Option.eq_none_iff_forall_ne_some.mpr fun index found => fails (found.trans ?_)
      obtain ⟨named, within⟩ := Memory.index?_eq_some.mp found
      have names : Names base (Address.index base) := by
        obtain rfl | positive := Nat.eq_zero_or_pos rounds
        · rw [show base + Int32.ofNat 0 = base from Int32.add_zero base] at named
          exact names_index (by unfold Names at named; omega)
        · exact begins positive
      rw [names.of_add (names_ofNat few) named]
    obtain ⟨test, loopMarks, _⟩ := installed.atLoop
    obtain ⟨parked, toLoop, clearing⟩ := runs_park installed floor (Int32.ofNat position) base
      total (Address.index base) marks loopMarks
    obtain ⟨after, rounded, clearing⟩ := runs_rounds installed floor counted (Nat.le_of_lt below)
      least (fun index lower upper => apart (begins (by omega)) index lower (by omega)) clearing
      loopMarks
    exact .of_runs (toLoop.trans rounded)
      (traps_round installed floor counted below outside clearing loopMarks)

end

end ClearBytes

/-! ## Copying -/

namespace CopyBytes

open Code Address

def cells : List String :=
  [returnCell, countCell, sourceCell, destinationCell]

def park : Code :=
  Code.join [storeWord returnCell, storeWord countCell, storeWord sourceCell,
    storeWord destinationCell]

/-- Copies a byte and turns to the next one. -/
def turn : Code :=
  Code.join [loadWord destinationCell, loadWord sourceCell, [.loadC, .storeC],
    increment destinationCell, increment sourceCell, decrement countCell]

/-- The routine in an image. -/
structure Installed (image : Image) : Prop where
  addressable : image.Addressable
  cells : Cells image.word cells image.dataSize
  atEntry : image.Labelled Entry.copyBytes (park ++ [.label loop])
  atLoop : image.Labelled loop
    (loadWord countCell ++ .jumpFalse exit :: (turn ++ .jump loop :: [.label exit]))
  atExit : image.Labelled exit (loadWord returnCell ++ [.popPC])

theorem installed_of_holds {image : Image} (addressable : image.Addressable)
    (layout : Cells image.word cells image.dataSize) {position : Nat}
    (holds : image.Holds code position) : Installed image := by
  have parts : code = Environment.wordCells cells ++ Instruction.label Entry.copyBytes ::
      (park ++ Instruction.label loop ::
      ((loadWord countCell ++ Instruction.jumpFalse exit :: (turn ++ [Instruction.jump loop])) ++
        Instruction.label exit :: (loadWord returnCell ++ [Instruction.popPC]))) := rfl
  rw [parts] at holds
  obtain ⟨atEntry, rest⟩ := (Image.labelled_of_holds holds).split
  obtain ⟨atLoop, atExit⟩ := rest.split
  exact ⟨addressable, layout, atEntry, by simpa using atLoop, atExit⟩

/-- The range from `destination` on holds the bytes that were from `source` on, and nothing
else has changed but for the cells. -/
structure Copied (word : String → Int32) (before after : Memory)
    (destination source count : Nat) : Prop where
  size : after.size = before.size
  same : ∀ index < count, after.byte (destination + index) = before.byte (source + index)
  kept : ∀ index, index < destination ∨ destination + count ≤ index →
    Cells.Misses word cells index → after.byte index = before.byte index

/-- The loop at work on two ranges, of which it has copied some bytes. -/
structure Copying (word : String → Int32) (before : Memory) (caller : Int32)
    (destination source total : Int32) (target origin done : Nat) (memory : Memory) : Prop where
  copied : Copied word before memory target origin done
  caller : memory.cell word returnCell = caller
  destination : memory.cell word destinationCell = destination + Int32.ofNat done
  source : memory.cell word sourceCell = source + Int32.ofNat done
  count : memory.cell word countCell = total - Int32.ofNat done

section

variable {word : String → Int32} {floor : Nat} {before memory : Memory} {stack : List Word}
  {caller destination source total : Int32} {target origin done : Nat}
  (layout : Cells word cells floor)
include layout

theorem act_park (target origin : Nat) (inside : floor ≤ memory.size) :
    ∃ after, Code.act word park (.integer caller :: .integer total :: .integer source ::
        .integer destination :: stack) memory = some (stack, after) ∧
      Copying word memory caller destination source total target origin 0 after := by
  have only : Cells.Only word cells memory ((((memory.setCell word returnCell caller).setCell word
      countCell total).setCell word sourceCell source).setCell word destinationCell destination) :=
    ((((Cells.Only.refl memory).setCell (by decide) _).setCell (by decide) _).setCell
      (by decide) _).setCell (by decide) _
  refine ⟨_, ?_, ⟨only.size, fun index lower => by omega, fun index _ misses =>
    only.kept index misses⟩, ?_, ?_, ?_, ?_⟩
  · simp (disch := first | assumption | (simp only [Memory.size_setCell]; assumption) | decide) only
      [park, join_cons, join_nil, layout.act_storeCell, act_nil]
  · simp (disch := first | assumption | (simp only [Memory.size_setCell]; assumption) | decide)
      only [layout.cell_setCell, layout.cell_setCell_other]
  · rw [layout.cell_setCell (by decide) (by simpa using inside)]
    exact (Int32.add_zero destination).symm
  · rw [layout.cell_setCell_other (by decide) (by decide) (by decide),
      layout.cell_setCell (by decide) (by simpa using inside)]
    exact (Int32.add_zero source).symm
  · simp (disch := first | assumption | (simp only [Memory.size_setCell]; assumption) | decide)
      only [layout.cell_setCell, layout.cell_setCell_other]
    exact (Int32.sub_zero total).symm

variable (inside : floor ≤ before.size)
  (copying : Copying word before caller destination source total target origin done memory)
include inside copying

theorem act_count :
    Code.act word (loadWord countCell) stack memory =
      some (.integer (total - Int32.ofNat done) :: stack, memory) := by
  rw [layout.act_lastLoad (by decide) (copying.copied.size.symm ▸ inside), copying.count]

theorem act_return :
    Code.act word (loadWord returnCell) stack memory = some (.integer caller :: stack, memory) := by
  rw [layout.act_lastLoad (by decide) (copying.copied.size.symm ▸ inside), copying.caller]

theorem act_turn (names : Names (destination + Int32.ofNat done) (target + done))
    (sourceNames : Names (source + Int32.ofNat done) (origin + done))
    (within : target + done < before.size) (sourceWithin : origin + done < before.size)
    (apart : Cells.Apart word cells target (done + 1))
    (unread : Cells.Misses word cells (origin + done))
    (forward : target ≤ origin ∨ origin + done < target) :
    ∃ after, Code.act word turn stack memory = some (stack, after) ∧
      Copying word before caller destination source total target origin (done + 1) after := by
  have size := copying.copied.size
  -- What is copied now was not written before.
  have loaded : memory.load? (source + Int32.ofNat done) 1 =
      some [before.byte (origin + done)] := by
    rw [Memory.load?_eq sourceNames (by rw [size]; exact sourceWithin), Memory.read, Memory.read,
      copying.copied.kept _ (by omega) unread]
  let value := before.byte (origin + done)
  have stored : memory.store? (destination + Int32.ofNat done)
      [(WordBytes.toInt32 [value]).toUInt32.toUInt8] =
        some (memory.write (target + done) [value]) := by
    rw [WordBytes.toUInt8_toInt32]
    exact Memory.store?_eq names (by rw [size]; exact within)
  have floorLe : floor ≤ (memory.write (target + done) [value]).size := by
    rw [Memory.size_write, size]
    exact inside
  have cell : ∀ name ∈ cells,
      (memory.write (target + done) [value]).cell word name = memory.cell word name :=
    fun name member => Memory.cell_write_byte member (apart _ (by omega) (by omega))
  have only : Cells.Only word cells (memory.write (target + done) [value])
      ((((memory.write (target + done) [value]).setCell word destinationCell
        (destination + Int32.ofNat done + 1)).setCell word sourceCell
        (source + Int32.ofNat done + 1)).setCell word countCell (total - Int32.ofNat done - 1)) :=
    (((Cells.Only.refl _).setCell (by decide) _).setCell (by decide) _).setCell (by decide) _
  refine ⟨_, ?_, ⟨only.size.trans ((Memory.size_write ..).trans size), fun index below => ?_,
    fun index outside missed => ?_⟩, ?_, ?_, ?_, ?_⟩
  · simp only [turn, join_cons, join_nil, List.cons_append, List.nil_append]
    rw [layout.act_loadCell (by decide) (size.symm ▸ inside), copying.destination,
      layout.act_loadCell (by decide) (size.symm ▸ inside), copying.source, act_loadC loaded,
      act_storeC stored, layout.act_incrementCell (by decide) floorLe, cell _ (by decide),
      copying.destination, layout.act_incrementCell (by decide) (by rwa [Memory.size_setCell]),
      layout.cell_setCell_other (by decide) (by decide) (by decide), cell _ (by decide),
      copying.source, layout.act_decrementCell (by decide) (by simpa only [Memory.size_setCell]),
      layout.cell_setCell_other (by decide) (by decide) (by decide),
      layout.cell_setCell_other (by decide) (by decide) (by decide), cell _ (by decide),
      copying.count, act_nil]
  · rw [only.kept _ (apart _ (by omega) (by omega))]
    by_cases last : index = done
    · rw [last, Memory.byte_write_byte (by rw [size]; exact within)]
    · rw [Memory.byte_write_byte_of_ne (by omega), copying.copied.same index (by omega)]
  · rw [only.kept index missed, Memory.byte_write_byte_of_ne (by omega),
      copying.copied.kept index (by omega) missed]
  · rw [layout.cell_setCell_other (by decide) (by decide) (by decide),
      layout.cell_setCell_other (by decide) (by decide) (by decide),
      layout.cell_setCell_other (by decide) (by decide) (by decide), cell _ (by decide),
      copying.caller]
  · rw [layout.cell_setCell_other (by decide) (by decide) (by decide),
      layout.cell_setCell_other (by decide) (by decide) (by decide),
      layout.cell_setCell (by decide) floorLe, add_ofNat_succ]
  · rw [layout.cell_setCell_other (by decide) (by decide) (by decide),
      layout.cell_setCell (by decide) (by rwa [Memory.size_setCell]), add_ofNat_succ]
  · rw [layout.cell_setCell (by decide) (by simpa only [Memory.size_setCell]), sub_ofNat_succ]

end

section

variable {image : Image} {limit : Option Nat} {before : Memory} {stack : List Word}
  {output : ByteArray} {destination source total : Int32}
  {target origin count position here : Nat} (installed : Installed image)
  (floor : image.dataSize ≤ before.size)
include installed floor

/-- A range inside memory is copied to another one that does not start within it, and the routine
returns. -/
theorem runs_reached (counted : Names total count)
    (reach : ∀ index < count,
      before.index? (destination + Int32.ofNat index) 1 = some (target + index))
    (sourceReach : ∀ index < count,
      before.index? (source + Int32.ofNat index) 1 = some (origin + index))
    (apart : Cells.Apart image.word cells target count)
    (unread : Cells.Apart image.word cells origin count)
    (forward : target ≤ origin ∨ origin + count ≤ target)
    (inside : position ≤ image.code.size) (marks : image.Marks Entry.copyBytes here) :
    ∃ after, Runs image limit
        ⟨here, .integer (Int32.ofNat position) :: .integer total :: .integer source ::
          .integer destination :: stack, before, output⟩ ⟨position, stack, after, output⟩ ∧
      Copied image.word before after target origin count := by
  obtain ⟨test, loopMarks, _⟩ := installed.atLoop
  obtain ⟨exitHere, exitMarks, _⟩ := installed.atExit
  obtain ⟨parked, parks, begun⟩ : ∃ after, Code.act image.word park
      (.integer (Int32.ofNat position) :: .integer total :: .integer source ::
        .integer destination :: stack) before = some (stack, after) ∧
      Copying image.word before (Int32.ofNat position) destination source total target origin 0
        after :=
    act_park installed.cells target origin floor
  obtain ⟨after, rounded, copying⟩ : ∃ after,
      Runs image limit ⟨test, stack, parked, output⟩ ⟨test, stack, after, output⟩ ∧
      Copying image.word before (Int32.ofNat position) destination source total target origin
        count after := by
    refine Runs.rounds installed.addressable installed.atLoop exitMarks
      (Copying image.word before (Int32.ofNat position) destination source total target origin)
      (fun done memory copying below => ?_) (fun done memory copying below => ?_) loopMarks begun
      (Nat.zero_le count)
    · exact ⟨_, ne_zero_of_names (counted.subNat (by omega)) (by omega),
        act_count installed.cells floor copying⟩
    · obtain ⟨named, within⟩ := Memory.index?_eq_some.mp (reach done below)
      obtain ⟨sourceNamed, sourceWithin⟩ := Memory.index?_eq_some.mp (sourceReach done below)
      exact act_turn installed.cells floor copying named sourceNamed within sourceWithin
        (fun index lower upper => apart index lower (by omega))
        (unread _ (by omega) (by omega)) (by omega)
  have spent : total - Int32.ofNat count = 0 :=
    eq_zero_of_names (by simpa using counted.subNat (Nat.le_refl count))
  have tested : Code.act image.word (loadWord countCell) stack after =
      some (.integer 0 :: stack, after) := by
    rw [act_count installed.cells floor copying, spent]
  refine ⟨after, ?_, copying.copied⟩
  refine (Runs.falls (installed.atEntry.holds marks) parks loopMarks).trans (rounded.trans ?_)
  refine (Runs.branches installed.addressable (installed.atLoop.holds loopMarks) tested rfl
    exitMarks rfl).trans ?_
  exact Runs.leaves installed.addressable (installed.atExit.holds exitMarks) inside
    (act_return installed.cells floor copying)

/-- The routine copies the bytes from one address on to another. -/
theorem runs (names : Names destination target) (sourceNames : Names source origin)
    (counted : Names total count) (apart : Cells.Apart image.word cells target count)
    (unread : Cells.Apart image.word cells origin count)
    (forward : target ≤ origin ∨ origin + count ≤ target)
    (within : target + count ≤ before.size) (sourceWithin : origin + count ≤ before.size)
    (fits : target + count ≤ 2147483648) (sourceFits : origin + count ≤ 2147483648)
    (inside : position ≤ image.code.size) (marks : image.Marks Entry.copyBytes here) :
    ∃ after, Runs image limit
        ⟨here, .integer (Int32.ofNat position) :: .integer total :: .integer source ::
          .integer destination :: stack, before, output⟩ ⟨position, stack, after, output⟩ ∧
      Copied image.word before after target origin count :=
  runs_reached installed floor counted
    (fun index below => Memory.index?_eq_some.mpr ⟨names.addNat (by omega), by omega⟩)
    (fun index below => Memory.index?_eq_some.mpr ⟨sourceNames.addNat (by omega), by omega⟩)
    apart unread forward inside marks

end

end CopyBytes

end StackBackend
