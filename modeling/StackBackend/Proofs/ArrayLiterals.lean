import StackBackend.Proofs.PureFunctions
import StackBackend.Proofs.Reserving
import StackBackend.Proofs.Tours

namespace StackBackend

/-! Array literals. The pointer to the record is on the operand stack while the elements are
evaluated, so their code may do what it likes, build literals included, as long as the record under
construction stays as it is. -/

theorem Ty.width_pos {type : Ty} (isValue : type.isVoid = false) : 0 < type.width := by
  cases type with
  | void => cases isValue
  | _ => exact Nat.le_of_ble_eq_true rfl

/-! ## The code of a literal -/

namespace Record

open Code

/-- The words that a literal begins with. -/
def inscription (element : Ty) (count : Nat) : Code :=
  field [.pushI arrayTypeId] typeIdOffset ++ (field [.pushI (arrayStatus element)] statusOffset ++
    (field [.pushI element.size] arrayElementSizeOffset ++
      field [.pushI (Int32.ofNat count)] arrayLengthOffset))

theorem arrayLiteralHeader_eq (element : Ty) (count : Nat) :
    arrayLiteralHeader element count =
      [.pushI (arrayHeaderSize + Int32.ofNat count * element.size), .call Entry.allocate] ++
        inscription element count := by
  simp [arrayLiteralHeader, allocateRecord, inscription, field, join_cons, join_nil]

theorem arrayLiteralSlots_append (element : Ty) (index : Nat) (first second : List Code) :
    arrayLiteralSlots element index (first ++ second) =
      arrayLiteralSlots element index first ++
        arrayLiteralSlots element (index + first.length) second := by
  induction first generalizing index with
  | nil => rfl
  | cons value rest induction =>
      simp only [List.cons_append, arrayLiteralSlots, induction, List.append_assoc,
        List.length_cons, Nat.add_assoc, Nat.add_comm 1]

/-- The address comes before the value. -/
theorem arrayLiteralSlot_eq (element : Ty) (index : Nat) (value : Code) :
    arrayLiteralSlot element index value = arrayLiteralSlot element index [] ++ value := by
  simp [arrayLiteralSlot]

/-- A word at an offset of the record on the stack is written. -/
theorem act_field {word : String → Int32} {memory : Memory} {stack : List Word}
    {pointer datum offset : Int32} {index : Nat} {rest : Code}
    (named : Address.Names (pointer + offset) index) (within : index + 4 ≤ memory.size) :
    Code.act word (field [.pushI datum] offset ++ rest) (.integer pointer :: stack) memory =
      Code.act word rest (.integer pointer :: stack) (memory.setWord index datum) := by
  rcases @act_writeWord memory (.integer pointer :: stack) word offset pointer datum with
    ⟨before, written, acts⟩
  rw [field, written, List.cons_append, act_duplicate, List.cons_append, List.nil_append,
    List.cons_append, act_pushI, List.append_assoc, act_append_eq acts, List.singleton_append,
    act_setWord named within]

/-- The words are written into the block. -/
theorem act_inscription {word : String → Int32} {memory : Memory} {stack : List Word}
    {pointer : Int32} {address count : Nat} {element : Ty}
    (names : Address.Names pointer address) (within : address + 16 ≤ memory.size)
    (fits : address + 16 ≤ 2147483647) :
    Code.act word (inscription element count) (.integer pointer :: stack) memory =
      some (.integer pointer :: stack, inscribed memory address (arrayStatus element) element.size
        (Int32.ofNat count)) := by
  have typeId : Address.Names (pointer + typeIdOffset) address := names.add rfl (by omega)
  have status : Address.Names (pointer + statusOffset) (address + 4) := names.add rfl (by omega)
  have size : Address.Names (pointer + arrayElementSizeOffset) (address + 8) :=
    names.add rfl (by omega)
  have length : Address.Names (pointer + arrayLengthOffset) (address + 12) :=
    names.add rfl (by omega)
  rw [inscription, act_field typeId (by omega),
    act_field status (by rw [Memory.size_setWord]; omega),
    act_field size (by simp only [Memory.size_setWord]; omega), ← List.append_nil (field _ _),
    act_field length (by simp only [Memory.size_setWord]; omega), act_nil, inscribed]

end Record

namespace ArrayLiteral

/-! ## Evaluations -/

/-- The evaluation of a value: where it starts and ends, and what is above the stack then. -/
structure Stage extends Excursion where
  value : List Word

/-- The blocks have not been written. -/
structure Spares (blocks : List Heap.Block) (before after : Memory) : Prop where
  size : after.size = before.size
  bytes : ∀ block ∈ blocks, ∀ index, block.Covers index → after.byte index = before.byte index

/-- Code has left a value of the type above the stack, and spared the blocks. -/
structure Adds (type : Ty) (code : Code) (spared : List Heap.Block) (stage : Stage) : Prop where
  value : ∃ bytes, type.bytes? stage.value = some bytes
  pc : stage.finish.pc = stage.start.pc + code.size
  stack : stage.finish.stack = stage.value ++ stage.start.stack
  spares : Spares spared stage.start.memory stage.finish.memory

/-- The end of the code has been reached, with a value of the type above the stack. -/
def Ends (type : Ty) (code : Code) (start now : Configuration) : Prop :=
  now.pc = start.pc + code.size ∧
    ∃ value bytes, type.bytes? value = some bytes ∧ now.stack = value ++ start.stack

/-- A value of which literals are made. -/
inductive Value where
  | fragment (code : Code)
  | literal (element : Ty) (parts : List Value)

mutual

def Value.code : Value → Except Defect Code
  | .fragment code => .ok code
  | .literal element parts => do Record.arrayLiteral element (← Value.codes parts)

def Value.codes : List Value → Except Defect (List Code)
  | [] => .ok []
  | value :: rest => do return (← value.code) :: (← Value.codes rest)

end

/-- A literal where it is evaluated: its elements with their codes, where the evaluation starts, and
the blocks that there are then. -/
structure Site where
  element : Ty
  parts : List Value
  values : List Code
  start : Configuration
  ledger : Heap.Ledger

/-- The codes of the elements, and the code of the literal that they give. -/
structure Site.Generates (site : Site) (code : Code) : Prop where
  parts : Value.codes site.parts = .ok site.values
  whole : Record.arrayLiteral site.element site.values = .ok code

namespace Site

variable (site : Site)

def code : Code :=
  Record.arrayLiteralHeader site.element site.values.length ++
    Record.arrayLiteralSlots site.element 0 site.values

/-- The bytes of the record. -/
def wanted : Nat :=
  16 + site.values.length * site.element.width

/-- The block of the record. -/
def block : Heap.Block :=
  (site.ledger.allocate site.wanted).1

def pointer : Int32 :=
  Int32.ofNat site.block.address

/-- The operand stack before and after an element. -/
def stack : List Word :=
  .integer site.pointer :: site.start.stack

/-- Where the code for an element begins. -/
def place (index : Nat) : Nat :=
  site.start.pc + (Record.arrayLiteralHeader site.element site.values.length).size +
    (Record.arrayLiteralSlots site.element 0 (site.values.take index)).size

/-- Leaves the address of an element above the record. -/
def approach (index : Nat) : Code :=
  Record.arrayLiteralSlot site.element index []

/-- Where the fragment of an element begins. -/
def fragmentPlace (index : Nat) : Nat :=
  site.place index + (site.approach index).size

/-- The place is in the fragment of an element. -/
def Encloses (place : Nat) : Prop :=
  ∃ index value, site.values[index]? = some value ∧ site.fragmentPlace index ≤ place ∧
    place < site.fragmentPlace index + value.size

def slot (index : Nat) : Int32 :=
  site.pointer + (Record.arrayHeaderSize + Int32.ofNat index * site.element.size)

/-- The evaluation of an element starts with its address above the record. -/
def entry (index : Nat) (now : Configuration) : Configuration :=
  ⟨site.fragmentPlace index, .integer (site.slot index) :: site.stack, now.memory, now.output⟩

end Site

/-- The record has been reserved and begins as it should. -/
structure Opened (image : Image) (site : Site) (memory : Memory) : Prop where
  begins : Record.Begins memory site.block.address (Record.arrayStatus site.element) site.element
    site.values.length
  reserved : Heap.Reserved image Heap.cells site.ledger site.wanted site.start.memory memory

/-- The record is filled in element by element. -/
inductive Fills (image : Image) (site : Site) : List Stage → Configuration → Prop
  | opened {memory : Memory} (opened : Opened image site memory) :
      Fills image site [] ⟨site.place 0, site.stack, memory, site.start.output⟩
  | stored {stages : List Stage} {now : Configuration} {stage : Stage} {bytes : List UInt8}
      {after : Memory} (fills : Fills image site stages now)
      (starts : stage.start = site.entry stages.length now)
      (encoded : site.element.bytes? stage.value = some bytes)
      (stored : Ty.Stored image.word site.element
        (site.block.address + 16 + stages.length * site.element.width) bytes stage.finish.memory
        after) :
      Fills image site (stages ++ [stage])
        ⟨site.place (stages.length + 1), site.stack, after, stage.finish.output⟩

/-- The elements up to one have been evaluated, each of them once and in their order, and stored. -/
structure Reached (image : Image) (limit : Option Nat) (site : Site) (stages : List Stage)
    (now : Configuration) : Prop where
  fills : Fills image site stages now
  tour : Tour image limit site.Encloses (stages.map Stage.toExcursion) site.start now

/-- The record has its header and the elements that have been stored; other blocks are as they
were. -/
structure Stands (site : Site) (spared : List Heap.Block) (stages : List Stage) (memory : Memory) :
    Prop where
  begins : Record.Begins memory site.block.address (Record.arrayStatus site.element) site.element
    site.values.length
  items : ∀ (index : Nat) (stage : Stage), stages[index]? = some stage →
    site.element.bytes? stage.value =
      some (Record.item memory site.block.address site.element index)
  spares : Spares spared site.start.memory memory

/-- The literal has become a record of its own with the values of the elements. -/
structure Built (image : Image) (limit : Option Nat) (site : Site) (spared : List Heap.Block)
    (stages : List Stage) (after : Configuration) : Prop where
  reached : Reached image limit site stages after
  count : stages.length = site.values.length
  pc : after.pc = site.start.pc + site.code.size
  stack : after.stack = .integer site.pointer :: site.start.stack
  names : Address.Names site.pointer site.block.address
  room : 16 + site.values.length * site.element.width ≤ site.block.size
  fresh : ∀ other ∈ site.ledger.live,
    site.block.address + site.block.size + 4 ≤ other.address ∨
      other.address + other.size + 4 ≤ site.block.address
  stands : Stands site spared stages after.memory

/-- A literal may be evaluated: the heap is sound, and has room for the record. -/
structure Ready (image : Image) (site : Site) (spared : List Heap.Block) : Prop where
  sound : Heap.Sound image.word site.start.memory site.ledger
  live : ∀ block ∈ spared, block ∈ site.ledger.live
  room : site.ledger.Room site.start.memory.size site.wanted

/-- A fragment is evaluated by running to its end; a literal by evaluating its elements, each of
them once and in their order, and building a record of them. -/
inductive Evaluated (image : Image) (limit : Option Nat) :
    Ty → Value → List Heap.Block → Stage → Prop
  | fragment {type : Ty} {code : Code} {spared : List Heap.Block} {stage : Stage}
      (adds : Adds type code spared stage)
      (runs : RunsUntil image limit (Ends type code stage.start) stage.start stage.finish) :
      Evaluated image limit type (.fragment code) spared stage
  | literal {site : Site} {code : Code} {spared : List Heap.Block} {stages : List Stage}
      {after : Configuration} (generates : site.Generates code) (ready : Ready image site spared)
      (built : Built image limit site spared stages after)
      (elements : ∀ (index : Nat) (part : Value) (stage : Stage), site.parts[index]? = some part →
        stages[index]? = some stage →
        Evaluated image limit site.element part (site.block :: spared) stage) :
      Evaluated image limit (.array site.element) (.literal site.element site.parts) spared
        ⟨⟨site.start, after⟩, [.integer site.pointer]⟩

/-- What is asked of a value. A fragment adds a value of its type to the stack it starts on, and
spares the blocks; each element of a literal does so where the evaluation of the literal gets to
it, and spares the record under construction, too. -/
inductive Obliged (image : Image) (limit : Option Nat) :
    Ty → Value → List Heap.Block → Configuration → Prop
  | fragment {type : Ty} {code : Code} {spared : List Heap.Block} {stage : Stage}
      (adds : Adds type code spared stage)
      (runs : RunsUntil image limit (Ends type code stage.start) stage.start stage.finish) :
      Obliged image limit type (.fragment code) spared stage.start
  | literal {site : Site} {code : Code} {spared : List Heap.Block} (generates : site.Generates code)
      (ready : Ready image site spared)
      (elements : ∀ (stages : List Stage) (now : Configuration) (part : Value),
        site.parts[stages.length]? = some part → Reached image limit site stages now →
        (∀ (index : Nat) (part : Value) (stage : Stage), site.parts[index]? = some part →
          stages[index]? = some stage →
          Evaluated image limit site.element part (site.block :: spared) stage) →
        Obliged image limit site.element part (site.block :: spared)
          (site.entry stages.length now)) :
      Obliged image limit (.array site.element) (.literal site.element site.parts) spared site.start

/-! ## Places -/

namespace Site

variable {site : Site} {index other : Nat} {value : Code}

theorem code_eq_of_generated {code : Code}
    (generated : Record.arrayLiteral site.element site.values = .ok code) : code = site.code := by
  unfold Record.arrayLiteral at generated
  split at generated
  · cases generated
  · exact (Except.ok.inj generated).symm

theorem isValue_of_generated {code : Code}
    (generated : Record.arrayLiteral site.element site.values = .ok code)
    (listed : site.values[index]? = some value) : site.element.isVoid = false := by
  unfold Record.arrayLiteral at generated
  split at generated
  · cases generated
  · rename_i void
    cases values : site.values with
    | nil =>
        rw [values] at listed
        cases listed
    | cons first rest => simpa [values] using void

/-- The code of a literal around the fragment of an element. -/
theorem code_eq (listed : site.values[index]? = some value) :
    site.code = Record.arrayLiteralHeader site.element site.values.length ++
      (Record.arrayLiteralSlots site.element 0 (site.values.take index) ++
        (site.approach index ++ (value ++ (site.element.storeCode ++
          Record.arrayLiteralSlots site.element (index + 1) (site.values.drop (index + 1)))))) := by
  rcases List.getElem?_eq_some_iff.mp listed with ⟨bound, rfl⟩
  have parts : Record.arrayLiteralSlots site.element 0 site.values =
      Record.arrayLiteralSlots site.element 0
        (site.values.take index ++ site.values[index] :: site.values.drop (index + 1)) := by
    rw [← List.drop_eq_getElem_cons bound, List.take_append_drop]
  rw [code, parts, Record.arrayLiteralSlots_append, List.length_take_of_le (Nat.le_of_lt bound),
    Nat.zero_add, Record.arrayLiteralSlots, Record.arrayLiteralSlot_eq, approach]
  simp only [List.append_assoc]

theorem place_succ (listed : site.values[index]? = some value) :
    site.place (index + 1) =
      site.fragmentPlace index + value.size + site.element.storeCode.size := by
  rcases List.getElem?_eq_some_iff.mp listed with ⟨bound, rfl⟩
  rw [fragmentPlace, place, place, ← List.take_append_getElem bound,
    Record.arrayLiteralSlots_append, List.length_take_of_le (Nat.le_of_lt bound), Nat.zero_add,
    Record.arrayLiteralSlots, Record.arrayLiteralSlots, Record.arrayLiteralSlot_eq, approach]
  simp only [Code.size_append, Code.size_nil]
  omega

theorem place_le (site : Site) (le : index ≤ other) (within : other ≤ site.values.length) :
    site.place index ≤ site.place other := by
  induction other, le using Nat.le_induction with
  | base => exact Nat.le_refl _
  | succ other le induction =>
      have listed := List.getElem?_eq_getElem (show other < site.values.length by omega)
      have next := place_succ listed
      have before := induction (by omega)
      unfold fragmentPlace at next
      omega

theorem place_length : site.place site.values.length = site.start.pc + site.code.size := by
  rw [place, List.take_length, code, Code.size_append, Nat.add_assoc]

/-- Between the fragments are the approaches and the stores. -/
theorem not_encloses (place : Nat) (listed : site.values[index]? = some value)
    (outside : site.place index ≤ place ∧ place < site.fragmentPlace index ∨
      site.fragmentPlace index + value.size ≤ place ∧ place < site.place (index + 1)) :
    ¬ site.Encloses place := by
  rintro ⟨other, inner, otherListed, lower, upper⟩
  rcases List.getElem?_eq_some_iff.mp listed with ⟨bound, _⟩
  rcases List.getElem?_eq_some_iff.mp otherListed with ⟨otherBound, _⟩
  have next := place_succ listed
  have otherNext := place_succ otherListed
  have first : site.place index ≤ site.fragmentPlace index := Nat.le_add_right ..
  have second : site.place other ≤ site.fragmentPlace other := Nat.le_add_right ..
  rcases Nat.lt_trichotomy index other with before | rfl | after
  · have apart := place_le site (show index + 1 ≤ other by omega) (by omega)
    omega
  · rw [listed] at otherListed
    cases otherListed
    omega
  · have apart := place_le site (show other + 1 ≤ index by omega) (by omega)
    omega

/-- The fragments are behind the header, in the code of the literal. -/
theorem bounds_of_encloses (place : Nat) (encloses : site.Encloses place) :
    site.place 0 ≤ place ∧ place < site.start.pc + site.code.size := by
  rcases encloses with ⟨index, value, listed, lower, upper⟩
  rcases List.getElem?_eq_some_iff.mp listed with ⟨bound, _⟩
  have next := place_succ listed
  have first := place_le site (Nat.zero_le index) (by omega)
  have last := place_le site (show index + 1 ≤ site.values.length by omega) (by omega)
  have above : site.place index ≤ site.fragmentPlace index := Nat.le_add_right ..
  rw [place_length] at last
  omega

theorem place_zero : site.place 0 =
    site.start.pc + (Record.arrayLiteralHeader site.element site.values.length).size := rfl

end Site

/-! ## The header -/

/-- The code before the place does not reach into the heap manager. -/
def Precedes (image : Image) (place : Nat) : Prop :=
  ∃ position, place ≤ position ∧ image.Holds Heap.manager position

theorem managed_sealed (low : Nat) {image : Image} {high : Nat} (managed : Heap.Managed image)
    (precedes : Precedes image high) : Heap.Managed (image.sealed low high) := by
  rcases precedes with ⟨position, behind, holds⟩
  exact ⟨Image.addressable_sealed managed.addressable,
    Heap.routines_of_holds (holds.sealed _ _ (.inr behind)), managed.cells⟩

namespace Site

variable {image : Image} {limit : Option Nat} {site : Site} {spared : List Heap.Block}

/-- A literal is no longer than its record. -/
theorem length_le_wanted {code : Code}
    (generated : Record.arrayLiteral site.element site.values = .ok code) :
    site.values.length ≤ site.wanted := by
  unfold wanted
  cases values : site.values with
  | nil => exact Nat.zero_le _
  | cons first rest =>
      have listed : site.values[0]? = some first := by rw [values]; rfl
      have positive := Ty.width_pos (isValue_of_generated generated listed)
      have le := Nat.le_mul_of_pos_right (first :: rest).length positive
      omega

theorem total_names {code : Code}
    (generated : Record.arrayLiteral site.element site.values = .ok code)
    (most : site.wanted ≤ 2147483647) :
    Address.Names (Record.arrayHeaderSize + Int32.ofNat site.values.length * site.element.size)
      site.wanted := by
  have short := length_le_wanted generated
  unfold wanted at *
  have counted : Address.Names (Int32.ofNat site.values.length) site.values.length :=
    Address.names_ofNat (by omega)
  have header : Address.Names Record.arrayHeaderSize 16 := rfl
  exact header.plus (counted.mul site.element.toInt_size (by omega)) (by omega)

end Site

namespace Ready

variable {image : Image} {limit : Option Nat} {site : Site} {spared : List Heap.Block}
  (ready : Ready image site spared)
include ready

/-- The block is in the heap. -/
theorem bounds : Address.index (image.word Cell.heap) + 4 ≤ site.block.address ∧
    site.block.address + site.block.size ≤ site.start.memory.size ∧
    site.block.address + site.block.size ≤ 2147483647 ∧ site.wanted ≤ site.block.size := by
  have floor := (ready.sound.allocate_bounds site.wanted).1
  have large := @Heap.Ledger.le_size_allocate site.ledger site.wanted
  unfold Site.block
  rcases site.ledger.allocate_cases site.wanted with
    ⟨taken, free, _, allocated⟩ | ⟨none, allocated⟩
  · have bounds := ready.sound.bounds (ready.sound.known taken free)
    rw [allocated] at floor large ⊢
    exact ⟨floor, bounds.2.2.1, bounds.2.2.2, large⟩
  · have room := ready.room none
    rw [allocated] at floor large ⊢
    exact ⟨floor, room.1, room.2, large⟩

theorem names : Address.Names site.pointer site.block.address := by
  have bounds := ready.bounds
  exact Address.names_ofNat (by omega)

/-- The header reserves the block and writes the first words of the record, and nothing of any
fragment is executed meanwhile. -/
theorem opens (limit : Option Nat) {code : Code} (installed : HigherOrder.Installed image)
    (generated : Record.arrayLiteral site.element site.values = .ok code)
    (holds : image.Holds site.code site.start.pc)
    (precedes : Precedes image (site.start.pc + site.code.size)) :
    ∃ now, Reached image limit site [] now := by
  have bounds := ready.bounds
  have names := ready.names
  have total := Site.total_names generated (by omega)
  have start := installed.record.start
  have header := Record.arrayLiteralHeader_eq site.element site.values.length
  have parts := holds
  rw [Site.code, header, List.append_assoc] at parts
  rcases Image.holds_append.mp parts with ⟨holdsCall, holdsRest⟩
  rcases Image.holds_append.mp holdsRest with ⟨holdsWords, _⟩
  have behind : site.place 0 = site.start.pc + 2 +
      (Record.inscription site.element site.values.length).size := by
    rw [Site.place_zero, header, Code.size_append, ← Nat.add_assoc]
    rfl
  -- The block is reserved, as it is where the rest of the literal is sealed.
  have managed := managed_sealed (site.start.pc + 2) installed.record.managed precedes
  have holdsSealed := holdsCall.sealed (site.start.pc + 2) (site.start.pc + site.code.size)
    (.inl (Nat.le_refl _))
  rcases @Heap.request_or_traps _ limit _ _ site.start.stack site.start.output _ _ managed
    [.pushI _] [] _ _ _ holdsSealed rfl ready.sound total (by unfold Site.wanted; omega) with
    ⟨full, _⟩ | ⟨handed, reserves, handing, soundHanded⟩
  · exact absurd ready.room full
  have away : RunsWhile image limit (fun configuration => ¬ site.Encloses configuration.pc)
      site.start ⟨site.start.pc + 2, site.stack, handed, site.start.output⟩ :=
    (RunsWhile.of_sealed reserves).mono fun configuration outside encloses => outside (by
      have within := Site.bounds_of_encloses configuration.pc encloses
      omega)
  -- The words are written.
  have size := handing.size
  have large : 16 ≤ site.wanted := Nat.le_add_right ..
  have writes : Code.act image.word (Record.inscription site.element site.values.length)
      site.stack handed = some (site.stack, Record.inscribed handed site.block.address
        (Record.arrayStatus site.element) site.element.size (Int32.ofNat site.values.length)) :=
    Record.act_inscription names (by omega) (by omega)
  have inscribes : RunsWhile image limit (fun configuration => ¬ site.Encloses configuration.pc)
      ⟨site.start.pc + 2, site.stack, handed, site.start.output⟩ ⟨_, site.stack, _, _⟩ :=
    .straight holdsWords writes fun place lower upper _ _ _ encloses => by
      have within := Site.bounds_of_encloses place encloses
      have below : place < site.start.pc + 2 +
        (Record.inscription site.element site.values.length).size := upper
      omega
  have opened : Opened image site (Record.inscribed handed site.block.address
      (Record.arrayStatus site.element) site.element.size (Int32.ofNat site.values.length)) := by
    have short := Site.length_le_wanted generated
    constructor
    · exact Record.begins_inscribed (by omega) (Address.names_ofNat (by omega))
    · apply (Heap.Reserved.of_handed ready.sound handing soundHanded).further installed ready.sound
        [] (fun _ listed => nomatch listed)
      · simp only [Record.inscribed, Memory.size_setWord]
      · intro index _ uncovered
        have large : 16 ≤ site.block.size := by omega
        refine Record.byte_inscribed ?_
        change ¬ (site.block.address ≤ index ∧ index < site.block.address + site.block.size)
          at uncovered
        omega
  refine ⟨_, .opened opened, .outside ?_⟩
  rw [behind]
  exact away.trans inscribes

end Ready

/-! ## The elements -/

namespace Stands

variable {image : Image} {site : Site} {spared : List Heap.Block} {stages : List Stage}
  {stage : Stage} {memory after : Memory} {bytes : List UInt8}
  (installed : HigherOrder.Installed image) (ready : Ready image site spared)
include installed ready

/-- The record stands without elements once it has been opened. -/
theorem opened (opened : Opened image site memory) : Stands site spared [] memory := by
  have start := installed.record.start
  constructor
  · exact opened.begins
  · intro index stage listed
    cases listed
  · refine ⟨opened.reserved.size, fun block member index covers => ?_⟩
    have live := ready.live block member
    have bounds := ready.sound.bounds (Heap.Ledger.mem_live.mp live).1
    have rests : Record.Rests image site.ledger block.address block.size :=
      ⟨by omega, .inl ⟨block, live, rfl, Nat.le_refl _⟩⟩
    exact opened.reserved.byte_rests installed ready.sound (by decide) rests covers.1
      covers.2

/-- What has been evaluated spares the record, and the store of its value spares the other
elements. -/
theorem stored (stands : Stands site spared stages memory)
    (below : stages.length < site.values.length)
    (spares : Spares (site.block :: spared) memory stage.finish.memory)
    (encoded : site.element.bytes? stage.value = some bytes)
    (stored : Ty.Stored image.word site.element
      (site.block.address + 16 + stages.length * site.element.width) bytes stage.finish.memory
      after) : Stands site spared (stages ++ [stage]) after := by
  have start := installed.record.start
  have bounds := ready.bounds
  have large : 16 + site.values.length * site.element.width ≤ site.block.size := bounds.2.2.2
  have item := Record.item_le site.element below
  have kept {block : Heap.Block} {index : Nat} (member : block ∈ site.block :: spared)
      (covers : block.Covers index) (above : image.dataSize ≤ index)
      (outside : index < site.block.address + 16 + stages.length * site.element.width ∨
        site.block.address + 16 + stages.length * site.element.width + site.element.width ≤ index) :
      after.byte index = memory.byte index :=
    (stored.kept index outside
      ((installed.cells.mono HigherOrder.storeCells_known).misses_of_floor_le above)).trans
      (spares.bytes block member index covers)
  constructor
  · refine stands.begins.congr fun index lower upper => ?_
    have covers : site.block.Covers index := ⟨lower, by omega⟩
    exact kept (List.mem_cons_self ..) covers (by omega) (.inl (by omega))
  · intro index other listed
    rcases Nat.lt_trichotomy index stages.length with before | rfl | beyond
    · rw [List.getElem?_append_left before] at listed
      rw [stands.items index other listed]
      have apart := Record.item_le site.element before
      refine congrArg some (Memory.read_congr fun position lower upper => ?_).symm
      have covers : site.block.Covers position := ⟨by omega, by omega⟩
      exact kept (List.mem_cons_self ..) covers (by omega) (.inl (by omega))
    · rw [List.getElem?_concat_length] at listed
      cases listed
      rw [encoded]
      exact congrArg some stored.written.symm
    · rw [List.getElem?_eq_none (by rw [List.length_append, List.length_singleton]; omega)]
        at listed
      cases listed
  · refine ⟨(stored.size.trans spares.size).trans stands.spares.size, ?_⟩
    intro block member index covers
    have live := ready.live block member
    have own := ready.sound.bounds (Heap.Ledger.mem_live.mp live).1
    have apart := ready.sound.allocate_apart site.wanted live
    have inside : block.address ≤ index ∧ index < block.address + block.size := covers
    rw [kept (List.mem_cons_of_mem _ member) covers (by omega) (by unfold Site.block at *; omega)]
    exact stands.spares.bytes block member index covers

end Stands

namespace Fills

variable {image : Image} {site : Site} {stages : List Stage} {now : Configuration}

theorem pc (fills : Fills image site stages now) : now.pc = site.place stages.length := by
  cases fills with
  | opened => rfl
  | stored => rw [List.length_append, List.length_singleton]

theorem stack (fills : Fills image site stages now) : now.stack = site.stack := by
  cases fills <;> rfl

theorem stands {spared : List Heap.Block} (installed : HigherOrder.Installed image)
    (ready : Ready image site spared) (fills : Fills image site stages now)
    (within : stages.length ≤ site.values.length)
    (spares : ∀ stage ∈ stages,
      Spares (site.block :: spared) stage.start.memory stage.finish.memory) :
    Stands site spared stages now.memory := by
  induction fills with
  | opened opened => exact .opened installed ready opened
  | @stored stages now stage bytes after fills starts encoded stored induction =>
      rw [List.length_append, List.length_singleton] at within
      have before := induction (by omega) fun stage member =>
        spares stage (List.mem_append_left _ member)
      have last := spares stage (List.mem_append_right _ (List.mem_singleton_self _))
      rw [starts] at last
      exact before.stored installed ready (by omega) last encoded stored

end Fills

theorem Adds.finish_eq {type : Ty} {code : Code} {spared : List Heap.Block} {stage : Stage}
    (adds : Adds type code spared stage) :
    stage.finish = ⟨stage.start.pc + code.size, stage.value ++ stage.start.stack,
      stage.finish.memory, stage.finish.output⟩ := by
  rw [← adds.pc, ← adds.stack]

section

variable {image : Image} {limit : Option Nat} {site : Site} {spared : List Heap.Block} {index : Nat}
  {now : Configuration} {stage : Stage} {value code : Code}

/-- The code around the fragment of an element is held. -/
theorem holds_parts (holds : image.Holds site.code site.start.pc)
    (listed : site.values[index]? = some value) :
    image.Holds (site.approach index) (site.place index) ∧
      image.Holds value (site.fragmentPlace index) ∧
      image.Holds site.element.storeCode (site.fragmentPlace index + value.size) := by
  rw [Site.code_eq listed] at holds
  rcases Image.holds_append.mp (Image.holds_append.mp (Image.holds_append.mp holds).2).2 with
    ⟨approach, holds⟩
  rcases Image.holds_append.mp holds with ⟨fragment, holds⟩
  exact ⟨approach, fragment, (Image.holds_append.mp holds).1⟩

/-- The address of an element is left above the record, outside of all fragments. -/
theorem approaches (limit : Option Nat) (holds : image.Holds site.code site.start.pc)
    (listed : site.values[index]? = some value) (pc : now.pc = site.place index)
    (stack : now.stack = site.stack) :
    RunsWhile image limit (fun configuration => ¬ site.Encloses configuration.pc) now
      (site.entry index now) := by
  rcases now with ⟨position, operands, memory, output⟩
  cases pc
  cases stack
  have acts : Code.act image.word (site.approach index) site.stack memory =
      some (.integer (site.slot index) :: site.stack, memory) := by
    rw [Site.approach, Record.arrayLiteralSlot, Site.stack, Code.act_duplicate, Code.act_addOffset,
      Code.act_nil]
    rfl
  exact .straight (holds_parts holds listed).1 acts fun place lower upper _ _ _ =>
    Site.not_encloses place listed (.inl ⟨lower, upper⟩)

/-- The address of an element is that of its place in the record. -/
theorem Ready.names_slot (ready : Ready image site spared)
    (generated : Record.arrayLiteral site.element site.values = .ok code)
    (below : index < site.values.length) :
    Address.Names (site.slot index) (site.block.address + 16 + index * site.element.width) := by
  have bounds := ready.bounds
  have large : 16 + site.values.length * site.element.width ≤ site.block.size := bounds.2.2.2
  have short := Site.length_le_wanted generated
  have item := Record.item_le site.element below
  have counted : Address.Names (Int32.ofNat index) index := Address.names_ofNat (by omega)
  rw [Nat.add_assoc]
  exact ready.names.plus (Record.names_arrayHeaderSize.plus
    (counted.mul site.element.toInt_size (by omega)) (by omega)) (by omega)

/-- A value that has been evaluated is stored in its place, outside of all fragments. -/
theorem stores (limit : Option Nat) (installed : HigherOrder.Installed image)
    (ready : Ready image site spared)
    (generated : Record.arrayLiteral site.element site.values = .ok code)
    (holds : image.Holds site.code site.start.pc) (listed : site.values[index]? = some value)
    (size : now.memory.size = site.start.memory.size) (starts : stage.start = site.entry index now)
    (adds : Adds site.element value (site.block :: spared) stage) :
    ∃ bytes after, site.element.bytes? stage.value = some bytes ∧
      Ty.Stored image.word site.element
        (site.block.address + 16 + index * site.element.width) bytes stage.finish.memory after ∧
      RunsWhile image limit (fun configuration => ¬ site.Encloses configuration.pc) stage.finish
        ⟨site.place (index + 1), site.stack, after, stage.finish.output⟩ := by
  rcases List.getElem?_eq_some_iff.mp listed with ⟨below, _⟩
  have start := installed.record.start
  have bounds := ready.bounds
  have large : 16 + site.values.length * site.element.width ≤ site.block.size := bounds.2.2.2
  have item := Record.item_le site.element below
  have isValue := Site.isValue_of_generated generated listed
  have positive := Ty.width_pos isValue
  have same := adds.spares.size
  rw [starts] at same
  have inside : stage.finish.memory.size = site.start.memory.size := same.trans size
  rcases adds.value with ⟨bytes, encoded⟩
  rcases Ty.act_storeCode stage.finish.memory isValue
    (installed.cells.mono HigherOrder.storeCells_known) encoded
    (ready.names_slot generated below) (by omega) (by omega) (by omega) with ⟨after, acts, stored⟩
  have writes : Code.act image.word site.element.storeCode
      (stage.value ++ .integer (site.slot index) :: site.stack) stage.finish.memory =
        some (site.stack, after) :=
    Code.act_alone (acts _)
  have finish : stage.finish = ⟨site.fragmentPlace index + value.size,
      stage.value ++ .integer (site.slot index) :: site.stack, stage.finish.memory,
      stage.finish.output⟩ := by
    have ends := adds.finish_eq
    rwa [starts] at ends
  have next := Site.place_succ listed
  refine ⟨bytes, after, encoded, stored, ?_⟩
  rw [next, finish]
  exact .straight (holds_parts holds listed).2.2 writes fun place lower upper _ _ _ =>
    Site.not_encloses place listed (.inr ⟨lower, by omega⟩)

/-- An element that has been evaluated is stored, and the next one is got to. -/
theorem Reached.goesOn {stages : List Stage} (installed : HigherOrder.Installed image)
    (ready : Ready image site spared)
    (generated : Record.arrayLiteral site.element site.values = .ok code)
    (holds : image.Holds site.code site.start.pc) (reached : Reached image limit site stages now)
    (size : now.memory.size = site.start.memory.size)
    (listed : site.values[stages.length]? = some value)
    (starts : stage.start = site.entry stages.length now)
    (adds : Adds site.element value (site.block :: spared) stage)
    (runs : Runs image limit stage.start stage.finish) :
    ∃ after, Reached image limit site (stages ++ [stage]) after := by
  have arrives := approaches limit holds listed reached.fills.pc reached.fills.stack
  rcases stores limit installed ready generated holds listed size starts adds with
    ⟨bytes, after, encoded, stored, leaves⟩
  have visited := (reached.tour.further (starts ▸ arrives)).visit runs
  refine ⟨_, .stored reached.fills starts encoded stored, ?_⟩
  rw [List.map_append, List.map_singleton]
  exact visited.further leaves

end

/-! ## Values -/

namespace Value

theorem code_literal {element : Ty} {parts : List Value} {values : List Code}
    (made : Value.codes parts = .ok values) :
    (Value.literal element parts).code = Record.arrayLiteral element values := by
  rw [Value.code, made]
  rfl

theorem codes_getElem? {parts : List Value} {values : List Code}
    (made : Value.codes parts = .ok values) (index : Nat) :
    (parts[index]? = none ∧ values[index]? = none) ∨
      ∃ part value, parts[index]? = some part ∧ values[index]? = some value ∧
        part.code = .ok value := by
  induction parts generalizing values index with
  | nil =>
      cases made
      exact .inl ⟨rfl, rfl⟩
  | cons part rest induction =>
      rw [Value.codes] at made
      rcases Except.bind_eq_ok.mp made with ⟨value, first, made⟩
      rcases Except.bind_eq_ok.mp made with ⟨others, second, made⟩
      cases made
      cases index with
      | zero => exact .inr ⟨part, value, rfl, rfl, first⟩
      | succ index => exact induction second index

end Value

section

variable {image : Image} {limit : Option Nat} {type : Ty} {value : Value} {code : Code}
  {spared : List Heap.Block} {stage : Stage}

namespace Evaluated

theorem runs (evaluated : Evaluated image limit type value spared stage) :
    Runs image limit stage.start stage.finish := by
  cases evaluated with
  | fragment adds runs => exact runs.runs.runs
  | literal generates ready built elements => exact built.reached.tour.runs

/-- Literals do what is asked of fragments. -/
theorem adds (evaluated : Evaluated image limit type value spared stage)
    (made : value.code = .ok code) : Adds type code spared stage := by
  cases evaluated with
  | fragment adds runs =>
      cases made
      exact adds
  | literal generates ready built elements =>
      rw [Value.code_literal generates.parts] at made
      rw [Site.code_eq_of_generated made]
      exact ⟨⟨_, rfl⟩, built.pc, built.stack, built.stands.spares⟩

end Evaluated

section

variable {site : Site} {stages : List Stage} {now : Configuration}

/-- Each of the elements has been evaluated. -/
def Each (image : Image) (limit : Option Nat) (site : Site) (spared : List Heap.Block)
    (stages : List Stage) : Prop :=
  ∀ (index : Nat) (part : Value) (stage : Stage), site.parts[index]? = some part →
    stages[index]? = some stage →
    Evaluated image limit site.element part (site.block :: spared) stage

namespace Each

theorem concat (each : Each image limit site spared stages)
    (listed : site.parts[stages.length]? = some value)
    (evaluated : Evaluated image limit site.element value (site.block :: spared) stage) :
    Each image limit site spared (stages ++ [stage]) := by
  intro index part other partListed stageListed
  rcases Nat.lt_trichotomy index stages.length with before | rfl | beyond
  · rw [List.getElem?_append_left before] at stageListed
    exact each index part other partListed stageListed
  · rw [List.getElem?_concat_length] at stageListed
    cases stageListed
    cases listed.symm.trans partListed
    exact evaluated
  · rw [List.getElem?_eq_none (by rw [List.length_append, List.length_singleton]; omega)]
      at stageListed
    cases stageListed

theorem spares (each : Each image limit site spared stages) (generates : site.Generates code)
    (within : stages.length ≤ site.values.length) :
    ∀ stage ∈ stages, Spares (site.block :: spared) stage.start.memory stage.finish.memory := by
  intro stage member
  rcases List.getElem?_of_mem member with ⟨index, listed⟩
  rcases List.getElem?_eq_some_iff.mp listed with ⟨bound, _⟩
  rcases Value.codes_getElem? generates.parts index with
    ⟨_, none⟩ | ⟨part, value, partListed, _, made⟩
  · rw [List.getElem?_eq_none_iff] at none
    omega
  · exact ((each index part stage partListed listed).adds made).spares

end Each

variable (installed : HigherOrder.Installed image) (ready : Ready image site spared)
  (generates : site.Generates code) (holds : image.Holds site.code site.start.pc)
  (precedes : Precedes image (site.start.pc + site.code.size))
include installed ready generates holds precedes

/-- When every element is evaluated where it is got to, the record is filled in. -/
theorem exists_reached (limit : Option Nat)
    (evaluates : ∀ stages now part value, site.parts[stages.length]? = some part →
      Reached image limit site stages now → Each image limit site spared stages →
      part.code = .ok value → image.Holds value (site.fragmentPlace stages.length) →
      Precedes image (site.fragmentPlace stages.length + value.size) →
      ∃ stage, stage.start = site.entry stages.length now ∧
        Evaluated image limit site.element part (site.block :: spared) stage)
    {count : Nat} (within : count ≤ site.values.length) :
    ∃ stages now, stages.length = count ∧ Reached image limit site stages now ∧
      Each image limit site spared stages := by
  induction count with
  | zero =>
      rcases ready.opens limit installed generates.whole holds precedes with ⟨now, reached⟩
      exact ⟨[], now, rfl, reached, fun _ _ _ _ listed => nomatch listed⟩
  | succ count induction =>
      rcases induction (by omega) with ⟨stages, now, rfl, reached, each⟩
      rcases Value.codes_getElem? generates.parts stages.length with
        ⟨_, none⟩ | ⟨part, value, partListed, listed, made⟩
      · rw [List.getElem?_eq_none_iff] at none
        omega
      have stands := reached.fills.stands installed ready (by omega)
        (each.spares generates (by omega))
      have behind : Precedes image (site.fragmentPlace stages.length + value.size) := by
        rcases precedes with ⟨position, le, manager⟩
        have next := Site.place_succ listed
        have last := Site.place_le site within (Nat.le_refl _)
        rw [Site.place_length] at last
        exact ⟨position, by omega, manager⟩
      rcases evaluates stages now part value partListed reached each made
        (holds_parts holds listed).2.1 behind with ⟨stage, starts, evaluated⟩
      rcases reached.goesOn installed ready generates.whole holds stands.spares.size listed starts
        (evaluated.adds made) evaluated.runs with ⟨after, further⟩
      exact ⟨stages ++ [stage], after, by simp, further, each.concat partListed evaluated⟩

omit holds precedes in
/-- The record has all elements. -/
theorem Reached.built {after : Configuration} (reached : Reached image limit site stages after)
    (count : stages.length = site.values.length) (each : Each image limit site spared stages) :
    Built image limit site spared stages after where
  reached := reached
  count := count
  pc := by rw [reached.fills.pc, count, Site.place_length]
  stack := reached.fills.stack
  names := ready.names
  room := ready.bounds.2.2.2
  fresh _ member := ready.sound.allocate_apart site.wanted member
  stands := reached.fills.stands installed ready (Nat.le_of_eq count)
    (each.spares generates (Nat.le_of_eq count))

end

/-- What is asked of a value is enough for its evaluation. The induction is on how literals are
nested; within a literal, on how many elements have been stored. -/
theorem Obliged.exists_evaluated {start : Configuration} (installed : HigherOrder.Installed image)
    (obliged : Obliged image limit type value spared start) (made : value.code = .ok code)
    (holds : image.Holds code start.pc) (precedes : Precedes image (start.pc + code.size)) :
    ∃ stage, stage.start = start ∧ Evaluated image limit type value spared stage := by
  induction obliged generalizing code with
  | fragment adds runs => exact ⟨_, rfl, .fragment adds runs⟩
  | @literal site whole spared generates ready elements induction =>
      rw [Value.code_literal generates.parts] at made
      cases Site.code_eq_of_generated made
      rcases exists_reached installed ready generates holds precedes limit
        (fun stages now part _ listed reached each made =>
          induction stages now part listed reached each made) (Nat.le_refl _) with
        ⟨stages, after, count, reached, each⟩
      exact ⟨⟨⟨site.start, after⟩, [.integer site.pointer]⟩, rfl,
        .literal generates ready (reached.built installed ready generates count each) each⟩

end

/-! ## The heap meanwhile

Whoever evaluates a literal within a literal asks what the heap is when it is got to. -/

section

variable {image : Image} {site : Site} {spared : List Heap.Block}

theorem Ready.sound_opened {memory : Memory} (ready : Ready image site spared)
    (opened : Opened image site memory) :
    Heap.Sound image.word memory (site.ledger.allocate site.wanted).2 :=
  opened.reserved.sound ready.room

/-- Storing an element keeps the heap as it is. -/
theorem Ready.sound_stored (index : Nat) {bytes : List UInt8} {memory after : Memory}
    {ledger : Heap.Ledger} (installed : HigherOrder.Installed image)
    (ready : Ready image site spared) (below : index < site.values.length)
    (sound : Heap.Sound image.word memory ledger) (live : site.block ∈ ledger.live)
    (stored : Ty.Stored image.word site.element
      (site.block.address + 16 + index * site.element.width) bytes memory after) :
    Heap.Sound image.word after ledger := by
  have start := installed.record.start
  have bounds := ready.bounds
  have large : 16 + site.values.length * site.element.width ≤ site.block.size := bounds.2.2.2
  have item := Record.item_le site.element below
  have known := installed.cells.mono HigherOrder.storeCells_known
  apply sound.within live stored.size
  · intro name member
    have managed : ∀ name ∈ [Cell.freeList, Cell.bumpPointer],
        name ∈ Program.wordCells ∧ name ∉ Ty.storeCells := by decide
    have low := installed.cells.below name (managed name member).1
    refine Memory.word_congr fun place lower upper => stored.kept place (.inl (by omega)) ?_
    intro other listed
    have apart := installed.cells.apart name (managed name member).1 other
      (HigherOrder.storeCells_known other listed)
      fun same => (managed name member).2 (same ▸ listed)
    omega
  · intro place above uncovered
    unfold Heap.Block.Covers at uncovered
    exact stored.kept place (by omega) (known.misses_of_floor_le (by omega))

end

/-! ## Fragments that run straight on -/

section

variable {image : Image} {limit : Option Nat} {type : Ty} {code : Code} {spared : List Heap.Block}
  {value : List Word} {bytes : List UInt8}

theorem runsUntil_of_act {start : Configuration} {after : Memory}
    (holds : image.Holds code start.pc)
    (acts : Code.act image.word code start.stack start.memory = some (value ++ start.stack, after))
    (encoded : type.bytes? value = some bytes) :
    RunsUntil image limit (Ends type code start) start
      ⟨start.pc + code.size, value ++ start.stack, after, start.output⟩ where
  runs := .straight holds acts fun _ _ upper _ _ _ ends => Nat.ne_of_lt upper ends.1
  meets := ⟨rfl, value, bytes, encoded, rfl⟩

/-- Code that pushes a value is a fragment. -/
theorem Obliged.of_act (value : List Word) {start : Configuration}
    (holds : image.Holds code start.pc)
    (acts : Code.act image.word code start.stack start.memory =
      some (value ++ start.stack, start.memory)) (encoded : type.bytes? value = some bytes) :
    Obliged image limit type (.fragment code) spared start := by
  have adds : Adds type code spared ⟨⟨start, ⟨start.pc + code.size, value ++ start.stack,
      start.memory, start.output⟩⟩, value⟩ :=
    ⟨⟨bytes, encoded⟩, rfl, rfl, rfl, fun _ _ _ _ => rfl⟩
  exact .fragment adds (runsUntil_of_act holds acts encoded)

/-- Where such a fragment ends. -/
theorem Evaluated.finish_of_act (value : List Word) {stage : Stage} {after : Memory}
    (evaluated : Evaluated image limit type (.fragment code) spared stage)
    (holds : image.Holds code stage.start.pc)
    (acts : Code.act image.word code stage.start.stack stage.start.memory =
      some (value ++ stage.start.stack, after)) (encoded : type.bytes? value = some bytes) :
    stage.finish = ⟨stage.start.pc + code.size, value ++ stage.start.stack, after,
      stage.start.output⟩ := by
  cases evaluated with
  | fragment adds runs => exact runs.unique (runsUntil_of_act holds acts encoded)

end

end ArrayLiteral

/-! ## Literals in a program -/

namespace Program

open ArrayLiteral

variable {program : Program} {code : Code} {image : Image}

/-- An array literal builds an array of its values. Its elements are evaluated once each and in
their order, and between them nothing of their fragments is executed. What is left on the stack is
the pointer to a block that was not handed out before, with the header of an array of the type and
the values as its elements; no block that is to be spared has been written. An element that is a
literal itself is built in the same way. -/
theorem array_literal_builds {site : Site} {spared : List Heap.Block} {literal : Code}
    {limit : Option Nat} (compiled : program.compile ⟨true⟩ = .ok code)
    (assembled : Image.assemble code = .ok image) (addressable : image.Addressable)
    (fits : image.dataSize ≤ 2147483647) (generates : site.Generates literal)
    (holds : image.Holds literal site.start.pc)
    (precedes : Precedes image (site.start.pc + literal.size)) (ready : Ready image site spared)
    (elements : ∀ stages now part, site.parts[stages.length]? = some part →
      Reached image limit site stages now → Each image limit site spared stages →
      Obliged image limit site.element part (site.block :: spared)
        (site.entry stages.length now)) :
    ∃ stages after, Built image limit site spared stages after ∧
      Each image limit site spared stages := by
  have installed := operators_installed compiled assembled addressable fits
  cases Site.code_eq_of_generated generates.whole
  rcases exists_reached installed ready generates holds precedes limit
    (fun stages now part _ listed reached each made =>
      (elements stages now part listed reached each).exists_evaluated installed made)
    (Nat.le_refl _) with ⟨stages, after, count, reached, each⟩
  exact ⟨stages, after, reached.built installed ready generates count each, each⟩

/-- A literal with a variable and another literal in it. -/
def nesting : Form :=
  .populatedArray [.typed (.array .integer) (.identifier twoNumbers),
    .typed (.array .integer) (.populatedArray [.typed .integer (.integer 7)])]

def innerParts : List Value :=
  [.fragment [.pushI 7]]

def innerCode : Code :=
  Record.arrayLiteralHeader .integer 1 ++ Record.arrayLiteralSlots .integer 0 [[.pushI 7]]

def nestingSite (image : Image) (pc : Nat) (memory : Memory) : Site where
  element := .array .integer
  parts := [.fragment twoNumbersCode, .literal .integer innerParts]
  values := [twoNumbersCode, innerCode]
  start := ⟨pc, [], memory, .empty⟩
  ledger := stagedLedger image

theorem valueCode_nesting (image : Image) (pc : Nat) (memory : Memory) :
    (Expr.typed (.array (.array .integer)) nesting).valueCode 0 =
        .ok ((nestingSite image pc memory).code, 0) ∧
      (nestingSite image pc memory).Generates (nestingSite image pc memory).code :=
  ⟨rfl, rfl, rfl⟩

section

variable {image : Image} {memory opened : Memory} {pc : Nat} {now : Configuration}
  {spared : List Heap.Block}

/-- Opening the record leaves the variable. -/
theorem Staged.steady_opened (staged : Staged image memory)
    (opens : Opened image (nestingSite image pc memory) opened) :
    Steady image.word [Cell.globalBlock] (fun _ => False) memory opened where
  size := opens.reserved.size
  cells := by
    intro name member
    rcases List.mem_singleton.mp member with rfl
    have below := staged.cells.below Cell.globalBlock (List.mem_cons_self ..)
    refine Memory.word_congr fun index lower upper => opens.reserved.kept index ?_ (.inl ?_)
      fun free listed => nomatch listed
    · intro other listed
      have known : ∀ name ∈ Heap.cells, name ∈ wordCells ∧ Cell.globalBlock ≠ name := by
        decide
      have apart := staged.cells.apart Cell.globalBlock (List.mem_cons_self ..) other
        (List.mem_cons_of_mem _ (known other listed).1) (known other listed).2
      omega
    · change index < image.dataSize + 28 + 4 - 4
      omega
  bytes _ never := never.elim

/-- The code of the variable pushes the pointer when the record has been opened. -/
theorem Staged.act_opened (staged : Staged image memory)
    (opens : Opened image (nestingSite image pc memory) opened) (stack : List Word) :
    Code.act image.word twoNumbersCode stack opened =
      some ([.integer (stagedPointer image)] ++ stack, opened) :=
  Code.act_alone (staged.act_twoNumbers (staged.steady_opened opens) stack)

/-- The inner literal may be evaluated wherever the heap has the outer record only. -/
theorem inner_obliged (size : now.memory.size = 131072) (small : image.dataSize ≤ 65536)
    (holds : image.Holds innerCode now.pc)
    (sound : Heap.Sound image.word now.memory ((stagedLedger image).allocate 24).2)
    (live : ∀ block ∈ spared, block ∈ ((stagedLedger image).allocate 24).2.live) :
    Obliged image none (.array .integer) (.literal .integer innerParts) spared now := by
  have bump : ((stagedLedger image).allocate 24).2.bump = image.dataSize + 56 := rfl
  have room : ((stagedLedger image).allocate 24).2.Room now.memory.size 20 := fun _ => by omega
  let site : Site := ⟨.integer, innerParts, [[.pushI 7]], now, ((stagedLedger image).allocate 24).2⟩
  have generates : site.Generates innerCode := ⟨rfl, rfl⟩
  have ready : Ready image site spared := ⟨sound, live, room⟩
  refine .literal generates ready fun stages now part listed reached _ => ?_
  cases reached.fills with
  | opened =>
      cases listed
      have holdsSite : image.Holds site.code site.start.pc := holds
      have seven : site.values[0]? = some [.pushI 7] := rfl
      exact .of_act [.integer 7] (holds_parts holdsSite seven).2.1 rfl rfl
  | stored =>
      rw [List.length_append, List.length_singleton] at listed
      cases listed

/-- Each element may be evaluated where it is got to: the variable when the record has been opened,
and the literal when the pointer has been stored. -/
theorem nesting_obliged {stages : List Stage} {part : Value} (staged : Staged image memory)
    (installed : HigherOrder.Installed image)
    (ready : Ready image (nestingSite image pc memory) [stagedBlock image])
    (holds : image.Holds (nestingSite image pc memory).code pc)
    (listed : (nestingSite image pc memory).parts[stages.length]? = some part)
    (reached : Reached image none (nestingSite image pc memory) stages now)
    (each : Each image none (nestingSite image pc memory) [stagedBlock image] stages) :
    Obliged image none (.array .integer) part
      [(nestingSite image pc memory).block, stagedBlock image]
      ((nestingSite image pc memory).entry stages.length now) := by
  have initial := staged.size
  have firstListed : (nestingSite image pc memory).values[0]? = some twoNumbersCode := rfl
  have secondListed : (nestingSite image pc memory).values[1]? = some innerCode := rfl
  have first := (holds_parts holds firstListed).2.1
  have second := (holds_parts holds secondListed).2.1
  cases reached.fills with
  | opened opens =>
      cases listed
      exact .of_act _ first (staged.act_opened opens _) rfl
  | @stored earlier before stage bytes after fills starts encoded stored =>
      cases fills with
      | stored =>
          rw [List.length_append, List.length_append, List.length_singleton] at listed
          cases listed
      | opened opens =>
          cases listed
          -- The variable has been evaluated in the memory of the open record.
          have evaluated := each 0 _ stage rfl rfl
          have ends := evaluated.finish_of_act [.integer (stagedPointer image)]
            (by rw [starts]; exact first) (by rw [starts]; exact staged.act_opened opens _) rfl
          have kept : stage.finish.memory = _ := congrArg Configuration.memory ends
          rw [kept] at stored
          have sound := ready.sound_opened opens
          have live : ∀ block ∈ [(nestingSite image pc memory).block, stagedBlock image],
              block ∈ ((stagedLedger image).allocate 24).2.live := by
            intro block member
            refine (staged.sound.live_allocate 24).mpr ?_
            rcases List.mem_cons.mp member with own | other
            · exact .inl own
            · exact .inr (ready.live block other)
          have soundStored := ready.sound_stored 0 installed (Nat.zero_lt_succ _) sound
            (live _ (List.mem_cons_self ..)) stored
          have size : after.size = 131072 :=
            (stored.size.trans opens.reserved.size).trans staged.size
          exact inner_obliged size staged.small second soundStored live

end

/-- The literal with a literal in it is built. -/
theorem literal_nested :
    ∃ code image pc memory stages after,
      (applying (.array (.array .integer)) nesting).compile ⟨true⟩ = .ok code ∧
      Image.assemble code = .ok image ∧
      Built image none (nestingSite image pc memory) [stagedBlock image] stages after ∧
      Each image none (nestingSite image pc memory) [stagedBlock image] stages := by
  rcases @exists_placed_stage (.array (.array .integer)) nesting
    (by decide +kernel) (by simp [Plain, applying, reserving, operations, blockOperations,
      Statement.operations, Expr.operations, Form.operations, exprsOperations, nesting]) with
    ⟨code, image, expansion, next, pc, memory, position, compiled, assembled, addressable, small,
      valued, holds, behind, manager, staged⟩
  have installed := operators_installed compiled assembled addressable (by omega)
  rcases valueCode_nesting image pc memory with ⟨same, generates⟩
  cases same.symm.trans valued
  have initial := staged.size
  have room : (stagedLedger image).Room memory.size 24 := fun _ => by
    have bump : (stagedLedger image).bump = image.dataSize + 28 := rfl
    omega
  have live : ∀ block ∈ [stagedBlock image], block ∈ (stagedLedger image).live := by
    intro block member
    rcases List.mem_singleton.mp member with rfl
    exact staged.array.live
  have ready : Ready image (nestingSite image pc memory) [stagedBlock image] :=
    ⟨staged.sound, live, room⟩
  rcases @array_literal_builds _ _ _ _ _ _ none compiled assembled addressable (by omega) generates
    holds ⟨position, behind, manager⟩ ready
    (fun _ _ _ listed reached each => nesting_obliged staged installed ready holds listed reached
      each) with ⟨stages, after, built, each⟩
  exact ⟨code, image, pc, memory, stages, after, compiled, assembled, built, each⟩

end Program

end StackBackend
