import Mathlib.Data.List.Forall2
import StackBackend.Proofs.Cells
import StackBackend.Proofs.Flow
import StackBackend.Proofs.Printed
import StackBackend.Proofs.Safety
import StackBackend.Proofs.Successes

namespace StackBackend

/-! The words of the operand stack against what the shapes say of them. What a shared word held
at first is on the stack, in the lowest word that keeps it, or it is still in its place; a step
that agrees with the shapes never loses it. -/

/-! ## Slots and words -/

namespace Slot

/-- The word is what the slot says. -/
def Describes (image : Image) : Slot → Word → Prop
  | .integer, word | .content _, word => word.kind = .integer
  | .floating, word => word.kind = .floating
  | .place name, word => word = .integer (image.word name)

/-- What the shared word held when the word on the stack was taken from it. -/
def keeps (cell : String) : Slot → Word → Option Int32
  | .content name, .integer value => if name = cell then some value else none
  | _, _ => none

/-- What the shared word held when none of the words was on the stack: what the lowest word says
that keeps it, or else what it holds now. -/
def original (cell : String) : List Slot → List Word → Int32 → Int32
  | slot :: slots, word :: words, present =>
      original cell slots words ((slot.keeps cell word).getD present)
  | _, _, present => present

variable {image : Image} {cell : String} {slot : Slot} {word : Word} {slots : List Slot}
  {words : List Word}

theorem Describes.kind (describes : slot.Describes image word) : word.kind = slot.kind := by
  cases slot with
  | place name =>
      obtain rfl : word = .integer (image.word name) := describes
      rfl
  | integer | floating | content => exact describes

theorem describes_ofKind {kind : WordKind} :
    (ofKind kind).Describes image word ↔ word.kind = kind := by
  cases kind <;> rfl

theorem describes_pushed (image : Image) (name : String) :
    (pushed name).Describes image (.integer (image.word name)) := by
  unfold pushed
  split <;> rfl

theorem keeps_eq_none (other : slot ≠ .content cell) (word : Word) :
    slot.keeps cell word = none := by
  cases slot with
  | content name =>
      cases word with
      | integer value => exact if_neg fun same => other (congrArg Slot.content same)
      | floating value => rfl
  | integer | floating | place => rfl

@[simp] theorem keeps_content (value : Int32) :
    (Slot.content cell).keeps cell (.integer value) = some value :=
  if_pos rfl

theorem ofKind_ne_content (kind : WordKind) : ofKind kind ≠ .content cell := by
  cases kind <;> nofun

theorem pushed_ne_content (name : String) : pushed name ≠ .content cell := by
  unfold pushed
  split <;> nofun

/-- Words that keep nothing of the shared word do not count. -/
theorem original_cons (other : slot ≠ .content cell) (present : Int32) :
    original cell (slot :: slots) (word :: words) present = original cell slots words present := by
  rw [original, keeps_eq_none other, Option.getD_none]

@[simp] theorem original_place (name : String) (present : Int32) :
    original cell (.place name :: slots) (word :: words) present =
      original cell slots words present :=
  original_cons (by nofun) present

/-- Once a word keeps what the shared word held, it may be overwritten. -/
theorem original_of_mem (describes : List.Forall₂ (Describes image) slots words)
    (kept : .content cell ∈ slots) (present other : Int32) :
    original cell slots words present = original cell slots words other := by
  induction describes generalizing present other with
  | nil => cases kept
  | @cons slot word slots words first rest induction =>
      rw [original, original]
      by_cases inside : .content cell ∈ slots
      · exact induction inside _ _
      · obtain rfl := (List.mem_cons.mp kept).resolve_right inside
        cases word with
        | integer value => rw [keeps_content, Option.getD_some, Option.getD_some]
        | floating value => cases first

theorem Spare.under (spare : slot.Spare slots) (top : Slot) : slot.Spare (top :: slots) := by
  cases slot with
  | content name => exact List.mem_cons_of_mem _ spare
  | integer | floating | place => trivial

/-- A spare word does not count. -/
theorem original_spare (describes : List.Forall₂ (Describes image) slots words)
    (spare : slot.Spare slots) (present : Int32) :
    original cell (slot :: slots) (word :: words) present = original cell slots words present := by
  by_cases same : slot = .content cell
  · subst same
    exact original_of_mem describes spare _ _
  · exact original_cons same present

end Slot

/-! ## Stacks -/

/-- The words on the stack are what the slots say, and with them the shared words still have
what they held at first. -/
structure Tracks (image : Image) (kept : String → Int32) (slots : List Slot) (words : List Word)
    (memory : Memory) : Prop where
  describes : List.Forall₂ (Slot.Describes image) slots words
  original : ∀ cell ∈ Cell.shared,
    Slot.original cell slots words (memory.cell image.word cell) = kept cell

namespace Tracks

variable {image : Image} {kept : String → Int32} {slot first second : Slot} {slots : List Slot}
  {word upper lower : Word} {words : List Word} {memory : Memory}

theorem push (tracks : Tracks image kept slots words memory) (describes : slot.Describes image word)
    (other : ∀ cell, slot ≠ .content cell) :
    Tracks image kept (slot :: slots) (word :: words) memory where
  describes := .cons describes tracks.describes
  original cell shared := by
    rw [Slot.original_cons (other cell)]
    exact tracks.original cell shared

theorem pop (tracks : Tracks image kept (slot :: slots) (word :: words) memory)
    (spare : slot.Spare slots) : Tracks image kept slots words memory := by
  obtain ⟨_, describes⟩ := List.forall₂_cons.mp tracks.describes
  refine ⟨describes, fun cell shared => ?_⟩
  rw [← tracks.original cell shared, Slot.original_spare describes spare]

theorem duplicate (tracks : Tracks image kept (slot :: slots) (word :: words) memory) :
    Tracks image kept (slot :: slot :: slots) (word :: word :: words) memory := by
  obtain ⟨top, _⟩ := List.forall₂_cons.mp tracks.describes
  refine ⟨.cons top tracks.describes, fun cell shared => ?_⟩
  rw [← tracks.original cell shared, Slot.original, Slot.original, Slot.original]
  cases slot.keeps cell word <;> rfl

theorem exchange (tracks : Tracks image kept (first :: second :: slots) (upper :: lower :: words)
    memory) (passes : first.Passes second slots) :
    Tracks image kept (second :: first :: slots) (lower :: upper :: words) memory := by
  obtain ⟨top, below⟩ := List.forall₂_cons.mp tracks.describes
  obtain ⟨next, describes⟩ := List.forall₂_cons.mp below
  refine ⟨.cons next (.cons top describes), fun cell shared => ?_⟩
  rw [← tracks.original cell shared]
  by_cases own : first = .content cell
  · by_cases both : second = .content cell
    · subst own both
      exact Slot.original_of_mem describes (passes rfl) _ _
    · simp [Slot.original, Slot.keeps_eq_none both]
  · simp [Slot.original, Slot.keeps_eq_none own]

/-- Words of the kinds are on top of the stack, and nothing is lost with them. -/
theorem take {kinds : List WordKind} {next : List Slot → Prop}
    (tracks : Tracks image kept slots words memory) (takes : Slot.take kinds slots next) :
    ∃ taken rest below, words = taken ++ below ∧ taken.map Word.kind = kinds ∧
      Tracks image kept rest below memory ∧ next rest := by
  induction kinds generalizing slots words with
  | nil => exact ⟨[], slots, words, rfl, rfl, tracks, takes⟩
  | cons kind kinds induction =>
      cases slots with
      | nil => cases takes
      | cons slot slots =>
          obtain ⟨⟨same, spare⟩, takes⟩ := takes
          cases words with
          | nil => cases tracks.describes
          | cons word words =>
              obtain ⟨taken, rest, below, rfl, fits, kept, holds⟩ :=
                induction (tracks.pop spare) takes
              have top := (List.forall₂_cons.mp tracks.describes).1.kind.trans same
              exact ⟨word :: taken, rest, below, rfl, by rw [List.map_cons, top, fits], kept, holds⟩

/-- New words on the stack. -/
theorem give (given : List Word) (tracks : Tracks image kept slots words memory) :
    Tracks image kept ((given.map Word.kind).map Slot.ofKind ++ slots) (given ++ words) memory := by
  induction given with
  | nil => exact tracks
  | cons word given induction =>
      exact induction.push (Slot.describes_ofKind.mpr rfl) fun _ => Slot.ofKind_ne_content _

/-- The present value of a shared word is pushed. -/
theorem keep {cell : String} (tracks : Tracks image kept slots words memory) :
    Tracks image kept (.content cell :: slots)
      (.integer (memory.cell image.word cell) :: words) memory where
  describes := .cons rfl tracks.describes
  original other shared := by
    rw [← tracks.original other shared, Slot.original]
    by_cases same : cell = other
    · subst same
      rw [Slot.keeps_content, Option.getD_some]
    · rw [Slot.keeps_eq_none fun equal => same (Slot.content.inj equal), Option.getD_none]

/-- Only what the shared words hold counts of the memory. -/
theorem resume {after : Memory} (tracks : Tracks image kept slots words memory)
    (same : ∀ cell ∈ Cell.shared, after.cell image.word cell = memory.cell image.word cell) :
    Tracks image kept slots words after where
  describes := tracks.describes
  original cell shared := by
    rw [same cell shared]
    exact tracks.original cell shared

end Tracks

/-! ## Stores -/

/-- Some of the bytes from the address on are those of the cell. -/
def Image.Meets (image : Image) (address : Int32) (bytes : List UInt8) (cell : String) : Prop :=
  Address.index address < Address.index (image.word cell) + 4 ∧
    Address.index (image.word cell) < Address.index address + bytes.length

theorem Memory.index_of_index? {memory : Memory} {address : Int32} {width index : Nat}
    (found : memory.index? address width = some index) : Address.index address = index := by
  have names := (Memory.index?_eq_some.mp found).1
  refine (Address.names_index ?_).unique names
  unfold Address.Names at names
  omega

theorem Memory.store?_eq_some {memory after : Memory} {address : Int32} {bytes : List UInt8}
    (stored : memory.store? address bytes = some after) :
    Address.index address + bytes.length ≤ memory.size ∧
      after = memory.write (Address.index address) bytes := by
  obtain ⟨index, found, rfl⟩ := Option.map_eq_some_iff.mp stored
  rw [Memory.index_of_index? found]
  exact ⟨(Memory.index?_eq_some.mp found).2, rfl⟩

theorem Memory.load?_eq_some {memory : Memory} {address : Int32} {width : Nat}
    {bytes : List UInt8} (loaded : memory.load? address width = some bytes) :
    bytes = memory.read (Address.index address) width := by
  obtain ⟨index, found, rfl⟩ := Option.map_eq_some_iff.mp loaded
  rw [Memory.index_of_index? found]

/-- The word at an address is pushed for it. -/
theorem Tracks.load {image : Image} {kept : String → Int32} {slot : Slot} {slots : List Slot}
    {address : Int32} {words : List Word} {memory : Memory} {bytes : List UInt8}
    (tracks : Tracks image kept (slot :: slots) (.integer address :: words) memory)
    (spare : slot.Spare slots) (loaded : memory.load? address 4 = some bytes) :
    Tracks image kept (slot.loaded :: slots) (.integer (WordBytes.toInt32 bytes) :: words)
      memory := by
  have describes := (List.forall₂_cons.mp tracks.describes).1
  have rest := tracks.pop spare
  unfold Slot.loaded
  split
  · obtain rfl := Word.integer.inj describes
    split
    · rw [Memory.load?_eq_some loaded]
      exact rest.keep
    · exact rest.push rfl nofun
  · exact rest.push rfl nofun

/-- A store that goes to no shared word but by its name, and agrees with the shapes. -/
theorem Tracks.store {image : Image} {kept : String → Int32} {kind : WordKind}
    {value address : Slot} {slots : List Slot} {top : Word} {place : Int32} {words : List Word}
    {memory after : Memory} {bytes : List UInt8}
    (tracks : Tracks image kept (value :: address :: slots) (top :: .integer place :: words) memory)
    (agrees : value.Stores kind address slots ∨ value.Restores address ∧
      ∃ word, top = .integer word ∧ bytes = WordBytes.ofInt32 word)
    (named : ∀ cell ∈ Cell.shared, image.Meets place bytes cell → address = .place cell)
    (stored : memory.store? place bytes = some after) :
    Tracks image kept slots words after := by
  obtain ⟨inside, rfl⟩ := Memory.store?_eq_some stored
  obtain ⟨_, below⟩ := List.forall₂_cons.mp tracks.describes
  obtain ⟨located, describes⟩ := List.forall₂_cons.mp below
  refine ⟨describes, fun cell shared => ?_⟩
  rw [← tracks.original cell shared]
  have untouched : ¬image.Meets place bytes cell →
      (memory.write (Address.index place) bytes).cell image.word cell =
        memory.cell image.word cell := fun apart =>
    Memory.word_write_of_apart (by unfold Image.Meets at apart; omega)
  rcases agrees with stores | ⟨⟨restored, ofShared, rfl, rfl⟩, word, rfl, rfl⟩
  · have spares : ∀ present, Slot.original cell (value :: address :: slots)
        (top :: .integer place :: words) present = Slot.original cell slots words present := by
      intro present
      unfold Slot.Stores at stores
      split at stores
      · obtain ⟨⟨_, spare⟩, _⟩ := stores
        rw [Slot.original_spare below (spare.under _), Slot.original_place]
      · obtain ⟨⟨_, spare⟩, _, lowerSpare⟩ := stores
        rw [Slot.original_spare below spare, Slot.original_spare describes lowerSpare]
    rw [spares]
    by_cases meets : image.Meets place bytes cell
    · obtain rfl := named cell shared meets
      exact Slot.original_of_mem describes (stores.2 shared) _ _
    · rw [untouched meets]
  · obtain rfl : place = image.word restored := Word.integer.inj located
    by_cases same : restored = cell
    · subst same
      have back : (memory.write (Address.index (image.word restored))
          (WordBytes.ofInt32 word)).cell image.word restored = word :=
        Memory.word_setWord inside word
      rw [back, Slot.original, Slot.keeps_content, Option.getD_some, Slot.original_place]
    · have apart : ¬image.Meets (image.word restored) (WordBytes.ofInt32 word) cell := fun meets =>
        same (Slot.place.inj (named cell shared meets))
      rw [untouched apart, Slot.original_cons fun equal => same (Slot.content.inj equal),
        Slot.original_place]

/-! ## Steps -/

namespace Instruction

/-- Whether the instruction enters a subroutine or a function. -/
def calls : Instruction → Bool
  | .call _ | .callV => true
  | _ => false

/-- Whether the instruction goes back to behind a call. -/
def returns : Instruction → Bool
  | .return | .popPC => true
  | _ => false

end Instruction

/-- The code that stores to the cell by its name ends with the instruction at the place. -/
def Image.StoresTo (image : Image) (cell : String) (place : Nat) : Prop :=
  ∃ code ∈ [Code.storeWord cell, Code.increment cell], ∃ start,
    image.Holds code start ∧ start + code.size = place + 1

/-- The place and the shape that a call enters: those of a subroutine or of a function. -/
inductive Image.Entry (image : Image) (place : Nat) : Shape → Prop
  | subroutine {name : String} {takes gives : List WordKind}
      (known : Entry.kinds? name = some (takes, gives)) (marks : image.Marks name place) :
      image.Entry place ⟨.integer :: takes.map Slot.ofKind, gives⟩
  | function {serial : Nat}
      (marks : image.Marks (LabelGroup.label ⟨"lambda", serial⟩ "start") place) :
      image.Entry place ⟨[.integer], []⟩

theorem Image.toNatClampNeg_ofNat {image : Image} (addressable : image.Addressable) {place : Nat}
    (inside : place ≤ image.code.size) : (Int32.ofNat place).toNatClampNeg = place :=
  Int32.toNatClampNeg_ofNat_of_lt (Nat.lt_of_le_of_lt inside addressable)

namespace Configuration

variable {image : Image} {limit : Option Nat} {first second : Configuration}
  {instruction : Instruction}

/-- The instruction that is executed next. -/
def Executes (image : Image) (configuration : Configuration) (instruction : Instruction) : Prop :=
  image.code[configuration.pc]? = some ⟨instruction, instruction.target image.word⟩

theorem Next.execute (next : first.Next image limit second)
    (executes : first.Executes image instruction) :
    (Placed.mk instruction (instruction.target image.word)).execute image limit
      ⟨first.pc + 1, first.stack, first.memory, first.output, 1⟩ = .ok true (second.state 1) := by
  have step := next 0
  simp only [state, State.step] at step
  rw [executes] at step
  dsimp only at step
  split at step <;> cases step
  assumption

/-- The memory is used as it is laid out: nothing but the code that names a shared word stores to
it, the formats are still there, and what is called is a function. -/
structure Orderly (image : Image) (configuration : Configuration) : Prop where
  stores : ∀ instruction address bytes, configuration.Executes image instruction →
    instruction.stored? configuration.stack = some (address, bytes) →
    ∀ cell ∈ Cell.shared, image.Meets address bytes cell → image.StoresTo cell configuration.pc
  formats : ∀ entry ∈ Cell.formats,
    configuration.memory.Spells (Address.index (image.word entry.1)) entry.2.toUTF8.toList
  calls : configuration.Executes image .callV → ∀ target rest,
    configuration.stack = .integer target :: rest → ∃ serial place,
      image.Marks (LabelGroup.label ⟨"lambda", serial⟩ "start") place ∧ target = Int32.ofNat place

/-- Above the base, the stack is what the shape says. -/
def Tracked (image : Image) (base : List Word) (kept : String → Int32) (shape : Shape)
    (configuration : Configuration) : Prop :=
  ∃ words, configuration.stack = words ++ base ∧
    Tracks image kept shape.slots words configuration.memory

/-- What comes of an instruction that agrees with the shapes and neither calls nor returns: control
goes on behind it or to its label, and the words are still tracked. -/
inductive Tracked.Outcome (image : Image) (labels : Labels) (base : List Word)
    (kept : String → Int32) (instruction : Instruction) (shape behind : Shape)
    (first second : Configuration) : Prop
  | falls (pc : second.pc = first.pc + 1) (stays : ∀ name, instruction ≠ .jump name)
      (promised : behind.promised = shape.promised)
      (tracked : second.Tracked image base kept behind)
  | jumps (name : String) (there : Shape) (goes : instruction.destination? = some name)
      (pc : second.pc = (image.word name).toNatClampNeg) (enters : there.Enters labels name)
      (promised : there.promised = shape.promised) (tracked : second.Tracked image base kept there)

section

variable {labels : Labels} {base : List Word} {kept : String → Int32} {shape behind : Shape}

theorem Tracked.top {slot : Slot} {rest : List Slot}
    (tracked : first.Tracked image base kept shape) (slots : shape.slots = slot :: rest) :
    ∃ word words, first.stack = word :: (words ++ base) ∧
      Tracks image kept (slot :: rest) (word :: words) first.memory := by
  obtain ⟨words, stack, tracks⟩ := tracked
  rw [slots] at tracks
  match words, tracks.describes with
  | word :: words, _ => exact ⟨word, words, stack, tracks⟩

/-- Words of fixed kinds are taken and left. -/
theorem Tracked.swap {takes gives : List WordKind} (tracked : first.Tracked image base kept shape)
    (agrees : Slot.take takes shape.slots fun rest =>
      behind = ⟨gives.map Slot.ofKind ++ rest, shape.promised⟩)
    (exchanges : State.Exchanges takes gives
      ⟨first.pc + 1, first.stack, first.memory, first.output, 1⟩ (second.state 1)) :
    second.pc = first.pc + 1 ∧ behind.promised = shape.promised ∧
      second.Tracked image base kept behind := by
  obtain ⟨words, stack, tracks⟩ := tracked
  obtain ⟨taken, rest, below, rfl, fits, remains, rfl⟩ := tracks.take agrees
  obtain ⟨pc, memory, found, given, others, before, after, sameKinds, rfl⟩ := exchanges
  have lengths : found.length = taken.length := by
    rw [← List.length_map Word.kind, sameKinds, ← fits, List.length_map]
  have parts : found ++ others = taken ++ (below ++ base) := by
    rw [← before, ← List.append_assoc]
    exact stack
  obtain ⟨_, rfl⟩ := List.append_inj parts lengths
  refine ⟨pc, rfl, given ++ below, after.trans (List.append_assoc ..).symm, ?_⟩
  have same : second.memory = first.memory := memory
  rw [same]
  exact remains.give given

open Effect in
/-- A store of a word of the kind, as the shapes have it. -/
theorem Tracked.store {kind : WordKind} {restores : Slot → Slot → Prop} {slots : List Slot}
    {top : Word} {place : Int32} {rest : List Word} {bytes : List UInt8} {after : Memory}
    (tracked : first.Tracked image base kept shape)
    (agrees : Instruction.storeStep kind restores shape.slots slots)
    (restoring : ∀ value address, restores value address → value.Restores address ∧
      ∃ word, top = .integer word ∧ bytes = WordBytes.ofInt32 word)
    (stack : first.stack = top :: .integer place :: rest)
    (named : ∀ cell ∈ Cell.shared, image.Meets place bytes cell →
      ∃ value others, shape.slots = value :: .place cell :: others)
    (stored : first.memory.store? place bytes = some after) :
    ∃ words, rest = words ++ base ∧ Tracks image kept slots words after := by
  obtain ⟨words, above, tracks⟩ := tracked
  obtain ⟨shapeSlots, promised⟩ := shape
  match shapeSlots, agrees with
  | value :: address :: slots', ⟨stores, same⟩ =>
      obtain rfl := same
      match words, tracks.describes with
      | _ :: _ :: words, describes =>
          rw [stack] at above
          simp only [List.cons_append, List.cons.injEq] at above
          obtain ⟨rfl, rfl, rfl⟩ := above
          refine ⟨words, rfl, tracks.store (stores.imp_right (restoring _ _))
            (fun cell shared meets => ?_) stored⟩
          obtain ⟨_, _, same⟩ := named cell shared meets
          simp only [List.cons.injEq] at same
          exact same.2.1

open Effect in
/-- A jump that is taken if the word on top is so. -/
theorem Tracked.branch {kind : WordKind} {name : String} {stack : List Word} {top : Word}
    {taken : Bool} (tracked : first.Tracked image base kept shape)
    (agrees : Slot.take [kind] shape.slots fun rest =>
      Shape.Enters labels name ⟨rest, shape.promised⟩ ∧ behind = ⟨rest, shape.promised⟩)
    (goes : instruction.destination? = some name) (stays : ∀ other, instruction ≠ .jump other)
    (found : first.stack = top :: stack)
    (jumped : jumpIf image (image.word name) taken
      ⟨first.pc + 1, stack, first.memory, first.output, 1⟩ = .ok () (second.state 1)) :
    Tracked.Outcome image labels base kept instruction shape behind first second := by
  obtain ⟨words, above, tracks⟩ := tracked
  obtain ⟨taken', rest, below, rfl, fits, remains, enters, rfl⟩ := tracks.take agrees
  obtain ⟨word, rfl, _⟩ := List.map_eq_singleton_iff.mp fits
  rw [found] at above
  obtain ⟨rfl, rfl⟩ := List.cons.inj above
  obtain ⟨place, stack, memory, output⟩ := second
  cases taken with
  | false =>
      cases jumped
      exact .falls rfl stays rfl ⟨below, rfl, remains⟩
  | true =>
      obtain ⟨_, same⟩ := jumpTo_eq_ok.mp jumped
      cases same
      exact .jumps name _ goes rfl enters rfl ⟨below, rfl, remains⟩

open Effect in
/-- Printing takes what the format says. -/
theorem Tracked.print {name : String} {slots : List Slot} {kinds : List WordKind}
    (tracked : first.Tracked image base kept shape) (stack : shape.slots = .place name :: slots)
    (known : Cell.formatKinds name = some kinds)
    (agrees : Slot.take kinds slots fun rest => behind = ⟨rest, shape.promised⟩)
    (formats : ∀ entry ∈ Cell.formats,
      first.memory.Spells (Address.index (image.word entry.1)) entry.2.toUTF8.toList)
    (printed : printFormatted limit ⟨first.pc + 1, first.stack, first.memory, first.output, 1⟩ =
      .ok () (second.state 1)) :
    second.pc = first.pc + 1 ∧ behind.promised = shape.promised ∧
      second.Tracked image base kept behind := by
  obtain ⟨word, words, above, tracks⟩ := tracked.top stack
  obtain rfl : word = .integer (image.word name) := (List.forall₂_cons.mp tracks.describes).1
  obtain ⟨text, found, rfl⟩ := Option.map_eq_some_iff.mp known
  have member : (name, text) ∈ Cell.formats := by
    obtain ⟨front, back, same, _⟩ := List.lookup_eq_some_iff.mp found
    rw [same]
    simp
  rw [above] at printed
  obtain ⟨_, _, popped, printed⟩ := bind_eq_ok.mp printed
  cases popped
  obtain ⟨bytes, _, loaded, printed⟩ := bind_eq_ok.mp printed
  obtain ⟨rfl, index, located, terminated⟩ := loadText_eq_ok loaded
  have same : bytes = text.toUTF8.toList := by
    have spells := formats _ member
    rw [Memory.index_of_index? located] at spells
    have read := Memory.terminated?_of_read spells.content spells.noZero spells.inside
    exact Option.some.inj (terminated.symm.trans read)
  subst same
  have swaps := (swaps_arguments [] _).bind (fun _ => swaps_write limit _) _ _ _ printed
  rw [List.append_nil] at swaps
  have below : Tracked image base kept ⟨slots, shape.promised⟩
      { first with stack := words ++ base } := ⟨words, rfl, tracks.pop trivial⟩
  have swapped := below.swap agrees swaps
  exact swapped

open Effect in
theorem Tracked.step (tracked : first.Tracked image base kept shape)
    (agrees : instruction.Step labels shape behind) (executes : first.Executes image instruction)
    (next : first.Next image limit second) (stays : instruction.calls = false)
    (inside : instruction.returns = false) (orderly : first.Orderly image)
    (named : ∀ cell ∈ Cell.shared, image.StoresTo cell first.pc →
      ∃ value rest, shape.slots = value :: .place cell :: rest) :
    Tracked.Outcome image labels base kept instruction shape behind first second := by
  have executed := next.execute executes
  have stored : ∀ address bytes, instruction.stored? first.stack = some (address, bytes) →
      ∀ cell ∈ Cell.shared, image.Meets address bytes cell →
        ∃ value rest, shape.slots = value :: .place cell :: rest := fun address bytes stores cell
      shared meets => named cell shared (orderly.stores _ _ _ executes stores cell shared meets)
  cases instruction with
  | call | callV => cases stays
  | «return» | popPC => cases inside
  | halt =>
      obtain ⟨same, _⟩ := pure_eq_ok.mp executed
      cases same
  | pushD name =>
      obtain rfl := agrees
      obtain ⟨words, stack, tracks⟩ := tracked
      obtain ⟨place, stack', memory, output⟩ := second
      cases executed
      exact .falls rfl nofun rfl ⟨_ :: words, congrArg _ stack,
        tracks.push (Slot.describes_pushed image name) fun _ => Slot.pushed_ne_content name⟩
  | pop =>
      obtain ⟨slot, rest, slots, spare, rfl⟩ := agrees
      obtain ⟨word, words, stack, tracks⟩ := tracked.top slots
      obtain ⟨place, stack', memory, output⟩ := second
      rw [stack] at executed
      cases executed
      exact .falls rfl nofun rfl ⟨words, rfl, tracks.pop spare⟩
  | duplicate =>
      obtain ⟨slot, rest, slots, rfl⟩ := agrees
      obtain ⟨word, words, stack, tracks⟩ := tracked.top slots
      obtain ⟨place, stack', memory, output⟩ := second
      rw [stack] at executed
      cases executed
      exact .falls rfl nofun rfl ⟨word :: word :: words, rfl, tracks.duplicate⟩
  | exchange =>
      obtain ⟨top, below, rest, slots, passes, rfl⟩ := agrees
      obtain ⟨upper, words, stack, tracks⟩ := tracked.top slots
      obtain ⟨place, stack', memory, output⟩ := second
      match words, tracks.describes with
      | lower :: words, _ =>
          rw [stack] at executed
          cases executed
          exact .falls rfl nofun rfl ⟨lower :: upper :: words, rfl, tracks.exchange passes⟩
  | loadI =>
      obtain ⟨slot, rest, slots, fits, rfl⟩ := agrees
      obtain ⟨word, words, stack, tracks⟩ := tracked.top slots
      have describes := (List.forall₂_cons.mp tracks.describes).1
      obtain ⟨address, rfl⟩ := Word.kind_eq_integer.mp (describes.kind.trans fits.1)
      rw [stack] at executed
      obtain ⟨_, _, popped, executed⟩ := bind_eq_ok.mp executed
      cases popped
      obtain ⟨bytes, _, loaded, executed⟩ := bind_eq_ok.mp executed
      obtain ⟨found, rfl⟩ := load_eq_ok.mp loaded
      obtain ⟨place, stack', memory, output⟩ := second
      cases executed
      exact .falls rfl nofun rfl ⟨_ :: words, rfl, tracks.load fits.2 found⟩
  | storeC =>
      obtain ⟨rest, agrees, rfl⟩ := agrees
      obtain ⟨_, _, popped, executed⟩ := bind_eq_ok.mp executed
      obtain ⟨_, above, rfl⟩ := popInteger_eq_ok.mp popped
      obtain ⟨_, _, popped, executed⟩ := bind_eq_ok.mp executed
      obtain ⟨_, below, rfl⟩ := popInteger_eq_ok.mp popped
      obtain ⟨_, _, wrote, executed⟩ := bind_eq_ok.mp executed
      obtain ⟨after, written, rfl⟩ := store_eq_ok.mp wrote
      obtain ⟨place, stack', memory, output⟩ := second
      cases executed
      have stack : first.stack = .integer _ :: .integer _ :: _ := above.trans (congrArg _ below)
      obtain ⟨words, rfl, tracks⟩ := tracked.store agrees (fun _ _ none => none.elim) stack
        (stored _ _ (by rw [stack]; rfl)) written
      exact .falls rfl nofun rfl ⟨words, rfl, tracks⟩
  | storeI =>
      obtain ⟨rest, agrees, rfl⟩ := agrees
      obtain ⟨_, _, popped, executed⟩ := bind_eq_ok.mp executed
      obtain ⟨_, above, rfl⟩ := popInteger_eq_ok.mp popped
      obtain ⟨_, _, popped, executed⟩ := bind_eq_ok.mp executed
      obtain ⟨_, below, rfl⟩ := popInteger_eq_ok.mp popped
      obtain ⟨_, _, wrote, executed⟩ := bind_eq_ok.mp executed
      obtain ⟨after, written, rfl⟩ := store_eq_ok.mp wrote
      obtain ⟨place, stack', memory, output⟩ := second
      cases executed
      have stack : first.stack = .integer _ :: .integer _ :: _ := above.trans (congrArg _ below)
      obtain ⟨words, rfl, tracks⟩ := tracked.store agrees
        (fun _ _ restores => ⟨restores, _, rfl, rfl⟩) stack (stored _ _ (by rw [stack]; rfl))
        written
      exact .falls rfl nofun rfl ⟨words, rfl, tracks⟩
  | storeF =>
      obtain ⟨rest, agrees, rfl⟩ := agrees
      obtain ⟨_, _, popped, executed⟩ := bind_eq_ok.mp executed
      obtain ⟨_, above, rfl⟩ := popFloating_eq_ok.mp popped
      obtain ⟨_, _, popped, executed⟩ := bind_eq_ok.mp executed
      obtain ⟨_, below, rfl⟩ := popInteger_eq_ok.mp popped
      obtain ⟨_, _, wrote, executed⟩ := bind_eq_ok.mp executed
      obtain ⟨after, written, rfl⟩ := store_eq_ok.mp wrote
      obtain ⟨place, stack', memory, output⟩ := second
      cases executed
      have stack : first.stack = .floating _ :: .integer _ :: _ := above.trans (congrArg _ below)
      obtain ⟨words, rfl, tracks⟩ := tracked.store agrees (fun _ _ none => none.elim) stack
        (stored _ _ (by rw [stack]; rfl)) written
      exact .falls rfl nofun rfl ⟨words, rfl, tracks⟩
  | jump name =>
      obtain ⟨words, stack, tracks⟩ := tracked
      obtain ⟨_, _, jumped, executed⟩ := bind_eq_ok.mp executed
      obtain ⟨_, rfl⟩ := jumpTo_eq_ok.mp jumped
      obtain ⟨place, stack', memory, output⟩ := second
      cases executed
      exact .jumps name shape rfl rfl agrees rfl ⟨words, stack, tracks⟩
  | jumpTrue name | jumpFalse name | jumpPos name | jumpNeg name =>
      obtain ⟨_, _, popped, executed⟩ := bind_eq_ok.mp executed
      obtain ⟨_, stack, rfl⟩ := popInteger_eq_ok.mp popped
      obtain ⟨_, _, jumped, executed⟩ := bind_eq_ok.mp executed
      cases executed
      exact tracked.branch agrees rfl nofun stack jumped
  | jumpFPos name | jumpFNeg name | jumpFZero name =>
      obtain ⟨_, _, popped, executed⟩ := bind_eq_ok.mp executed
      obtain ⟨_, stack, rfl⟩ := popFloating_eq_ok.mp popped
      obtain ⟨_, _, jumped, executed⟩ := bind_eq_ok.mp executed
      cases executed
      exact tracked.branch agrees rfl nofun stack jumped
  | printf =>
      obtain ⟨name, slots, kinds, same, known, agrees⟩ := agrees
      obtain ⟨_, _, printed, executed⟩ := bind_eq_ok.mp executed
      cases executed
      obtain ⟨pc, promised, tracked⟩ := tracked.print same known agrees orderly.formats printed
      exact .falls pc nofun promised tracked
  | label =>
      obtain ⟨_, rfl⟩ := agrees
      obtain ⟨place, stack', memory, output⟩ := second
      cases executed
      exact .falls rfl nofun rfl tracked
  | dataLabel | dataC | dataI | dataF | dataS | dataZ | dataD =>
      obtain rfl := agrees
      obtain ⟨place, stack', memory, output⟩ := second
      cases executed
      exact .falls rfl nofun rfl tracked
  | _ =>
      obtain ⟨takes, gives, kinds, taken⟩ := agrees
      have swaps := Placed.swaps_execute ⟨_, _⟩ kinds rfl nofun nofun _ _ _ executed
      obtain ⟨pc, promised, tracked⟩ := tracked.swap taken swaps
      exact .falls pc nofun promised tracked

/-! ## Calls and returns -/

open Effect in
/-- Where a function or a subroutine goes back, all it was entered with is as it was. -/
theorem Tracked.return {back : Configuration} (tracked : first.Tracked image base kept shape)
    (agrees : instruction.Step labels shape behind) (executes : first.Executes image instruction)
    (returns : instruction.returns = true) (next : first.Next image limit back) :
    ∃ given, back.stack = given ++ base ∧ given.map Word.kind = shape.promised ∧
      ∀ cell ∈ Cell.shared, back.memory.cell image.word cell = kept cell := by
  have executed := next.execute executes
  have shapes : ∃ slot : Slot, slot.Fits .integer [] ∧
      shape.slots = slot :: shape.promised.map Slot.ofKind := by
    cases instruction <;> first | exact agrees | cases returns
  obtain ⟨slot, fits, slots⟩ := shapes
  obtain ⟨word, words, stack, tracks⟩ := tracked.top slots
  have spare : slot.Spare (shape.promised.map Slot.ofKind) := by
    cases slot with
    | content name => cases fits.2
    | integer | floating | place => trivial
  have takes : Slot.take shape.promised (shape.promised.map Slot.ofKind) (· = []) := by
    rw [← List.append_nil (shape.promised.map Slot.ofKind)]
    exact Slot.take_ofKind.mpr rfl
  obtain ⟨given, _, below, rfl, kinds, remains, rfl⟩ := (tracks.pop spare).take takes
  obtain rfl := List.forall₂_nil_left_iff.mp remains.describes
  rw [List.append_nil] at stack
  have comes : back.stack = given ++ base ∧ back.memory = first.memory := by
    obtain ⟨place, stack', memory, output⟩ := back
    cases instruction with
    | «return» | popPC =>
        obtain ⟨_, _, popped, executed⟩ := bind_eq_ok.mp executed
        obtain ⟨_, above, rfl⟩ := popInteger_eq_ok.mp popped
        obtain ⟨_, _, jumped, executed⟩ := bind_eq_ok.mp executed
        obtain ⟨_, rfl⟩ := jumpTo_eq_ok.mp jumped
        cases executed
        exact ⟨(List.cons.inj (above.symm.trans stack)).2, rfl⟩
    | _ => cases returns
  refine ⟨given, comes.1, kinds, fun cell shared => ?_⟩
  rw [comes.2]
  exact remains.original cell shared

/-- The place to return to is pushed where a function or a subroutine is entered. -/
structure Calls (first : Configuration) (place : Nat) (stack : List Word)
    (entered : Configuration) : Prop where
  pc : entered.pc = place
  stack : entered.stack = .integer (Int32.ofNat (first.pc + 1)) :: stack
  memory : entered.memory = first.memory

open Effect in
theorem Next.call {name : String} {entered : Configuration} (next : first.Next image limit entered)
    (executes : first.Executes image (.call name)) :
    first.Calls (image.word name).toNatClampNeg first.stack entered := by
  have executed := next.execute executes
  obtain ⟨place, stack, memory, output⟩ := entered
  obtain ⟨_, _, pushed, executed⟩ := bind_eq_ok.mp executed
  cases pushed
  obtain ⟨_, _, jumped, executed⟩ := bind_eq_ok.mp executed
  obtain ⟨_, rfl⟩ := jumpTo_eq_ok.mp jumped
  cases executed
  exact ⟨rfl, rfl, rfl⟩

open Effect in
theorem Next.callV {entered : Configuration} (next : first.Next image limit entered)
    (executes : first.Executes image .callV) :
    ∃ target rest, first.stack = .integer target :: rest ∧
      first.Calls target.toNatClampNeg rest entered := by
  have executed := next.execute executes
  obtain ⟨place, stack, memory, output⟩ := entered
  obtain ⟨_, _, popped, executed⟩ := bind_eq_ok.mp executed
  obtain ⟨target, above, rfl⟩ := popInteger_eq_ok.mp popped
  obtain ⟨_, _, pushed, executed⟩ := bind_eq_ok.mp executed
  cases pushed
  obtain ⟨_, _, jumped, executed⟩ := bind_eq_ok.mp executed
  obtain ⟨_, rfl⟩ := jumpTo_eq_ok.mp jumped
  cases executed
  exact ⟨_, _, above, rfl, rfl, rfl⟩

/-- What a function or a subroutine is entered with is tracked from there on. -/
theorem Calls.tracked {place : Nat} (taken : List Word) (promised : List WordKind)
    {rest : List Word} {entered : Configuration}
    (enters : first.Calls place (taken ++ rest) entered) :
    entered.Tracked image rest (first.memory.cell image.word)
      ⟨.integer :: (taken.map Word.kind).map Slot.ofKind, promised⟩ := by
  have nothing : Tracks image (first.memory.cell image.word) [] [] first.memory :=
    ⟨.nil, fun _ _ => rfl⟩
  have given := nothing.give taken
  rw [List.append_nil, List.append_nil] at given
  refine ⟨.integer _ :: taken, enters.stack, ?_⟩
  rw [enters.memory]
  exact given.push rfl nofun

/-- A call goes to its entry with the place to return to, above the words that it takes, and goes
on with what the entry promises in their place. -/
theorem Tracked.call {entered : Configuration} (tracked : first.Tracked image base kept shape)
    (agrees : instruction.Step labels shape behind) (executes : first.Executes image instruction)
    (calls : instruction.calls = true) (next : first.Next image limit entered)
    (orderly : first.Orderly image) (addressable : image.Addressable)
    (marked : ∀ name, instruction = .call name → ∃ place, image.Marks name place) :
    behind.promised = shape.promised ∧ ∃ entry rest, image.Entry entered.pc entry ∧
      entered.Tracked image rest (first.memory.cell image.word) entry ∧
      ∀ back : Configuration,
        (∃ given, back.stack = given ++ rest ∧ given.map Word.kind = entry.promised ∧
          ∀ cell ∈ Cell.shared,
            back.memory.cell image.word cell = first.memory.cell image.word cell) →
        back.Tracked image base kept behind := by
  obtain ⟨words, stack, tracks⟩ := tracked
  cases instruction with
  | call name =>
      obtain ⟨⟨takes, gives⟩, known, agrees⟩ := agrees
      obtain ⟨taken, slots, below, rfl, rfl, remains, rfl⟩ := tracks.take agrees
      have enters := next.call executes
      rw [stack, List.append_assoc] at enters
      obtain ⟨place, marks⟩ := marked name rfl
      have target : entered.pc = place := by
        rw [enters.pc, marks.word, Image.toNatClampNeg_ofNat addressable marks.2]
      refine ⟨rfl, _, below ++ base, ?_, enters.tracked taken gives, fun back comes => ?_⟩
      · rw [target]
        exact .subroutine known marks
      · obtain ⟨given, after, fits, same⟩ := comes
        obtain rfl := fits
        exact ⟨given ++ below, by rw [after, List.append_assoc], (remains.resume same).give given⟩
  | callV =>
      obtain ⟨takes, gives, kinds, agrees⟩ := agrees
      cases kinds
      obtain ⟨taken, slots, below, rfl, fits, remains, rfl⟩ := tracks.take agrees
      obtain ⟨word, rfl, kind⟩ := List.map_eq_singleton_iff.mp fits
      obtain ⟨target, rest, above, enters⟩ := next.callV executes
      obtain ⟨serial, place, marks, rfl⟩ := orderly.calls executes _ _ above
      obtain rfl := (List.cons.inj (above.symm.trans stack)).2
      have target : entered.pc = place :=
        enters.pc.trans (Image.toNatClampNeg_ofNat addressable marks.2)
      refine ⟨rfl, _, below ++ base, ?_, enters.tracked [] [],
        fun back comes => ?_⟩
      · rw [target]
        exact .function marks
      · obtain ⟨given, after, none, same⟩ := comes
        obtain rfl := List.map_eq_nil_iff.mp none
        exact ⟨below, after, remains.resume same⟩
  | _ => cases calls

end

end Configuration

end StackBackend
