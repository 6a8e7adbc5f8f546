import StackBackend.Proofs.Correctness
import StackBackend.Proofs.OperatorSteps
import StackBackend.Proofs.ScopeLayout
import StackBackend.Proofs.Tours
import StackBackend.Proofs.Typing

namespace StackBackend

/-! Loops over sequences. The state of a loop is in four words; its body is known by where it
leaves, and that it keeps those words. The loop goes through the positions of the record that the
sequence was when it was evaluated, whatever the body does to the variables. -/

/-! ## Variables and records -/

/-- The bytes of a variable are in the memory, in the global block or beyond it. -/
structure Binding.Lies (binding : Binding) (image : Image) (memory : Memory) (place : Nat) :
    Prop where
  names : Address.Names (binding.location.address image.word memory) place
  above : image.place Cell.globalBlock ≤ place
  inside : place + binding.type.width ≤ memory.size
  fits : place + binding.type.width < 2147483648

namespace SequenceLayout

def header (layout : SequenceLayout) : Nat :=
  layout.headerSize.toNatClampNeg

def lengthAt (layout : SequenceLayout) : Nat :=
  layout.lengthOffset.toNatClampNeg

def elementWidth (layout : SequenceLayout) : Nat :=
  layout.elementSize.toNatClampNeg

/-- The pointer is to a record of the layout with so many elements, apart from the words of
loops. -/
structure Describes (layout : SequenceLayout) (image : Image) (memory : Memory) (pointer : Int32)
    (base count : Nat) : Prop where
  names : Address.Names pointer base
  length : Address.Names (memory.word (base + layout.lengthAt)) count
  inside : base + layout.header + count * layout.elementWidth ≤ memory.size
  fits : base + layout.header + count * layout.elementWidth < 2147483648
  apart : ∀ name ∈ ForLoop.bracket.words, Address.index (image.word name) + 4 ≤ base ∨
    base + layout.header + count * layout.elementWidth ≤ Address.index (image.word name)

/-- The layout is right for a loop of the kind with a variable of the type. -/
structure Suits (layout : SequenceLayout) (kind : ForKind) (type : Ty) : Prop where
  header : Address.Names layout.headerSize layout.header
  length : Address.Names layout.lengthOffset layout.lengthAt
  within : layout.lengthAt + 4 ≤ layout.header
  index : kind = .index → type = .integer
  element : kind = .element → layout.elementSize = type.size

theorem suits_of_applies {layout : SequenceLayout} {kind : ForKind} {type sequence : Ty}
    (found : sequence.sequenceLayout = .ok layout) (applies : kind.Applies type sequence) :
    layout.Suits kind type := by
  cases kind with
  | index =>
      obtain ⟨rfl, rfl | ⟨element, rfl⟩⟩ := applies <;> cases found <;>
        exact ⟨rfl, rfl, Nat.le_of_ble_eq_true rfl, fun _ => rfl, nofun⟩
  | element =>
      obtain rfl | ⟨rfl, rfl⟩ := applies <;> cases found <;>
        exact ⟨rfl, rfl, Nat.le_of_ble_eq_true rfl, nofun, fun _ => rfl⟩

end SequenceLayout

namespace ForLoop

/-! ## The parts of a loop -/

/-- The labels of a loop, and the code of what it is made of. -/
structure Parts where
  labels : LabelGroup
  layout : SequenceLayout
  address : Code
  sequence : Code
  current : Code
  store : Code
  body : Code

namespace Parts

def code (parts : Parts) : Code :=
  Code.join [setUp parts.address parts.sequence parts.layout,
    advance parts.labels parts.current parts.store, parts.body, finish parts.labels]

/-- What precedes the sequence. -/
def entry (parts : Parts) : Code :=
  bracket.save ++ (parts.address ++ Code.storeWord Cell.forIdentifier)

/-- What follows the sequence that is not null. -/
def measure (parts : Parts) : Code :=
  .duplicate :: (Code.readWord parts.layout.lengthOffset ++ (Code.storeWord Cell.forLength ++
    (Code.addOffset parts.layout.headerSize ++ (Code.storeWord Cell.forSequence ++
      .pushI 0 :: Code.storeWord Cell.forIndex))))

/-- What says whether positions are left. -/
def remaining : Code :=
  Code.loadWord Cell.forLength ++ (Code.loadWord Cell.forIndex ++ [.subtract])

/-- What sets the variable. -/
def assign (parts : Parts) : Code :=
  Code.loadWord Cell.forIdentifier ++ (parts.current ++ parts.store)

/-! The places of the parts in a loop that starts at a place. -/

def sequencePlace (parts : Parts) (start : Nat) : Nat :=
  start + parts.entry.size

def checkPlace (parts : Parts) (start : Nat) : Nat :=
  parts.sequencePlace start + parts.sequence.size

def headPlace (parts : Parts) (start : Nat) : Nat :=
  parts.checkPlace start + 2 + parts.measure.size

def bodyPlace (parts : Parts) (start : Nat) : Nat :=
  parts.headPlace start + remaining.size + 1 + parts.assign.size

def continuePlace (parts : Parts) (start : Nat) : Nat :=
  parts.bodyPlace start + parts.body.size

def endPlace (parts : Parts) (start : Nat) : Nat :=
  parts.continuePlace start + (Code.increment Cell.forIndex).size + 1

/-- A place in the code of the sequence or in that of the body. -/
def Encloses (parts : Parts) (start place : Nat) : Prop :=
  (parts.sequencePlace start ≤ place ∧ place < parts.checkPlace start) ∨
    (parts.bodyPlace start ≤ place ∧ place < parts.continuePlace start)

/-- The parts are those of the statement. -/
structure Made (parts : Parts) (surroundings : Surroundings) (kind : ForKind)
    (binding : Binding) (sequence : Expr) (body : List Statement) (last next : Nat) : Prop where
  labels : parts.labels = ⟨"for", last + 1⟩
  layout : sequence.type.sequenceLayout = .ok parts.layout
  address : binding.addressCode = .ok parts.address
  current : ForLoop.current kind parts.layout binding.type = .ok parts.current
  store : binding.type.store = .ok parts.store
  evaluated : ∃ middle, sequence.valueCode (last + 1) = .ok (parts.sequence, middle) ∧
    blockCode (surroundings.enterLoop ⟨parts.labels.label "continue", parts.labels.label "end",
      some bracket⟩) body middle = .ok (parts.body, next)

theorem exists_made {surroundings : Surroundings} {kind : ForKind} {binding : Binding}
    {sequence : Expr} {body : List Statement} {last next : Nat} {code : Code}
    (generated : (Statement.for kind binding sequence body).code surroundings last =
      .ok (code, next)) :
    ∃ parts : Parts, parts.Made surroundings kind binding sequence body last next ∧
      code = parts.code := by
  obtain ⟨layout, address, sequenceCode, middle, current, store, bodyCode, laid, addressed,
    evaluated, found, stored, repeated, rfl⟩ := Statement.code_for.mp generated
  exact ⟨⟨_, layout, address, sequenceCode, current, store, bodyCode⟩,
    ⟨rfl, laid, addressed, found, stored, middle, evaluated, repeated⟩, rfl⟩

variable {parts : Parts} {start place : Nat}

theorem code_eq : parts.code =
    parts.entry ++ (parts.sequence ++ ([.duplicate] ++ .jumpFalse Fault.nullArray.handler ::
      (parts.measure ++ .label (parts.labels.label "start") :: (remaining ++
        .jumpFalse (parts.labels.label "end") :: (parts.assign ++ (parts.body ++
          .label (parts.labels.label "continue") :: (Code.increment Cell.forIndex ++
            .jump (parts.labels.label "start") :: .label (parts.labels.label "end") ::
              bracket.restore))))))) := by
  simp [code, setUp, advance, finish, entry, measure, remaining, assign, Record.nullCheck]

theorem size_code : start + parts.code.size = parts.endPlace start + bracket.restore.size := by
  simp only [code_eq, endPlace, continuePlace, bodyPlace, headPlace, checkPlace, sequencePlace,
    Code.size_append, Code.size_cons, Instruction.isDirective, Code.size_nil]
  simp
  omega

/-- All places but those of the sequence and of the body are the loop's own. -/
theorem not_encloses (outside : place < parts.sequencePlace start ∨
    (parts.checkPlace start ≤ place ∧ place < parts.bodyPlace start) ∨
      parts.continuePlace start ≤ place) : ¬ parts.Encloses start place := by
  simp only [Encloses, continuePlace, bodyPlace, headPlace, checkPlace] at *
  omega

end Parts

/-- Where the parts of a loop are in an image. -/
structure Placed (image : Image) (parts : Parts) (start : Nat) : Prop where
  entry : image.Holds parts.entry start
  sequence : image.Holds parts.sequence (parts.sequencePlace start)
  copies : image.Holds [.duplicate] (parts.checkPlace start)
  checks : ∃ rest, image.Holds (.jumpFalse Fault.nullArray.handler :: rest)
    (parts.checkPlace start + 1)
  measure : image.Holds parts.measure (parts.checkPlace start + 2)
  head : image.Marks (parts.labels.label "start") (parts.headPlace start)
  remaining : image.Holds Parts.remaining (parts.headPlace start)
  decides : ∃ rest, image.Holds (.jumpFalse (parts.labels.label "end") :: rest)
    (parts.headPlace start + Parts.remaining.size)
  assign : image.Holds parts.assign (parts.headPlace start + Parts.remaining.size + 1)
  body : image.Holds parts.body (parts.bodyPlace start)
  continues : image.Marks (parts.labels.label "continue") (parts.continuePlace start)
  steps : image.Holds (Code.increment Cell.forIndex) (parts.continuePlace start)
  returns : ∃ rest, image.Holds (.jump (parts.labels.label "start") :: rest)
    (parts.continuePlace start + (Code.increment Cell.forIndex).size)
  ends : image.Marks (parts.labels.label "end") (parts.endPlace start)
  restore : image.Holds bracket.restore (parts.endPlace start)

theorem placed_of_holds {image : Image} {parts : Parts} {start : Nat}
    (holds : image.Holds parts.code start) : Placed image parts start := by
  rw [Parts.code_eq] at holds
  obtain ⟨entry, holds⟩ := Image.holds_append.mp holds
  obtain ⟨sequence, holds⟩ := Image.holds_append.mp holds
  obtain ⟨copies, checks⟩ := Image.holds_append.mp holds
  obtain ⟨measure, head⟩ := Image.holds_append.mp ((Image.holds_cons rfl _ _).mp checks).2
  obtain ⟨head, holds⟩ := (Image.holds_label ..).mp head
  obtain ⟨remaining, decides⟩ := Image.holds_append.mp holds
  obtain ⟨assign, holds⟩ := Image.holds_append.mp ((Image.holds_cons rfl _ _).mp decides).2
  obtain ⟨body, holds⟩ := Image.holds_append.mp holds
  obtain ⟨continues, holds⟩ := (Image.holds_label ..).mp holds
  obtain ⟨steps, returns⟩ := Image.holds_append.mp holds
  obtain ⟨ends, restore⟩ := (Image.holds_label ..).mp ((Image.holds_cons rfl _ _).mp returns).2
  exact ⟨entry, sequence, copies, ⟨_, checks⟩, measure, head, remaining, ⟨_, decides⟩, assign,
    body, continues, steps, ⟨_, returns⟩, ends, restore⟩

/-! ## What a loop does -/

/-- A loop that is about to run, with the place of its variable. -/
structure Site where
  parts : Parts
  kind : ForKind
  binding : Binding
  place : Nat
  start : Configuration

namespace Site

/-- The operand stack in the loop: the words have been saved. -/
def stack (site : Site) (image : Image) : List Word :=
  bracket.saved image.word site.start.memory ++ site.start.stack

/-- The address of the variable has been put into its word; the sequence is next. -/
def entered (site : Site) (image : Image) : Configuration :=
  ⟨site.parts.sequencePlace site.start.pc, site.stack image,
    site.start.memory.setCell image.word Cell.forIdentifier
      (site.binding.location.address image.word site.start.memory), site.start.output⟩

def Encloses (site : Site) (place : Nat) : Prop :=
  site.parts.Encloses site.start.pc place

/-- The body has been left: at its end or by a continue statement, or by a break statement. -/
def Exits (site : Site) (image : Image) (configuration : Configuration) : Prop :=
  (image.Marks (site.parts.labels.label "continue") configuration.pc ∨
    image.Marks (site.parts.labels.label "end") configuration.pc) ∧
      configuration.stack = site.stack image

/-- What the variable is to hold: the position, or what the element of the record is. -/
def visited (site : Site) (memory : Memory) (base index : Nat) : List UInt8 :=
  match site.kind with
  | .index => WordBytes.ofInt32 (Int32.ofNat index)
  | .element => memory.read (base + site.parts.layout.header + index * site.binding.type.width)
      site.binding.type.width

end Site

/-- The sequence is evaluated to the pointer, and the word with the address stays. -/
structure Evaluates (image : Image) (limit : Option Nat) (site : Site) (pointer : Int32)
    (evaluated : Configuration) : Prop where
  once : RunsUntil image limit (fun configuration =>
    configuration.pc = site.parts.checkPlace site.start.pc ∧
      configuration.stack.tail = site.stack image) (site.entered image) evaluated
  stack : evaluated.stack = .integer pointer :: site.stack image
  words : Steady image.word [Cell.forIdentifier] (fun _ => False) (site.entered image).memory
    evaluated.memory

/-- The body begins with the variable set to the position or to what the element was before. -/
structure Opens (image : Image) (site : Site) (base index : Nat) (before entry : Configuration) :
    Prop where
  pc : entry.pc = site.parts.bodyPlace site.start.pc
  stack : entry.stack = site.stack image
  output : entry.output = before.output
  size : entry.memory.size = site.start.memory.size
  variable_eq : entry.memory.read site.place site.binding.type.width =
    site.visited before.memory base index
  kept : ∀ position, position < site.place ∨ site.place + site.binding.type.width ≤ position →
    Cells.Misses image.word (bracket.words ++ Ty.storeCells) position →
      entry.memory.byte position = before.memory.byte position

/-- One run of the body, after what has been run before. -/
structure Round (image : Image) (limit : Option Nat) (site : Site) (base index : Nat)
    (before : Configuration) (run : Excursion) : Prop where
  opens : Opens image site base index before run.start
  once : RunsUntil image limit (site.Exits image) run.start run.finish
  words : Steady image.word bracket.words (fun _ => False) run.start.memory run.finish.memory

/-- The runs of the body from a position on, up to the last position or the first break. -/
inductive Rounds (image : Image) (limit : Option Nat) (site : Site) (base count : Nat) :
    Nat → Configuration → List Excursion → Configuration → Prop
  | ended {before : Configuration} : Rounds image limit site base count count before [] before
  | again {index : Nat} {before last : Configuration} {run : Excursion} {others : List Excursion}
      (below : index < count) (round : Round image limit site base index before run)
      (continues : image.Marks (site.parts.labels.label "continue") run.finish.pc)
      (rest : Rounds image limit site base count (index + 1) run.finish others last) :
      Rounds image limit site base count index before (run :: others) last
  | broken {index : Nat} {before : Configuration} {run : Excursion} (below : index < count)
      (round : Round image limit site base index before run)
      (breaks : image.Marks (site.parts.labels.label "end") run.finish.pc) :
      Rounds image limit site base count index before [run] run.finish

/-- The body is left, with the words of the loop as they were, whenever the loop comes to it. -/
def Obliges (image : Image) (limit : Option Nat) (site : Site) (base : Nat)
    (evaluated : Configuration) : Prop :=
  ∀ rounds index before entry,
    Tour image limit site.Encloses (⟨site.entered image, evaluated⟩ :: rounds) site.start entry →
    Opens image site base index before entry →
      ∃ left, RunsUntil image limit (site.Exits image) entry left ∧
        Steady image.word bracket.words (fun _ => False) entry.memory left.memory

/-! ## Steps of a loop -/

/-- The words that a loop works in, those of stores, and the frame pointer. -/
def cells : List String :=
  bracket.words ++ (Ty.storeCells ++ [Cell.framePointer])

theorem bracket_known : ∀ name ∈ bracket.words, name ∈ cells := by
  decide

theorem storeCells_known : ∀ name ∈ Ty.storeCells, name ∈ cells := by
  decide

/-- What a loop relies on before it runs. -/
structure Ready (image : Image) (site : Site) : Prop where
  addressable : image.Addressable
  cells : Cells image.word cells (image.place Cell.globalBlock)
  fault : ∃ position, image.Marks Fault.nullArray.handler position
  placed : Placed image site.parts site.start.pc
  inside : image.place Cell.globalBlock ≤ site.start.memory.size
  lies : site.binding.Lies image site.start.memory site.place
  address : site.binding.addressCode = .ok site.parts.address
  current : ForLoop.current site.kind site.parts.layout site.binding.type = .ok site.parts.current
  store : site.binding.type.store = .ok site.parts.store
  suits : site.parts.layout.Suits site.kind site.binding.type

/-- The loop is at its start label; the words say where it stands. -/
structure Stands (image : Image) (site : Site) (base count index : Nat) (before : Configuration)
    (memory : Memory) : Prop where
  identifier : Address.Names (memory.cell image.word Cell.forIdentifier) site.place
  sequence : Address.Names (memory.cell image.word Cell.forSequence)
    (base + site.parts.layout.header)
  length : Address.Names (memory.cell image.word Cell.forLength) count
  index : Address.Names (memory.cell image.word Cell.forIndex) index
  only : Cells.Only image.word bracket.words before.memory memory
  size : memory.size = site.start.memory.size

namespace Ready

variable {image : Image} {limit : Option Nat} {site : Site} {base count index : Nat}
  {before : Configuration} {memory : Memory} {stack : List Word} {output : ByteArray}
  {pointer : Int32} {evaluated : Configuration} {excursions : List Excursion}

theorem act_address (ready : Ready image site) (inside : image.place Cell.globalBlock ≤ memory.size)
    (rest : Code) :
    Code.act image.word (site.parts.address ++ rest) stack memory =
      Code.act image.word rest
        (.integer (site.binding.location.address image.word memory) :: stack) memory :=
  Location.act_addressCode ready.address ready.cells (by decide) inside rest

/-- The words are saved, and the address of the variable is put into its word. -/
theorem enters (ready : Ready image site) :
    Tour image limit site.Encloses [] site.start (site.entered image) := by
  have acts : Code.act image.word site.parts.entry site.start.stack site.start.memory =
      some (site.stack image, (site.entered image).memory) := by
    rw [Parts.entry, Bracket.act_save ready.cells ready.inside bracket_known,
      ready.act_address ready.inside, ready.cells.act_lastStore (by decide) ready.inside]
    rfl
  exact .outside (.straight ready.placed.entry acts fun place _ upper _ _ _ =>
    Parts.not_encloses (.inl upper))

/-- What the word with the address holds once the sequence is evaluated. -/
theorem identifier_evaluated (ready : Ready image site)
    (evaluates : Evaluates image limit site pointer evaluated) :
    Address.Names (evaluated.memory.cell image.word Cell.forIdentifier) site.place := by
  rw [evaluates.words.cells _ (List.mem_singleton_self _), Site.entered,
    ready.cells.cell_setCell (by decide) ready.inside]
  exact ready.lies.names

/-- The sequence is evaluated, and its pointer is tested. -/
theorem checks (ready : Ready image site)
    (evaluates : Evaluates image limit site pointer evaluated) {handler : Nat}
    (marks : image.Marks Fault.nullArray.handler handler) :
    Tour image limit site.Encloses [⟨site.entered image, evaluated⟩] site.start
      { evaluated with
        pc := if pointer = 0 then handler else site.parts.checkPlace site.start.pc + 2 } := by
  obtain ⟨pc, stack, memory, output⟩ := evaluated
  obtain rfl : pc = site.parts.checkPlace site.start.pc := evaluates.once.meets.1
  obtain rfl : stack = .integer pointer :: site.stack image := evaluates.stack
  obtain ⟨rest, holds⟩ := ready.placed.checks
  have outside (place : Nat) (lower : site.parts.checkPlace site.start.pc ≤ place)
      (upper : place < site.parts.checkPlace site.start.pc + 2) : ¬ site.Encloses place := by
    refine Parts.not_encloses (.inr (.inl ⟨lower, ?_⟩))
    unfold Parts.bodyPlace Parts.headPlace
    omega
  have tests : (Instruction.jumpFalse Fault.nullArray.handler).test (.integer pointer) =
      some (decide (pointer = 0)) := by
    simp [Instruction.test, BEq.beq]
  have tested := ((ready.enters.visit evaluates.once.runs.runs).further
    (.straight ready.placed.copies rfl fun place lower upper _ _ _ =>
      outside place lower (Nat.lt_succ_of_lt upper))).further
    (.branch ready.addressable holds rfl marks tests
      (outside _ (Nat.le_succ _) (Nat.lt_succ_self _)))
  simpa [Instruction.isDirective] using tested

/-- The record is measured, and the loop starts with the first position. -/
theorem begins (ready : Ready image site)
    (evaluates : Evaluates image limit site pointer evaluated) (present : pointer ≠ 0)
    (record : site.parts.layout.Describes image evaluated.memory pointer base count) :
    ∃ memory, Stands image site base count 0 evaluated memory ∧
      Tour image limit site.Encloses [⟨site.entered image, evaluated⟩] site.start
        ⟨site.parts.headPlace site.start.pc, site.stack image, memory, evaluated.output⟩ := by
  obtain ⟨handler, marks⟩ := ready.fault
  have identifier := ready.identifier_evaluated evaluates
  have size : evaluated.memory.size = site.start.memory.size :=
    evaluates.words.size.trans (Memory.size_setCell ..)
  have reached := ready.checks evaluates marks
  rw [if_neg present, evaluates.stack] at reached
  have inside := ready.inside
  have fits := record.fits
  have within := ready.suits.within
  have room := record.inside
  have lengthOffset : site.parts.layout.lengthOffset.toInt = site.parts.layout.lengthAt :=
    ready.suits.length
  have headerSize : site.parts.layout.headerSize.toInt = site.parts.layout.header :=
    ready.suits.header
  have lengthNames : Address.Names (pointer + site.parts.layout.lengthOffset)
      (base + site.parts.layout.lengthAt) := record.names.add (by omega) (by omega)
  let measured := ((evaluated.memory.setCell image.word Cell.forLength
    (evaluated.memory.word (base + site.parts.layout.lengthAt))).setCell image.word
      Cell.forSequence (pointer + site.parts.layout.headerSize)).setCell image.word Cell.forIndex 0
  have acts : Code.act image.word site.parts.measure (.integer pointer :: site.stack image)
      evaluated.memory = some (site.stack image, measured) := by
    rw [Parts.measure, Code.act_duplicate, Code.act_readWord lengthNames (by omega),
      ready.cells.act_storeCell (by decide) (by omega), Code.act_addOffset,
      ready.cells.act_storeCell (by decide) (by rw [Memory.size_setCell]; omega),
      Code.act_pushI,
      ready.cells.act_lastStore (by decide) (by simp only [Memory.size_setCell]; omega)]
  refine ⟨measured, ⟨?_, ?_, ?_, ?_, ?_, ?_⟩, ?_⟩
  · rw [ready.cells.cell_setCell_other (by decide) (by decide) (by decide),
      ready.cells.cell_setCell_other (by decide) (by decide) (by decide),
      ready.cells.cell_setCell_other (by decide) (by decide) (by decide)]
    exact identifier
  · rw [ready.cells.cell_setCell_other (by decide) (by decide) (by decide),
      ready.cells.cell_setCell (by decide) (by rw [Memory.size_setCell]; omega)]
    exact record.names.add (by omega) (by omega)
  · rw [ready.cells.cell_setCell_other (by decide) (by decide) (by decide),
      ready.cells.cell_setCell_other (by decide) (by decide) (by decide),
      ready.cells.cell_setCell (by decide) (by omega)]
    exact record.length
  · rw [ready.cells.cell_setCell (by decide) (by simp only [Memory.size_setCell]; omega)]
    rfl
  · exact (((Cells.Only.refl _).setCell (by decide) _).setCell (by decide)
      _).setCell (by decide) _
  · simpa only [measured, Memory.size_setCell] using size
  · have outside (place : Nat) (lower : site.parts.checkPlace site.start.pc + 2 ≤ place)
        (upper : place < site.parts.checkPlace site.start.pc + 2 + site.parts.measure.size) :
        ¬ site.Encloses place := by
      refine Parts.not_encloses (.inr (.inl ⟨by omega, ?_⟩))
      unfold Parts.bodyPlace Parts.headPlace
      omega
    exact reached.further (.straight ready.placed.measure acts fun place lower upper _ _ _ =>
      outside place lower upper)

/-- The loop goes to its end label behind the last position, and to the variable before that. -/
theorem decides (ready : Ready image site)
    (stands : Stands image site base count index before memory) (le : index ≤ count) :
    RunsWhile image limit (fun configuration => ¬ site.Encloses configuration.pc)
      ⟨site.parts.headPlace site.start.pc, stack, memory, output⟩
      ⟨if index = count then site.parts.endPlace site.start.pc
        else site.parts.headPlace site.start.pc + Parts.remaining.size + 1, stack, memory,
        output⟩ := by
  have size := stands.size
  have inside := ready.inside
  have difference : Address.Names
      (memory.cell image.word Cell.forLength - memory.cell image.word Cell.forIndex)
      (count - index) := by
    have length := stands.length
    have index := stands.index
    have bound := Int32.toInt_lt (memory.cell image.word Cell.forLength)
    unfold Address.Names at length index
    exact Address.Names.sub length (by omega) (by omega)
  have acts : Code.act image.word Parts.remaining stack memory =
      some (.integer (memory.cell image.word Cell.forLength -
        memory.cell image.word Cell.forIndex) :: stack, memory) := by
    rw [Parts.remaining, ready.cells.act_loadCell (by decide) (by omega),
      ready.cells.act_loadCell (by decide) (by omega), Code.act_subtract, Code.act_nil]
  have tests : (Instruction.jumpFalse (site.parts.labels.label "end")).test
      (.integer (memory.cell image.word Cell.forLength -
        memory.cell image.word Cell.forIndex)) = some (decide (index = count)) := by
    by_cases last : index = count
    · rw [show count - index = 0 by omega] at difference
      rw [Address.eq_zero_of_names difference, decide_eq_true last]
      rfl
    · have nonzero := Address.ne_zero_of_names difference (by omega)
      rw [decide_eq_false last]
      simp [Instruction.test, nonzero]
  have outside (place : Nat) (lower : site.parts.headPlace site.start.pc ≤ place)
      (upper : place ≤ site.parts.headPlace site.start.pc + Parts.remaining.size) :
      ¬ site.Encloses place := by
    refine Parts.not_encloses (.inr (.inl ⟨?_, ?_⟩))
    · unfold Parts.headPlace at lower
      omega
    · unfold Parts.bodyPlace
      omega
  obtain ⟨rest, holds⟩ := ready.placed.decides
  have branches : RunsWhile image limit (fun configuration => ¬ site.Encloses configuration.pc)
      ⟨_, _ :: stack, memory, output⟩ _ :=
    .branch ready.addressable holds rfl ready.placed.ends tests
      (outside _ (Nat.le_add_right _ _) (Nat.le_refl _))
  simp only [decide_eq_true_eq] at branches
  exact (RunsWhile.straight ready.placed.remaining acts fun place lower upper _ _ _ =>
    outside place lower (Nat.le_of_lt upper)).trans branches

theorem length_visited (ready : Ready image site) (memory : Memory) (base index : Nat) :
    (site.visited memory base index).length = site.binding.type.width := by
  unfold Site.visited
  cases kind : site.kind with
  | index =>
      rw [ready.suits.index kind]
      exact Memory.length_ofInt32 _
  | element => exact Memory.length_read ..

/-- The value for the variable is that of the position or of the element. -/
theorem act_current (ready : Ready image site)
    (stands : Stands image site base count index before memory) (below : index < count)
    (inside : base + site.parts.layout.header + count * site.parts.layout.elementWidth ≤
      memory.size)
    (fits : base + site.parts.layout.header + count * site.parts.layout.elementWidth < 2147483648)
    (rest : Code) :
    Code.act image.word (site.parts.current ++ rest) stack memory =
      Code.act image.word rest
        (site.binding.type.words (site.visited memory base index) ++ stack) memory := by
  have current := ready.current
  have size := stands.size
  have room := ready.inside
  unfold Site.visited
  cases kind : site.kind with
  | index =>
      rw [kind] at current
      rw [← Except.ok.inj current, ready.cells.act_loadCell (by decide) (by omega),
        ready.suits.index kind, Heap.eq_ofNat_of_names stands.index]
      simp only [Ty.words, WordBytes.toInt32_ofInt32, List.singleton_append]
  | element =>
      have element := ready.suits.element kind
      have width : site.parts.layout.elementWidth = site.binding.type.width := by
        rw [SequenceLayout.elementWidth, element, Ty.width]
      rw [kind] at current
      obtain ⟨load, loaded, made⟩ := Except.bind_eq_ok.mp current
      obtain ⟨isValue, rfl⟩ := Ty.load_eq_ok.mp loaded
      have within := Record.item_le site.binding.type below
      rw [width] at inside fits
      obtain ⟨slot, named, computes⟩ := Record.exists_elementAddress image.word site.binding.type
        (show Address.Names 0 0 from rfl) stands.sequence stands.index (by omega)
      rw [← Except.ok.inj made]
      simp only [Code.join_cons, Code.join_nil, List.append_assoc, List.append_nil]
      rw [ready.cells.act_loadCell (by decide) (by omega),
        ready.cells.act_loadCell (by decide) (by omega), element, computes,
        Ty.act_loadCode isValue named (by omega) (by omega), Nat.add_zero]

/-- The words of the loop have not changed what the variable is to hold. -/
theorem visited_before (ready : Ready image site)
    (stands : Stands image site base count index before memory) (below : index < count)
    (apart : ∀ name ∈ bracket.words, Address.index (image.word name) + 4 ≤ base ∨
      base + site.parts.layout.header + count * site.parts.layout.elementWidth ≤
        Address.index (image.word name)) :
    site.visited memory base index = site.visited before.memory base index := by
  unfold Site.visited
  cases kind : site.kind with
  | index => rfl
  | element =>
      have width : site.parts.layout.elementWidth = site.binding.type.width := by
        rw [SequenceLayout.elementWidth, ready.suits.element kind, Ty.width]
      have within := Record.item_le site.binding.type below
      refine Memory.read_congr fun position lower upper => stands.only.kept position ?_
      intro name member
      have outside := apart name member
      rw [width] at outside
      omega

/-- A store into the variable leaves the words of the loop. -/
theorem cell_of_stored (ready : Ready image site) {bytes : List UInt8} {after : Memory}
    (stored : Ty.Stored image.word site.binding.type site.place bytes memory after) {name : String}
    (member : name ∈ bracket.words) :
    after.cell image.word name = memory.cell image.word name := by
  have known := bracket_known name member
  have below := ready.cells.below name known
  have above := ready.lies.above
  refine Memory.word_congr fun position lower upper => stored.kept position (.inl (by omega)) ?_
  intro other listed
  have different : ∀ name ∈ bracket.words, name ∉ Ty.storeCells := by decide
  have apart := ready.cells.apart name known other (storeCells_known other listed) fun same =>
    different name member (same ▸ listed)
  omega

/-- The variable is set, and the body begins. -/
theorem opens (ready : Ready image site)
    (record : site.parts.layout.Describes image evaluated.memory pointer base count)
    (size : evaluated.memory.size = site.start.memory.size)
    (stands : Stands image site base count index before memory) (below : index < count) :
    ∃ entry,
      RunsWhile image limit (fun configuration => ¬ site.Encloses configuration.pc)
        ⟨site.parts.headPlace site.start.pc, site.stack image, memory, before.output⟩ entry ∧
      Opens image site base index before entry ∧
      ∀ name ∈ bracket.words, entry.memory.cell image.word name = memory.cell image.word name := by
  have room := record.inside
  have inside := ready.inside
  have lies := ready.lies.inside
  have same := stands.size
  obtain ⟨isValue, stores⟩ := Ty.store_eq_ok.mp ready.store
  obtain ⟨after, acts, stored⟩ := Ty.act_storeCode memory isValue
    (ready.cells.mono storeCells_known) (Ty.bytes?_words (ready.length_visited memory base index))
    stands.identifier ready.lies.above (by omega) ready.lies.fits
  have assigns : Code.act image.word site.parts.assign (site.stack image) memory =
      some (site.stack image, after) := by
    rw [Parts.assign, ready.cells.act_loadCell (by decide) (by omega),
      ready.act_current stands below (by omega) record.fits, stores,
      ← List.append_nil (Ty.storeCode _), acts, Code.act_nil]
  have outside (place : Nat)
      (lower : site.parts.headPlace site.start.pc + Parts.remaining.size + 1 ≤ place)
      (upper : place < site.parts.bodyPlace site.start.pc) : ¬ site.Encloses place := by
    refine Parts.not_encloses (.inr (.inl ⟨?_, upper⟩))
    unfold Parts.headPlace at lower
    omega
  have stays : RunsWhile image limit (fun configuration => ¬ site.Encloses configuration.pc)
      ⟨_, site.stack image, memory, before.output⟩ _ := ready.decides stands (Nat.le_of_lt below)
  rw [if_neg (Nat.ne_of_lt below)] at stays
  refine ⟨⟨site.parts.bodyPlace site.start.pc, site.stack image, after, before.output⟩,
    stays.trans (.straight ready.placed.assign assigns fun place lower upper _ _ _ =>
      outside place lower upper), ⟨rfl, rfl, rfl, stored.size.trans same, ?_, ?_⟩,
    fun name member => ready.cell_of_stored stored member⟩
  · rw [stored.written, ready.visited_before stands below record.apart]
  · intro position apart misses
    rw [stored.kept position apart fun name member =>
      misses name (List.mem_append_right _ member)]
    exact stands.only.kept position fun name member => misses name (List.mem_append_left _ member)

/-- The body has been left at its end, and the loop goes on with the next position. -/
theorem goesOn (ready : Ready image site) {left : Configuration}
    (stands : Stands image site base count index before memory) (below : index < count)
    (pc : left.pc = site.parts.continuePlace site.start.pc) (stack : left.stack = site.stack image)
    (size : left.memory.size = site.start.memory.size)
    (kept : ∀ name ∈ bracket.words,
      left.memory.cell image.word name = memory.cell image.word name) :
    ∃ memory', Stands image site base count (index + 1) left memory' ∧
      RunsWhile image limit (fun configuration => ¬ site.Encloses configuration.pc) left
        ⟨site.parts.headPlace site.start.pc, site.stack image, memory', left.output⟩ := by
  obtain ⟨position, operands, memory', output⟩ := left
  obtain rfl : position = _ := pc
  obtain rfl : operands = _ := stack
  have inside := ready.inside
  have room : image.place Cell.globalBlock ≤ memory'.size := by
    rw [size]
    exact inside
  have acts : Code.act image.word (Code.increment Cell.forIndex) (site.stack image) memory' =
      some (site.stack image, memory'.setCell image.word Cell.forIndex
        (memory'.cell image.word Cell.forIndex + 1)) :=
    ready.cells.act_lastIncrement (by decide) room
  have other (name : String) (member : name ∈ bracket.words) (different : Cell.forIndex ≠ name) :
      (memory'.setCell image.word Cell.forIndex
        (memory'.cell image.word Cell.forIndex + 1)).cell image.word name =
          memory.cell image.word name :=
    (ready.cells.cell_setCell_other (by decide) (bracket_known name member)
      different).trans (kept name member)
  obtain ⟨rest, returns⟩ := ready.placed.returns
  have outside (place : Nat) (lower : site.parts.continuePlace site.start.pc ≤ place) :
      ¬ site.Encloses place := Parts.not_encloses (.inr (.inr lower))
  refine ⟨_, ⟨?_, ?_, ?_, ?_, ?_, ?_⟩,
    (RunsWhile.straight ready.placed.steps acts
      fun place lower _ _ _ _ => outside place lower).trans
      (.jump ready.addressable returns ready.placed.head (outside _ (Nat.le_add_right _ _)))⟩
  · rw [other _ (by decide) (by decide)]
    exact stands.identifier
  · rw [other _ (by decide) (by decide)]
    exact stands.sequence
  · rw [other _ (by decide) (by decide)]
    exact stands.length
  · have length := stands.length
    have bound := Int32.toInt_lt (memory.cell image.word Cell.forLength)
    unfold Address.Names at length
    rw [ready.cells.cell_setCell (by decide) room, kept _ (by decide)]
    exact stands.index.add (by rw [Int32.toInt_one]; omega) (by omega)
  · exact (Cells.Only.refl _).setCell (by decide) _
  · rw [Memory.size_setCell]
    exact size

/-! ## Runs of a loop -/

/-- From its start label the loop goes through the positions that are left. -/
theorem loops (ready : Ready image site)
    (record : site.parts.layout.Describes image evaluated.memory pointer base count)
    (size : evaluated.memory.size = site.start.memory.size)
    (obliges : Obliges image limit site base evaluated) {remaining : Nat}
    (left : index + remaining = count)
    (stands : Stands image site base count index before memory) {rounds : List Excursion}
    (reached : Tour image limit site.Encloses (⟨site.entered image, evaluated⟩ :: rounds) site.start
      ⟨site.parts.headPlace site.start.pc, site.stack image, memory, before.output⟩) :
    ∃ others last memory',
      Tour image limit site.Encloses (⟨site.entered image, evaluated⟩ :: (rounds ++ others))
        site.start ⟨site.parts.endPlace site.start.pc, site.stack image, memory', last.output⟩ ∧
      Rounds image limit site base count index before others last ∧
      Cells.Only image.word bracket.words last.memory memory' ∧
      memory'.size = site.start.memory.size := by
  induction remaining generalizing index before memory rounds with
  | zero =>
      obtain rfl : index = count := left
      have leaves : RunsWhile image limit (fun configuration => ¬ site.Encloses configuration.pc)
          ⟨_, site.stack image, memory, before.output⟩ _ := ready.decides stands (Nat.le_refl _)
      rw [if_pos rfl] at leaves
      refine ⟨[], before, memory, ?_, .ended, stands.only, stands.size⟩
      rw [List.append_nil]
      exact reached.further leaves
  | succ remaining induction =>
      have below : index < count := by omega
      obtain ⟨entry, opening, opens, entered⟩ := ready.opens record size stands below
      have begun := reached.further opening
      obtain ⟨exit, once, words⟩ := obliges rounds index before entry begun opens
      have round : Round image limit site base index before ⟨entry, exit⟩ := ⟨opens, once, words⟩
      have visited := begun.visit once.runs.runs
      rw [List.cons_append] at visited
      obtain ⟨continues | breaks, stack⟩ := once.meets
      · obtain ⟨memory', stands, returning⟩ := ready.goesOn stands below
          (continues.unique ready.placed.continues) stack (words.size.trans opens.size)
          fun name member => (words.cells name member).trans (entered name member)
        obtain ⟨others, last, after, tour, rest, only, size⟩ :=
          induction (by omega) stands (visited.further returning)
        refine ⟨⟨entry, exit⟩ :: others, last, after, ?_, .again below round continues rest, only,
          size⟩
        rwa [List.append_assoc, List.singleton_append] at tour
      · refine ⟨[⟨entry, exit⟩], exit, exit.memory, ?_, .broken below round breaks, .refl _,
          words.size.trans opens.size⟩
        rw [← breaks.unique ready.placed.ends, ← stack]
        exact visited

/-- At the end label the words are restored. -/
theorem restores (limit : Option Nat) (output : ByteArray) (ready : Ready image site)
    (size : memory.size = site.start.memory.size) :
    ∃ after,
      RunsWhile image limit (fun configuration => ¬ site.Encloses configuration.pc)
        ⟨site.parts.endPlace site.start.pc, site.stack image, memory, output⟩
        ⟨site.start.pc + site.parts.code.size, site.start.stack, after, output⟩ ∧
      Cells.Only image.word bracket.words memory after ∧
      ∀ name ∈ bracket.words,
        after.cell image.word name = site.start.memory.cell image.word name := by
  have inside := ready.inside
  obtain ⟨after, stores, restored⟩ := Bracket.act_restore ready.cells
    (show image.place Cell.globalBlock ≤ memory.size by omega) bracket_known site.start.memory
  have acts : Code.act image.word bracket.restore (site.stack image) memory =
      some (site.start.stack, after) :=
    Code.act_alone (stores site.start.stack)
  refine ⟨after, ?_, ⟨restored.size, fun index misses => restored.bytes index misses trivial⟩,
    restored.words⟩
  rw [Parts.size_code]
  have outside (place : Nat) (lower : site.parts.endPlace site.start.pc ≤ place) :
      ¬ site.Encloses place := by
    refine Parts.not_encloses (.inr (.inr ?_))
    unfold Parts.endPlace at lower
    omega
  exact .straight ready.placed.restore acts fun place lower _ _ _ _ => outside place lower

end Ready

namespace Rounds

variable {image : Image} {limit : Option Nat} {site : Site} {base count index : Nat}
  {before last : Configuration} {runs : List Excursion}

/-- Without a break there is a run for every position. -/
theorem length_eq (rounds : Rounds image limit site base count index before runs last)
    (unbroken : ∀ run ∈ runs, ¬ image.Marks (site.parts.labels.label "end") run.finish.pc) :
    index + runs.length = count := by
  induction rounds with
  | ended => rfl
  | again below round continues rest induction =>
      have others := induction fun run member => unbroken run (List.mem_cons_of_mem _ member)
      rw [List.length_cons]
      omega
  | broken below round breaks => exact absurd breaks (unbroken _ (List.mem_singleton_self _))

theorem exists_round (rounds : Rounds image limit site base count index before runs last)
    {run : Excursion} (member : run ∈ runs) :
    ∃ position earlier, Round image limit site base position earlier run := by
  induction rounds with
  | ended => cases member
  | again _ round _ _ induction =>
      rcases List.mem_cons.mp member with rfl | other
      · exact ⟨_, _, round⟩
      · exact induction other
  | broken _ round _ =>
      rcases List.mem_singleton.mp member with rfl
      exact ⟨_, _, round⟩

/-- A run that ends with a break is the last one. -/
theorem length_of_break (rounds : Rounds image limit site base count index before runs last)
    (placed : Placed image site.parts site.start.pc) {position : Nat}
    (bound : position < runs.length)
    (breaks : image.Marks (site.parts.labels.label "end") runs[position].finish.pc) :
    runs.length = position + 1 := by
  induction rounds generalizing position with
  | ended => cases bound
  | again below round continues rest induction =>
      cases position with
      | zero =>
          have same : site.parts.continuePlace site.start.pc = site.parts.endPlace site.start.pc :=
            (continues.unique placed.continues).symm.trans (breaks.unique placed.ends)
          unfold Parts.endPlace at same
          omega
      | succ position => exact congrArg (· + 1) (induction (Nat.lt_of_succ_lt_succ bound) breaks)
  | broken below round breaks' =>
      obtain rfl : position = 0 := Nat.lt_one_iff.mp bound
      rfl

end Rounds

/-! ## What loops come to -/

/-- The loop has gone through the positions of the record and has been left, with its words and
the operand stack as they were before it. -/
structure Completed (image : Image) (limit : Option Nat) (site : Site) (base count : Nat)
    (evaluated : Configuration) (runs : List Excursion) (left : Configuration)
    (after : Memory) : Prop where
  tour : Tour image limit site.Encloses (⟨site.entered image, evaluated⟩ :: runs) site.start
    ⟨site.start.pc + site.parts.code.size, site.start.stack, after, left.output⟩
  rounds : Rounds image limit site base count 0 evaluated runs left
  unbroken : (∀ run ∈ runs, ¬ image.Marks (site.parts.labels.label "end") run.finish.pc) →
    runs.length = count
  broken : ∀ position, (bound : position < runs.length) →
    image.Marks (site.parts.labels.label "end") runs[position].finish.pc →
      runs.length = position + 1
  only : Cells.Only image.word bracket.words left.memory after
  words : ∀ name ∈ bracket.words,
    after.cell image.word name = site.start.memory.cell image.word name

/-- Once its sequence has been evaluated, the loop faults on a null sequence, and otherwise goes
through the positions of the record. -/
def Site.Iterates (image : Image) (limit : Option Nat) (site : Site) : Prop :=
  ∀ pointer evaluated, Evaluates image limit site pointer evaluated →
    (pointer = 0 → ∃ handler, image.Marks Fault.nullArray.handler handler ∧
      Tour image limit site.Encloses [⟨site.entered image, evaluated⟩] site.start
        { evaluated with pc := handler }) ∧
    ∀ base count, pointer ≠ 0 →
      site.parts.layout.Describes image evaluated.memory pointer base count →
      Obliges image limit site base evaluated →
      ∃ runs left after, Completed image limit site base count evaluated runs left after

theorem Ready.iterates {image : Image} {limit : Option Nat} {site : Site}
    (ready : Ready image site) : site.Iterates image limit := by
  intro pointer evaluated evaluates
  rcases ready.fault with ⟨handler, marks⟩
  constructor
  · intro null
    have faults := ready.checks evaluates marks
    rw [if_pos null] at faults
    exact ⟨handler, marks, faults⟩
  · intro base count present record obliges
    have size : evaluated.memory.size = site.start.memory.size :=
      evaluates.words.size.trans (Memory.size_setCell ..)
    rcases ready.begins evaluates present record with ⟨memory, stands, begun⟩
    rcases ready.loops record size obliges (Nat.zero_add count) stands begun with
      ⟨rounds, left, between, looped, visits, only, sized⟩
    rcases ready.restores limit left.output sized with ⟨after, restored, changes, saved⟩
    refine ⟨rounds, left, after, looped.further restored, visits, ?_, ?_, only.trans changes, saved⟩
    · intro unbroken
      have counted := visits.length_eq unbroken
      rwa [Nat.zero_add] at counted
    · intro position bound breaks
      exact visits.length_of_break ready.placed bound breaks

end ForLoop

/-! ## Loops in a program -/

namespace Program

open ForLoop

variable {program : Program} {options : CompileOptions} {code : Code} {image : Image}

/-- The environment lays out its cells before the global block. -/
theorem place_add_le_globals (compiled : program.compile options = .ok code)
    (assembled : Image.assemble code = .ok image) {name : String} {size : Nat}
    (lays : (Environment.code options.memoryManager).Lays name size) :
    image.place name + size ≤ image.place Cell.globalBlock := by
  rcases compile_eq_ok.mp compiled with ⟨main, mainMade, rfl⟩
  rcases mainCode_eq_ok.mp mainMade with ⟨body, last, _, rfl⟩
  rcases lays with ⟨before, datum, after, environment, width⟩
  rw [environment] at assembled
  have first := @Image.place_of_assemble _ image name assembled
    ((if options.memoryManager then Heap.initialization else []) ++ before)
    (datum :: (after ++ ([.dataLabel Cell.globalBlock, .dataZ program.globalSize,
      .label Entry.main] ++ body ++ [.halt] ++
        if options.memoryManager then Heap.manager else []))) (by simp)
  have second := @Image.place_of_assemble _ image Cell.globalBlock assembled
    ((if options.memoryManager then Heap.initialization else []) ++
      (before ++ .dataLabel name :: datum :: after))
    (.dataZ program.globalSize :: .label Entry.main :: (body ++ [.halt] ++
      if options.memoryManager then Heap.manager else [])) (by simp)
  rw [first, second]
  simp only [Code.dataSize_append, Code.dataSize_cons]
  omega

theorem lays_loopCells {name : String} (member : name ∈ ForLoop.cells) (withDiscard : Bool) :
    (Environment.code withDiscard).Lays name 4 := by
  have listed : ∀ name ∈ bracket.words ++ Ty.storeCells, (name, (4 : Int32)) ∈ Cell.scratch := by
    decide
  rw [ForLoop.cells, ← List.append_assoc] at member
  rcases List.mem_append.mp member with scratch | pointer
  · exact Environment.lays_scratch 4 withDiscard (listed name scratch)
  · apply Environment.lays_pointers withDiscard
    rw [List.mem_singleton.mp pointer]
    exact List.mem_cons_self ..

/-- What loops work in lies below the variables. -/
theorem loop_cells (compiled : program.compile options = .ok code)
    (assembled : Image.assemble code = .ok image) (fits : image.dataSize ≤ 2147483647) :
    Cells image.word ForLoop.cells (image.place Cell.globalBlock) := by
  rcases exists_composed compiled with ⟨body, composed⟩
  have globals := Image.place_add_le assembled (Code.lays_of_infix composed.globals)
  have laid : ∀ name ∈ ForLoop.cells, code.Lays name 4 := by
    intro name member
    rcases composed.environment with ⟨withDiscard, before, after, rfl⟩
    exact ((lays_loopCells member withDiscard).right before).left after
  have cells := Image.cells_of_assemble assembled laid (Nat.le_refl _) (by omega)
  refine { cells with below := fun name member => ?_ }
  have below := place_add_le_globals compiled assembled (lays_loopCells member _)
  rwa [Image.index_word assembled (laid name member) (by omega)]

/-- A loop in a program has what it relies on. -/
theorem loop_ready {surroundings : Surroundings} {kind : ForKind} {binding : Binding}
    {sequence : Expr} {body : List Statement} {last next : Nat} {start : Configuration}
    {place : Nat} {parts : Parts} (compiled : program.compile options = .ok code)
    (assembled : Image.assemble code = .ok image) (addressable : image.Addressable)
    (fits : image.dataSize ≤ 2147483647)
    (made : parts.Made surroundings kind binding sequence body last next)
    (applies : kind.Applies binding.type sequence.type) (holds : image.Holds parts.code start.pc)
    (lies : binding.Lies image start.memory place) :
    Ready image ⟨parts, kind, binding, place, start⟩ := by
  rcases exists_composed compiled with ⟨main, composed⟩
  rcases (composed.prepared assembled addressable fits).labelled_handler .nullArray with
    ⟨handler, marks, _⟩
  have above := lies.above
  have inside := lies.inside
  exact
    { addressable
      cells := loop_cells compiled assembled fits
      fault := ⟨handler, marks⟩
      placed := placed_of_holds holds
      inside := show image.place Cell.globalBlock ≤ start.memory.size by omega
      lies
      address := made.address
      current := made.current
      store := made.store
      suits := SequenceLayout.suits_of_applies made.layout applies }

/-- A loop over a sequence visits the positions of its record in order. The sequence is evaluated
once, and between that and the runs of the body nothing of either is executed. A run of the body
begins with the variable set to the position or to the element that the record has then; it is
followed by the run for the next position, unless it ends in a break. The words of loops and the
operand stack are in the end what they were. A null sequence is a fault before the first run. -/
theorem for_loop_visits {surroundings : Surroundings} {kind : ForKind} {binding : Binding}
    {sequence : Expr} {body : List Statement} {last next : Nat} {expansion : Code}
    {limit : Option Nat} {start : Configuration} {place : Nat}
    (compiled : program.compile options = .ok code)
    (assembled : Image.assemble code = .ok image) (addressable : image.Addressable)
    (fits : image.dataSize ≤ 2147483647)
    (generated : (Statement.for kind binding sequence body).code surroundings last =
      .ok (expansion, next))
    (applies : kind.Applies binding.type sequence.type) (holds : image.Holds expansion start.pc)
    (lies : binding.Lies image start.memory place) :
    ∃ parts : Parts, parts.Made surroundings kind binding sequence body last next ∧
      parts.code = expansion ∧
      Site.Iterates image limit ⟨parts, kind, binding, place, start⟩ := by
  rcases Parts.exists_made generated with ⟨parts, made, rfl⟩
  exact ⟨parts, made, rfl,
    (loop_ready compiled assembled addressable fits made applies holds lies).iterates⟩

/-- A variable for an array, and one that goes through its elements. -/
def visitedArray : Binding := ⟨"numbers", .array .integer, .global 0, false⟩

def visitor : Binding := ⟨"number", .integer, .global 4, true⟩

def visitedValue : Expr := .typed .integer (.identifier visitor)

/-- A loop that sets its variable to seven in each run of the body. -/
def visiting : Statement :=
  .for .element visitor (.typed (.array .integer) (.identifier visitedArray))
    [.assignment visitedValue (.typed .integer (.integer 7))]

def visitingTwo : Program where
  globalSize := 8
  body := [visiting]

def overwriting : Code :=
  [.pushD Cell.globalBlock, .pushI 4, .add, .pushI 7, .storeI]

theorem exists_visiting_image :
    ∃ code image expansion next pc, visitingTwo.compile ⟨true⟩ = .ok code ∧
      Image.assemble code = .ok image ∧ image.Addressable ∧ image.dataSize ≤ 65536 ∧
      visiting.code {} 0 = .ok (expansion, next) ∧ image.Holds expansion pc ∧
      Address.Names (image.word Cell.globalBlock) (image.place Cell.globalBlock) ∧
      image.place Cell.globalBlock + 8 ≤ image.dataSize := by
  have plain : Plain visitingTwo.operations := by
    simp [Plain, visitingTwo, visiting, visitedValue, operations, blockOperations,
      Statement.operations, Expr.operations, Form.operations]
  rcases exists_body_image (by decide +kernel) plain (by decide) with
    ⟨code, image, body, last, pc, compiled, assembled, addressable, fits, made, holds⟩
  rcases blockCode_cons.mp made with ⟨expansion, _, _, generated, none, rfl⟩
  rcases blockCode_nil.mp none with ⟨rfl, rfl⟩
  rcases exists_composed compiled with ⟨_, composed⟩
  have laid := (composed.prepared assembled addressable (by omega)).lays_globals
  have inside := Image.place_add_le assembled laid
  exact ⟨code, image, expansion, _, _, compiled, assembled, addressable, fits, generated,
    (Image.holds_append.mp holds).1, Image.names_place assembled laid (by omega), inside⟩

/-- The memory has an array of two numbers, which the variable is for. -/
structure HoldsTwo (image : Image) (memory : Memory) : Prop where
  size : memory.size = 131072
  pointer : memory.word (image.place Cell.globalBlock) = 100000
  length : memory.word 100012 = 2

theorem exists_holdsTwo {image : Image} (fits : image.dataSize ≤ 65536)
    (inside : image.place Cell.globalBlock + 8 ≤ image.dataSize) :
    ∃ memory, HoldsTwo image memory := by
  have size : (Memory.zeros 131072).size = 131072 := rfl
  generalize Memory.zeros 131072 = memory at size
  refine ⟨(memory.setWord 100012 2).setWord (image.place Cell.globalBlock) 100000, ?_, ?_, ?_⟩
  · simpa only [Memory.size_setWord] using size
  · exact Memory.word_setWord (by rw [Memory.size_setWord]; omega) _
  · rw [Memory.word_setWord_of_apart (.inr (by omega))]
    exact Memory.word_setWord (by omega) _

theorem visitor_lies {image : Image} {memory : Memory} (holdsTwo : HoldsTwo image memory)
    (fits : image.dataSize ≤ 65536)
    (named : Address.Names (image.word Cell.globalBlock) (image.place Cell.globalBlock))
    (inside : image.place Cell.globalBlock + 8 ≤ image.dataSize) :
    visitor.Lies image memory (image.place Cell.globalBlock + 4) := by
  have size := holdsTwo.size
  constructor
  · apply named.add
    · rfl
    · omega
  · exact Nat.le_add_right ..
  · change _ + 4 + 4 ≤ _
    omega
  · change _ + 4 + 4 < _
    omega

theorem made_visiting {parts : Parts} {last next : Nat} (made : parts.Made {} .element visitor
      (.typed (.array .integer) (.identifier visitedArray))
      [.assignment visitedValue (.typed .integer (.integer 7))] last next) :
    parts.layout = ⟨16, 12, 4⟩ ∧ parts.body = overwriting ∧
      parts.sequence = [.pushD Cell.globalBlock, .pushI 0, .add, .loadI] := by
  rcases made.evaluated with ⟨middle, sequence, body⟩
  have laid : SequenceLayout.mk 16 12 4 = parts.layout := Except.ok.inj made.layout
  have sequenceCode : ([.pushD Cell.globalBlock, .pushI 0, .add, .loadI], last + 1) =
      (parts.sequence, middle) := Except.ok.inj sequence
  have bodyCode : (overwriting, middle) = (parts.body, next) := Except.ok.inj body
  exact ⟨laid.symm, (congrArg Prod.fst bodyCode).symm, (congrArg Prod.fst sequenceCode).symm⟩

/-- The words of loops are not in the record. -/
theorem two_described {image : Image} {site : ForLoop.Site} (ready : Ready image site)
    (holdsTwo : HoldsTwo image site.start.memory) (fits : image.place Cell.globalBlock ≤ 65536)
    (laid : site.parts.layout = ⟨16, 12, 4⟩) :
    site.parts.layout.Describes image (site.entered image).memory 100000 100000 2 := by
  have size : (site.entered image).memory.size = 131072 :=
    (Memory.size_setCell ..).trans holdsTwo.size
  have member : Cell.forIdentifier ∈ cells := by decide
  have length : (site.entered image).memory.word 100012 = 2 :=
    (ready.cells.word_setCell member (by omega)).trans holdsTwo.length
  rw [laid]
  constructor
  · rfl
  · change Address.Names ((site.entered image).memory.word 100012) 2
    rw [length]
    rfl
  · change 100024 ≤ _
    omega
  · decide
  · intro name member
    left
    have below := ready.cells.below name (bracket_known name member)
    omega

/-- The sequence of the loop is evaluated to the pointer. -/
theorem visited_evaluates {image : Image} {site : ForLoop.Site} (ready : Ready image site)
    (holdsTwo : HoldsTwo image site.start.memory) (fits : image.place Cell.globalBlock ≤ 65536)
    (code : site.parts.sequence = [.pushD Cell.globalBlock, .pushI 0, .add, .loadI])
    (named : Address.Names (image.word Cell.globalBlock) (image.place Cell.globalBlock)) :
    Evaluates image none site 100000
      ⟨site.parts.checkPlace site.start.pc, .integer 100000 :: site.stack image,
        (site.entered image).memory, site.start.output⟩ := by
  have size : (site.entered image).memory.size = 131072 :=
    (Memory.size_setCell ..).trans holdsTwo.size
  have member : Cell.forIdentifier ∈ cells := by decide
  have pointer : (site.entered image).memory.word (image.place Cell.globalBlock) = 100000 :=
    (ready.cells.word_setCell member (Nat.le_refl _)).trans holdsTwo.pointer
  have acts : Code.act image.word site.parts.sequence (site.stack image)
      (site.entered image).memory =
        some (.integer 100000 :: site.stack image, (site.entered image).memory) := by
    rw [code, Code.act_pushD, Code.act_pushI, Code.act_add, Int32.add_zero,
      Code.act_loadAt named (by omega), pointer, Code.act_nil]
  have runs : RunsWhile image none (fun configuration => ¬ (configuration.pc =
      site.parts.checkPlace site.start.pc ∧ configuration.stack.tail = site.stack image))
      ⟨_, _, _, (site.entered image).output⟩ ⟨_, _, _, _⟩ :=
    .straight ready.placed.sequence acts fun place _ upper _ _ _ reached =>
      Nat.ne_of_lt upper reached.1
  constructor
  · exact ⟨runs, rfl, rfl⟩
  · rfl
  · exact Steady.refl _

/-- The body of the loop sets the variable and is left at its end. -/
theorem overwrites {image : Image} {site : ForLoop.Site} (ready : Ready image site)
    (binding : site.binding = visitor) (code : site.parts.body = overwriting)
    (named : Address.Names (image.word Cell.globalBlock + 4) site.place) {base index : Nat}
    {before entry : Configuration} (opens : Opens image site base index before entry) :
    ∃ left, left.pc = site.parts.continuePlace site.start.pc ∧
      RunsUntil image none (site.Exits image) entry left ∧
      Steady image.word bracket.words (fun _ => False) entry.memory left.memory := by
  rcases entry with ⟨pc, stack, memory, output⟩
  rcases opens with ⟨rfl, rfl, _, size, _, _⟩
  have above := ready.lies.above
  have inside := ready.lies.inside
  rw [binding] at inside
  have room : site.place + 4 ≤ memory.size := by
    rw [size]
    exact inside
  have acts : Code.act image.word site.parts.body (site.stack image) memory =
      some (site.stack image, memory.setWord site.place 7) := by
    rw [code, overwriting, Code.act_pushD, Code.act_pushI, Code.act_add, Code.act_pushI,
      Code.act_setWord named room, Code.act_nil]
  have inner (place : Nat) (upper : place < site.parts.bodyPlace site.start.pc +
      site.parts.body.size) (stack : List Word) (memory : Memory) (output : ByteArray) :
      ¬ site.Exits image ⟨place, stack, memory, output⟩ := by
    rintro ⟨continues | ends, _⟩
    · have same : place = site.parts.continuePlace site.start.pc :=
        continues.unique ready.placed.continues
      unfold Parts.continuePlace at same
      omega
    · have same : place = site.parts.endPlace site.start.pc := ends.unique ready.placed.ends
      unfold Parts.endPlace Parts.continuePlace at same
      omega
  have runs : RunsWhile image none (fun configuration => ¬ site.Exits image configuration)
      ⟨_, _, _, output⟩ ⟨_, _, _, _⟩ :=
    .straight ready.placed.body acts fun place _ upper => inner place upper
  refine ⟨_, rfl, ⟨runs, .inl ready.placed.continues, rfl⟩, ?_⟩
  constructor
  · exact Memory.size_setWord ..
  · intro name member
    exact ready.cells.cell_setWord (bracket_known name member) above
  · exact fun _ absurd => absurd.elim

/-- The loop over two numbers runs its body twice, although the body sets the variable. -/
theorem two_visited :
    ∃ code image expansion next pc memory, ∃ parts : Parts, ∃ runs : List Excursion,
      ∃ place evaluated left after,
      visitingTwo.compile ⟨true⟩ = .ok code ∧ Image.assemble code = .ok image ∧
      visiting.code {} 0 = .ok (expansion, next) ∧ parts.code = expansion ∧
      image.Holds expansion pc ∧ HoldsTwo image memory ∧ runs.length = 2 ∧
      Completed image none ⟨parts, .element, visitor, place, ⟨pc, [], memory, .empty⟩⟩ 100000 2
        evaluated runs left after := by
  rcases exists_visiting_image with ⟨code, image, expansion, next, pc, compiled, assembled,
    addressable, small, generated, holds, named, inside⟩
  rcases exists_holdsTwo small inside with ⟨memory, holdsTwo⟩
  have fits : image.dataSize ≤ 2147483647 := by omega
  have low : image.place Cell.globalBlock ≤ 65536 := by omega
  have applies : ForKind.Applies .element visitor.type (.array .integer) := .inl rfl
  have lies := visitor_lies holdsTwo small named inside
  rcases @for_loop_visits _ _ _ _ _ _ _ _ _ _ _ _ none ⟨pc, [], memory, .empty⟩ _ compiled assembled
    addressable fits generated applies holds lies with ⟨parts, made, rfl, iterates⟩
  have ready : Ready image ⟨parts, .element, visitor, _, ⟨pc, [], memory, .empty⟩⟩ :=
    loop_ready compiled assembled addressable fits made applies holds lies
  rcases made_visiting made with ⟨laid, body, sequence⟩
  rcases (iterates _ _ (visited_evaluates ready holdsTwo low sequence named)).2 100000 2
    (by decide) (two_described ready holdsTwo low laid) (by
      intro rounds index before entry tour opens
      rcases overwrites ready rfl body lies.names opens with ⟨left, _, once, words⟩
      exact ⟨left, once, words⟩) with ⟨runs, left, after, completed⟩
  refine ⟨code, image, parts.code, next, pc, memory, parts, runs, _, _, left, after, compiled,
    assembled, generated, rfl, holds, holdsTwo, ?_, completed⟩
  apply completed.unbroken
  intro run member breaks
  rcases completed.rounds.exists_round member with ⟨index, before, round⟩
  rcases overwrites ready rfl body lies.names round.opens with ⟨finish, continues, once, _⟩
  rw [round.once.unique once] at breaks
  have same := continues.symm.trans (breaks.unique ready.placed.ends)
  unfold Parts.endPlace at same
  omega

end Program

end StackBackend
