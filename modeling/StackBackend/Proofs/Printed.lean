import StackBackend.Proofs.Blocks
import StackBackend.Proofs.Evaluation
import StackBackend.Proofs.Linking
import StackBackend.Proofs.Loading

namespace StackBackend

/-! Runs that print. The formats and texts of print statements, and the messages of
faults, are cells that hold zero-terminated texts. -/

/-! ## Output -/

/-- Output with more bytes at its end. -/
def written (output : ByteArray) (bytes : List UInt8) : ByteArray :=
  bytes.foldl ByteArray.push output

@[simp] theorem written_nil (output : ByteArray) : written output [] = output := rfl

theorem written_append (output : ByteArray) (first second : List UInt8) :
    written output (first ++ second) = written (written output first) second :=
  List.foldl_append

theorem toList_data_written (output : ByteArray) (bytes : List UInt8) :
    (written output bytes).data.toList = output.data.toList ++ bytes := by
  induction bytes generalizing output with
  | nil => simp
  | cons byte rest induction =>
      have pushed : (output.push byte).data.toList = output.data.toList ++ [byte] :=
        Array.toList_push
      rw [written, List.foldl_cons, ← written, induction, pushed, List.append_assoc]
      rfl

/-! ## Texts in memory -/

namespace Memory

/-- A zero-terminated text stands in memory. -/
structure Spells (memory : Memory) (index : Nat) (text : List UInt8) : Prop where
  content : memory.read index (text.length + 1) = text ++ [0]
  noZero : 0 ∉ text
  inside : index + text.length < memory.size

theorem Spells.congr {before after : Memory} {index : Nat} {text : List UInt8}
    (spells : before.Spells index text) (size : after.size = before.size)
    (same : ∀ other, index ≤ other → other < index + (text.length + 1) →
      after.byte other = before.byte other) : after.Spells index text :=
  ⟨by rw [read_congr same, spells.content], spells.noZero, size ▸ spells.inside⟩

/-- A word on the operand stack that a conversion can take, and the argument it stands for. -/
inductive Supplies (memory : Memory) : Conversion → Word → Argument → Prop
  | integer (value : Int32) : Supplies memory .integer (.integer value) (.integer value)
  | floating (value : Binary64) : Supplies memory .floating (.floating value) (.floating value)
  | character (value : Int32) : Supplies memory .character (.integer value) (.integer value)
  | string {address : Int32} {index : Nat} {text : List UInt8}
      (names : Address.Names address index) (spells : memory.Spells index text) :
      Supplies memory .string (.integer address) (.string text)

/-- One word for each conversion, in the order of the conversions. -/
inductive Supplied (memory : Memory) : List Conversion → List Word → List Argument → Prop
  | nothing : Supplied memory [] [] []
  | more {conversion word argument conversions words arguments}
      (first : memory.Supplies conversion word argument)
      (others : Supplied memory conversions words arguments) :
      Supplied memory (conversion :: conversions) (word :: words) (argument :: arguments)

end Memory

namespace Effect

variable {pc : Nat} {stack : List Word} {memory : Memory} {output : ByteArray} {steps : Nat}

theorem popInteger_eq (value : Int32) :
    popInteger ⟨pc, .integer value :: stack, memory, output, steps⟩ =
      .ok value ⟨pc, stack, memory, output, steps⟩ := rfl

theorem loadText_eq {state : State} {address : Int32} {index : Nat} {text : List UInt8}
    (names : Address.Names address index) (spells : state.memory.Spells index text) :
    loadText address state = .ok text state := by
  have inside := spells.inside
  have found : state.memory.index? address 1 = some index :=
    Memory.index?_eq_some.mpr ⟨names, by omega⟩
  have read := Memory.terminated?_of_read spells.content spells.noZero inside
  simp only [loadText, found, read]

/-- Taking arguments for the conversions pops some words and does nothing else. -/
def Takes (memory : Memory) (stack : List Word) (conversions : List Conversion)
    (arguments : List Argument) (rest : List Word) : Prop :=
  ∀ pc output steps, Effect.arguments [] conversions.reverse ⟨pc, stack, memory, output, steps⟩ =
    .ok arguments ⟨pc, rest, memory, output, steps⟩

theorem argument_eq {conversion : Conversion} {word : Word} {taken : Argument}
    (supplies : memory.Supplies conversion word taken) :
    argument conversion ⟨pc, word :: stack, memory, output, steps⟩ =
      .ok taken ⟨pc, stack, memory, output, steps⟩ := by
  cases supplies with
  | integer | floating | character => rfl
  | @string address _ text names spells =>
      have found : loadText address ⟨pc, stack, memory, output, steps⟩ =
          .ok text ⟨pc, stack, memory, output, steps⟩ := loadText_eq names spells
      simp [argument, bind, EStateM.bind, popInteger_eq, found, pure, EStateM.pure]

theorem arguments_append (taken : List Argument) (first second : List Conversion) :
    arguments taken (first ++ second) =
      (do arguments (← arguments taken first) second) := by
  induction first generalizing taken with
  | nil => rfl
  | cons conversion first induction =>
      simp only [List.cons_append, arguments, induction, bind_assoc]

/-- Words are taken from the top, the one for the last conversion first. -/
theorem arguments_eq {conversions : List Conversion} {words : List Word}
    {supply : List Argument} (supplied : memory.Supplied conversions words supply)
    (taken : List Argument) (rest : List Word) :
    arguments taken conversions.reverse ⟨pc, words.reverse ++ rest, memory, output, steps⟩ =
      .ok (supply ++ taken) ⟨pc, rest, memory, output, steps⟩ := by
  induction supplied generalizing rest with
  | nothing => rfl
  | @more conversion word argument _ words _ first _ induction =>
      rw [List.reverse_cons, List.reverse_cons, List.append_assoc, arguments_append]
      simp [arguments, bind, EStateM.bind, induction, argument_eq first, pure, EStateM.pure]

theorem takes_of_supplied {conversions : List Conversion} {words : List Word}
    {supply : List Argument} (supplied : memory.Supplied conversions words supply) :
    Takes memory (words.reverse ++ stack) conversions supply stack := by
  intro pc output steps
  simpa using arguments_eq supplied [] stack

theorem takes_nothing : Takes memory stack [] [] stack :=
  takes_of_supplied .nothing

theorem takes_integer (value : Int32) :
    Takes memory (.integer value :: stack) [.integer] [.integer value] stack :=
  takes_of_supplied (.more (.integer value) .nothing)

theorem takes_character (value : Int32) :
    Takes memory (.integer value :: stack) [.character] [.integer value] stack :=
  takes_of_supplied (.more (.character value) .nothing)

theorem takes_string {address : Int32} {index : Nat} {text : List UInt8}
    (names : Address.Names address index) (spells : memory.Spells index text) :
    Takes memory (.integer address :: stack) [.string] [.string text] stack :=
  takes_of_supplied (.more (.string names spells) .nothing)

/-- Printing takes the arguments and writes the rendered format. -/
theorem printFormatted_write {limit : Option Nat} {address : Int32} {index : Nat}
    {format : List UInt8} {arguments : List Argument} {rest : List Word}
    (names : Address.Names address index) (spells : memory.Spells index format)
    (takes : Takes memory stack (Format.conversions format) arguments rest) :
    printFormatted limit ⟨pc, .integer address :: stack, memory, output, steps⟩ =
      write limit (Format.render format arguments) ⟨pc, rest, memory, output, steps⟩ := by
  have found : loadText address ⟨pc, stack, memory, output, steps⟩ =
      .ok format ⟨pc, stack, memory, output, steps⟩ := loadText_eq names spells
  simp [printFormatted, bind, EStateM.bind, popInteger_eq, found, takes pc output steps]

theorem printFormatted_eq {address : Int32} {index : Nat} {format : List UInt8}
    {arguments : List Argument} {rest : List Word} (names : Address.Names address index)
    (spells : memory.Spells index format)
    (takes : Takes memory stack (Format.conversions format) arguments rest) :
    printFormatted none ⟨pc, .integer address :: stack, memory, output, steps⟩ =
      .ok () ⟨pc, rest, memory, written output (Format.render format arguments), steps⟩ :=
  printFormatted_write names spells takes

end Effect

/-! ## Print instructions -/

namespace Runs

variable {image : Image} {pc index : Nat} {stack rest : List Word} {memory : Memory}
  {output : ByteArray} {after : Code} {format : List UInt8} {arguments : List Argument}

theorem printf {address : Int32} (holds : image.Holds (.printf :: after) pc)
    (names : Address.Names address index) (spells : memory.Spells index format)
    (takes : Effect.Takes memory stack (Format.conversions format) arguments rest) :
    Runs image none ⟨pc, .integer address :: stack, memory, output⟩
      ⟨pc + 1, rest, memory, written output (Format.render format arguments)⟩ := by
  refine single (Configuration.next_of_execute ((Image.holds_cons rfl _ _).mp holds).1
    fun steps => ?_)
  have prints : Effect.printFormatted none
      ⟨pc + 1, .integer address :: stack, memory, output, steps⟩ = _ :=
    Effect.printFormatted_eq names spells takes
  simp [Placed.execute, bind, EStateM.bind, prints, pure, EStateM.pure, Configuration.state]

/-- Prints through the format in a cell. -/
theorem printText {cell : String} (holds : image.Holds (Printing.printText cell ++ after) pc)
    (names : Address.Names (image.word cell) index) (spells : memory.Spells index format)
    (takes : Effect.Takes memory stack (Format.conversions format) arguments rest) :
    Runs image none ⟨pc, stack, memory, output⟩
      ⟨pc + 2, rest, memory, written output (Format.render format arguments)⟩ := by
  have parts : image.Holds ([.pushD cell] ++ .printf :: after) pc := holds
  obtain ⟨pushed, printed⟩ := Image.holds_append.mp parts
  have pushes : Runs image none ⟨pc, stack, memory, output⟩
      ⟨pc + 1, .integer (image.word cell) :: stack, memory, output⟩ := straight pushed (by simp)
  exact pushes.trans (printf printed names spells takes)

end Runs

/-! ## Cells with texts -/

namespace Environment

/-- The cells that hold texts, and the texts. -/
def texts : List (String × String) :=
  Cell.texts ++ (generalFaultFormat, "Runtime error: %s\n") ::
    Fault.all.map fun fault => (fault.messageCell, fault.message)

theorem infix_faultHandlers (withDiscard : Bool) : faultHandlers <:+: code withDiscard :=
  List.infix_of_mem_flatten (by simp)

theorem infix_faultHandler (fault : Fault) : faultHandler fault <:+: faultHandlers :=
  (List.infix_of_mem_flatten (List.mem_map_of_mem fault.mem_all)).trans
    (List.suffix_append _ _).isInfix

theorem infix_text {cell text : String} (member : (cell, text) ∈ texts) (withDiscard : Bool) :
    [.dataLabel cell, .dataS text] <:+: code withDiscard := by
  simp only [texts, List.mem_append, List.mem_cons, List.mem_map, Prod.mk.injEq] at member
  obtain member | ⟨rfl, rfl⟩ | ⟨fault, _, rfl, rfl⟩ := member
  · have piece : [Instruction.dataLabel cell, .dataS text] <:+:
        Cell.texts.flatMap fun cell => [.dataLabel cell.1, .dataS cell.2] :=
      List.infix_of_mem_flatten (List.mem_map.mpr ⟨(cell, text), member, rfl⟩)
    exact piece.trans (List.infix_of_mem_flatten (by simp))
  · have piece : [.dataLabel generalFaultFormat, .dataS "Runtime error: %s\n"] <:+:
        faultHandlers := List.IsPrefix.isInfix ⟨_, rfl⟩
    exact piece.trans (infix_faultHandlers withDiscard)
  · have piece : [.dataLabel fault.messageCell, .dataS fault.message] <:+: faultHandler fault :=
      List.IsPrefix.isInfix ⟨_, rfl⟩
    exact (piece.trans (infix_faultHandler fault)).trans (infix_faultHandlers withDiscard)

theorem noZero_text : ∀ entry ∈ texts, (0 : UInt8) ∉ entry.2.toUTF8.toList := by
  decide +kernel

end Environment

/-- An image with the environment of programs and a global block. -/
structure Prepared (code : Code) (image : Image) (size : Int32) : Prop where
  assembled : Image.assemble code = .ok image
  addressable : image.Addressable
  fits : image.dataSize ≤ 2147483647
  environment : ∃ withDiscard, Environment.code withDiscard <:+: code
  globals : [.dataLabel Cell.globalBlock, .dataZ size] <:+: code

namespace Prepared

variable {code : Code} {image : Image} {size : Int32}

theorem names_place (prepared : Prepared code image size) {name : String} {width : Nat}
    (lays : code.Lays name width) : Address.Names (image.word name) (image.place name) :=
  Image.names_place prepared.assembled lays (by
    have inside := Image.place_add_le prepared.assembled lays
    have fits := prepared.fits
    omega)

theorem lays_scratch (prepared : Prepared code image size) {name : String}
    (scratch : (name, (4 : Int32)) ∈ Cell.scratch) : code.Lays name 4 := by
  obtain ⟨withDiscard, before, after, rfl⟩ := prepared.environment
  exact ((Environment.lays_scratch 4 withDiscard scratch).right before).left after

/-- Scratch words are cells. -/
theorem scratch_cells (prepared : Prepared code image size) {names : List String}
    (scratch : ∀ name ∈ names, (name, (4 : Int32)) ∈ Cell.scratch) :
    Cells image.word names image.dataSize :=
  Image.cells_of_assemble prepared.assembled
    (fun name member => prepared.lays_scratch (scratch name member)) (Nat.le_refl _) (by
      have fits := prepared.fits
      omega)

/-- What is part of every environment is part of the code. -/
theorem infix_part (prepared : Prepared code image size) {part : Code}
    (within : ∀ withDiscard, part <:+: Environment.code withDiscard) : part <:+: code := by
  obtain ⟨withDiscard, environment⟩ := prepared.environment
  exact (within withDiscard).trans environment

/-- A routine of the environment stands in the image, and the cells in front of it are apart. -/
theorem routine_stands (prepared : Prepared code image size) {names : List String}
    {pieces : List Code}
    (within : ∀ withDiscard,
      Code.join (Environment.wordCells names :: pieces) <:+: Environment.code withDiscard) :
    (∀ name ∈ names, code.Lays name 4) ∧ Cells image.word names image.dataSize ∧
      ∃ position, image.Holds (Code.join (Environment.wordCells names :: pieces)) position := by
  have part := prepared.infix_part within
  have lays : ∀ name ∈ names, code.Lays name 4 := by
    intro name member
    obtain ⟨before, after, same⟩ := part
    have laid : (Code.join (Environment.wordCells names :: pieces)).Lays name 4 :=
      (Environment.lays_wordCells member).join List.mem_cons_self
    exact same ▸ (laid.right before).left after
  have fits := prepared.fits
  exact ⟨lays, Image.cells_of_assemble prepared.assembled lays (Nat.le_refl _) (by omega),
    Image.exists_holds_of_infix prepared.assembled part⟩

theorem infix_text (prepared : Prepared code image size) {cell text : String}
    (member : (cell, text) ∈ Environment.texts) : [.dataLabel cell, .dataS text] <:+: code :=
  prepared.infix_part (Environment.infix_text member)

theorem lays_text (prepared : Prepared code image size) {cell text : String}
    (member : (cell, text) ∈ Environment.texts) :
    code.Lays cell (text.toUTF8.toList.length + 1) := by
  have lays := Code.lays_of_infix (prepared.infix_text member)
  simpa [Instruction.dataSize, Instruction.datum?, Datum.size] using lays

end Prepared

/-- The memory holds the texts of the environment. -/
def Texts (image : Image) (memory : Memory) : Prop :=
  ∀ cell text, (cell, text) ∈ Environment.texts →
    memory.Spells (image.place cell) text.toUTF8.toList

namespace Texts

variable {code : Code} {image : Image} {size : Int32}

theorem initial (prepared : Prepared code image size) {memorySize : Nat}
    (room : image.dataSize ≤ memorySize) :
    Texts image (image.initialState memorySize).memory := by
  intro cell text member
  have inside := Image.place_add_le prepared.assembled (prepared.lays_text member)
  have content := Image.read_initialState prepared.assembled (prepared.infix_text member) rfl
    (fun _ same => nomatch same) room
  have memory := image.size_initialState memorySize
  refine ⟨?_, Environment.noZero_text _ member, by omega⟩
  simpa [Datum.size, Datum.content] using content

/-- Writing into another cell keeps the texts. -/
theorem write (prepared : Prepared code image size) {memory : Memory} (texts : Texts image memory)
    {name : String} {width index : Nat} {values : List UInt8} (lays : code.Lays name width)
    (other : name ∉ Environment.texts.map Prod.fst) (lower : image.place name ≤ index)
    (upper : index + values.length ≤ image.place name + width) :
    Texts image (memory.write index values) := by
  intro cell text member
  have different : cell ≠ name := fun same =>
    other (same ▸ List.mem_map.mpr ⟨(cell, text), member, rfl⟩)
  have apart := Image.places_apart prepared.assembled (prepared.lays_text member) lays different
  refine (texts cell text member).congr (Memory.size_write _ _ _) fun other lowerOther upperOther =>
    Memory.byte_write_of_outside _ _ _ _ ?_
  omega

end Texts

/-! ## Fault handlers -/

namespace Prepared

variable {code : Code} {image : Image} {size : Int32}

theorem exists_faultHandlers (prepared : Prepared code image size) :
    ∃ position, image.Holds Environment.faultHandlers position :=
  Image.exists_holds_of_infix prepared.assembled
    (prepared.infix_part Environment.infix_faultHandlers)

theorem labelled_generalFault (prepared : Prepared code image size) :
    image.Labelled Environment.generalFault
      ([.pushD Environment.generalFaultFormat, .printf, .halt] ++
        Fault.all.flatMap Environment.faultHandler) := by
  obtain ⟨position, holds⟩ := prepared.exists_faultHandlers
  have parts : image.Holds ([.dataLabel Environment.generalFaultFormat,
      .dataS "Runtime error: %s\n"] ++ .label Environment.generalFault :: _) position := holds
  exact Image.labelled_of_holds parts

theorem labelled_handler (prepared : Prepared code image size) (fault : Fault) :
    image.Labelled fault.handler [.pushD fault.messageCell, .jump Environment.generalFault] := by
  obtain ⟨position, holds⟩ := Image.exists_holds_of_infix prepared.assembled
    (prepared.infix_part fun withDiscard => (Environment.infix_faultHandler fault).trans
      (Environment.infix_faultHandlers withDiscard))
  have parts : image.Holds ([.dataLabel fault.messageCell, .dataS fault.message] ++
      .label fault.handler :: _) position := holds
  exact Image.labelled_of_holds parts

/-- A handler prints the report of its fault and halts. -/
theorem reports (prepared : Prepared code image size) {memory : Memory}
    (texts : Texts image memory) {fault : Fault} {position : Nat}
    (marks : image.Marks fault.handler position) (stack : List Word) (output : ByteArray) :
    ∃ stop rest, image.Holds (.halt :: rest) stop ∧
      Runs image none ⟨position, stack, memory, output⟩
        ⟨stop, stack, memory, written output (Exit.fault fault).report⟩ := by
  have messageMember : (fault.messageCell, fault.message) ∈ Environment.texts := by
    cases fault <;> simp [Environment.texts, Fault.all]
  have formatMember : (Environment.generalFaultFormat, "Runtime error: %s\n") ∈
      Environment.texts := by simp [Environment.texts]
  obtain ⟨general, generalMarks, generalHolds⟩ := prepared.labelled_generalFault
  have handlerHolds : image.Holds ([.pushD fault.messageCell] ++
      .jump Environment.generalFault :: []) position :=
    (prepared.labelled_handler fault).holds marks
  have toGeneral : Runs image none ⟨position, stack, memory, output⟩
      ⟨general, .integer (image.word fault.messageCell) :: stack, memory, output⟩ :=
    Runs.jumps prepared.addressable handlerHolds (by simp) generalMarks
  have takes : Effect.Takes memory (.integer (image.word fault.messageCell) :: stack)
      (Format.conversions "Runtime error: %s\n".toUTF8.toList)
      [.string fault.message.toUTF8.toList] stack := by
    have conversions : Format.conversions "Runtime error: %s\n".toUTF8.toList = [.string] := by
      decide +kernel
    rw [conversions]
    exact Effect.takes_string (prepared.names_place (prepared.lays_text messageMember))
      (texts _ _ messageMember)
  have render : Format.render "Runtime error: %s\n".toUTF8.toList
      [.string fault.message.toUTF8.toList] = (Exit.fault fault).report := by
    cases fault <;> decide +kernel
  have prints : Runs image none
      ⟨general, .integer (image.word fault.messageCell) :: stack, memory, output⟩
      ⟨general + 2, stack, memory, written output (Exit.fault fault).report⟩ :=
    render ▸ Runs.printText generalHolds (prepared.names_place (prepared.lays_text formatMember))
      (texts _ _ formatMember) takes
  have halts : image.Holds (Printing.printText Environment.generalFaultFormat ++ .halt :: _)
      general := generalHolds
  exact ⟨general + 2, _, (Image.holds_append.mp halts).2, toGeneral.trans prints⟩

end Prepared

end StackBackend
