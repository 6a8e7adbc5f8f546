import StackBackend.Proofs.Assembling
import StackBackend.Proofs.Inscription
import StackBackend.Proofs.Loading

namespace StackBackend

/-! The data segment of a program. It is a row of labelled objects, one right behind the
other: eight bytes that nothing uses, the objects of the environment, the global block,
the string literals of the program wherever they stand in it, and the cells of the heap
manager. The heap begins where they end. -/

open Code

/-! ## Layouts -/

/-- Whether the instruction is a data label or lays out data. -/
def Instruction.isLaid : Instruction → Bool
  | .dataLabel _ => true
  | instruction => instruction.datum?.isSome

namespace Code

/-- The data labels and the data of code. -/
def layout (code : Code) : Code :=
  code.filter Instruction.isLaid

@[simp] theorem layout_nil : layout [] = [] := rfl

@[simp] theorem layout_append (first second : Code) :
    layout (first ++ second) = layout first ++ layout second :=
  List.filter_append ..

/-- All data is part of the inscription. -/
theorem layout_inscription (code : Code) : layout code.inscription = layout code := by
  have known : ∀ instruction : Instruction,
      (instruction.isLaid && instruction.isInscribed) = instruction.isLaid := by
    intro instruction
    cases instruction <;> rfl
  rw [layout, inscription, List.filter_filter]
  exact List.filter_congr fun instruction _ => known instruction

theorem filterMap_datum?_layout (code : Code) :
    (layout code).filterMap Instruction.datum? = code.filterMap Instruction.datum? := by
  have laid : ∀ instruction : Instruction,
      (if instruction.isLaid then instruction.datum? else none) = instruction.datum? := by
    intro instruction
    cases instruction <;> rfl
  simp only [layout, List.filterMap_filter, laid]

theorem dataSize_layout (code : Code) : (layout code).dataSize = code.dataSize := by
  rw [← total_filterMap_datum?, filterMap_datum?_layout, total_filterMap_datum?]

/-- The bytes of the data of code, when none of it names a label. -/
def dataBytes (code : Code) : List UInt8 :=
  (code.filterMap Instruction.datum?).flatMap Datum.content

@[simp] theorem dataBytes_append (first second : Code) :
    dataBytes (first ++ second) = dataBytes first ++ dataBytes second := by
  simp [dataBytes]

theorem dataBytes_layout (code : Code) : (layout code).dataBytes = code.dataBytes := by
  rw [dataBytes, filterMap_datum?_layout, dataBytes]

theorem length_dataBytes (code : Code) : code.dataBytes.length = code.dataSize := by
  rw [← total_filterMap_datum?, dataBytes]
  induction code.filterMap Instruction.datum? with
  | nil => rfl
  | cons datum rest induction =>
      rw [List.flatMap_cons, List.length_append, induction, Datum.length_content, Datum.total_cons]

end Code

/-! ## Objects -/

/-- A data label and the directives that lay out what it names. -/
structure DataObject where
  name : String
  data : Code

namespace DataObject

def code (object : DataObject) : Code :=
  .dataLabel object.name :: object.data

def bytes (object : DataObject) : List UInt8 :=
  object.data.dataBytes

theorem dataBytes_code (objects : List DataObject) :
    Code.dataBytes (objects.flatMap code) = objects.flatMap bytes := by
  induction objects with
  | nil => rfl
  | cons object rest induction =>
      rw [List.flatMap_cons, List.flatMap_cons, dataBytes_append, induction]
      rfl

end DataObject

/-! ## Objects in an image -/

namespace Image

variable {code : Code} {image : Image}

/-- Data that names no label is in the image as it was laid out. -/
theorem dataSegment_of_assemble (assembled : assemble code = .ok image)
    (fixed : ∀ label, .dataD label ∉ code) : image.dataSegment = code.dataBytes := by
  obtain ⟨placement, made⟩ := assembled_of_assemble assembled
  have data : placement.data.toList = code.filterMap Instruction.datum? := by
    simpa [Placement.empty] using Placement.data_extend made.placed
  have known : ∀ datum ∈ code.filterMap Instruction.datum?,
      placement.resolveDatum datum = .ok datum := by
    intro datum member
    obtain ⟨instruction, inCode, laid⟩ := List.mem_filterMap.mp member
    cases datum with
    | reference label =>
        have directive : instruction = .dataD label := by
          cases instruction <;> cases laid
          rfl
        exact absurd (directive ▸ inCode) (fixed label)
    | bytes content => rfl
    | zeros count => rfl
  have resolved := made.data
  rw [data] at resolved
  have unchanged : ∀ pieces : List Datum, (∀ datum ∈ pieces,
      placement.resolveDatum datum = .ok datum) →
      pieces.mapM placement.resolveDatum = .ok pieces := by
    intro pieces all
    induction pieces with
    | nil => rfl
    | cons datum rest induction =>
        rw [List.mapM_cons, all datum (by simp),
          induction fun other member => all other (by simp [member])]
        rfl
  rw [unchanged _ known] at resolved
  rw [dataSegment, ← Except.ok.inj resolved, dataBytes]

/-- The objects stand in the data segment from the address on, each right behind the one
before it. -/
def LinesUp (image : Image) : Nat → List DataObject → Prop
  | _, [] => True
  | address, object :: rest =>
      image.dataAddress? object.name = some address ∧
        object.bytes <+: image.dataSegment.drop address ∧
        LinesUp image (address + object.bytes.length) rest

theorem linesUp_of_layout (assembled : assemble code = .ok image)
    (segment : image.dataSegment = code.dataBytes) {objects : List DataObject}
    {before rest : Code} (parts : code = before ++ rest)
    (layout : rest.layout = objects.flatMap DataObject.code) :
    image.LinesUp before.dataSize objects := by
  induction objects generalizing before rest with
  | nil => trivial
  | cons object others induction =>
      -- The label of the object, its data, and what is left for the other objects.
      rw [List.flatMap_cons, DataObject.code, List.cons_append] at layout
      obtain ⟨skipped, after, rfl, silent, _, layout⟩ := List.filter_eq_cons_iff.mp layout
      obtain ⟨own, left, rfl, ownLayout, leftLayout⟩ := List.filter_eq_append_iff.mp layout
      have skippedSize : Code.dataSize skipped = 0 := by
        have none : Code.layout skipped = [] := List.filter_eq_nil_iff.mpr silent
        rw [← dataSize_layout, none]
        rfl
      have ownBytes : Code.dataBytes own = object.bytes := by
        rw [← dataBytes_layout, Code.layout, ownLayout]
        rfl
      have labelled : code = (before ++ skipped) ++ .dataLabel object.name :: (own ++ left) := by
        simp [parts]
      have start : (before ++ skipped).dataSize = before.dataSize := by
        rw [dataSize_append, skippedSize, Nat.add_zero]
      have address := symbol_of_assemble assembled labelled
      rw [start] at address
      refine ⟨by rw [dataAddress?, address], ?_, ?_⟩
      · have bytes : image.dataSegment =
            (before ++ skipped).dataBytes ++ (object.bytes ++ Code.dataBytes left) := by
          rw [segment, labelled, dataBytes_append, ← ownBytes]
          simp [dataBytes, List.filterMap_cons, Instruction.datum?]
        rw [bytes, ← start, ← length_dataBytes, List.drop_left]
        exact List.prefix_append _ _
      · have size : (before ++ skipped ++ .dataLabel object.name :: own).dataSize =
            before.dataSize + object.bytes.length := by
          rw [dataSize_append, start, ← ownBytes, length_dataBytes, dataSize_cons]
          simp [Instruction.dataSize, Instruction.datum?]
        rw [← size]
        exact induction (by simp [labelled]) leftLayout

namespace LinesUp

variable {objects : List DataObject} {start : Nat}

theorem exists_address (linesUp : image.LinesUp start objects) {object : DataObject}
    (member : object ∈ objects) :
    ∃ address, image.dataAddress? object.name = some address ∧ start ≤ address ∧
      address + object.bytes.length ≤ start + (objects.flatMap DataObject.bytes).length ∧
      object.bytes <+: image.dataSegment.drop address := by
  induction objects generalizing start with
  | nil => cases member
  | cons head rest induction =>
      obtain ⟨address, bytes, others⟩ := linesUp
      rw [List.flatMap_cons, List.length_append]
      obtain rfl | member := List.mem_cons.mp member
      · exact ⟨start, address, Nat.le_refl _, by omega, bytes⟩
      · obtain ⟨later, found, above, below, bytes⟩ := induction others member
        exact ⟨later, found, by omega, by omega, bytes⟩

/-- Two objects in the order of the row: the first ends before the second begins. -/
def Apart (image : Image) (first second : DataObject) : Prop :=
  ∃ address later, image.dataAddress? first.name = some address ∧
    image.dataAddress? second.name = some later ∧ address + first.bytes.length ≤ later

theorem pairwise (linesUp : image.LinesUp start objects) : objects.Pairwise (Apart image) := by
  induction objects generalizing start with
  | nil => exact .nil
  | cons object rest induction =>
      obtain ⟨address, _, others⟩ := linesUp
      refine .cons (fun other member => ?_) (induction others)
      obtain ⟨later, found, above, _⟩ := others.exists_address member
      exact ⟨start, later, address, found, above⟩

theorem append {front back : List DataObject} (linesUp : image.LinesUp start (front ++ back)) :
    image.LinesUp start front ∧
      image.LinesUp (start + (front.flatMap DataObject.bytes).length) back := by
  induction front generalizing start with
  | nil => exact ⟨trivial, linesUp⟩
  | cons object rest induction =>
      obtain ⟨address, bytes, others⟩ := linesUp
      obtain ⟨first, second⟩ := induction others
      refine ⟨⟨address, bytes, first⟩, ?_⟩
      rw [List.flatMap_cons, List.length_append, ← Nat.add_assoc]
      exact second

end LinesUp

/-- A data label is defined in the code. -/
theorem dataLabel_of_address (assembled : assemble code = .ok image) {name : String}
    {address : Nat} (found : image.dataAddress? name = some address) :
    .dataLabel name ∈ code := by
  obtain ⟨placement, made⟩ := assembled_of_assemble assembled
  rw [dataAddress?, made.symbols] at found
  by_cases defined : 0 < code.defines name
  · obtain label | dataLabel := defines_pos.mp defined
    · obtain ⟨index, symbol⟩ := Placement.symbol_of_label made.placed label
      rw [symbol] at found
      cases found
    · exact dataLabel
  · have absent := Placement.symbol_of_undefined Std.HashMap.not_mem_empty
      (Nat.eq_zero_of_not_pos defined) made.placed
    rw [Std.HashMap.getElem?_eq_none absent] at found
    cases found

/-- The objects of a program and the heap in its data segment. -/
structure StaticData (image : Image) (objects : List DataObject) : Prop where
  /-- The heap begins where the data ends. -/
  heap : image.dataAddress? Cell.heap = some image.dataSegment.length
  /-- No object reaches into another. -/
  apart : objects.Pairwise (LinesUp.Apart image)
  /-- No object is at address zero, none reaches into the heap, and each is there. -/
  within : ∀ object ∈ objects, ∃ address, image.dataAddress? object.name = some address ∧
    8 ≤ address ∧ address + object.bytes.length ≤ image.dataSegment.length ∧
    object.bytes <+: image.dataSegment.drop address
  /-- Nothing else has a data label, but for the unused bytes and the heap. -/
  complete : ∀ name address, image.dataAddress? name = some address →
    name = Cell.locationZero ∨ name = Cell.heap ∨ ∃ object ∈ objects, object.name = name

end Image

/-! ## The objects of a program -/

namespace DataObject

/-- A word, zero at first. -/
def cell (name : String) : DataObject :=
  ⟨name, [.dataI 0]⟩

/-- A text with a zero byte behind it. -/
def text (name content : String) : DataObject :=
  ⟨name, [.dataS content]⟩

/-- Bytes that are zero at first. -/
def zeros (name : String) (size : Int32) : DataObject :=
  ⟨name, [.dataZ size]⟩

/-- The record of a string literal. -/
def literal (name content : String) : DataObject :=
  ⟨name, (Record.literalData name content).tail⟩

/-- The records of texts, each at its label. -/
def literals (labels texts : List String) : List DataObject :=
  (labels.zip texts).map fun (label, text) => literal label text

/-- No label is named in the data. -/
def Constant (object : DataObject) : Prop :=
  ∀ instruction ∈ object.data, instruction.labelOperand? = none

instance (object : DataObject) : Decidable object.Constant :=
  inferInstanceAs (Decidable (∀ instruction ∈ object.data, instruction.labelOperand? = none))

theorem constant_literal (name content : String) : (literal name content).Constant := by
  simp [Constant, literal, Record.literalData, Instruction.labelOperand?, Instruction.operand]

/-- In the code of such objects only their labels name labels. -/
theorem eq_dataLabel_of_mem {objects : List DataObject}
    (constant : ∀ object ∈ objects, object.Constant) {instruction : Instruction} {name : String}
    (member : instruction ∈ objects.flatMap code)
    (operand : instruction.labelOperand? = some name) :
    ∃ object ∈ objects, instruction = .dataLabel object.name := by
  obtain ⟨object, known, inside⟩ := List.mem_flatMap.mp member
  obtain rfl | inside := List.mem_cons.mp inside
  · exact ⟨object, known, rfl⟩
  · rw [constant object known instruction inside] at operand
    cases operand

theorem bytes_zeros (name : String) (size : Int32) :
    (zeros name size).bytes = List.replicate size.toNatClampNeg 0 := by
  simp [zeros, bytes, dataBytes, Instruction.datum?, Datum.content]

theorem bytes_literal (name content : String) :
    (literal name content).bytes =
      WordBytes.ofInt32 6 ++ WordBytes.ofInt32 0b1001 ++
        WordBytes.ofInt32 (Int32.ofNat content.utf8ByteSize) ++ content.toUTF8.toList ++ [0] := by
  have status : Record.stringLiteralStatus = 0b1001 := by decide
  simp [literal, Record.literalData, bytes, dataBytes, Instruction.datum?, Datum.content,
    Record.stringTypeId, status]

end DataObject

/-- The pointers, printed texts, scratch words, texts of faults and cells of subroutines. -/
def Environment.objects : List DataObject :=
  [Cell.framePointer, Cell.stackPointer].map .cell ++
    Cell.texts.map (fun (label, text) => .text label text) ++
    Cell.scratch.map (fun (label, size) => .zeros label size) ++
    .text generalFaultFormat "Runtime error: %s\n" ::
      Fault.all.map (fun fault => .text fault.messageCell fault.message) ++
    [ClearBytes.returnCell, ClearBytes.countCell, ClearBytes.cursorCell,
      CopyBytes.returnCell, CopyBytes.countCell, CopyBytes.sourceCell, CopyBytes.destinationCell,
      LowestTerms.returnCell, LowestTerms.numeratorCell, LowestTerms.denominatorCell,
      LowestTerms.firstCell, LowestTerms.secondCell].map .cell

theorem Environment.layout_code : (Environment.code true).layout =
    (.zeros Cell.locationZero 8 :: Environment.objects).flatMap DataObject.code := by
  decide +kernel

/-- The heap has a label and no bytes of its own in the data. -/
def Heap.start : DataObject :=
  ⟨Cell.heap, []⟩

theorem Heap.layout_manager : Heap.manager.layout =
    (Heap.cells.map DataObject.cell ++ [Heap.start]).flatMap DataObject.code := by
  decide

theorem Code.Inscribes.exists_literals {literals : List Literal} {code : Code}
    (inscribes : Inscribes literals code) :
    ∃ labels : List String, labels.length = (literals.filterMap Literal.text?).length ∧
      code.layout = (DataObject.literals labels
        (literals.filterMap Literal.text?)).flatMap DataObject.code := by
  induction inscribes with
  | nil => exact ⟨[], rfl, rfl⟩
  | label _ _ induction => exact induction
  | number value _ induction => exact induction
  | text serial text _ induction =>
      obtain ⟨labels, same, layout⟩ := induction
      refine ⟨LabelGroup.label ⟨"string", serial⟩ "literal" :: labels, ?_, ?_⟩
      · simp [Literal.text?, same]
      · rw [layout_append, layout]
        rfl

namespace Program

/-- The data of a program whose string literals have the labels. -/
def objects (program : Program) (labels : List String) : List DataObject :=
  Environment.objects ++ [.zeros Cell.globalBlock program.globalSize] ++
    DataObject.literals labels program.texts ++ Heap.cells.map .cell

/-- The whole row: the unused bytes, the objects, and the start of the heap. -/
def row (program : Program) (labels : List String) : List DataObject :=
  .zeros Cell.locationZero 8 :: (program.objects labels ++ [Heap.start])

variable {program : Program} {code : Code}

theorem exists_layout (plain : Plain program.operations)
    (compiled : program.compile ⟨true⟩ = .ok code) :
    ∃ labels : List String, labels.length = program.texts.length ∧
      code.layout = (program.row labels).flatMap DataObject.code := by
  obtain ⟨main, mainMade, rfl⟩ := compile_eq_ok.mp compiled
  obtain ⟨body, last, made, rfl⟩ := mainCode_eq_ok.mp mainMade
  have inscribes := inscribes_block program.body (fun operation member => (plain operation member).2)
    made
  obtain ⟨labels, same, literals⟩ := inscribes.exists_literals
  rw [layout_inscription] at literals
  refine ⟨labels, same, ?_⟩
  have initialization : Heap.initialization.layout = [] := rfl
  have globals : Code.layout [.dataLabel Cell.globalBlock, .dataZ program.globalSize,
      .label Entry.main] = (DataObject.zeros Cell.globalBlock program.globalSize).code := rfl
  have halt : Code.layout [.halt] = [] := rfl
  simp only [join_cons, join_nil, if_true, layout_append, initialization,
    Environment.layout_code, globals, literals, halt, Heap.layout_manager, row, objects, texts,
    List.flatMap_append, List.flatMap_cons, List.flatMap_nil, List.append_nil, List.nil_append,
    List.append_assoc]

/-- No object of a program refers to a label. -/
theorem constant_objects (program : Program) (labels : List String) :
    ∀ object ∈ program.objects labels, object.Constant := by
  have environment : ∀ object ∈ Environment.objects, object.Constant := by decide
  have manager : ∀ object ∈ Heap.cells.map DataObject.cell, object.Constant := by decide
  intro object member
  simp only [objects, List.mem_append, List.mem_singleton] at member
  obtain ((member | rfl) | member) | member := member
  · exact environment object member
  · simp [DataObject.Constant, DataObject.zeros, Instruction.labelOperand?, Instruction.operand]
  · obtain ⟨⟨label, text⟩, _, rfl⟩ := List.mem_map.mp member
    exact DataObject.constant_literal label text
  · exact manager object member

theorem mem_objects_of_mem_zip {labels : List String} {label text : String}
    (member : (label, text) ∈ labels.zip program.texts) :
    .literal label text ∈ program.objects labels := by
  have literal : DataObject.literal label text ∈ DataObject.literals labels program.texts :=
    List.mem_map.mpr ⟨_, member, rfl⟩
  simp [objects, literal]

theorem constant_row (program : Program) (labels : List String) :
    ∀ object ∈ program.row labels, object.Constant := by
  intro object member
  rw [row, List.mem_cons, List.mem_append, List.mem_singleton] at member
  obtain rfl | member | rfl := member
  · decide
  · exact constant_objects program labels object member
  · decide

theorem staticData_of_layout {image : Image} {labels : List String}
    (assembled : Image.assemble code = .ok image)
    (layout : code.layout = (program.row labels).flatMap DataObject.code) :
    image.StaticData (program.objects labels) := by
  have named : ∀ instruction ∈ code, instruction.isLaid = true → ∀ name,
      instruction.labelOperand? = some name →
      ∃ object ∈ program.row labels, instruction = .dataLabel object.name := by
    intro instruction member laid name operand
    have inLayout : instruction ∈ code.layout := List.mem_filter.mpr ⟨member, laid⟩
    exact DataObject.eq_dataLabel_of_mem (constant_row program labels) (layout ▸ inLayout) operand
  have fixed : ∀ label, .dataD label ∉ code := by
    intro label member
    obtain ⟨object, _, directive⟩ := named _ member rfl label rfl
    cases directive
  have segment := Image.dataSegment_of_assemble assembled fixed
  obtain ⟨_, _, others⟩ :=
    Image.linesUp_of_layout assembled segment (List.nil_append code).symm layout
  obtain ⟨objects, heap, _⟩ := others.append
  have zero : Code.dataSize [] + (DataObject.zeros Cell.locationZero 8).bytes.length = 8 := rfl
  rw [zero] at objects heap
  have size : image.dataSegment.length =
      8 + ((program.objects labels).flatMap DataObject.bytes).length := by
    rw [segment, ← dataBytes_layout, layout, DataObject.dataBytes_code, row, List.flatMap_cons,
      List.flatMap_append, List.length_append, List.length_append]
    rfl
  rw [← size] at heap
  refine ⟨heap, objects.pairwise, fun object member => ?_, fun name address found => ?_⟩
  · obtain ⟨address, found, above, below, bytes⟩ := objects.exists_address member
    exact ⟨address, found, above, size ▸ below, bytes⟩
  · obtain ⟨object, member, same⟩ :=
      named _ (Image.dataLabel_of_address assembled found) rfl name rfl
    cases same
    rw [row, List.mem_cons, List.mem_append, List.mem_singleton] at member
    obtain rfl | member | rfl := member
    · exact .inl rfl
    · exact .inr (.inr ⟨object, member, rfl⟩)
    · exact .inr (.inl rfl)

/-- The data of a program with the heap manager. The heap begins where the data ends; the
objects are apart, above address zero and below the heap; the global block has the size
that the program says; and each text of a string literal has a label, where its record
stands. -/
theorem static_data_laid_out (plain : Plain program.operations)
    (nonnegative : 0 ≤ program.globalSize) (compiled : program.compile ⟨true⟩ = .ok code) :
    ∃ (image : Image) (labels : List String), Image.assemble code = .ok image ∧
      labels.length = program.texts.length ∧ image.StaticData (program.objects labels) ∧
      (∃ block ∈ program.objects labels, block.name = Cell.globalBlock ∧
        block.bytes.length = program.globalSize.toInt) ∧
      ∀ label text, (label, text) ∈ labels.zip program.texts →
        ∃ address, image.dataAddress? label = some address ∧
          WordBytes.ofInt32 6 ++ WordBytes.ofInt32 0b1001 ++
              WordBytes.ofInt32 (Int32.ofNat text.utf8ByteSize) ++ text.toUTF8.toList ++ [0] <+:
            image.dataSegment.drop address := by
  obtain ⟨image, assembled⟩ := exists_image plain nonnegative compiled rfl
  obtain ⟨labels, same, layout⟩ := exists_layout plain compiled
  have laidOut := staticData_of_layout assembled layout
  refine ⟨image, labels, assembled, same, laidOut, ?_, fun label text member => ?_⟩
  · refine ⟨.zeros Cell.globalBlock program.globalSize, by simp [objects], rfl, ?_⟩
    rw [DataObject.bytes_zeros, List.length_replicate]
    exact Int.toNat_of_nonneg (Int32.le_iff_toInt_le.mp nonnegative)
  · obtain ⟨address, found, _, _, bytes⟩ := laidOut.within _ (mem_objects_of_mem_zip member)
    rw [DataObject.bytes_literal] at bytes
    exact ⟨address, found, bytes⟩

/-- A function in a global variable that returns a text, and a text that is printed. -/
def twoTexts : Program where
  globalSize := 4
  body := [
    .declaration ⟨"f", .lambda [] .string, .global 0, false⟩
      (.typed (.lambda [] .string)
        (.lambda [] [.return (some (.typed .string (.string "é")))] 0 0)) false,
    .print [.expression (.typed .string (.string ""))]]

theorem twoTexts_laid_out :
    ∃ code image labels, Plain twoTexts.operations ∧ 0 ≤ twoTexts.globalSize ∧
      twoTexts.compile ⟨true⟩ = .ok code ∧ Image.assemble code = .ok image ∧
      labels.length = ["é", ""].length ∧ image.StaticData (twoTexts.objects labels) := by
  have plain : Plain twoTexts.operations := by
    simp [Plain, twoTexts, operations, blockOperations, Statement.operations, Expr.operations,
      Form.operations, printItemsOperations, PrintItem.operations]
  have small : twoTexts.isSmall ⟨true⟩ = true := by decide +kernel
  obtain ⟨code, compiled⟩ := exists_code_of_isSmall small
  obtain ⟨image, labels, assembled, same, laidOut, _⟩ :=
    static_data_laid_out plain (by decide) compiled
  exact ⟨code, image, labels, plain, by decide, compiled, assembled, same, laidOut⟩

end Program

end StackBackend
