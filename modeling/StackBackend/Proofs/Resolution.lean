import StackBackend.Proofs.Discipline
import StackBackend.Proofs.Numbering

namespace StackBackend

/-! Every label that generated code refers to is known: it is defined by the code
itself, or it is one of the environment. A piece of code is linked when all its
references are known as soon as its own labels are, so larger pieces are linked
when their parts are. -/

/-- The labels that are known, those of code apart from those of data. -/
structure Directory where
  code : String → Prop
  data : String → Prop

/-- The label is known, whatever it names. -/
def Directory.Knows (directory : Directory) (name : String) : Prop :=
  directory.code name ∨ directory.data name

namespace Instruction

/-- The label that the instruction defines is known for what it is. -/
def Introduced (directory : Directory) : Instruction → Prop
  | .label name => directory.code name
  | .dataLabel name => directory.data name
  | _ => True

/-- The instruction can be assembled: the label that it refers to is known, and a run
of zeros is not negative. Only a push may refer to data. -/
def Resolves (directory : Directory) (instruction : Instruction) : Prop :=
  match instruction with
  | .pushD name | .dataD name => directory.Knows name
  | .label _ | .dataLabel _ => True
  | .dataZ size => 0 ≤ size
  | instruction => ∀ name, instruction.labelOperand? = some name → directory.code name

end Instruction

namespace Code

/-- All labels that the code defines are known. -/
def Introduced (directory : Directory) (code : Code) : Prop :=
  ∀ instruction ∈ code, instruction.Introduced directory

/-- All instructions of the code can be assembled. -/
def Resolves (directory : Directory) (code : Code) : Prop :=
  ∀ instruction ∈ code, instruction.Resolves directory

/-- The code refers to labels of its own and to those that are known anyway. -/
def Linked (directory : Directory) (code : Code) : Prop :=
  code.Introduced directory → code.Resolves directory

variable {directory : Directory}

@[simp] theorem introduced_append (first second : Code) :
    Introduced directory (first ++ second) ↔
      Introduced directory first ∧ Introduced directory second :=
  List.forall_mem_append

@[simp] theorem introduced_cons (instruction : Instruction) (rest : Code) :
    Introduced directory (instruction :: rest) ↔
      instruction.Introduced directory ∧ Introduced directory rest :=
  List.forall_mem_cons

@[simp] theorem resolves_nil : Resolves directory [] ↔ True := by
  simp [Resolves]

@[simp] theorem resolves_append (first second : Code) :
    Resolves directory (first ++ second) ↔ Resolves directory first ∧ Resolves directory second :=
  List.forall_mem_append

@[simp] theorem resolves_cons (instruction : Instruction) (rest : Code) :
    Resolves directory (instruction :: rest) ↔
      instruction.Resolves directory ∧ Resolves directory rest :=
  List.forall_mem_cons

theorem introduced_flatten {pieces : List Code} :
    Introduced directory pieces.flatten ↔ ∀ piece ∈ pieces, Introduced directory piece := by
  simp only [Introduced, List.mem_flatten]
  constructor
  · intro all piece member instruction inPiece
    exact all instruction ⟨piece, member, inPiece⟩
  · rintro all instruction ⟨piece, member, inPiece⟩
    exact all piece member instruction inPiece

theorem resolves_flatten {pieces : List Code} :
    Resolves directory pieces.flatten ↔ ∀ piece ∈ pieces, Resolves directory piece := by
  simp only [Resolves, List.mem_flatten]
  constructor
  · intro all piece member instruction inPiece
    exact all instruction ⟨piece, member, inPiece⟩
  · rintro all instruction ⟨piece, member, inPiece⟩
    exact all piece member instruction inPiece

end Code

/-! ## The fixed labels -/

namespace Cell

/-- The cells that generated code works with, apart from those of the subroutines. -/
def cells : List String :=
  framePointer :: stackPointer :: scratch.map Prod.fst

end Cell

namespace Entry

/-- The subroutines. -/
abbrev subroutines : List String :=
  [clearBytes, copyBytes, lowestTerms, discardRecord, allocate, deallocate]

end Entry

/-- The labels of the environment are known. -/
structure Directory.Standard (directory : Directory) : Prop where
  cells : ∀ cell ∈ Cell.cells, directory.data cell
  texts : ∀ text ∈ Cell.texts.map Prod.fst, directory.data text
  globals : directory.data Cell.globalBlock
  subroutines : ∀ entry ∈ Entry.subroutines, directory.code entry
  handlers : ∀ fault : Fault, directory.code fault.handler

namespace Instruction

variable {directory : Directory}

@[simp] theorem introduced_label (name : String) :
    (Instruction.label name).Introduced directory ↔ directory.code name := Iff.rfl

@[simp] theorem introduced_dataLabel (name : String) :
    (Instruction.dataLabel name).Introduced directory ↔ directory.data name := Iff.rfl

/-- An instruction without a label refers to nothing. -/
theorem resolves_of_labelOperand?_eq_none {instruction : Instruction}
    (none : instruction.labelOperand? = none) (executed : instruction.isDirective = false) :
    instruction.Resolves directory := by
  cases instruction <;> cases executed <;> simp_all [Resolves, labelOperand?, operand]

/-- A jump or a call names code. -/
theorem resolves_of_labelOperand?_eq_some {instruction : Instruction} {name : String}
    (some : instruction.labelOperand? = some name) (code : directory.code name) :
    instruction.Resolves directory := by
  cases instruction <;> cases some <;>
    first | exact code | exact .inl code | trivial | simpa [Resolves, labelOperand?, operand]

end Instruction

/-! ## Pieces -/

attribute [local simp] Instruction.Resolves Instruction.labelOperand? Instruction.operand
  Directory.Knows Cell.cells Cell.scratch

section

variable {directory : Directory}

namespace Code

@[simp] theorem resolves_loadWord (cell : String) :
    Resolves directory (loadWord cell) ↔ directory.Knows cell := by
  simp [loadWord]

@[simp] theorem resolves_storeWord (cell : String) :
    Resolves directory (storeWord cell) ↔ directory.Knows cell := by
  simp [storeWord]

@[simp] theorem resolves_increment (cell : String) :
    Resolves directory (increment cell) ↔ directory.Knows cell := by
  simp [increment]

@[simp] theorem resolves_addOffset (offset : Int32) :
    Resolves directory (addOffset offset) ↔ True := by
  unfold addOffset
  split <;> simp

@[simp] theorem resolves_readWord (offset : Int32) :
    Resolves directory (readWord offset) ↔ True := by
  simp [readWord]

@[simp] theorem resolves_writeWord (offset : Int32) :
    Resolves directory (writeWord offset) ↔ True := by
  unfold writeWord
  split <;> simp

@[simp] theorem resolves_loadCode (type : Ty) : Resolves directory type.loadCode ↔ True := by
  cases type <;> simp [Ty.loadCode]

@[simp] theorem resolves_discard (type : Ty) : Resolves directory type.discard ↔ True := by
  cases type <;> simp [Ty.discard, Ty.stackWords, List.replicate]

@[simp] theorem resolves_elementAddress (headerSize elementSize : Int32) :
    Resolves directory (Record.elementAddress headerSize elementSize) ↔ True := by
  unfold Record.elementAddress
  split <;> simp

@[simp] theorem resolves_printText (label : String) :
    Resolves directory (Printing.printText label) ↔ directory.Knows label := by
  simp [Printing.printText]

theorem resolves_stash {cell : String} (known : directory.data cell) (type : Ty) :
    Resolves directory (type.stash cell) := by
  cases type <;> simp [Ty.stash, Ty.storeCode, known]

theorem resolves_unstash {cell : String} (known : directory.data cell) (type : Ty) :
    Resolves directory (type.unstash cell) := by
  cases type <;> simp [Ty.unstash, Ty.loadCode, known]

theorem resolves_flatMap {α : Type} {items : List α} {piece : α → Code}
    (resolves : ∀ item ∈ items, Resolves directory (piece item)) :
    Resolves directory (items.flatMap piece) := by
  rw [List.flatMap_def, resolves_flatten]
  simpa using resolves

theorem resolves_save {bracket : Bracket} (known : ∀ word ∈ bracket.words, directory.data word) :
    Resolves directory bracket.save :=
  resolves_flatMap fun word member => by simp [known word member]

theorem resolves_restore {bracket : Bracket}
    (known : ∀ word ∈ bracket.words, directory.data word) :
    Resolves directory bracket.restore :=
  resolves_flatMap fun word member => by simp [known word (List.mem_reverse.mp member)]

/-! Pieces that refer to the environment. -/

variable (standard : directory.Standard)
include standard

theorem resolves_storeCode (type : Ty) : Resolves directory type.storeCode := by
  cases type <;> simp [Ty.storeCode, standard.cells]

theorem resolves_nullCheck : Resolves directory Record.nullCheck := by
  simp [Record.nullCheck, standard.handlers]

theorem resolves_allocateRecord (typeId status : Int32) :
    Resolves directory (Record.allocateRecord typeId status) := by
  simp [Record.allocateRecord, standard.subroutines]

theorem resolves_allocateEmptyArray (status elementSize : Int32) :
    Resolves directory (Record.allocateEmptyArray status elementSize) := by
  simp [Record.allocateEmptyArray, resolves_allocateRecord standard, standard.handlers,
    standard.subroutines, standard.cells]

theorem resolves_allocateString (status : Int32) :
    Resolves directory (Record.allocateString status) := by
  simp [Record.allocateString, resolves_allocateRecord standard, standard.cells]

end Code

/-! ## Operators -/

open Generation Code

section

variable (standard : directory.Standard) {last next : Nat} {code : Code}
include standard

theorem Location.resolves_addressCode {location : Location} {delta : Int32}
    (generated : location.addressCode delta = .ok code) : code.Resolves directory := by
  obtain ⟨offset, _, generated⟩ := Except.bind_eq_ok.mp generated
  cases location <;> cases generated <;> simp [standard.globals, standard.cells]

namespace Ty

theorem resolves_store {type : Ty} (generated : type.store = .ok code) :
    code.Resolves directory := by
  obtain ⟨_, rfl⟩ := Ty.store_eq_ok.mp generated
  exact resolves_storeCode standard type

end Ty

namespace Arithmetic

theorem resolves_rationalize {operand : Ty} (generated : rationalize operand = .ok code) :
    code.Resolves directory := by
  unfold rationalize at generated
  cases operand <;> cases generated <;>
    simp [restateRational, lowestTerms, standard.cells, standard.handlers,
      standard.subroutines]

theorem resolves_expressOver {operand : Ty} (generated : expressOver operand = .ok code) :
    code.Resolves directory := by
  unfold expressOver at generated
  cases operand <;> cases generated <;> simp [restateRational, standard.cells]

end Arithmetic

namespace Sequence

theorem resolves_length {sequence : Ty} (generated : length sequence = .ok code) :
    code.Resolves directory := by
  obtain ⟨layout, _, generated⟩ := Except.bind_eq_ok.mp generated
  cases generated
  simp [resolves_nullCheck standard]

theorem resolves_allocateLike {sequence : Ty} (generated : allocateLike sequence = .ok code) :
    code.Resolves directory := by
  unfold allocateLike at generated
  split at generated
  · cases generated
    exact resolves_allocateString standard _
  · obtain ⟨element, _, generated⟩ := Except.bind_eq_ok.mp generated
    cases generated
    exact resolves_allocateEmptyArray standard _ _

theorem linked_reverse {sequence : Ty} (generated : reverse sequence last = .ok (code, next)) :
    code.Linked directory := by
  simp only [reverse, bind_eq_ok, pure_eq_ok, lift_eq_ok, freshLabels_eq_ok] at generated
  obtain ⟨layout, _, ⟨_, rfl⟩, labels, _, ⟨rfl, rfl⟩, allocation, _, ⟨allocated, rfl⟩, rfl, rfl⟩ :=
    generated
  intro introduced
  simp only [join_cons, introduced_append, introduced_cons, Instruction.introduced_label]
    at introduced
  simp [resolves_allocateLike standard allocated, sourceLength, introduced, standard.cells,
    standard.subroutines, resolves_nullCheck standard]

theorem linked_index {sequence index : Code} {type : Ty} {middle : Nat}
    (sequenceLinked : sequence.Linked directory) (indexLinked : index.Linked directory)
    (generated : Sequence.index sequence index type middle = .ok (code, next)) :
    code.Linked directory := by
  simp only [Sequence.index, bind_eq_ok, pure_eq_ok, lift_eq_ok, freshLabels_eq_ok] at generated
  obtain ⟨layout, _, ⟨_, rfl⟩, labels, _, ⟨rfl, rfl⟩, rfl, rfl⟩ := generated
  intro introduced
  simp only [join_cons, introduced_append, introduced_cons, Instruction.introduced_label]
    at introduced
  simp [sequenceLinked (by simp only [introduced]), indexLinked (by simp only [introduced]),
    introduced, standard.cells, standard.handlers, resolves_nullCheck standard]

end Sequence

theorem Text.linked_substring (generated : Text.substring last = .ok (code, next)) :
    code.Linked directory := by
  simp only [Text.substring, bind_eq_ok, pure_eq_ok, freshLabels_eq_ok] at generated
  obtain ⟨labels, _, ⟨rfl, rfl⟩, rfl, rfl⟩ := generated
  intro introduced
  simp only [join_cons, introduced_append, introduced_cons, Instruction.introduced_label]
    at introduced
  simp [lengthOf, charactersOf, span, introduced, standard.cells, standard.handlers,
    standard.subroutines, resolves_nullCheck standard, resolves_allocateString standard]

theorem Comparison.linked {relation : Relation} {type : Ty} {left right : Code} {middle : Nat}
    (leftLinked : left.Linked directory) (rightLinked : right.Linked directory)
    (generated : Comparison.code relation type left right middle = .ok (code, next)) :
    code.Linked directory := by
  simp only [Comparison.code, bind_eq_ok, pure_eq_ok, lift_eq_ok, freshLabels_eq_ok] at generated
  obtain ⟨labels, _, ⟨rfl, rfl⟩, difference, _, ⟨subtracted, rfl⟩, rfl, rfl⟩ := generated
  intro introduced
  simp only [join_cons, introduced_append, introduced_cons, Instruction.introduced_label]
    at introduced
  have subtracts : difference.Resolves directory := by
    unfold Comparison.difference at subtracted
    split at subtracted <;> cases subtracted <;> simp [rationalDifference, standard.cells]
  have branches : Code.Resolves directory (branch relation (isFloating type)
      (LabelGroup.label ⟨"compare", middle + 1⟩ "true")
      (LabelGroup.label ⟨"compare", middle + 1⟩ "false")) := by
    unfold branch jumpIfPositive jumpIfNegative jumpIfZero
    cases isFloating type <;> cases relation <;> simp [introduced]
  simp [introduced, leftLinked (by simp only [introduced]), rightLinked (by simp only [introduced]),
    subtracts, branches]

/-! ## Calls -/

namespace Frame

omit standard in
theorem introduced_invoke {callee : Code} {arguments : List (Code × Ty)} {result : Ty}
    (generated : invoke callee arguments result = .ok code) (introduced : code.Introduced directory) :
    (∀ argument ∈ arguments, argument.1.Introduced directory) ∧ callee.Introduced directory := by
  obtain ⟨_, rfl⟩ := invoke_eq_ok.mp generated
  simp only [join_cons, introduced_append, passCodes, introduced_flatten, List.forall_mem_map,
    passCode] at introduced
  exact ⟨fun argument member => (introduced.1 argument member).1.2, introduced.2.1⟩

theorem resolves_invoke {callee : Code} {arguments : List (Code × Ty)} {result : Ty}
    (generated : invoke callee arguments result = .ok code)
    (passed : ∀ argument ∈ arguments, argument.1.Resolves directory)
    (called : callee.Resolves directory) : code.Resolves directory := by
  obtain ⟨_, rfl⟩ := invoke_eq_ok.mp generated
  have passes : Code.Resolves directory (passCodes arguments) := by
    rw [passCodes, resolves_flatten]
    intro piece inPassed
    obtain ⟨argument, member, rfl⟩ := List.mem_map.mp inPassed
    simp [passCode, reserve, passed argument member, resolves_storeCode standard,
      standard.cells]
  have reads : Code.Resolves directory (Frame.result result) := by
    unfold Frame.result
    split <;> simp [standard.cells]
  simp [passes, called, reads]

theorem resolves_enter {localSize : Int32} (generated : enter localSize = .ok code) :
    code.Resolves directory := by
  obtain ⟨frameSize, _, rfl⟩ := enter_eq_ok generated
  simp [moveStackPointer, standard.cells]

theorem resolves_leave (parameterSize : Int32) (result : Ty) :
    Code.Resolves directory (leave parameterSize result) := by
  simp [leave, resolves_storeCode standard, standard.cells]

theorem resolves_returnSlot {parameterSize : Int32} {result : Ty}
    (generated : returnSlot parameterSize result = .ok code) : code.Resolves directory := by
  obtain ⟨offset, _, generated⟩ := Except.bind_eq_ok.mp generated
  cases generated
  simp [standard.cells]

end Frame

/-! ## Operators that call -/

namespace HigherOrder

theorem resolves_currentElement {cell : String} {element : Ty} (known : directory.data cell)
    (generated : currentElement cell element = .ok code) : code.Resolves directory := by
  obtain ⟨_, rfl⟩ := currentElement_eq_ok.mp generated
  simp [known, standard.cells]

theorem resolves_callee : Code.Resolves directory callee := by
  simp [callee, standard.cells]

theorem resolves_bracketed {bracket : Bracket} (result : Ty)
    (words : ∀ word ∈ bracket.words, word ∈ Cell.cells) (resolves : code.Resolves directory) :
    Code.Resolves directory (bracketed bracket code result) := by
  have known : ∀ word ∈ bracket.words, directory.data word := fun word member =>
    standard.cells word (words word member)
  have returned : directory.data Cell.operatorReturn := standard.cells _ (by simp)
  simp [bracketed, Bracket.restoreUnder, resolves_save known, resolves_restore known,
    resolves_stash returned, resolves_unstash returned, resolves]

variable {middle : Nat} {array function : Code}

theorem linked_map {arrayType functionType : Ty} (arrayLinked : array.Linked directory)
    (functionLinked : function.Linked directory)
    (generated : map array arrayType function functionType middle = .ok (code, next)) :
    code.Linked directory := by
  simp only [map, bind_eq_ok, pure_eq_ok, lift_eq_ok, freshLabels_eq_ok] at generated
  obtain ⟨element, _, ⟨_, rfl⟩, result, _, ⟨_, rfl⟩, labels, _, ⟨rfl, rfl⟩, current, _,
    ⟨found, rfl⟩, call, _, ⟨called, rfl⟩, store, _, ⟨stored, rfl⟩, rfl, rfl⟩ := generated
  intro introduced
  simp only [bracketed, operand, loop, join_cons, introduced_append, introduced_cons,
    Instruction.introduced_label] at introduced
  have calls : call.Resolves directory := Frame.resolves_invoke standard called
    (by simp [resolves_currentElement standard (standard.cells _ (by simp)) found])
    (resolves_callee standard)
  refine resolves_bracketed standard _ (by simp [mapBracket]) ?_
  simp [operand, operandLength, allocateResult, loop, loopTest, resultSlot,
    arrayLinked (by simp only [introduced]), functionLinked (by simp only [introduced]), introduced,
    calls, Ty.resolves_store standard stored, resolves_nullCheck standard,
    resolves_allocateEmptyArray standard, standard.cells]

theorem linked_zip {first second : Code} {firstType secondType functionType : Ty}
    (firstLinked : first.Linked directory) (secondLinked : second.Linked directory)
    (functionLinked : function.Linked directory)
    (generated : zip first firstType second secondType function functionType middle =
      .ok (code, next)) :
    code.Linked directory := by
  simp only [zip, bind_eq_ok, pure_eq_ok, lift_eq_ok, freshLabels_eq_ok] at generated
  obtain ⟨_, _, ⟨_, rfl⟩, _, _, ⟨_, rfl⟩, result, _, ⟨_, rfl⟩, labels, _, ⟨rfl, rfl⟩, current, _,
    ⟨found, rfl⟩, other, _, ⟨otherFound, rfl⟩, call, _, ⟨called, rfl⟩, store, _, ⟨stored, rfl⟩,
    rfl, rfl⟩ := generated
  intro introduced
  simp only [bracketed, operand, loop, join_cons, introduced_append, introduced_cons,
    Instruction.introduced_label] at introduced
  have calls : call.Resolves directory := Frame.resolves_invoke standard called
    (by simp [resolves_currentElement standard (standard.cells _ (by simp)) found,
      resolves_currentElement standard (standard.cells _ (by simp)) otherFound])
    (resolves_callee standard)
  refine resolves_bracketed standard _ (by simp [zipBracket]) ?_
  simp [operand, operandLength, allocateResult, loop, loopTest, resultSlot,
    firstLinked (by simp only [introduced]), secondLinked (by simp only [introduced]),
    functionLinked (by simp only [introduced]), introduced, calls, Ty.resolves_store standard stored,
    resolves_nullCheck standard, resolves_allocateEmptyArray standard, standard.cells,
    standard.handlers]

theorem resolves_foldStart {element : Ty} {base : Option Code} {start : Code} {first : Int32}
    (baseLinked : ∀ code ∈ base, code.Linked directory) (introduced : start.Introduced directory)
    (generated : foldStart element base = .ok (start, first)) : start.Resolves directory := by
  cases base with
  | some code =>
      cases generated
      exact baseLinked start rfl introduced
  | none =>
      obtain ⟨code, found, generated⟩ := Except.bind_eq_ok.mp generated
      cases generated
      obtain ⟨_, rfl⟩ := firstElement_eq_ok.mp found
      simp [standard.cells]

theorem linked_fold {arrayType functionType : Ty} {base : Option Code}
    (arrayLinked : array.Linked directory) (baseLinked : ∀ code ∈ base, code.Linked directory)
    (functionLinked : function.Linked directory)
    (generated : fold array arrayType base function functionType middle = .ok (code, next)) :
    code.Linked directory := by
  obtain ⟨element, accumulator, start, first, current, call, _, _, started, found, called, rfl,
    rfl⟩ := fold_eq_ok.mp generated
  intro introduced
  simp only [bracketed, operand, loop, join_cons, introduced_append, introduced_cons,
    Instruction.introduced_label] at introduced
  have transfer : directory.data Cell.operatorTransfer := standard.cells _ (by simp)
  have calls : call.Resolves directory := Frame.resolves_invoke standard called
    (by simp [resolves_unstash transfer,
      resolves_currentElement standard (standard.cells _ (by simp)) found])
    (resolves_callee standard)
  refine resolves_bracketed standard _ (by simp [foldBracket]) ?_
  simp [operand, operandLength, loop, loopTest, arrayLinked (by simp only [introduced]),
    functionLinked (by simp only [introduced]),
    resolves_foldStart standard baseLinked (by simp only [introduced]) started, introduced, calls,
    resolves_stash transfer, resolves_nullCheck standard, standard.cells, standard.handlers]

theorem linked_reduce {arrayType : Ty} (arrayLinked : array.Linked directory)
    (functionLinked : function.Linked directory)
    (generated : reduce array arrayType function middle = .ok (code, next)) :
    code.Linked directory := by
  simp only [reduce, bind_eq_ok, pure_eq_ok, lift_eq_ok, freshLabels_eq_ok] at generated
  obtain ⟨element, _, ⟨_, rfl⟩, labels, _, ⟨rfl, rfl⟩, current, _, ⟨found, rfl⟩, call, _,
    ⟨called, rfl⟩, rfl, rfl⟩ := generated
  intro introduced
  simp only [bracketed, operand, loop, judge, copyKept, join_cons, introduced_append,
    introduced_cons, Instruction.introduced_label] at introduced
  have calls : call.Resolves directory := Frame.resolves_invoke standard called
    (by simp [resolves_currentElement standard (standard.cells _ (by simp)) found])
    (resolves_callee standard)
  refine resolves_bracketed standard _ (by simp [reduceBracket]) ?_
  simp [operand, operandLength, judge, copyKept, loop, loopTest, resultSlot,
    arrayLinked (by simp only [introduced]), functionLinked (by simp only [introduced]), introduced,
    calls, resolves_nullCheck standard, resolves_allocateEmptyArray standard, standard.cells,
    standard.subroutines]

end HigherOrder

/-! ## Printing -/

namespace Printing

theorem linked_value {last next : Nat} {code : Code} :
    (type : Ty) → value type last = .ok (code, next) → code.Linked directory
  | .boolean, generated => by
      simp only [value, bind_eq_ok, pure_eq_ok, freshLabels_eq_ok] at generated
      obtain ⟨labels, _, ⟨rfl, rfl⟩, rfl, rfl⟩ := generated
      intro introduced
      simp only [boolean, introduced_append, introduced_cons, Instruction.introduced_label]
        at introduced
      simp [boolean, introduced, standard.texts, Cell.texts]
  | .rational, generated => by
      simp only [value, bind_eq_ok, pure_eq_ok, freshLabels_eq_ok] at generated
      obtain ⟨labels, _, ⟨rfl, rfl⟩, rfl, rfl⟩ := generated
      intro introduced
      simp only [rational, join_cons, introduced_append, introduced_cons,
        Instruction.introduced_label] at introduced
      simp [rational, integralPart, fractionalPart, introduced, standard.texts, Cell.texts,
        standard.cells]
  | .array element, generated => by
      simp only [value, bind_eq_ok, pure_eq_ok, lift_eq_ok, freshLabels_eq_ok] at generated
      obtain ⟨labels, _, ⟨rfl, rfl⟩, load, _, ⟨loaded, rfl⟩, print, _, printed, rfl, rfl⟩ :=
        generated
      obtain ⟨_, rfl⟩ := Ty.load_eq_ok.mp loaded
      intro introduced
      simp only [array, join_cons, introduced_append, introduced_cons,
        Instruction.introduced_label] at introduced
      have prints := linked_value element printed (by simp only [introduced])
      simp [array, introduced, prints, standard.texts, Cell.texts, resolves_nullCheck standard]
  | .void, generated => by simp [value, throw_eq_ok] at generated
  | .integer, generated | .character, generated | .floating, generated | .string, generated
  | .lambda _ _, generated => by
      simp only [value, pure_eq_ok] at generated
      obtain ⟨rfl, rfl⟩ := generated
      intro _
      simp [string, standard.texts, Cell.texts, resolves_nullCheck standard]

end Printing

/-! ## Snippets and composers -/

theorem Snippet.linked {snippet : Snippet} {operands : List Ty} {result : Ty}
    (generated : snippet.code operands result last = .ok (code, next)) :
    code.Linked directory := by
  cases snippet <;> simp only [Snippet.code, bind_eq_ok, pure_eq_ok, lift_eq_ok] at generated
  case rationalize =>
    obtain ⟨operand, _, ⟨_, rfl⟩, built, rfl⟩ := generated
    exact fun _ => Arithmetic.resolves_rationalize standard built
  case expressOver =>
    obtain ⟨operand, _, ⟨_, rfl⟩, built, rfl⟩ := generated
    exact fun _ => Arithmetic.resolves_expressOver standard built
  case floatingToRational =>
    obtain ⟨built, rfl⟩ := generated
    obtain ⟨rest, rationalized, built⟩ := Except.bind_eq_ok.mp built
    cases built
    intro _
    simp [Arithmetic.resolves_rationalize standard rationalized]
  case arrayLength | stringLength =>
    obtain ⟨operand, _, ⟨_, rfl⟩, built, rfl⟩ := generated
    exact fun _ => Sequence.resolves_length standard built
  case arrayReverse | stringReverse =>
    obtain ⟨operand, _, ⟨_, rfl⟩, built⟩ := generated
    exact Sequence.linked_reverse standard built
  case substring => exact Text.linked_substring standard generated
  case arrayAllocate =>
    obtain ⟨element, _, ⟨_, rfl⟩, rfl, rfl⟩ := generated
    exact fun _ => resolves_allocateEmptyArray standard _ _
  case arrayClone =>
    obtain ⟨operand, _, ⟨_, rfl⟩, element, _, ⟨_, rfl⟩, rfl, rfl⟩ := generated
    intro _
    simp [Sequence.clone, Sequence.allocate, Sequence.sourceLength, resolves_nullCheck standard,
      resolves_allocateEmptyArray standard, standard.cells, standard.subroutines]
  all_goals
    obtain ⟨rfl, rfl⟩ := generated
    intro _
    simp [Arithmetic.integerDivide, Arithmetic.floatingDivide, Arithmetic.rationalAdd,
      Arithmetic.rationalSubtract, Arithmetic.rationalMultiply, Arithmetic.rationalDivide,
      Arithmetic.rationalNegate, Arithmetic.lowestTerms, Arithmetic.crossSum,
      Arithmetic.stashOperands, Arithmetic.product, Arithmetic.rationalToFloating,
      Text.concatenate, Text.appendCharacter, Text.prependCharacter, Text.lengthOf,
      Text.copyCharacters, Text.copyFrom, Text.charactersOf, standard.cells,
      standard.handlers, standard.subroutines, resolves_nullCheck standard,
      resolves_allocateString standard]

omit standard in
theorem Fragment.linked_valueCode {fragment : Fragment} {type : Ty}
    (linked : fragment.code.Linked directory) (generated : fragment.valueCode type = .ok code) :
    code.Linked directory := by
  obtain ⟨_, rfl⟩ | ⟨_, _, rfl⟩ := Fragment.valueCode_eq_ok.mp generated
  · exact linked
  · intro introduced
    simp only [introduced_append] at introduced
    simp [linked introduced.1]

namespace Composer

omit standard in
theorem linked_shortCircuit {stem : String} {decides : String → Instruction}
    {left right fragment : Fragment} {middle : Nat}
    (branches : ∀ target, (decides target).labelOperand? = some target)
    (leftLinked : left.code.Linked directory) (rightLinked : right.code.Linked directory)
    (generated : shortCircuit stem decides left right middle = .ok (fragment, next)) :
    fragment.code.Linked directory := by
  simp only [shortCircuit, bind_eq_ok, pure_eq_ok, lift_eq_ok, freshLabels_eq_ok] at generated
  obtain ⟨labels, _, ⟨rfl, rfl⟩, leftCode, _, ⟨leftValue, rfl⟩, rightCode, _, ⟨rightValue, rfl⟩,
    rfl, rfl⟩ := generated
  intro introduced
  simp only [Fragment.value, join_cons, introduced_append, introduced_cons,
    Instruction.introduced_label] at introduced
  have branch := Instruction.resolves_of_labelOperand?_eq_some
    (branches (LabelGroup.label ⟨stem, middle + 1⟩ "join")) introduced.2.2.2.1.1
  simp only [Fragment.value, join_cons, join_nil, resolves_append, resolves_cons, resolves_nil,
    branch, Fragment.linked_valueCode leftLinked leftValue introduced.1,
    Fragment.linked_valueCode rightLinked rightValue introduced.2.2.1]
  simp

theorem linked_fragment {composer : Composer} {operands : List Fragment} {types : List Ty}
    {fragment : Fragment} {middle : Nat}
    (operandsLinked : ∀ operand ∈ operands, operand.code.Linked directory)
    (generated : composer.fragment operands types middle = .ok (fragment, next)) :
    fragment.code.Linked directory := by
  simp only [Composer.fragment, bind_eq_ok, lift_eq_ok] at generated
  obtain ⟨⟨left, right⟩, _, ⟨found, rfl⟩, generated⟩ := generated
  obtain ⟨others, rfl⟩ := lastTwo_eq_ok found
  have leftLinked := operandsLinked left (by simp)
  have rightLinked := operandsLinked right (by simp)
  cases composer with
  | shortCircuitAnd => exact linked_shortCircuit (fun _ => rfl) leftLinked rightLinked generated
  | shortCircuitOr => exact linked_shortCircuit (fun _ => rfl) leftLinked rightLinked generated
  | arrayIndex | stringIndex =>
      simp only [bind_eq_ok, pure_eq_ok, lift_eq_ok] at generated
      obtain ⟨sequenceType, _, ⟨_, rfl⟩, sequence, _, ⟨sequenceValue, rfl⟩, indexType, _,
        ⟨_, rfl⟩, index, _, ⟨indexValue, rfl⟩, code, _, indexed, rfl, rfl⟩ := generated
      exact Sequence.linked_index standard (Fragment.linked_valueCode leftLinked sequenceValue)
        (Fragment.linked_valueCode rightLinked indexValue) indexed

end Composer

end

end

end StackBackend
