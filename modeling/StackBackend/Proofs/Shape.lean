import StackBackend.Generator
import StackBackend.Machine

namespace StackBackend

/-! Shapes of the operand stack. The shape at a place of the code says what the
words are that the enclosing function or subroutine has on the stack there,
counted from the stack it was entered with: their kinds, and of some words where
they come from. Code flows from one shape to another when every instruction finds
the words it takes, and all ways to a label come with the shape of the label. -/

/-! ## Cells -/

namespace Cell

/-- The scratch words of loops and operators, which have to survive calls. -/
abbrev shared : List String :=
  [forIdentifier, forSequence, forLength, forIndex, operatorLambda, operatorArray,
    operatorOtherArray, operatorIndex, operatorLength, operatorResult, operatorCount]

/-- The other cells that are written by name. -/
abbrev unshared : List String :=
  [framePointer, stackPointer, rationalStoreAddress, rationalStoreDenominator, firstNumerator,
    firstDenominator, secondNumerator, secondDenominator, rationalOver, arrayLength,
    arrayDataSize, stringLength, sequenceSource, sequenceIndex, indexedArray, indexedIndex,
    stringFirst, stringSecond, stringStart, stringEnd, stringCharacter, operatorTransfer,
    operatorReturn, returnAddress, returnFrame, printNumerator, printDenominator, discardCursor,
    discardRemaining, discardPointer, ClearBytes.returnCell, ClearBytes.countCell,
    ClearBytes.cursorCell, CopyBytes.returnCell, CopyBytes.countCell, CopyBytes.sourceCell,
    CopyBytes.destinationCell, LowestTerms.returnCell, LowestTerms.numeratorCell,
    LowestTerms.denominatorCell, LowestTerms.firstCell, LowestTerms.secondCell, freeList,
    bumpPointer, Heap.allocateReturn, Heap.allocateSize, Heap.allocatePrevious,
    Heap.allocateCurrent, Heap.deallocateReturn]

/-- The texts that are printed by name, as formats. -/
def formats : List (String × String) :=
  (Environment.generalFaultFormat, "Runtime error: %s\n") ::
    texts.filter fun (label, _) => label ≠ trueText && label ≠ falseText

theorem not_shared_of_unshared : ∀ cell ∈ unshared, cell ∉ shared := by decide

end Cell

namespace Conversion

/-- The kind of word that a conversion takes. -/
def kind : Conversion → WordKind
  | .floating => .floating
  | .integer | .character | .string => .integer

end Conversion

/-- The words that printing with the format at a label takes, topmost first. -/
def Cell.formatKinds (label : String) : Option (List WordKind) :=
  (formats.lookup label).map fun text =>
    (Format.conversions text.toUTF8.toList).reverse.map Conversion.kind

/-! ## Slots -/

/-- What is known of a word on the operand stack. -/
inductive Slot where
  | integer
  | floating
  /-- The address of the cell or text at the label. -/
  | place (label : String)
  /-- What the shared word at the label held. -/
  | content (label : String)
deriving DecidableEq

namespace Slot

def kind : Slot → WordKind
  | .floating => .floating
  | .integer | .place _ | .content _ => .integer

def ofKind : WordKind → Slot
  | .integer => .integer
  | .floating => .floating

/-- What a label pushes. -/
def pushed (label : String) : Slot :=
  if label ∈ Cell.shared ∨ label ∈ Cell.unshared ∨ label ∈ Cell.formats.map Prod.fst then
    .place label
  else
    .integer

/-- What a load pushes for its address. -/
def loaded : Slot → Slot
  | .place label => if label ∈ Cell.shared then .content label else .integer
  | _ => .integer

/-- The word may be given up while the rest stays: a shared word is not lost. -/
def Spare (rest : List Slot) : Slot → Prop
  | .content label => .content label ∈ rest
  | _ => True

/-- The two topmost words may change places: of two copies of a shared word, the lower
one stays, which was made first. -/
def Passes (top below : Slot) (rest : List Slot) : Prop :=
  top = below → top.Spare rest

/-- The word can be taken as one of the kind. -/
def Fits (slot : Slot) (kind : WordKind) (rest : List Slot) : Prop :=
  slot.kind = kind ∧ slot.Spare rest

/-- The value can be stored at the address. A shared word may be overwritten only
while what it held is on the stack. -/
def Stores (kind : WordKind) (value address : Slot) (rest : List Slot) : Prop :=
  match address with
  | .place cell => value.Fits kind rest ∧ (cell ∈ Cell.shared → .content cell ∈ rest)
  | _ => value.Fits kind (address :: rest) ∧ address.Fits .integer rest

/-- The store puts back what a shared word held. -/
def Restores (value address : Slot) : Prop :=
  ∃ cell ∈ Cell.shared, address = .place cell ∧ value = .content cell

end Slot

/-! ## Shapes -/

structure Shape where
  /-- The words that were pushed, topmost first. -/
  slots : List Slot
  /-- The words that the enclosing function or subroutine leaves when it returns. -/
  promised : List WordKind
deriving DecidableEq

/-- The shapes that labels are entered with. -/
abbrev Labels := String → Option Shape

/-- Where control may go with a shape: to a label of this shape, or to the handler
of a fault, which needs nothing. -/
def Shape.Enters (labels : Labels) (name : String) (shape : Shape) : Prop :=
  (∃ fault : Fault, name = fault.handler) ∨ labels name = some shape

/-- Takes words of the kinds, topmost first, and goes on with the rest. -/
def Slot.take : List WordKind → List Slot → (List Slot → Prop) → Prop
  | [], slots, next => next slots
  | kind :: kinds, slot :: rest, next => slot.Fits kind rest ∧ take kinds rest next
  | _ :: _, [], _ => False

/-- The words that a subroutine takes and leaves, topmost first. -/
def Entry.kinds? (name : String) : Option (List WordKind × List WordKind) :=
  [(clearBytes, [.integer, .integer], []),
    (copyBytes, [.integer, .integer, .integer], []),
    (lowestTerms, [.integer, .integer], [.integer, .integer]),
    (discardRecord, [.integer], []),
    (allocate, [.integer], [.integer]),
    (deallocate, [.integer], [])].lookup name

namespace Instruction

/-- What an instruction takes off the stack and leaves there, topmost first, if
this is the same everywhere and control goes on behind it. -/
def kinds? : Instruction → Option (List WordKind × List WordKind)
  | .pushI _ | .memtop | .pushPC => some ([], [.integer])
  | .pushF _ => some ([], [.floating])
  | .add | .subtract | .multiply | .divide | .remainder | .and | .or | .btAnd | .btOr | .btXor =>
      some ([.integer, .integer], [.integer])
  | .negate | .bNegate | .btNot | .loadC | .loadI => some ([.integer], [.integer])
  | .fAdd | .fSubtract | .fMultiply | .fDivide => some ([.floating, .floating], [.floating])
  | .fNegate => some ([.floating], [.floating])
  | .convertF | .loadF => some ([.integer], [.floating])
  | .convertI => some ([.floating], [.integer])
  | .storeC | .storeI => some ([.integer, .integer], [])
  | .storeF => some ([.floating, .integer], [])
  | .callV => some ([.integer], [])
  | .pStack | .halt | .nop => some ([], [])
  | .pushD _ | .pop | .duplicate | .exchange | .jump _ | .jumpTrue _ | .jumpFalse _ | .jumpPos _
  | .jumpNeg _ | .jumpFPos _ | .jumpFNeg _ | .jumpFZero _ | .call _ | .return | .popPC | .printf
  | .label _ | .dataLabel _ | .dataC _ | .dataI _ | .dataF _ | .dataS _ | .dataZ _ | .dataD _ =>
      none

/-- Stores the topmost word at the address under it. -/
def storeStep (kind : WordKind) (restores : Slot → Slot → Prop) :
    List Slot → List Slot → Prop
  | value :: address :: rest, last =>
      (value.Stores kind address rest ∨ restores value address) ∧ last = rest
  | _, _ => False

/-- The instruction finds the words it takes in the first shape and leaves the
last. Behind an instruction that does not go on, any shape will do. -/
def Step (labels : Labels) (instruction : Instruction) (first last : Shape) : Prop :=
  match instruction with
  | .pushD name => last = ⟨.pushed name :: first.slots, first.promised⟩
  | .pop => ∃ slot rest, first.slots = slot :: rest ∧ slot.Spare rest ∧ last = ⟨rest, first.promised⟩
  | .duplicate => ∃ slot rest, first.slots = slot :: rest ∧
      last = ⟨slot :: slot :: rest, first.promised⟩
  | .exchange => ∃ top below rest, first.slots = top :: below :: rest ∧ top.Passes below rest ∧
      last = ⟨below :: top :: rest, first.promised⟩
  | .loadI => ∃ slot rest, first.slots = slot :: rest ∧ slot.Fits .integer rest ∧
      last = ⟨slot.loaded :: rest, first.promised⟩
  | .storeC => ∃ rest, storeStep .integer (fun _ _ => False) first.slots rest ∧
      last = ⟨rest, first.promised⟩
  | .storeF => ∃ rest, storeStep .floating (fun _ _ => False) first.slots rest ∧
      last = ⟨rest, first.promised⟩
  | .storeI => ∃ rest, storeStep .integer Slot.Restores first.slots rest ∧
      last = ⟨rest, first.promised⟩
  | .jump name => first.Enters labels name
  | .jumpTrue name | .jumpFalse name | .jumpPos name | .jumpNeg name =>
      Slot.take [.integer] first.slots fun rest =>
        Shape.Enters labels name ⟨rest, first.promised⟩ ∧ last = ⟨rest, first.promised⟩
  | .jumpFPos name | .jumpFNeg name | .jumpFZero name =>
      Slot.take [.floating] first.slots fun rest =>
        Shape.Enters labels name ⟨rest, first.promised⟩ ∧ last = ⟨rest, first.promised⟩
  | .call name => ∃ kinds, Entry.kinds? name = some kinds ∧
      Slot.take kinds.1 first.slots fun rest =>
        last = ⟨kinds.2.map Slot.ofKind ++ rest, first.promised⟩
  | .return | .popPC =>
      ∃ slot : Slot, slot.Fits .integer [] ∧ first.slots = slot :: first.promised.map Slot.ofKind
  | .halt => True
  | .printf => ∃ name slots kinds, first.slots = .place name :: slots ∧
      Cell.formatKinds name = some kinds ∧
      Slot.take kinds slots fun rest => last = ⟨rest, first.promised⟩
  | .label name => labels name = some first ∧ last = first
  | .dataLabel _ | .dataC _ | .dataI _ | .dataF _ | .dataS _ | .dataZ _ | .dataD _ => last = first
  | instruction => ∃ takes gives, instruction.kinds? = some (takes, gives) ∧
      Slot.take takes first.slots fun rest =>
        last = ⟨gives.map Slot.ofKind ++ rest, first.promised⟩

end Instruction

namespace Code

/-- Every instruction finds the words it takes, from the shape on, and `next` holds
of the shape in the end. -/
def flow (labels : Labels) : Code → Shape → (Shape → Prop) → Prop
  | [], shape, next => next shape
  | instruction :: rest, shape, next =>
      ∃ between, instruction.Step labels shape between ∧ flow labels rest between next

/-- The code leads from one shape to another. -/
def Flows (labels : Labels) (first : Shape) (code : Code) (last : Shape) : Prop :=
  flow labels code first (· = last)

end Code

/-! ## Evaluation -/

section

variable {labels : Labels} {shape : Shape} {slots : List Slot} {promised : List WordKind}
  {rest : Code} {next : Shape → Prop}

namespace Slot

@[simp] theorem fits_integer : Slot.integer.Fits .integer slots ↔ True := by
  simp [Fits, kind, Spare]

@[simp] theorem fits_floating : Slot.floating.Fits .floating slots ↔ True := by
  simp [Fits, kind, Spare]

@[simp] theorem fits_place {label : String} : (Slot.place label).Fits .integer slots ↔ True := by
  simp [Fits, kind, Spare]

@[simp] theorem fits_content {label : String} :
    (Slot.content label).Fits .integer slots ↔ .content label ∈ slots := by
  simp [Fits, kind, Spare]

@[simp] theorem fits_ofKind {kind : WordKind} : (Slot.ofKind kind).Fits kind slots ↔ True := by
  cases kind <;> simp [ofKind]

@[simp] theorem spare_integer : Slot.integer.Spare slots ↔ True := Iff.rfl

@[simp] theorem spare_floating : Slot.floating.Spare slots ↔ True := Iff.rfl

@[simp] theorem passes_integer {slot : Slot} : Slot.integer.Passes slot slots ↔ True := by
  simp [Passes]

@[simp] theorem passes_floating {slot : Slot} : Slot.floating.Passes slot slots ↔ True := by
  simp [Passes]

@[simp] theorem passes_place {slot : Slot} {label : String} :
    (Slot.place label).Passes slot slots ↔ True := by
  simp [Passes, Spare]

@[simp] theorem content_passes_integer {label : String} :
    (Slot.content label).Passes .integer slots ↔ True := by
  simp [Passes]

@[simp] theorem ofKind_passes {kind : WordKind} {slot : Slot} :
    (Slot.ofKind kind).Passes slot slots ↔ True := by
  cases kind <;> simp [ofKind]

theorem exists_take (slots : List Slot) (kinds : List WordKind) (value : List Slot → Shape)
    (next : Shape → Prop) :
    (∃ last, take kinds slots (fun rest => last = value rest) ∧ next last) ↔
      take kinds slots fun rest => next (value rest) := by
  induction kinds generalizing slots with
  | nil => simp [take]
  | cons kind kinds induction =>
      cases slots with
      | nil => simp [take]
      | cons slot rest => simp [take, and_assoc, ← induction]

/-- Words of the right kinds on top can be taken. -/
theorem take_ofKind {kinds : List WordKind} {next : List Slot → Prop} :
    take kinds (kinds.map ofKind ++ slots) next ↔ next slots := by
  induction kinds with
  | nil => exact Iff.rfl
  | cons kind kinds induction => simp [take, induction]

end Slot

namespace Code

@[simp] theorem flow_nil : flow labels [] shape next ↔ next shape := Iff.rfl

theorem flow_append {first second : Code} :
    flow labels (first ++ second) shape next ↔
      flow labels first shape fun between => flow labels second between next := by
  induction first generalizing shape with
  | nil => exact Iff.rfl
  | cons instruction rest induction => simp [flow, induction]

theorem flow_mono {code : Code} {first second : Shape → Prop}
    (implies : ∀ shape, first shape → second shape) (flows : flow labels code shape first) :
    flow labels code shape second := by
  induction code generalizing shape with
  | nil => exact implies shape flows
  | cons instruction rest induction =>
      obtain ⟨between, step, flows⟩ := flows
      exact ⟨between, step, induction flows⟩

/-! ### Instructions -/

variable {slot first second : Slot}

attribute [local simp] flow Instruction.Step Instruction.kinds? Slot.take Slot.ofKind and_assoc

@[simp] theorem flow_pushI {value : Int32} :
    flow labels (.pushI value :: rest) ⟨slots, promised⟩ next ↔
      flow labels rest ⟨.integer :: slots, promised⟩ next := by
  simp

@[simp] theorem flow_pushF {value : Binary64} :
    flow labels (.pushF value :: rest) ⟨slots, promised⟩ next ↔
      flow labels rest ⟨.floating :: slots, promised⟩ next := by
  simp

@[simp] theorem flow_memtop :
    flow labels (.memtop :: rest) ⟨slots, promised⟩ next ↔
      flow labels rest ⟨.integer :: slots, promised⟩ next := by
  simp

@[simp] theorem flow_pushD {name : String} :
    flow labels (.pushD name :: rest) ⟨slots, promised⟩ next ↔
      flow labels rest ⟨.pushed name :: slots, promised⟩ next := by
  simp

@[simp] theorem flow_pop :
    flow labels (.pop :: rest) ⟨slot :: slots, promised⟩ next ↔
      slot.Spare slots ∧ flow labels rest ⟨slots, promised⟩ next := by
  simp

@[simp] theorem flow_duplicate :
    flow labels (.duplicate :: rest) ⟨slot :: slots, promised⟩ next ↔
      flow labels rest ⟨slot :: slot :: slots, promised⟩ next := by
  simp

@[simp] theorem flow_exchange :
    flow labels (.exchange :: rest) ⟨first :: second :: slots, promised⟩ next ↔
      first.Passes second slots ∧ flow labels rest ⟨second :: first :: slots, promised⟩ next := by
  simp

/-- Instructions on two integers. -/
abbrev binaries : List Instruction :=
  [.add, .subtract, .multiply, .divide, .remainder, .and, .or, .btAnd, .btOr, .btXor]

theorem flow_binary {instruction : Instruction} (binary : instruction ∈ binaries) :
    flow labels (instruction :: rest) ⟨first :: second :: slots, promised⟩ next ↔
      first.Fits .integer (second :: slots) ∧ second.Fits .integer slots ∧
        flow labels rest ⟨.integer :: slots, promised⟩ next := by
  simp only [binaries, List.mem_cons, List.not_mem_nil, or_false] at binary
  rcases binary with rfl | rfl | rfl | rfl | rfl | rfl | rfl | rfl | rfl | rfl <;> simp

@[simp] theorem flow_add :
    flow labels (.add :: rest) ⟨first :: second :: slots, promised⟩ next ↔
      first.Fits .integer (second :: slots) ∧ second.Fits .integer slots ∧
        flow labels rest ⟨.integer :: slots, promised⟩ next :=
  flow_binary (by simp)

@[simp] theorem flow_subtract :
    flow labels (.subtract :: rest) ⟨first :: second :: slots, promised⟩ next ↔
      first.Fits .integer (second :: slots) ∧ second.Fits .integer slots ∧
        flow labels rest ⟨.integer :: slots, promised⟩ next :=
  flow_binary (by simp)

@[simp] theorem flow_multiply :
    flow labels (.multiply :: rest) ⟨first :: second :: slots, promised⟩ next ↔
      first.Fits .integer (second :: slots) ∧ second.Fits .integer slots ∧
        flow labels rest ⟨.integer :: slots, promised⟩ next :=
  flow_binary (by simp)

@[simp] theorem flow_divide :
    flow labels (.divide :: rest) ⟨first :: second :: slots, promised⟩ next ↔
      first.Fits .integer (second :: slots) ∧ second.Fits .integer slots ∧
        flow labels rest ⟨.integer :: slots, promised⟩ next :=
  flow_binary (by simp)

@[simp] theorem flow_remainder :
    flow labels (.remainder :: rest) ⟨first :: second :: slots, promised⟩ next ↔
      first.Fits .integer (second :: slots) ∧ second.Fits .integer slots ∧
        flow labels rest ⟨.integer :: slots, promised⟩ next :=
  flow_binary (by simp)

@[simp] theorem flow_and :
    flow labels (.and :: rest) ⟨first :: second :: slots, promised⟩ next ↔
      first.Fits .integer (second :: slots) ∧ second.Fits .integer slots ∧
        flow labels rest ⟨.integer :: slots, promised⟩ next :=
  flow_binary (by simp)

@[simp] theorem flow_btAnd :
    flow labels (.btAnd :: rest) ⟨first :: second :: slots, promised⟩ next ↔
      first.Fits .integer (second :: slots) ∧ second.Fits .integer slots ∧
        flow labels rest ⟨.integer :: slots, promised⟩ next :=
  flow_binary (by simp)

@[simp] theorem flow_btOr :
    flow labels (.btOr :: rest) ⟨first :: second :: slots, promised⟩ next ↔
      first.Fits .integer (second :: slots) ∧ second.Fits .integer slots ∧
        flow labels rest ⟨.integer :: slots, promised⟩ next :=
  flow_binary (by simp)

/-- Instructions on two floating numbers. -/
abbrev floatingBinaries : List Instruction :=
  [.fAdd, .fSubtract, .fMultiply, .fDivide]

theorem flow_floatingBinary {instruction : Instruction}
    (binary : instruction ∈ floatingBinaries) :
    flow labels (instruction :: rest) ⟨first :: second :: slots, promised⟩ next ↔
      first.Fits .floating (second :: slots) ∧ second.Fits .floating slots ∧
        flow labels rest ⟨.floating :: slots, promised⟩ next := by
  simp only [floatingBinaries, List.mem_cons, List.not_mem_nil, or_false] at binary
  rcases binary with rfl | rfl | rfl | rfl <;> simp

@[simp] theorem flow_fSubtract :
    flow labels (.fSubtract :: rest) ⟨first :: second :: slots, promised⟩ next ↔
      first.Fits .floating (second :: slots) ∧ second.Fits .floating slots ∧
        flow labels rest ⟨.floating :: slots, promised⟩ next :=
  flow_floatingBinary (by simp)

@[simp] theorem flow_fMultiply :
    flow labels (.fMultiply :: rest) ⟨first :: second :: slots, promised⟩ next ↔
      first.Fits .floating (second :: slots) ∧ second.Fits .floating slots ∧
        flow labels rest ⟨.floating :: slots, promised⟩ next :=
  flow_floatingBinary (by simp)

@[simp] theorem flow_fDivide :
    flow labels (.fDivide :: rest) ⟨first :: second :: slots, promised⟩ next ↔
      first.Fits .floating (second :: slots) ∧ second.Fits .floating slots ∧
        flow labels rest ⟨.floating :: slots, promised⟩ next :=
  flow_floatingBinary (by simp)

@[simp] theorem flow_negate :
    flow labels (.negate :: rest) ⟨slot :: slots, promised⟩ next ↔
      slot.Fits .integer slots ∧ flow labels rest ⟨.integer :: slots, promised⟩ next := by
  simp

@[simp] theorem flow_convertF :
    flow labels (.convertF :: rest) ⟨slot :: slots, promised⟩ next ↔
      slot.Fits .integer slots ∧ flow labels rest ⟨.floating :: slots, promised⟩ next := by
  simp

@[simp] theorem flow_convertI :
    flow labels (.convertI :: rest) ⟨slot :: slots, promised⟩ next ↔
      slot.Fits .floating slots ∧ flow labels rest ⟨.integer :: slots, promised⟩ next := by
  simp

@[simp] theorem flow_loadC :
    flow labels (.loadC :: rest) ⟨slot :: slots, promised⟩ next ↔
      slot.Fits .integer slots ∧ flow labels rest ⟨.integer :: slots, promised⟩ next := by
  simp

@[simp] theorem flow_loadI :
    flow labels (.loadI :: rest) ⟨slot :: slots, promised⟩ next ↔
      slot.Fits .integer slots ∧ flow labels rest ⟨slot.loaded :: slots, promised⟩ next := by
  simp

@[simp] theorem flow_loadF :
    flow labels (.loadF :: rest) ⟨slot :: slots, promised⟩ next ↔
      slot.Fits .integer slots ∧ flow labels rest ⟨.floating :: slots, promised⟩ next := by
  simp

@[simp] theorem flow_storeC :
    flow labels (.storeC :: rest) ⟨first :: second :: slots, promised⟩ next ↔
      first.Stores .integer second slots ∧ flow labels rest ⟨slots, promised⟩ next := by
  simp [Instruction.storeStep]

@[simp] theorem flow_storeF :
    flow labels (.storeF :: rest) ⟨first :: second :: slots, promised⟩ next ↔
      first.Stores .floating second slots ∧ flow labels rest ⟨slots, promised⟩ next := by
  simp [Instruction.storeStep]

@[simp] theorem flow_storeI :
    flow labels (.storeI :: rest) ⟨first :: second :: slots, promised⟩ next ↔
      (first.Stores .integer second slots ∨ first.Restores second) ∧
        flow labels rest ⟨slots, promised⟩ next := by
  simp [Instruction.storeStep]

@[simp] theorem flow_jump {name : String} :
    flow labels (.jump name :: rest) shape next ↔
      shape.Enters labels name ∧ ∃ other, flow labels rest other next := by
  simp

/-- Branches on an integer. -/
abbrev branches (name : String) : List Instruction :=
  [.jumpTrue name, .jumpFalse name, .jumpPos name, .jumpNeg name]

theorem flow_branch {instruction : Instruction} {name : String}
    (branch : instruction ∈ branches name) :
    flow labels (instruction :: rest) ⟨slot :: slots, promised⟩ next ↔
      slot.Fits .integer slots ∧ Shape.Enters labels name ⟨slots, promised⟩ ∧
        flow labels rest ⟨slots, promised⟩ next := by
  simp only [branches, List.mem_cons, List.not_mem_nil, or_false] at branch
  rcases branch with rfl | rfl | rfl | rfl <;> simp

@[simp] theorem flow_jumpTrue {name : String} :
    flow labels (.jumpTrue name :: rest) ⟨slot :: slots, promised⟩ next ↔
      slot.Fits .integer slots ∧ Shape.Enters labels name ⟨slots, promised⟩ ∧
        flow labels rest ⟨slots, promised⟩ next :=
  flow_branch (by simp)

@[simp] theorem flow_jumpFalse {name : String} :
    flow labels (.jumpFalse name :: rest) ⟨slot :: slots, promised⟩ next ↔
      slot.Fits .integer slots ∧ Shape.Enters labels name ⟨slots, promised⟩ ∧
        flow labels rest ⟨slots, promised⟩ next :=
  flow_branch (by simp)

@[simp] theorem flow_jumpPos {name : String} :
    flow labels (.jumpPos name :: rest) ⟨slot :: slots, promised⟩ next ↔
      slot.Fits .integer slots ∧ Shape.Enters labels name ⟨slots, promised⟩ ∧
        flow labels rest ⟨slots, promised⟩ next :=
  flow_branch (by simp)

@[simp] theorem flow_jumpNeg {name : String} :
    flow labels (.jumpNeg name :: rest) ⟨slot :: slots, promised⟩ next ↔
      slot.Fits .integer slots ∧ Shape.Enters labels name ⟨slots, promised⟩ ∧
        flow labels rest ⟨slots, promised⟩ next :=
  flow_branch (by simp)

@[simp] theorem flow_jumpFPos {name : String} :
    flow labels (.jumpFPos name :: rest) ⟨slot :: slots, promised⟩ next ↔
      slot.Fits .floating slots ∧ Shape.Enters labels name ⟨slots, promised⟩ ∧
        flow labels rest ⟨slots, promised⟩ next := by
  simp

@[simp] theorem flow_jumpFNeg {name : String} :
    flow labels (.jumpFNeg name :: rest) ⟨slot :: slots, promised⟩ next ↔
      slot.Fits .floating slots ∧ Shape.Enters labels name ⟨slots, promised⟩ ∧
        flow labels rest ⟨slots, promised⟩ next := by
  simp

@[simp] theorem flow_jumpFZero {name : String} :
    flow labels (.jumpFZero name :: rest) ⟨slot :: slots, promised⟩ next ↔
      slot.Fits .floating slots ∧ Shape.Enters labels name ⟨slots, promised⟩ ∧
        flow labels rest ⟨slots, promised⟩ next := by
  simp

@[simp] theorem flow_call {name : String} :
    flow labels (.call name :: rest) ⟨slots, promised⟩ next ↔
      ∃ kinds, Entry.kinds? name = some kinds ∧
        Slot.take kinds.1 slots fun others =>
          flow labels rest ⟨kinds.2.map Slot.ofKind ++ others, promised⟩ next := by
  have through (kinds : List WordKind × List WordKind) := Slot.exists_take slots kinds.1
    (fun others => ⟨kinds.2.map Slot.ofKind ++ others, promised⟩) fun last =>
      flow labels rest last next
  simp only [flow, Instruction.Step, ← through]
  constructor
  · rintro ⟨last, ⟨kinds, known, taken⟩, flows⟩
    exact ⟨kinds, known, last, taken, flows⟩
  · rintro ⟨kinds, known, last, taken, flows⟩
    exact ⟨last, ⟨kinds, known, taken⟩, flows⟩

@[simp] theorem flow_callV :
    flow labels (.callV :: rest) ⟨slot :: slots, promised⟩ next ↔
      slot.Fits .integer slots ∧ flow labels rest ⟨slots, promised⟩ next := by
  simp

@[simp] theorem flow_return :
    flow labels (.return :: rest) ⟨slots, promised⟩ next ↔
      (∃ slot : Slot, slot.Fits .integer [] ∧ slots = slot :: promised.map Slot.ofKind) ∧
        ∃ other, flow labels rest other next := by
  simp

@[simp] theorem flow_popPC :
    flow labels (.popPC :: rest) ⟨slots, promised⟩ next ↔
      (∃ slot : Slot, slot.Fits .integer [] ∧ slots = slot :: promised.map Slot.ofKind) ∧
        ∃ other, flow labels rest other next := by
  simp

@[simp] theorem flow_halt :
    flow labels (.halt :: rest) shape next ↔ ∃ other, flow labels rest other next := by
  simp

@[simp] theorem flow_printf {name : String} :
    flow labels (.printf :: rest) ⟨.place name :: slots, promised⟩ next ↔
      ∃ kinds, Cell.formatKinds name = some kinds ∧
        Slot.take kinds slots fun others => flow labels rest ⟨others, promised⟩ next := by
  have through kinds := Slot.exists_take slots kinds (⟨·, promised⟩) fun last =>
    flow labels rest last next
  simp only [flow, Instruction.Step, ← through]
  constructor
  · rintro ⟨last, ⟨_, _, kinds, same, known, taken⟩, flows⟩
    cases same
    exact ⟨kinds, known, last, taken, flows⟩
  · rintro ⟨kinds, known, last, taken, flows⟩
    exact ⟨last, ⟨_, _, kinds, rfl, known, taken⟩, flows⟩

@[simp] theorem flow_label {name : String} :
    flow labels (.label name :: rest) shape next ↔
      labels name = some shape ∧ flow labels rest shape next := by
  simp

@[simp] theorem flow_dataLabel {name : String} :
    flow labels (.dataLabel name :: rest) shape next ↔ flow labels rest shape next := by
  simp

@[simp] theorem flow_dataI {value : Int32} :
    flow labels (.dataI value :: rest) shape next ↔ flow labels rest shape next := by
  simp

@[simp] theorem flow_dataS {text : String} :
    flow labels (.dataS text :: rest) shape next ↔ flow labels rest shape next := by
  simp

@[simp] theorem flow_dataZ {size : Int32} :
    flow labels (.dataZ size :: rest) shape next ↔ flow labels rest shape next := by
  simp

end Code

end

end StackBackend
