import StackBackend.Proofs.Calling
import StackBackend.Proofs.Shape

namespace StackBackend

/-! How the short sequences that all code is put together from change the shape of
the operand stack. Each statement goes on with the rest of the code, so that
longer pieces are evaluated from left to right. -/

/-! ## Words -/

namespace Ty

/-- The words of a value on the operand stack, topmost first. -/
def slots : Ty → List Slot
  | .void => []
  | .floating => [.floating]
  | .rational => [.integer, .integer]
  | .boolean | .character | .integer | .string | .array _ | .lambda .. => [.integer]

end Ty

section

variable {labels : Labels} {shape : Shape} {slot first second : Slot} {slots : List Slot}
  {promised : List WordKind} {rest : Code} {next : Shape → Prop} {cell : String}

namespace Shape

@[simp] theorem enters_handler {fault : Fault} : Enters labels fault.handler shape ↔ True := by
  simp only [Enters, iff_true]
  exact .inl ⟨fault, rfl⟩

@[simp] theorem enters_of_eq {name : String} (known : labels name = some shape) :
    Enters labels name shape :=
  .inr known

end Shape

namespace Slot

@[simp] theorem take_nil {next : List Slot → Prop} : take [] slots next ↔ next slots := Iff.rfl

@[simp] theorem take_cons {kind : WordKind} {kinds : List WordKind} {next : List Slot → Prop} :
    take (kind :: kinds) (slot :: slots) next ↔ slot.Fits kind slots ∧ take kinds slots next :=
  Iff.rfl

@[simp] theorem ofKind_integer : ofKind .integer = .integer := rfl

@[simp] theorem ofKind_floating : ofKind .floating = .floating := rfl

@[simp] theorem loaded_integer : Slot.integer.loaded = .integer := rfl

@[simp] theorem loaded_content : (Slot.content cell).loaded = .integer := rfl

@[simp] theorem not_fits_floating : Slot.floating.Fits .integer slots ↔ False := by
  simp [Fits, kind]

@[simp] theorem pushed_shared (member : cell ∈ Cell.shared) : pushed cell = .place cell := by
  rw [pushed, if_pos (.inl member)]

@[simp] theorem pushed_unshared (member : cell ∈ Cell.unshared) : pushed cell = .place cell := by
  rw [pushed, if_pos (.inr (.inl member))]

@[simp] theorem loaded_shared (member : cell ∈ Cell.shared) :
    (Slot.place cell).loaded = .content cell := by
  rw [loaded, if_pos member]

@[simp] theorem loaded_unshared (member : cell ∈ Cell.unshared) :
    (Slot.place cell).loaded = .integer := by
  rw [loaded, if_neg (Cell.not_shared_of_unshared cell member)]

variable {kind : WordKind}

@[simp] theorem stores_integer :
    first.Stores kind .integer slots ↔ first.Fits kind (.integer :: slots) := by
  simp [Stores]

@[simp] theorem stores_content :
    first.Stores kind (.content cell) slots ↔
      first.Fits kind (.content cell :: slots) ∧ .content cell ∈ slots := by
  simp [Stores]

@[simp] theorem stores_unshared (member : cell ∈ Cell.unshared) :
    first.Stores kind (.place cell) slots ↔ first.Fits kind slots := by
  simp [Stores, Cell.not_shared_of_unshared cell member]

@[simp] theorem not_restores_integer : first.Restores .integer ↔ False := by
  simp [Restores]

@[simp] theorem not_restores_content : first.Restores (.content cell) ↔ False := by
  simp [Restores]

@[simp] theorem not_restores_unshared (member : cell ∈ Cell.unshared) :
    first.Restores (.place cell) ↔ False := by
  simp only [Restores, Slot.place.injEq, iff_false, not_exists, not_and]
  rintro other shared rfl
  exact absurd shared (Cell.not_shared_of_unshared cell member)

end Slot

/-! ## Cells and offsets -/

namespace Code

@[simp] theorem flow_loadWord_unshared (member : cell ∈ Cell.unshared) :
    flow labels (loadWord cell ++ rest) ⟨slots, promised⟩ next ↔
      flow labels rest ⟨.integer :: slots, promised⟩ next := by
  simp [loadWord, member, -List.mem_cons]

@[simp] theorem flow_loadWord_shared (member : cell ∈ Cell.shared) :
    flow labels (loadWord cell ++ rest) ⟨slots, promised⟩ next ↔
      flow labels rest ⟨.content cell :: slots, promised⟩ next := by
  simp [loadWord, member, -List.mem_cons]

@[simp] theorem flow_storeWord_unshared (member : cell ∈ Cell.unshared) :
    flow labels (storeWord cell ++ rest) ⟨slot :: slots, promised⟩ next ↔
      slot.Fits .integer slots ∧ flow labels rest ⟨slots, promised⟩ next := by
  simp [storeWord, member, -List.mem_cons]

/-- A shared word takes back what it held, or keeps it on the stack. -/
@[simp] theorem flow_storeWord_shared (member : cell ∈ Cell.shared) :
    flow labels (storeWord cell ++ rest) ⟨slot :: slots, promised⟩ next ↔
      (slot = .content cell ∨ slot.Fits .integer slots ∧ .content cell ∈ slots) ∧
        flow labels rest ⟨slots, promised⟩ next := by
  have restores : slot.Restores (.place cell) ↔ slot = .content cell := by
    constructor
    · rintro ⟨_, _, same, rfl⟩
      cases same
      rfl
    · rintro rfl
      exact ⟨cell, member, rfl, rfl⟩
  simp [storeWord, member, restores, Slot.Stores, or_comm, -List.mem_cons]

@[simp] theorem flow_increment_unshared (member : cell ∈ Cell.unshared) :
    flow labels (increment cell ++ rest) ⟨slots, promised⟩ next ↔
      flow labels rest ⟨slots, promised⟩ next := by
  simp [increment, member, -List.mem_cons]

@[simp] theorem flow_increment_shared (member : cell ∈ Cell.shared) :
    flow labels (increment cell ++ rest) ⟨slots, promised⟩ next ↔
      .content cell ∈ slots ∧ flow labels rest ⟨slots, promised⟩ next := by
  simp [increment, member, Slot.Stores, Slot.Restores, -List.mem_cons]
  exact fun kept _ => List.mem_cons_of_mem _ kept

@[simp] theorem flow_decrement_unshared (member : cell ∈ Cell.unshared) :
    flow labels (decrement cell ++ rest) ⟨slots, promised⟩ next ↔
      flow labels rest ⟨slots, promised⟩ next := by
  simp [decrement, member, -List.mem_cons]

@[simp] theorem flow_addOffset {offset : Int32} :
    flow labels (addOffset offset ++ rest) ⟨.integer :: slots, promised⟩ next ↔
      flow labels rest ⟨.integer :: slots, promised⟩ next := by
  unfold addOffset
  split <;> simp

theorem flow_addOffset_of_ne {offset : Int32} (nonzero : offset ≠ 0) :
    flow labels (addOffset offset ++ rest) ⟨slot :: slots, promised⟩ next ↔
      slot.Fits .integer slots ∧ flow labels rest ⟨.integer :: slots, promised⟩ next := by
  rw [addOffset, if_neg nonzero]
  simp

@[simp] theorem flow_readWord {offset : Int32} :
    flow labels (readWord offset ++ rest) ⟨.integer :: slots, promised⟩ next ↔
      flow labels rest ⟨.integer :: slots, promised⟩ next := by
  simp [readWord]

@[simp] theorem flow_readWord_content {offset : Int32} :
    flow labels (readWord offset ++ rest) ⟨.content cell :: slots, promised⟩ next ↔
      .content cell ∈ slots ∧ flow labels rest ⟨.integer :: slots, promised⟩ next := by
  unfold readWord addOffset
  split <;> simp

@[simp] theorem flow_writeWord {offset : Int32} :
    flow labels (writeWord offset ++ rest) ⟨.integer :: .integer :: slots, promised⟩ next ↔
      flow labels rest ⟨slots, promised⟩ next := by
  unfold writeWord
  split <;> simp

/-! ## Values -/

theorem flow_loadCode {type : Ty} (isValue : type.isVoid = false) :
    flow labels (type.loadCode ++ rest) ⟨.integer :: slots, promised⟩ next ↔
      flow labels rest ⟨type.slots ++ slots, promised⟩ next := by
  cases type <;> cases isValue <;> simp [Ty.loadCode, Ty.slots]

/-- The address may be a shared word that stays on the stack. -/
theorem flow_storeCode {type : Ty} (isValue : type.isVoid = false)
    (computed : ∀ cell, slot ≠ .place cell) :
    flow labels (type.storeCode ++ rest) ⟨type.slots ++ slot :: slots, promised⟩ next ↔
      slot.Fits .integer slots ∧ flow labels rest ⟨slots, promised⟩ next := by
  cases slot with
  | place cell => exact absurd rfl (computed cell)
  | floating =>
      cases type <;> cases isValue <;>
        simp [Ty.storeCode, Ty.slots, Slot.Stores, Slot.Restores]
  | integer => cases type <;> cases isValue <;> simp [Ty.storeCode, Ty.slots]
  | content cell => cases type <;> cases isValue <;> simp [Ty.storeCode, Ty.slots]

theorem flow_stash {type : Ty} (member : cell ∈ Cell.unshared) :
    flow labels (type.stash cell ++ rest) ⟨type.slots ++ slots, promised⟩ next ↔
      flow labels rest ⟨slots, promised⟩ next := by
  cases type <;> simp [Ty.stash, Ty.storeCode, Ty.slots, member, -List.mem_cons]

theorem flow_unstash {type : Ty} (member : cell ∈ Cell.unshared) :
    flow labels (type.unstash cell ++ rest) ⟨slots, promised⟩ next ↔
      flow labels rest ⟨type.slots ++ slots, promised⟩ next := by
  cases type <;> simp [Ty.unstash, Ty.loadCode, Ty.slots, member, -List.mem_cons]

@[simp] theorem flow_discard {type : Ty} :
    flow labels (type.discard ++ rest) ⟨type.slots ++ slots, promised⟩ next ↔
      flow labels rest ⟨slots, promised⟩ next := by
  cases type <;> simp [Ty.discard, Ty.stackWords, Ty.slots, List.replicate]

end Code

/-! ## Subroutines and formats -/

namespace Entry

@[simp] theorem kinds?_clearBytes : kinds? clearBytes = some ([.integer, .integer], []) := by
  decide

@[simp] theorem kinds?_copyBytes :
    kinds? copyBytes = some ([.integer, .integer, .integer], []) := by
  decide

@[simp] theorem kinds?_lowestTerms :
    kinds? lowestTerms = some ([.integer, .integer], [.integer, .integer]) := by
  decide

@[simp] theorem kinds?_discardRecord : kinds? discardRecord = some ([.integer], []) := by
  decide

@[simp] theorem kinds?_allocate : kinds? allocate = some ([.integer], [.integer]) := by
  decide

@[simp] theorem kinds?_deallocate : kinds? deallocate = some ([.integer], []) := by
  decide

end Entry

namespace Cell

/-- The texts without conversions. -/
abbrev plainTexts : List String :=
  [newlineText, spaceText, tabText, minusText, underscoreText, slashText, openBracketText,
    closeBracketText, separatorText, lambdaText]

/-- The formats of values and of faults take one word each, and the plain texts take none. -/
theorem formatKinds_texts : (∀ label ∈ plainTexts, formatKinds label = some []) ∧
    formatKinds integerFormat = some [.integer] ∧
    formatKinds floatingFormat = some [.floating] ∧
    formatKinds characterFormat = some [.integer] ∧
    formatKinds stringFormat = some [.integer] ∧
    formatKinds Environment.generalFaultFormat = some [.integer] := by
  decide +kernel

@[simp] theorem formatKinds_plain {label : String} (member : label ∈ plainTexts) :
    formatKinds label = some [] :=
  formatKinds_texts.1 label member

@[simp] theorem formatKinds_integer : formatKinds integerFormat = some [.integer] :=
  formatKinds_texts.2.1

@[simp] theorem formatKinds_floating : formatKinds floatingFormat = some [.floating] :=
  formatKinds_texts.2.2.1

@[simp] theorem formatKinds_character : formatKinds characterFormat = some [.integer] :=
  formatKinds_texts.2.2.2.1

@[simp] theorem formatKinds_string : formatKinds stringFormat = some [.integer] :=
  formatKinds_texts.2.2.2.2.1

@[simp] theorem formatKinds_generalFault :
    formatKinds Environment.generalFaultFormat = some [.integer] :=
  formatKinds_texts.2.2.2.2.2

theorem mem_formats_of_formatKinds {label : String} {kinds : List WordKind}
    (known : formatKinds label = some kinds) : label ∈ formats.map Prod.fst := by
  obtain ⟨text, found, _⟩ := Option.map_eq_some_iff.mp known
  obtain ⟨front, back, same, _⟩ := List.lookup_eq_some_iff.mp found
  rw [same]
  simp

end Cell

namespace Code

open Record

@[simp] theorem flow_printText {label : String} :
    flow labels (Printing.printText label ++ rest) ⟨slots, promised⟩ next ↔
      ∃ kinds, Cell.formatKinds label = some kinds ∧
        Slot.take kinds slots fun others => flow labels rest ⟨others, promised⟩ next := by
  cases known : Cell.formatKinds label with
  | some kinds =>
      have member := Cell.mem_formats_of_formatKinds known
      simp [Printing.printText, Slot.pushed, member, known, -List.mem_cons]
  | none =>
      simp only [Printing.printText, List.cons_append, List.nil_append, flow_pushD, reduceCtorEq,
        false_and, exists_false, iff_false]
      unfold Slot.pushed
      split
      · simp [known]
      · rintro ⟨_, step, _⟩
        simp [Instruction.Step] at step

/-! ## Records -/

@[simp] theorem flow_nullCheck :
    flow labels (nullCheck ++ rest) ⟨.integer :: slots, promised⟩ next ↔
      flow labels rest ⟨.integer :: slots, promised⟩ next := by
  simp [nullCheck]

@[simp] theorem flow_elementAddress {headerSize elementSize : Int32} :
    flow labels (elementAddress headerSize elementSize ++ rest) ⟨first :: second :: slots, promised⟩
        next ↔
      first.Fits .integer (second :: slots) ∧ second.Fits .integer slots ∧
        flow labels rest ⟨.integer :: slots, promised⟩ next := by
  unfold elementAddress
  split <;> simp

@[simp] theorem flow_allocateRecord {typeId status : Int32} :
    flow labels (allocateRecord typeId status ++ rest) ⟨.integer :: slots, promised⟩ next ↔
      flow labels rest ⟨.integer :: slots, promised⟩ next := by
  simp [allocateRecord]

@[simp] theorem flow_allocateEmptyArray {status elementSize : Int32} :
    flow labels (allocateEmptyArray status elementSize ++ rest) ⟨slot :: slots, promised⟩ next ↔
      slot.Fits .integer slots ∧ flow labels rest ⟨.integer :: slots, promised⟩ next := by
  cases slot <;> simp [allocateEmptyArray]

@[simp] theorem flow_allocateString {status : Int32} :
    flow labels (allocateString status ++ rest) ⟨.integer :: slots, promised⟩ next ↔
      flow labels rest ⟨.integer :: slots, promised⟩ next := by
  simp [allocateString]

/-! ## Frames -/

@[simp] theorem flow_reserve {type : Ty} :
    flow labels (Frame.reserve type ++ rest) ⟨slots, promised⟩ next ↔
      flow labels rest ⟨.integer :: slots, promised⟩ next := by
  simp [Frame.reserve]

@[simp] theorem flow_result {type : Ty} :
    flow labels (Frame.result type ++ rest) ⟨slots, promised⟩ next ↔
      flow labels rest ⟨type.slots ++ slots, promised⟩ next := by
  unfold Frame.result
  cases isVoid : type.isVoid with
  | true =>
      cases type <;> cases isVoid
      simp [Ty.slots]
  | false => simp [flow_loadCode isVoid]

theorem flow_enter {localSize : Int32} {code : Code}
    (generated : Frame.enter localSize = .ok code) :
    flow labels (code ++ rest) ⟨.integer :: slots, promised⟩ next ↔
      flow labels rest ⟨slots, promised⟩ next := by
  obtain ⟨frameSize, _, rfl⟩ := Frame.enter_eq_ok generated
  simp [Frame.moveStackPointer]

/-- What the exit of a function is entered with: the slot of the result and the
result. -/
def returned (result : Ty) : List Slot :=
  if result.isVoid then [] else result.slots ++ [.integer]

theorem flow_leave {parameterSize : Int32} {result : Ty} :
    flow labels (Frame.leave parameterSize result ++ rest) ⟨returned result, []⟩ next ↔
      ∃ other, flow labels rest other next := by
  cases isVoid : result.isVoid with
  | true =>
      cases result <;> cases isVoid
      simp [Frame.leave, returned, Ty.isVoid, Ty.storeCode]
  | false => simp [Frame.leave, returned, isVoid, flow_storeCode isVoid]

/-! ## Pieces -/

/-- Code that leads to a shape can be followed by what goes on from there. -/
theorem Flows.flow {code : Code} {last : Shape} (flows : Flows labels shape code last)
    (goesOn : flow labels rest last next) : flow labels (code ++ rest) shape next := by
  rw [flow_append]
  refine flow_mono (fun between same => ?_) flows
  subst same
  exact goesOn

theorem flows_of_flow {code : Code} {last : Shape}
    (flows : ∀ rest next, flow labels rest last next → flow labels (code ++ rest) shape next) :
    Flows labels shape code last := by
  have whole := flows [] (· = last) rfl
  rwa [List.append_nil] at whole

theorem Flows.append {front back : Code} {between last : Shape}
    (left : Flows labels shape front between) (right : Flows labels between back last) :
    Flows labels shape (front ++ back) last :=
  left.flow right

end Code

end

end StackBackend
