import StackBackend.Proofs.TreeFlow

namespace StackBackend

/-! The shapes of the environment: the fault handlers, the subroutines and the heap
manager. A subroutine is entered with its return address on top of what it takes.
Control reaches each of them at its own labels only, so the code before the first
label may end with any shape. -/

open Code Labels

section

variable {labels : Labels} {rest : Code} {next : Shape → Prop}

namespace Labels

/-- The labels have these shapes. -/
def Has (labels : Labels) (shapes : List (String × Shape)) : Prop :=
  ∀ entry ∈ shapes, labels entry.1 = some entry.2

theorem has_cons {name : String} {shape : Shape} {shapes : List (String × Shape)} :
    labels.Has ((name, shape) :: shapes) ↔ labels name = some shape ∧ labels.Has shapes :=
  List.forall_mem_cons

theorem has_append {first second : List (String × Shape)} :
    labels.Has (first ++ second) ↔ labels.Has first ∧ labels.Has second :=
  List.forall_mem_append

end Labels

@[simp] theorem Environment.flow_wordCells {names : List String} {shape : Shape} :
    flow labels (wordCells names ++ rest) shape next ↔ flow labels rest shape next := by
  unfold wordCells
  induction names with
  | nil => simp
  | cons name names induction => simpa using induction

/-! ## Subroutines -/

def ClearBytes.shapes : List (String × Shape) :=
  [(Entry.clearBytes, ⟨[.integer, .integer, .integer], []⟩), (loop, ⟨[], []⟩), (exit, ⟨[], []⟩)]

theorem ClearBytes.flow_code (known : labels.Has shapes)
    (goesOn : ∃ other, flow labels rest other next) :
    ∃ first, flow labels (code ++ rest) first next := by
  simp only [shapes, has_cons] at known
  refine ⟨⟨[.integer, .integer, .integer], []⟩, ?_⟩
  simpa [code, known] using goesOn

def CopyBytes.shapes : List (String × Shape) :=
  [(Entry.copyBytes, ⟨[.integer, .integer, .integer, .integer], []⟩), (loop, ⟨[], []⟩),
    (exit, ⟨[], []⟩)]

theorem CopyBytes.flow_code (known : labels.Has shapes)
    (goesOn : ∃ other, flow labels rest other next) :
    ∃ first, flow labels (code ++ rest) first next := by
  simp only [shapes, has_cons] at known
  refine ⟨⟨[.integer, .integer, .integer, .integer], []⟩, ?_⟩
  simpa [code, known] using goesOn

def LowestTerms.shapes : List (String × Shape) :=
  [(Entry.lowestTerms, ⟨[.integer, .integer, .integer], [.integer, .integer]⟩),
    (nonzero, ⟨[], [.integer, .integer]⟩), (positive, ⟨[], [.integer, .integer]⟩),
    (divisor, ⟨[], [.integer, .integer]⟩), (loop, ⟨[], [.integer, .integer]⟩),
    (reduce, ⟨[], [.integer, .integer]⟩), (exit, ⟨[.integer, .integer], [.integer, .integer]⟩)]

theorem LowestTerms.flow_code (known : labels.Has shapes)
    (goesOn : ∃ other, flow labels rest other next) :
    ∃ first, flow labels (code ++ rest) first next := by
  simp only [shapes, has_cons] at known
  refine ⟨⟨[.integer, .integer, .integer], [.integer, .integer]⟩, ?_⟩
  simpa [code, known] using goesOn

def DiscardRecord.shapes : List (String × Shape) :=
  [(Entry.discardRecord, ⟨[.integer, .integer], []⟩), (skip, ⟨[.integer, .integer], []⟩),
    (release, ⟨[.integer, .integer], []⟩),
    (loop, ⟨[.integer, .integer, .integer, .integer], []⟩),
    (loopEnd, ⟨[.integer, .integer, .integer, .integer], []⟩)]

/-- The words that the routine saves for itself are not among the shared ones. -/
theorem DiscardRecord.flow_code (known : labels.Has shapes)
    (goesOn : ∃ other, flow labels rest other next) :
    ∃ first, flow labels (code ++ rest) first next := by
  simp only [shapes, has_cons] at known
  refine ⟨⟨[.integer, .integer], []⟩, ?_⟩
  simpa [code, bracket, Bracket.save, Bracket.restore, known] using goesOn

/-! ## Heap manager -/

namespace Heap

def shapes : List (String × Shape) :=
  [(Entry.allocate, ⟨[.integer, .integer], [.integer]⟩), (search, ⟨[], [.integer]⟩),
    (Heap.next, ⟨[], [.integer]⟩), (unlinkHead, ⟨[], [.integer]⟩), (found, ⟨[], [.integer]⟩),
    (bump, ⟨[], [.integer]⟩), (exit, ⟨[.integer], [.integer]⟩),
    (Entry.deallocate, ⟨[.integer, .integer], []⟩)]

theorem flow_initialization {shape : Shape} :
    flow labels (initialization ++ rest) shape next ↔ flow labels rest shape next := by
  have address : Slot.pushed Cell.heap = .integer := by decide
  obtain ⟨slots, promised⟩ := shape
  simp [initialization, address]

theorem flow_manager (known : labels.Has shapes) (goesOn : ∃ other, flow labels rest other next) :
    ∃ first, flow labels (manager ++ rest) first next := by
  simp only [shapes, has_cons] at known
  refine ⟨⟨[.integer, .integer], [.integer]⟩, ?_⟩
  simpa [manager, cells, allocate, deallocate, known] using goesOn

end Heap

/-! ## Faults -/

namespace Environment

def faultShapes : List (String × Shape) :=
  (generalFault, ⟨[.integer], []⟩) :: Fault.all.map fun fault => (fault.handler, ⟨[], []⟩)

theorem flow_handlers {faults : List Fault} (general : labels generalFault = some ⟨[.integer], []⟩)
    (known : ∀ fault ∈ faults, labels fault.handler = some ⟨[], []⟩)
    (goesOn : ∃ other, flow labels rest other next) :
    ∃ first, flow labels (faults.flatMap faultHandler ++ rest) first next := by
  have message : ∀ fault : Fault, Slot.pushed fault.messageCell = .integer := by
    intro fault
    cases fault <;> decide
  induction faults with
  | nil => exact goesOn
  | cons fault faults induction =>
      have others := induction fun other member => known other (by simp [member])
      refine ⟨⟨[], []⟩, ?_⟩
      simpa [faultHandler, known fault (by simp), message, general] using others

theorem flow_faultHandlers (known : labels.Has faultShapes)
    (goesOn : ∃ other, flow labels rest other next) :
    ∃ first, flow labels (faultHandlers ++ rest) first next := by
  rw [faultShapes, has_cons] at known
  obtain ⟨general, handlers⟩ := known
  have format : Slot.pushed generalFaultFormat = .place generalFaultFormat := by decide
  have faults := flow_handlers general
    (fun fault (member : fault ∈ Fault.all) => handlers _ (List.mem_map_of_mem member)) goesOn
  refine ⟨⟨[.integer], []⟩, ?_⟩
  simpa [faultHandlers, general, format] using faults

/-! ## The environment -/

/-- The labels of the environment and of the heap manager. -/
def shapes : List (String × Shape) :=
  (Entry.main, ⟨[], []⟩) :: (faultShapes ++ ClearBytes.shapes ++ CopyBytes.shapes ++
    LowestTerms.shapes ++ DiscardRecord.shapes ++ Heap.shapes)

theorem flow_texts {texts : List (String × String)} {shape : Shape} :
    flow labels ((texts.flatMap fun (label, text) => [.dataLabel label, .dataS text]) ++ rest) shape
        next ↔
      flow labels rest shape next := by
  induction texts with
  | nil => simp
  | cons text texts induction => simpa using induction

theorem flow_scratch {cells : List (String × Int32)} {shape : Shape} :
    flow labels ((cells.flatMap fun (label, size) => [.dataLabel label, .dataZ size]) ++ rest) shape
        next ↔
      flow labels rest shape next := by
  induction cells with
  | nil => simp
  | cons cell cells induction => simpa using induction

theorem flow_code (withDiscard : Bool) (known : labels.Has shapes)
    (goesOn : ∃ other, flow labels rest other next) :
    flow labels (code withDiscard ++ rest) ⟨[], []⟩ next := by
  simp only [shapes, has_cons, has_append] at known
  obtain ⟨mainKnown, ⟨⟨⟨⟨faultsKnown, clearKnown⟩, copyKnown⟩, termsKnown⟩, discardKnown⟩, _⟩ :=
    known
  have discard : ∃ first,
      flow labels ((if withDiscard then DiscardRecord.code else []) ++ rest) first next := by
    cases withDiscard with
    | true => exact DiscardRecord.flow_code discardKnown goesOn
    | false => exact goesOn
  have routines := flow_faultHandlers faultsKnown (ClearBytes.flow_code clearKnown
    (CopyBytes.flow_code copyKnown (LowestTerms.flow_code termsKnown discard)))
  simpa [code, mainKnown, flow_texts, flow_scratch] using routines

end Environment

end

end StackBackend
