import StackBackend.Proofs.Correctness
import StackBackend.Proofs.Invocation

namespace StackBackend

/-! Calls in the code of a program. The environment lays out the cells that the calling
convention goes through, so whatever the program calls comes back as the convention says. -/

open StackBackend.Frame

namespace Program

variable {program : Program} {options : CompileOptions} {code piece : Code} {image : Image}
  {limit : Option Nat} {floor top : Nat} {result : Ty} {value : List Word} {framePointer : Int32}
  {before after : Configuration}

theorem frame_cells (compiled : program.compile options = .ok code)
    (assembled : Image.assemble code = .ok image) (above : image.dataSize ≤ floor)
    (fits : floor ≤ 2147483648) : Cells image.word Frame.cells floor := by
  obtain ⟨body, composed⟩ := exists_composed compiled
  obtain ⟨withDiscard, before, after, rfl⟩ := composed.environment
  exact Image.cells_of_assemble assembled (fun name member =>
    ((Environment.lays_frameCells withDiscard member).right before).left after) above fits

/-- An invocation in a compiled program, with the frames above all data, comes back to right
behind its call with the pointers it had and ends with the value on the stack it had. No byte
at or above its stack pointer has changed. -/
theorem invocation_comes_back (compiled : program.compile options = .ok code)
    (assembled : Image.assemble code = .ok image) (addressable : image.Addressable)
    (above : image.dataSize ≤ floor) (fits : floor ≤ 2147483648)
    (invocation : Invocation image limit floor piece result value top framePointer before after) :
    ∃ returned,
      Returned image limit floor piece result value top framePointer before returned after :=
  invocation.returns (frame_cells compiled assembled above fits) addressable

/-! A function without parameters that answers seven. Its result is wider than its parameters
and takes the place of the words that lead back. -/

/-- Calls the function and drops the answer. -/
def answering : Program where
  globalSize := 0
  body := [.call (.typed .integer (.invocation (.typed (.lambda [] .integer)
    (.lambda [] [.return (some (.typed .integer (.integer 7)))] 0 0)) []))]

namespace Answer

def labels : LabelGroup := ⟨"lambda", 1⟩

def enter : Code :=
  Code.join [Code.loadWord Cell.stackPointer, Code.addOffset savedFrameOffset,
    Code.loadWord Cell.framePointer, [.storeI],
    Code.loadWord Cell.stackPointer, Code.addOffset returnAddressOffset, [.exchange, .storeI],
    Code.loadWord Cell.stackPointer, Code.storeWord Cell.framePointer, moveStackPointer (-8)]

/-- The body up to its jump to the exit. -/
def answer : Code :=
  Code.loadWord Cell.framePointer ++ [.pushI (-4), .add, .pushI 7]

def function : Code :=
  Form.lambdaCode labels enter (answer ++ [.jump (labels.label "return")]) 0 .integer

def call : Code :=
  Code.join [function, [.callV], Frame.result .integer]

theorem body_eq : blockCode {} answering.body 0 = .ok (call ++ Ty.integer.discard, 1) := rfl

theorem exists_image :
    ∃ code image pc, answering.compile ⟨true⟩ = .ok code ∧ Image.assemble code = .ok image ∧
      image.Addressable ∧ image.dataSize ≤ 65536 ∧ image.Holds call pc := by
  have plain : Plain answering.operations := by
    simp [Plain, answering, operations, blockOperations, Statement.operations, Expr.operations,
      Form.operations, exprsOperations]
  obtain ⟨code, image, body, _, pc, compiled, assembled, addressable, fits, made, holds⟩ :=
    exists_body_image (by decide +kernel) plain (by simp [answering])
  cases body_eq.symm.trans made
  exact ⟨code, image, pc, compiled, assembled, addressable, fits, (Image.holds_append.mp holds).1⟩

theorem size_function : function.size =
    1 + enter.size + answer.size + 1 + 1 + (leave 0 .integer).size + 1 := rfl

theorem exists_stands (cells : Cells image.word Frame.cells 65536) :
    ∃ memory framePointer, Stands image.word 65536 memory 65600 framePointer := by
  refine ⟨(Memory.zeros 65600).setWord (Address.index (image.word Cell.stackPointer)) 65600, _,
    ?_, rfl, by decide, ?_⟩
  · rw [stackWord, cells.word_set stackPointer_mem (show 65536 ≤ 65600 by decide)]
    decide
  · rw [Memory.size_setWord]
    exact Nat.le_refl _

theorem stands_outcome_enter {memory : Memory} (returnAddress : Int32)
    (cells : Cells image.word Frame.cells floor)
    (stands : Stands image.word floor memory top framePointer) (room : floor + 8 ≤ top) :
    ∃ below framePointer', Stands image.word floor
      (enter.outcome image.word [.integer returnAddress] memory) below framePointer' := by
  have entering : Frame.enter 0 = .ok enter := rfl
  obtain ⟨frameSize, size, enters⟩ := act_enter [] returnAddress cells entering stands room
  rw [Code.outcome_eq (Code.act_alone enters)]
  exact ⟨_, _, (entered_entered returnAddress cells stands size room).stands⟩

/-- Once the stack pointer is set, the call is an invocation. -/
theorem invocation_call {pc : Nat} {memory : Memory} (addressable : image.Addressable)
    (cells : Cells image.word Frame.cells 65536) (holds : image.Holds call pc)
    (stands : Stands image.word 65536 memory 65600 framePointer) :
    ∃ after, Invocation image none 65536 call .integer [.integer 7] 65600 framePointer
      ⟨pc, [], memory, .empty⟩ after := by
  -- The parts of the call in order.
  have parts := holds
  simp only [call, function, Form.lambdaCode, Ty.isVoid, Bool.false_eq_true, if_false,
    Code.join_cons, Code.join_nil, List.append_nil, List.nil_append, List.append_assoc,
    List.cons_append] at parts
  have skips := parts
  obtain ⟨_, parts⟩ := (Image.holds_cons rfl _ _).mp parts
  obtain ⟨_, parts⟩ := (Image.holds_label ..).mp parts
  obtain ⟨_, parts⟩ := Image.holds_append.mp parts
  obtain ⟨answers, parts⟩ := Image.holds_append.mp parts
  obtain ⟨jumps, parts⟩ := (Image.holds_cons rfl _ _).mp parts
  have returning : image.Holds (answer ++ [.jump (labels.label "return")])
      (pc + 1 + enter.size) :=
    Image.holds_append.mpr ⟨answers, (Image.holds_cons rfl [] _).mpr ⟨jumps, trivial⟩⟩
  obtain ⟨_, parts⟩ := (Image.holds_cons rfl _ _).mp parts
  obtain ⟨exits, parts⟩ := (Image.holds_label ..).mp parts
  obtain ⟨_, parts⟩ := Image.holds_append.mp parts
  obtain ⟨ends, parts⟩ := (Image.holds_label ..).mp parts
  obtain ⟨pushes, _⟩ := (Image.holds_cons rfl _ _).mp parts
  let called : Frame.Function image [] .integer :=
    { bindings := [], body := [.return (some (.typed .integer (.integer 7)))], localSize := 0
      last := 0, next := 1, fragment := .value function, start := pc, exit := _
      nonnegative := by decide, generated := rfl
      placed := (Image.holds_append.mp holds).1, exits := exits }
  have evaluated : Conduct image none 65536 Nothing ⟨pc, [], memory, .empty⟩
      ⟨pc + function.size, [.integer called.value], memory, .empty⟩ := by
    refine .step (Configuration.next_jump addressable skips ends) (.refl memory) ?_
    refine Conduct.straight ((Image.holds_cons rfl [] _).mpr ⟨pushes, trivial⟩)
      (by simp [Instruction.writes]) rfl ?_
    have position : pc + function.size = pc + 1 + enter.size + answer.size + 1 + 1 +
        (leave 0 .integer).size + 1 := by
      rw [size_function]
      omega
    rw [position]
    exact .done
  have conducted (returnAddress : Int32) : Conduct image none 65536 (Own 65600 0 0)
      ⟨pc + 1 + enter.size, [], enter.outcome image.word [.integer returnAddress] memory, .empty⟩
      ⟨called.exit, [.integer 7] ++ (slot (frameWord image.word
        (enter.outcome image.word [.integer returnAddress] memory)) (Parameters.size [])
        .integer ++ []), enter.outcome image.word [.integer returnAddress] memory, .empty⟩ := by
    obtain ⟨_, _, entered⟩ := stands_outcome_enter returnAddress cells stands (by decide)
    have generated : (Statement.return (some (.typed .integer (.integer 7)))).code
        { returnLabel := some (labels.label "return"), parameterSize := 0, result := .integer } 1 =
          .ok (answer ++ [.jump (labels.label "return")], 1) := rfl
    refine conducts_return cells addressable rfl rfl rfl rfl generated returning entered .done
      fun valueCode here valued holdsValue => ?_
    cases valued
    exact .straight holdsValue (by decide) rfl .done
  have room : 65536 + called.localWidth + 8 + Parameters.width [] ≤ 65600 :=
    show 65536 + 0 + 8 + 0 ≤ 65600 by decide
  have generated : invoke function [] .integer = .ok call := rfl
  have entering : Frame.enter called.localSize = .ok enter := rfl
  have calls : pc + function.size = pc + (passCodes []).size + function.size := rfl
  have admits : Ty.integer.Admits [.integer 7] := ⟨_, rfl, by decide⟩
  exact ⟨_, .intro generated holds entering stands room calls .nil evaluated (conducted _) admits⟩

theorem comes_back :
    ∃ code image pc memory framePointer returned after, answering.compile ⟨true⟩ = .ok code ∧
      Image.assemble code = .ok image ∧ image.Addressable ∧ image.dataSize ≤ 65536 ∧
      Invocation image none 65536 call .integer [.integer 7] 65600 framePointer
        ⟨pc, [], memory, .empty⟩ after ∧
      Returned image none 65536 call .integer [.integer 7] 65600 framePointer
        ⟨pc, [], memory, .empty⟩ returned after := by
  obtain ⟨code, image, pc, compiled, assembled, addressable, fits, holds⟩ := exists_image
  have cells := frame_cells compiled assembled fits (by decide)
  obtain ⟨memory, framePointer, stands⟩ := exists_stands cells
  obtain ⟨after, invocation⟩ := invocation_call addressable cells holds stands
  obtain ⟨returned, back⟩ := invocation_comes_back compiled assembled addressable fits (by decide)
    invocation
  exact ⟨code, image, pc, memory, framePointer, returned, after, compiled, assembled, addressable,
    fits, invocation, back⟩

end Answer

end Program

end StackBackend
