import StackBackend.Proofs.Balance
import StackBackend.Proofs.EnvironmentFlow

namespace StackBackend

/-! The discipline of the operand stack in the code of a whole program. -/

open Code Labels Generation

/-! ## Assignments -/

namespace Code

/-- Shapes for the places of a piece of code, one before every instruction and one
behind the last, together with the shapes of the labels. -/
structure Assignment (code : Code) where
  labels : Labels
  shapes : Nat → Shape
  step : ∀ index (inside : index < code.length),
    (code.get ⟨index, inside⟩).Step labels (shapes index) (shapes (index + 1))

/-- Code in front of a piece that has shapes: the places of the piece keep theirs. -/
theorem Flows.exists_assignment {front back : Code} {first : Shape} (behind : Assignment back)
    (flows : Flows behind.labels first front (behind.shapes 0)) :
    ∃ assignment : Assignment (front ++ back), assignment.labels = behind.labels ∧
      assignment.shapes 0 = first ∧
      ∀ index, assignment.shapes (front.length + index) = behind.shapes index := by
  induction front generalizing first with
  | nil => exact ⟨behind, rfl, flows.symm, fun index => by simp⟩
  | cons instruction rest induction =>
      obtain ⟨between, step, flows⟩ := flows
      obtain ⟨assignment, same, rfl, places⟩ := induction flows
      refine ⟨⟨assignment.labels, Nat.rec first fun index _ => assignment.shapes index, ?_⟩, same,
        rfl, fun index => ?_⟩
      · intro index inside
        cases index with
        | zero => exact same ▸ step
        | succ index => exact assignment.step index (Nat.lt_of_succ_lt_succ inside)
      · simpa [Nat.add_right_comm] using places index

theorem exists_assignment {labels : Labels} {code : Code} {first : Shape} {next : Shape → Prop}
    (flows : flow labels code first next) :
    ∃ assignment : Assignment code, assignment.labels = labels ∧ assignment.shapes 0 = first := by
  induction code generalizing first with
  | nil =>
      exact ⟨⟨labels, fun _ => first, fun _ inside => absurd inside (Nat.not_lt_zero _)⟩, rfl, rfl⟩
  | cons instruction rest induction =>
      obtain ⟨between, step, flows⟩ := flows
      obtain ⟨assignment, rfl, rfl⟩ := induction flows
      have steps : Flows assignment.labels first [instruction] (assignment.shapes 0) :=
        ⟨_, step, rfl⟩
      exact (steps.exists_assignment assignment).imp fun _ found => ⟨found.1, found.2.1⟩

end Code

/-! ## Programs -/

namespace Program

variable {program : Program} {options : CompileOptions} {code : Code}

theorem mainCode_eq_ok :
    program.mainCode = .ok code ↔
      ∃ body last, blockCode {} program.body 0 = .ok (body, last) ∧
        code = [.dataLabel Cell.globalBlock, .dataZ program.globalSize, .label Entry.main] ++
          body ++ [.halt] := by
  unfold mainCode
  simp only [StateT.run, Except.bind_eq_ok, Except.pure_eq_ok, Prod.exists]

theorem compile_eq_ok :
    program.compile options = .ok code ↔
      ∃ main, program.mainCode = .ok main ∧
        code = Code.join [if options.memoryManager then Heap.initialization else [],
          Environment.code options.memoryManager, main,
          if options.memoryManager then Heap.manager else []] := by
  unfold compile
  simp only [Except.bind_eq_ok, Except.pure_eq_ok]

/-- What stands before the code of the statements of a program. -/
def prologue (program : Program) (options : CompileOptions) : Code :=
  Code.join [if options.memoryManager then Heap.initialization else [],
    Environment.code options.memoryManager,
    [.dataLabel Cell.globalBlock, .dataZ program.globalSize, .label Entry.main]]

/-- What stands behind it. -/
def epilogue (options : CompileOptions) : Code :=
  .halt :: if options.memoryManager then Heap.manager else []

/-- The code of the statements. -/
def bodyCode (program : Program) : Generation Code :=
  blockCode {} program.body

theorem compile_eq_ok_body : program.compile options = .ok code ↔
    ∃ body last, program.bodyCode 0 = .ok (body, last) ∧
      code = program.prologue options ++ (body ++ epilogue options) := by
  rw [compile_eq_ok]
  constructor
  · rintro ⟨main, made, rfl⟩
    obtain ⟨body, last, bodyMade, rfl⟩ := mainCode_eq_ok.mp made
    exact ⟨body, last, bodyMade, by simp [prologue, epilogue]⟩
  · rintro ⟨body, last, made, rfl⟩
    exact ⟨_, mainCode_eq_ok.mpr ⟨body, last, made, rfl⟩, by simp [prologue, epilogue]⟩

/-- The types of the values that return statements in the program carry. -/
def returnTypes (program : Program) : List Ty :=
  blockReturnTypes program.body

/-- The labels of the environment carry no serial numbers, so they never meet those
of the program. -/
theorem exists_has {next : Nat} {property : Labels → Prop}
    (provides : Provides 0 next property) :
    ∃ labels : Labels, labels.Has Environment.shapes ∧ labels.EntersFunctions ∧
      property labels := by
  obtain ⟨_, own, range, enters, holds⟩ := provides
  have plain : ∀ entry ∈ Environment.shapes, LabelGroup.digitFree entry.1 = true := by
    decide +kernel
  have lookup : ∀ entry ∈ Environment.shapes,
      Environment.shapes.lookup entry.1 = some entry.2 := by decide +kernel
  refine ⟨fun name => own name <|> Environment.shapes.lookup name, fun entry member => ?_,
    fun serial shape found => ?_, holds _ fun name shape found => by simp [found]⟩
  · have notOwn : own entry.1 = none := by
      cases found : own entry.1 with
      | none => rfl
      | some shape =>
          have serial := range entry.1 (by simp [found])
          have zero := LabelGroup.serialOf_of_digitFree (plain entry member)
          omega
    simp [notOwn, lookup entry member]
  · cases known : own (LabelGroup.label ⟨"lambda", serial⟩ "start") with
    | some first => exact enters serial shape (by simpa [known] using found)
    | none =>
        -- The entry of a function has a number, and the environment has none.
        simp only [known] at found
        obtain ⟨front, back, same, _⟩ := List.lookup_eq_some_iff.mp found
        have free := plain (LabelGroup.label ⟨"lambda", serial⟩ "start", shape) (by rw [same]; simp)
        have digits : "lambda".toList.all (!·.isDigit) = true := by decide
        have number : 0 = serial :=
          (LabelGroup.serialOf_of_digitFree free).symm.trans (LabelGroup.serialOf_label digits "start")
        have numbered : LabelGroup.digitFree (LabelGroup.label ⟨"lambda", 0⟩ "start") = false := by
          decide
        subst number
        cases numbered.symm.trans free

theorem flows_prologue {labels : Labels} (known : labels.Has Environment.shapes) :
    Flows labels ⟨[], []⟩ (program.prologue options) ⟨[], []⟩ := by
  refine flows_of_flow fun rest next goesOn => ?_
  have mainKnown : labels Entry.main = some ⟨[], []⟩ := known _ (List.mem_cons_self ..)
  have environment : flow labels (Environment.code options.memoryManager ++
      ([.dataLabel Cell.globalBlock, .dataZ program.globalSize, .label Entry.main] ++ rest))
      ⟨[], []⟩ next := by
    refine Environment.flow_code _ known ⟨⟨[], []⟩, ?_⟩
    simpa [mainKnown] using goesOn
  simp only [prologue, join_cons, join_nil, List.append_nil, List.append_assoc]
  generalize Environment.code options.memoryManager = environmentCode at environment ⊢
  generalize options.memoryManager = manager at environment ⊢
  cases manager with
  | true => exact Heap.flow_initialization.mpr environment
  | false => exact environment

theorem flow_epilogue {labels : Labels} {shape : Shape}
    (known : labels.Has Environment.shapes) :
    flow labels (epilogue options) shape fun _ => True := by
  have heapKnown : labels.Has Heap.shapes := (has_append.mp (has_cons.mp known).2).2
  unfold epilogue
  rw [flow_halt]
  split
  · have manager : ∃ first, flow labels (Heap.manager ++ []) first fun _ => True :=
      Heap.flow_manager heapKnown ⟨⟨[], []⟩, trivial⟩
    rwa [List.append_nil] at manager
  · exact ⟨⟨[], []⟩, trivial⟩

/-- The labels of a well-typed program whose return statements carry values have shapes under
which its statements are balanced. -/
theorem exists_labels {body : Code} {last : Nat} (typed : program.WellTyped)
    (valued : Valued program.returnTypes) (made : program.bodyCode 0 = .ok (body, last)) :
    ∃ labels : Labels, labels.Has Environment.shapes ∧ labels.EntersFunctions ∧
      Flows labels ⟨[], []⟩ body ⟨[], []⟩ ∧ blockBalanced labels {} 0 last program.body := by
  obtain ⟨labels, known, enters, balanced⟩ := exists_has
    (provides_block {} (fun _ member => nomatch member) program.body typed valued made)
  exact ⟨labels, known, enters,
    balanced ⟨fun _ member => (nomatch member), fun _ member => (nomatch member)⟩⟩

theorem flows_compile (typed : program.WellTyped) (valued : Valued program.returnTypes)
    (compiled : program.compile options = .ok code) :
    ∃ labels : Labels, labels.Has Environment.shapes ∧ labels.EntersFunctions ∧
      flow labels code ⟨[], []⟩ fun _ => True := by
  obtain ⟨body, last, made, rfl⟩ := compile_eq_ok_body.mp compiled
  obtain ⟨labels, known, enters, flows, _⟩ := exists_labels typed valued made
  exact ⟨labels, known, enters,
    (flows_prologue known).flow (flows.flow (flow_epilogue known))⟩

/-- The discipline of the operand stack. The places of the code have shapes that every instruction
agrees with, and under the same shapes of labels the code of every statement of the program leads
from what the loops around it have saved to the same again, the code of every expression adds the
words of its type to what is under it, and the ends of loops and the exits of functions are entered
with what is needed there. The stack is empty where the program starts, and before and behind the
code of its statements. -/
structure Disciplined (program : Program) {code : Code} (assignment : code.Assignment) : Prop where
  environment : assignment.labels.Has Environment.shapes
  functions : assignment.labels.EntersFunctions
  start : assignment.shapes 0 = ⟨[], []⟩
  body : ∃ front body back last, code = front ++ (body ++ .halt :: back) ∧
    program.bodyCode 0 = .ok (body, last) ∧ assignment.shapes front.length = ⟨[], []⟩ ∧
    assignment.shapes (front.length + body.length) = ⟨[], []⟩ ∧
    blockBalanced assignment.labels {} 0 last program.body

/-- The code of a well-typed program whose return statements carry values keeps to the discipline
of the operand stack. -/
theorem stack_disciplined (typed : program.WellTyped) (valued : Valued program.returnTypes)
    (compiled : program.compile options = .ok code) :
    ∃ assignment : code.Assignment, program.Disciplined assignment := by
  obtain ⟨body, last, made, rfl⟩ := compile_eq_ok_body.mp compiled
  obtain ⟨labels, known, enters, flows, balanced⟩ := exists_labels typed valued made
  have ends : flow labels (epilogue options) ⟨[], []⟩ fun _ => True := flow_epilogue known
  obtain ⟨final, rfl, empty⟩ := exists_assignment ends
  rw [← empty] at flows
  obtain ⟨rest, same, before, places⟩ := flows.exists_assignment final
  have begins : Flows rest.labels ⟨[], []⟩ (program.prologue options) (rest.shapes 0) := by
    rw [same, before, empty]
    exact flows_prologue known
  obtain ⟨whole, labelled, start, inside⟩ := begins.exists_assignment rest
  rw [← same, ← labelled] at known enters balanced
  refine ⟨whole, known, enters, start, _, body, _, last, rfl, made, ?_, ?_, balanced⟩
  · exact (inside 0).trans (before.trans empty)
  · rw [inside]
    exact (places 0).trans empty

/-- Prints what a function returns that looks for the first element above its parameter. -/
def seeking : Program where
  globalSize := 0
  body := [.print [.expression (.typed .integer (.invocation (.typed (.lambda [.integer] .integer)
    (.lambda [⟨"bound", .integer, .parameter 0, false⟩]
      [.for .element ⟨"element", .integer, .frameLocal (-12), true⟩
        (.typed (.array .integer) (.populatedArray
          [.typed .integer (.integer 1), .typed .integer (.integer 3)]))
        [.ifElse (.typed .boolean (.comparison .greater
            (.typed .integer (.identifier ⟨"element", .integer, .frameLocal (-12), true⟩))
            (.typed .integer (.identifier ⟨"bound", .integer, .parameter 0, false⟩))))
          [.return (some (.typed .integer
            (.identifier ⟨"element", .integer, .frameLocal (-12), true⟩)))] (some [.continue])],
        .return (some (.typed .integer (.integer 0)))] 4 4))
    [.typed .integer (.integer 2)])), .newline]]

theorem seeking_disciplined :
    ∃ code, seeking.WellTyped ∧ Valued seeking.returnTypes ∧ seeking.compile ⟨true⟩ = .ok code ∧
      ∃ assignment : code.Assignment, seeking.Disciplined assignment := by
  have typed : seeking.WellTyped := by
    simp [seeking, WellTyped, blockWellTyped, Statement.WellTyped, printItemsWellTyped,
      PrintItem.WellTyped, Expr.WellTyped, Form.WellTyped, exprsWellTyped, Expr.type,
      ForKind.Applies]
  have valued : Valued seeking.returnTypes := by
    simp [seeking, returnTypes, blockReturnTypes, Statement.returnTypes, printItemsReturnTypes,
      PrintItem.returnTypes, Expr.returnTypes, Form.returnTypes, exprsReturnTypes, Expr.type,
      Valued, Ty.isVoid]
  obtain ⟨code, compiled⟩ : ∃ code, seeking.compile ⟨true⟩ = .ok code := ⟨_, rfl⟩
  exact ⟨code, typed, valued, compiled, stack_disciplined typed valued compiled⟩

/-- Calls a function without a result that returns what another such function returns. -/
def escaping : Program where
  globalSize := 0
  body := [.call (.typed .void (.invocation (.typed (.lambda [] .void) (.lambda []
    [.return (some (.typed .void (.invocation (.typed (.lambda [] .void) (.lambda [] [] 0 0)) [])))]
      0 0)) []))]

/-- It is well typed, but keeps to no discipline: a return statement with a value leaves the slot
for it, and the exit of the function is entered with nothing. -/
theorem escaping_undisciplined :
    escaping.WellTyped ∧ ∀ (code : Code) (assignment : code.Assignment),
      ¬escaping.Disciplined assignment := by
  refine ⟨by simp [escaping, WellTyped, blockWellTyped, Statement.WellTyped, Expr.WellTyped,
    Form.WellTyped, exprsWellTyped, Expr.type], fun code assignment => ?_⟩
  rintro ⟨_, functions, _, _, _, _, last, _, _, _, _, balanced⟩
  simp only [escaping, blockBalanced, Statement.Balanced, Expr.Balanced, Form.Balanced,
    exprsBalanced] at balanced
  obtain ⟨_, _, ⟨_, _, rfl, _, result, known, _, inside, _, kept, _, _⟩, _⟩ := balanced
  cases known
  obtain ⟨piece, made, flows⟩ := kept
  -- The statement pushes the slot, goes around the inner function and calls it.
  have exits := inside.exit _ rfl
  obtain ⟨exit, result, found, returned, rfl⟩ := Statement.code_return.mp made
  cases found
  obtain ⟨rfl, rfl⟩ := Prod.mk.inj (Except.ok.inj returned)
  clear made returned
  simp only [Surroundings.ofFunction, Code.returned, Ty.isVoid, if_true] at exits
  simp only [Flows, Surroundings.ofFunction, Surroundings.unwind, Surroundings.saved,
    List.flatMap_nil, List.nil_append, List.append_assoc, List.cons_append, Fragment.value,
    join_cons, join_nil, List.flatten_nil, List.reverse_nil, Ty.isVoid, if_true,
    flow_loadWord_unshared (show Cell.framePointer ∈ Cell.unshared by simp), flow_addOffset,
    flow_jump] at flows
  obtain ⟨enters, other, flows⟩ := flows
  have apart (serial : Nat) (suffix : String) (fault : Fault) :
      LabelGroup.label ⟨"lambda", serial⟩ suffix ≠ fault.handler := fun same => by
    have lists := congrArg String.toList same
    rw [LabelGroup.toList_label, Fault.handler, String.toList_append] at lists
    cases lists
  -- So the slot is on the stack at the end of the inner function and at the exit.
  have ends := enters.resolve_left fun same => same.elim (apart _ _)
  rw [flow_label] at flows
  obtain ⟨starts, flows⟩ := flows
  obtain rfl := functions _ _ starts
  simp [ends, exits, Shape.Enters, apart, Frame.leave, Frame.result, Frame.moveStackPointer,
    Ty.isVoid, Ty.storeCode, Slot.pushed_label] at flows

end Program

end StackBackend
