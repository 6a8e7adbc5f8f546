import StackBackend.Proofs.Blocks

namespace StackBackend

/-! Runs that say which calls through a value they make. Without such calls a run is one of the
image in which every call through a value halts instead; a course puts runs of that kind
together with excursions, of which only the start and the end are known. -/

/-! ## Images that make no call through a value -/

namespace Placed

/-- A call through a value halts; everything else is as it was. -/
def mute (placed : Placed) : Placed :=
  match placed.instruction with
  | .callV => { placed with instruction := .halt }
  | _ => placed

theorem mute_eq {placed : Placed} (quiet : placed.instruction ≠ .callV) : placed.mute = placed := by
  unfold mute
  split
  · exact absurd ‹_› quiet
  · rfl

end Placed

namespace Code

theorem size_append_cons (first rest : Code) {instruction : Instruction}
    (executed : instruction.isDirective = false) :
    size (first ++ instruction :: rest) = size first + 1 + size rest := by
  rw [size_append, size_cons, executed, if_neg Bool.false_ne_true, Nat.add_assoc]

/-- No call through a value is in the code. -/
def Quiet (code : Code) : Prop :=
  ∀ instruction ∈ code, instruction ≠ .callV

instance (code : Code) : Decidable code.Quiet :=
  inferInstanceAs (Decidable (∀ instruction ∈ code, instruction ≠ .callV))

@[simp] theorem quiet_nil : Quiet [] :=
  fun _ member => nomatch member

@[simp] theorem quiet_cons {instruction : Instruction} {rest : Code} :
    Quiet (instruction :: rest) ↔ instruction ≠ .callV ∧ rest.Quiet :=
  List.forall_mem_cons

@[simp] theorem quiet_append {first second : Code} :
    Quiet (first ++ second) ↔ first.Quiet ∧ second.Quiet :=
  List.forall_mem_append

/-- Code that acts on stack and memory alone calls nothing. -/
theorem quiet_of_act {word : String → Int32} {code : Code} {stack stack' : List Word}
    {memory memory' : Memory} (acts : code.act word stack memory = some (stack', memory')) :
    code.Quiet := by
  induction code generalizing stack memory with
  | nil => exact quiet_nil
  | cons instruction rest induction =>
      rw [act] at acts
      split at acts
      · rename_i directive
        exact quiet_cons.mpr ⟨fun same => by simp [same, Instruction.isDirective] at directive,
          induction acts⟩
      · obtain ⟨⟨between, changed⟩, first, acts⟩ := Option.bind_eq_some_iff.mp acts
        have calls : Instruction.callV.act word stack memory = none := rfl
        exact quiet_cons.mpr ⟨fun same => (Option.some_ne_none _) (first.symm.trans (same ▸ calls)),
          induction acts⟩

end Code

namespace Image

/-- The image in which a call through a value halts instead. -/
def mute (image : Image) : Image :=
  { image with code := image.code.map Placed.mute }

variable {image : Image} {code : Code} {name : String} {position : Nat}

@[simp] theorem word_mute : image.mute.word = image.word := rfl

@[simp] theorem dataSize_mute : image.mute.dataSize = image.dataSize := rfl

@[simp] theorem size_code_mute : image.mute.code.size = image.code.size :=
  Array.size_map

theorem addressable_mute (addressable : image.Addressable) : image.mute.Addressable := by
  rwa [Addressable, size_code_mute]

theorem marks_mute : image.mute.Marks name position ↔ image.Marks name position := by
  rw [Marks, Marks, size_code_mute]
  rfl

theorem Holds.mute (holds : image.Holds code position) (quiet : code.Quiet) :
    image.mute.Holds code position := by
  induction code generalizing position with
  | nil => trivial
  | cons instruction rest induction =>
      obtain ⟨speaks, quietRest⟩ := Code.quiet_cons.mp quiet
      cases directive : instruction.isDirective with
      | false =>
          obtain ⟨found, holds⟩ := (holds_cons directive _ _).mp holds
          refine (holds_cons directive _ _).mpr ⟨?_, induction holds quietRest⟩
          show (image.code.map Placed.mute)[position]? = _
          rw [Array.getElem?_map, found]
          exact congrArg some (Placed.mute_eq speaks)
      | true =>
          by_cases label : ∃ name, instruction = .label name
          · obtain ⟨name, rfl⟩ := label
            obtain ⟨marks, holds⟩ := (holds_label ..).mp holds
            exact (holds_label ..).mpr ⟨marks_mute.mpr marks, induction holds quietRest⟩
          · have notLabel : ∀ name, instruction ≠ .label name := fun name same =>
              label ⟨name, same⟩
            rw [holds_directive directive notLabel] at holds ⊢
            exact induction holds quietRest

theorem Labelled.mute (labelled : image.Labelled name code) (quiet : code.Quiet) :
    image.mute.Labelled name code := by
  obtain ⟨position, marks, holds⟩ := labelled
  exact ⟨position, marks_mute.mpr marks, holds.mute quiet⟩

/-- What an instruction does depends on the size of the code alone. -/
theorem execute_congr {other : Image} (size : other.code.size = image.code.size) (placed : Placed)
    (limit : Option Nat) : placed.execute other limit = placed.execute image limit := by
  have jumps : Effect.jumpTo other = Effect.jumpTo image := by
    funext target state
    simp only [Effect.jumpTo, size]
  simp only [Placed.execute, Effect.jumpIf, jumps]

end Image

/-- A step of the image that makes no call through a value is a step of the image. -/
theorem Configuration.Next.of_mute {image : Image} {limit : Option Nat}
    {before after : Configuration} (next : before.Next image.mute limit after) :
    before.Next image limit after := by
  intro steps
  have stepped := next steps
  have code : image.mute.code[before.pc]? = image.code[before.pc]?.map Placed.mute :=
    Array.getElem?_map
  simp only [Configuration.state, State.step, code] at stepped ⊢
  cases found : image.code[before.pc]? with
  | none => simp [found] at stepped
  | some placed =>
      rw [found, Option.map_some] at stepped
      by_cases calls : placed.instruction = .callV
      · simp [Placed.mute, calls, Placed.execute, pure, EStateM.pure] at stepped
      · simpa only [Placed.mute_eq calls, Image.execute_congr Image.size_code_mute] using stepped

theorem Runs.of_mute {image : Image} {limit : Option Nat} {first last : Configuration}
    (runs : Runs image.mute limit first last) : Runs image limit first last := by
  induction runs with
  | refl => exact .refl _
  | step next _ induction => exact .step next.of_mute induction

/-! ## Courses -/

/-- A part of a run that is known by its ends. -/
structure Excursion where
  start : Configuration
  finish : Configuration

/-- A run with its excursions in their order. Between them no value is called. -/
inductive Course (image : Image) (limit : Option Nat) :
    List Excursion → Configuration → Configuration → Prop
  | quiet {first last : Configuration} (runs : Runs image.mute limit first last) :
      Course image limit [] first last
  | leave {first last : Configuration} {excursion : Excursion} {others : List Excursion}
      (runs : Runs image.mute limit first excursion.start)
      (away : Runs image limit excursion.start excursion.finish)
      (rest : Course image limit others excursion.finish last) :
      Course image limit (excursion :: others) first last

namespace Course

variable {image : Image} {limit : Option Nat} {first second last : Configuration}
  {excursions others : List Excursion}

theorem refl (configuration : Configuration) : Course image limit [] configuration configuration :=
  .quiet (.refl _)

theorem runs (course : Course image limit excursions first last) :
    Runs image limit first last := by
  induction course with
  | quiet runs => exact runs.of_mute
  | leave runs away _ induction => exact runs.of_mute.trans (away.trans induction)

theorem enter (runs : Runs image.mute limit first second)
    (course : Course image limit excursions second last) :
    Course image limit excursions first last := by
  cases course with
  | quiet others => exact .quiet (runs.trans others)
  | leave others away rest => exact .leave (runs.trans others) away rest

theorem append (course : Course image limit excursions first second)
    (later : Course image limit others second last) :
    Course image limit (excursions ++ others) first last := by
  induction course with
  | quiet runs => exact .enter runs later
  | leave runs away _ induction => exact .leave runs away (induction later)

/-- A course goes on without a call. -/
theorem further (course : Course image limit excursions first second)
    (runs : Runs image.mute limit second last) : Course image limit excursions first last := by
  simpa using course.append (.quiet runs)

/-- A course goes on with an excursion. -/
theorem visit (course : Course image limit excursions first second)
    (away : Runs image limit second last) :
    Course image limit (excursions ++ [⟨second, last⟩]) first last :=
  course.append (.leave (.refl _) away (.refl _))

section

variable {pc position : Nat} {stack stack' : List Word} {memory memory' : Memory}
  {output : ByteArray} {code rest : Code} {name : String}

/-- A course goes on through straight code. -/
theorem straight (course : Course image limit excursions first ⟨pc, stack, memory, output⟩)
    (holds : image.Holds code pc)
    (acts : code.act image.word stack memory = some (stack', memory')) :
    Course image limit excursions first ⟨pc + code.size, stack', memory', output⟩ :=
  course.further (.straight (holds.mute (Code.quiet_of_act acts)) acts)

theorem jump (course : Course image limit excursions first ⟨pc, stack, memory, output⟩)
    (addressable : image.Addressable) (holds : image.Holds (.jump name :: rest) pc)
    (marks : image.Marks name position) :
    Course image limit excursions first ⟨position, stack, memory, output⟩ := by
  have alone : image.Holds [.jump name] pc := by
    obtain ⟨found, _⟩ := (Image.holds_cons rfl _ _).mp holds
    exact (Image.holds_cons rfl _ _).mpr ⟨found, trivial⟩
  exact course.further (.jump (Image.addressable_mute addressable) (alone.mute (by simp))
    (Image.marks_mute.mpr marks))

/-- A course goes on at a conditional jump. -/
theorem branch {instruction : Instruction} {word : Word} {taken : Bool}
    (course : Course image limit excursions first ⟨pc, word :: stack, memory, output⟩)
    (addressable : image.Addressable) (holds : image.Holds (instruction :: rest) pc)
    (names : instruction.labelOperand? = some name) (marks : image.Marks name position)
    (tests : instruction.test word = some taken) :
    Course image limit excursions first
      ⟨if taken then position else pc + 1, stack, memory, output⟩ := by
  have executed : instruction.isDirective = false := by
    cases instruction <;> first | rfl | cases tests
  have alone : image.Holds [instruction] pc := by
    obtain ⟨found, _⟩ := (Image.holds_cons executed _ _).mp holds
    exact (Image.holds_cons executed _ _).mpr ⟨found, trivial⟩
  refine course.further (.branch (Image.addressable_mute addressable) (alone.mute ?_) names
    (Image.marks_mute.mpr marks) tests)
  rw [Code.quiet_cons]
  exact ⟨fun same => by simp [same, Instruction.test] at tests, Code.quiet_nil⟩

end

end Course

end StackBackend
