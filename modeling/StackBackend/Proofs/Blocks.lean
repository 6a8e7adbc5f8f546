import StackBackend.Proofs.Run

namespace StackBackend

/-! Runs from label to label. A block is straight code with a jump, a return or a label
at its end; what it does is said by the function of its straight code. -/

namespace Image

/-- Every piece of joined code stands somewhere. -/
theorem exists_holds_of_mem {image : Image} {pieces : List Code} {piece : Code} {position : Nat}
    (holds : image.Holds (Code.join pieces) position) (member : piece ∈ pieces) :
    ∃ position, image.Holds piece position := by
  induction pieces generalizing position with
  | nil => cases member
  | cons first rest induction =>
      obtain ⟨holdsFirst, holdsRest⟩ := holds_append.mp holds
      obtain rfl | member := List.mem_cons.mp member
      · exact ⟨position, holdsFirst⟩
      · exact induction holdsRest member

/-- The label stands before the code. -/
def Labelled (image : Image) (name : String) (code : Code) : Prop :=
  ∃ position, image.Marks name position ∧ image.Holds code position

theorem labelled_of_holds {image : Image} {name : String} {before rest : Code} {position : Nat}
    (holds : image.Holds (before ++ .label name :: rest) position) : image.Labelled name rest :=
  ⟨_, (holds_label ..).mp (holds_append.mp holds).2⟩

/-- The code after a label is held wherever the label is. -/
theorem Labelled.holds {image : Image} {name : String} {code : Code} {position : Nat}
    (labelled : image.Labelled name code) (marks : image.Marks name position) :
    image.Holds code position := by
  obtain ⟨other, otherMarks, holds⟩ := labelled
  exact otherMarks.unique marks ▸ holds

/-- Code with a label in it is code up to the label and code after it. -/
theorem Labelled.split {image : Image} {name other : String} {code rest : Code}
    (labelled : image.Labelled name (code ++ .label other :: rest)) :
    image.Labelled name (code ++ [.label other]) ∧ image.Labelled other rest := by
  obtain ⟨position, marks, holds⟩ := labelled
  obtain ⟨first, here⟩ := holds_append.mp holds
  obtain ⟨otherMarks, second⟩ := (holds_label ..).mp here
  exact ⟨⟨position, marks, holds_append.mpr ⟨first, otherMarks, trivial⟩⟩,
    ⟨_, otherMarks, second⟩⟩

end Image

namespace Runs

variable {image : Image} {limit : Option Nat} {pc position : Nat} {stack stack' : List Word}
  {memory memory' : Memory} {output : ByteArray} {code rest : Code} {name : String}

theorem call (addressable : image.Addressable) (holds : image.Holds (.call name :: rest) pc)
    (marks : image.Marks name position) :
    Runs image limit ⟨pc, stack, memory, output⟩
      ⟨position, .integer (Int32.ofNat (pc + 1)) :: stack, memory, output⟩ := by
  obtain ⟨found, _⟩ := (Image.holds_cons rfl rest pc).mp holds
  have target : Instruction.target image.word (.call name) = Int32.ofNat position := marks.word
  rw [target] at found
  refine .single (Configuration.next_of_execute found fun steps => ?_)
  simp only [Placed.execute, Effect.pushNext, Image.jumpTo_eq addressable marks.2,
    Configuration.state, bind, EStateM.bind, pure, EStateM.pure]

theorem popPC (addressable : image.Addressable) (holds : image.Holds (.popPC :: rest) pc)
    (inside : position ≤ image.code.size) :
    Runs image limit ⟨pc, .integer (Int32.ofNat position) :: stack, memory, output⟩
      ⟨position, stack, memory, output⟩ := by
  obtain ⟨found, _⟩ := (Image.holds_cons rfl rest pc).mp holds
  refine .single (Configuration.next_of_execute found fun steps => ?_)
  simp only [Placed.execute, Effect.popInteger, Effect.pop, Image.jumpTo_eq addressable inside,
    Configuration.state, bind, EStateM.bind, pure, EStateM.pure]

/-- Straight code falls into the label at its end. -/
theorem falls (holds : image.Holds (code ++ .label name :: rest) pc)
    (acts : code.act image.word stack memory = some (stack', memory'))
    (marks : image.Marks name position) :
    Runs image limit ⟨pc, stack, memory, output⟩ ⟨position, stack', memory', output⟩ := by
  obtain ⟨holds, here⟩ := Image.holds_append.mp holds
  have same := ((Image.holds_label ..).mp here).1.unique marks
  exact same ▸ straight holds acts

theorem jumps (addressable : image.Addressable)
    (holds : image.Holds (code ++ .jump name :: rest) pc)
    (acts : code.act image.word stack memory = some (stack', memory'))
    (marks : image.Marks name position) :
    Runs image limit ⟨pc, stack, memory, output⟩ ⟨position, stack', memory', output⟩ := by
  obtain ⟨holds, here⟩ := Image.holds_append.mp holds
  exact (straight holds acts).trans (jump addressable here marks)

/-- A conditional jump after straight code that is taken. -/
theorem branches (addressable : image.Addressable) {instruction : Instruction} {word : Word}
    (holds : image.Holds (code ++ instruction :: rest) pc)
    (acts : code.act image.word stack memory = some (word :: stack', memory'))
    (names : instruction.labelOperand? = some name) (marks : image.Marks name position)
    (tests : instruction.test word = some true) :
    Runs image limit ⟨pc, stack, memory, output⟩ ⟨position, stack', memory', output⟩ := by
  obtain ⟨holds, here⟩ := Image.holds_append.mp holds
  exact (straight holds acts).trans (branch addressable here names marks tests)

/-- A conditional jump after straight code that is not taken. -/
theorem passesOver (addressable : image.Addressable) {instruction : Instruction} {word : Word}
    (holds : image.Holds (code ++ instruction :: rest) pc)
    (acts : code.act image.word stack memory = some (word :: stack', memory'))
    (names : instruction.labelOperand? = some name) (marks : image.Marks name position)
    (tests : instruction.test word = some false) :
    Runs image limit ⟨pc, stack, memory, output⟩
      ⟨pc + code.size + 1, stack', memory', output⟩ := by
  obtain ⟨holds, here⟩ := Image.holds_append.mp holds
  exact (straight holds acts).trans (branch addressable here names marks tests)

/-- The same, with the code behind the jump. -/
theorem passes (addressable : image.Addressable) {instruction : Instruction} {word : Word}
    (holds : image.Holds (code ++ instruction :: rest) pc)
    (acts : code.act image.word stack memory = some (word :: stack', memory'))
    (names : instruction.labelOperand? = some name) (marks : image.Marks name position)
    (executed : instruction.isDirective = false) (tests : instruction.test word = some false) :
    ∃ next, image.Holds rest next ∧
      Runs image limit ⟨pc, stack, memory, output⟩ ⟨next, stack', memory', output⟩ := by
  exact ⟨_, ((Image.holds_cons executed ..).mp (Image.holds_append.mp holds).2).2,
    passesOver addressable holds acts names marks tests⟩

/-- Straight code that ends in a jump to the address it leaves on the stack. -/
theorem leaves (addressable : image.Addressable)
    (holds : image.Holds (code ++ .popPC :: rest) pc) (inside : position ≤ image.code.size)
    (acts : code.act image.word stack memory =
      some (.integer (Int32.ofNat position) :: stack', memory')) :
    Runs image limit ⟨pc, stack, memory, output⟩ ⟨position, stack', memory', output⟩ := by
  obtain ⟨holds, here⟩ := Image.holds_append.mp holds
  exact (straight holds acts).trans (popPC addressable here inside)

/-! ## Loops

A loop tests a word, leaves if it is zero, and goes through straight code otherwise. -/

/-- Rounds of a loop, each of which leads from a state to the next. -/
theorem rounds (addressable : image.Addressable) {loop exit : String} {test body after : Code}
    (atLoop : image.Labelled loop (test ++ .jumpFalse exit :: (body ++ .jump loop :: after)))
    (exits : image.Marks exit position) (State : Nat → Memory → Prop) {last : Nat}
    (tests : ∀ done memory, State done memory → done < last → ∃ value : Int32, value ≠ 0 ∧
      test.act image.word stack memory = some (.integer value :: stack, memory))
    (turns : ∀ done memory, State done memory → done < last → ∃ after,
      body.act image.word stack memory = some (stack, after) ∧ State (done + 1) after)
    {here : Nat} (marks : image.Marks loop here) {done : Nat} (state : State done memory)
    (within : done ≤ last) :
    ∃ after, Runs image limit ⟨here, stack, memory, output⟩ ⟨here, stack, after, output⟩ ∧
      State last after := by
  obtain ⟨count, total⟩ := Nat.exists_eq_add_of_le within
  induction count generalizing done memory with
  | zero => exact ⟨memory, .refl _, (total ▸ state : State last memory)⟩
  | succ count induction =>
      have holds := atLoop.holds marks
      obtain ⟨value, nonzero, tested⟩ := tests done memory state (by omega)
      obtain ⟨turn, holdsTurn, toTurn⟩ : ∃ next, image.Holds (body ++ .jump loop :: after) next ∧
          Runs image limit ⟨here, stack, memory, output⟩ ⟨next, stack, memory, output⟩ :=
        passes addressable holds tested rfl exits rfl (by simp [Instruction.test, nonzero])
      obtain ⟨turned, acts, stateNext⟩ := turns done memory state (by omega)
      obtain ⟨after, others, stateLast⟩ := induction stateNext (by omega) (by omega)
      exact ⟨after, (toTurn.trans (jumps addressable holdsTurn acts marks)).trans others,
        stateLast⟩

end Runs

/-! ## Traps -/

namespace Configuration

/-- The run from the configuration ends in a machine error. -/
def Traps (image : Image) (limit : Option Nat) (first : Configuration) : Prop :=
  ∃ last, Runs image limit first last ∧
    ∀ steps, ∃ pc trap state, (last.state steps).step image limit = .trapped pc trap state

variable {image : Image} {limit : Option Nat}

theorem Traps.of_runs {first second : Configuration} (runs : Runs image limit first second)
    (traps : second.Traps image limit) : first.Traps image limit := by
  obtain ⟨last, others, trapped⟩ := traps
  exact ⟨last, runs.trans others, trapped⟩

variable {pc : Nat} {stack stack' : List Word} {memory memory' : Memory} {output : ByteArray}
  {code rest : Code} {address value : Int32}

/-- A store of a word outside the memory, after straight code. -/
theorem traps_storeI (holds : image.Holds (code ++ .storeI :: rest) pc)
    (acts : code.act image.word stack memory =
      some (.integer value :: .integer address :: stack', memory'))
    (outside : memory'.index? address 4 = none) :
    Traps image limit ⟨pc, stack, memory, output⟩ := by
  obtain ⟨holds, here⟩ := Image.holds_append.mp holds
  have found := ((Image.holds_cons rfl _ _).mp here).1
  have width : (WordBytes.ofInt32 value).length = 4 := length_littleEndian 4 _
  refine ⟨_, .straight holds acts, fun steps => ⟨pc + code.size,
    .outOfBounds address 4, ⟨pc + code.size + 1, stack', memory', output, steps + 1⟩, ?_⟩⟩
  simp only [state, State.step, found, Placed.execute, Effect.popInteger, Effect.pop,
    Effect.store, width, outside, bind, EStateM.bind, pure, EStateM.pure]

/-- The same of a byte. -/
theorem traps_storeC (holds : image.Holds (code ++ .storeC :: rest) pc)
    (acts : code.act image.word stack memory =
      some (.integer value :: .integer address :: stack', memory'))
    (outside : memory'.index? address 1 = none) :
    Traps image limit ⟨pc, stack, memory, output⟩ := by
  obtain ⟨holds, here⟩ := Image.holds_append.mp holds
  have found := ((Image.holds_cons rfl _ _).mp here).1
  refine ⟨_, .straight holds acts, fun steps => ⟨pc + code.size,
    .outOfBounds address 1, ⟨pc + code.size + 1, stack', memory', output, steps + 1⟩, ?_⟩⟩
  simp only [state, State.step, found, Placed.execute, Effect.popInteger, Effect.pop,
    Effect.store, List.length_singleton, outside, bind, EStateM.bind, pure, EStateM.pure]

end Configuration

end StackBackend
