import StackBackend.Proofs.Simulation

namespace StackBackend

/-! Scalar programs run as they are meant to. Compiled, assembled and run in any memory that
holds their data, they print what they mean to print and halt with the values of their
variables in memory. -/

open Generation Code

section

variable {code : Code} {image : Image} {size : Int32} {bindings : List Binding} {store : Store}
  {memory : Memory}

/-! ## The start -/

/-- All variables are zero when a run starts. -/
theorem represents_initialState (prepared : Prepared code image size) (laid : Laid bindings size)
    {memorySize : Nat} (room : image.dataSize ≤ memorySize) :
    Represents image bindings .zero (image.initialState memorySize).memory := by
  have memory := image.size_initialState memorySize
  refine ⟨Texts.initial prepared room, by rwa [memory], fun binding known => ?_⟩
  have block := Image.read_initialState prepared.assembled prepared.globals rfl
    (fun _ same => nomatch same) room
  obtain ⟨inside, _⟩ := prepared.variable_inside laid known
  rw [Memory.read_of_zeros block inside]
  obtain scalar | scalar | scalar := (laid.scalar binding known).cases <;> rw [scalar] <;> rfl

/-- A store to a cell of another kind changes no variable. -/
theorem Represents.setWord (represents : Represents image bindings store memory)
    (prepared : Prepared code image size) (laid : Laid bindings size) {name : String}
    (lays : code.Lays name 4) (notText : name ∉ Environment.texts.map Prod.fst)
    (notGlobals : name ≠ Cell.globalBlock) (value : Int32) :
    Represents image bindings store (memory.setWord (image.place name) value) := by
  refine ⟨?_, ?_, fun binding known => ?_⟩
  · exact represents.texts.write prepared lays notText (Nat.le_refl _) (by simp)
  · rw [Memory.size_setWord]
    exact represents.room
  · obtain ⟨inside, block⟩ := prepared.variable_inside laid known
    have apart := Image.places_apart prepared.assembled lays prepared.lays_globals notGlobals
    rw [Memory.read_setWord_of_apart (by omega)]
    exact represents.values binding known

/-- What runs before the main program, up to the jump to it. -/
def Environment.prologue : Code :=
  Code.join [[.dataLabel Cell.locationZero, .dataZ 8],
    wordCells [Cell.framePointer, Cell.stackPointer], [.memtop, .duplicate],
    storeWord Cell.framePointer, storeWord Cell.stackPointer]

theorem Environment.exists_code_eq (withDiscard : Bool) :
    ∃ rest, Environment.code withDiscard = prologue ++ .jump Entry.main :: rest :=
  ⟨_, by
    simp only [Environment.code, prologue, join_cons, join_nil, List.append_assoc,
      List.cons_append, List.nil_append, List.append_nil]
    rfl⟩

theorem act_directive {word : String → Int32} {instruction : Instruction} {rest : Code}
    {stack : List Word} (directive : instruction.isDirective = true) :
    Code.act word (instruction :: rest) stack memory = Code.act word rest stack memory := by
  rw [Code.act, if_pos directive]

/-- The prologue changes nothing that the program sees. -/
theorem exists_act_prologue (prepared : Prepared code image size) (laid : Laid bindings size)
    (represents : Represents image bindings store memory)
    (framePointer : code.Lays Cell.framePointer 4) (stackPointer : code.Lays Cell.stackPointer 4) :
    ∃ after, Environment.prologue.act image.word [] memory = some ([], after) ∧
      Represents image bindings store after := by
  have room := represents.room
  have frameInside := Image.place_add_le prepared.assembled framePointer
  have stackInside := Image.place_add_le prepared.assembled stackPointer
  refine ⟨_, ?_, (represents.setWord prepared laid framePointer (by decide) (by decide)
    (Int32.ofNat memory.size)).setWord prepared laid stackPointer (by decide) (by decide)
    (Int32.ofNat memory.size)⟩
  have pushes : Code.act image.word (Environment.prologue) [] memory =
      Code.act image.word (storeWord Cell.framePointer ++ (storeWord Cell.stackPointer ++ []))
        [.integer (Int32.ofNat memory.size), .integer (Int32.ofNat memory.size)] memory := by
    simp only [Environment.prologue, Environment.wordCells, join_cons, join_nil,
      List.flatMap_cons, List.flatMap_nil, List.cons_append, List.nil_append, List.append_nil]
    rw [act_directive rfl, act_directive rfl, act_directive rfl, act_directive rfl,
      act_directive rfl, act_directive rfl, act_memtop, act_duplicate]
  rw [pushes, act_storeWord (prepared.names_place framePointer) (by omega),
    act_storeWord (prepared.names_place stackPointer) (by rw [Memory.size_setWord]; omega), act_nil]

theorem exists_act_initialization (prepared : Prepared code image size) (laid : Laid bindings size)
    (represents : Represents image bindings store memory)
    (bumpPointer : code.Lays Cell.bumpPointer 4) :
    ∃ after, Heap.initialization.act image.word [] memory = some ([], after) ∧
      Represents image bindings store after := by
  have room := represents.room
  have inside := Image.place_add_le prepared.assembled bumpPointer
  refine ⟨_, ?_, represents.setWord prepared laid bumpPointer (by decide) (by decide)
    (image.word Cell.heap)⟩
  simp only [Heap.initialization, act_pushD]
  rw [act_setWord (prepared.names_place bumpPointer) (by omega), act_nil]

/-! ## The end -/

/-- The run with enough steps, with and without a limit. -/
structure Image.Finishes (image : Image) (memorySize : Nat) (final : State) : Prop where
  limited : ∃ count, ∀ limit, count ≤ limit →
    image.run ⟨memorySize, some limit, none⟩ = .ok ⟨final, .finished⟩
  unlimited : final.steps ≤ unlimitedSteps →
    image.run ⟨memorySize, none, none⟩ = .ok ⟨final, .finished⟩

/-- A run that gets to a halt finishes. -/
theorem Image.finishes_of_runs {memorySize stop : Nat} {stack : List Word} {output : ByteArray}
    {rest : Code} (room : image.dataSize ≤ memorySize)
    (runs : Runs image none ⟨0, [], (image.initialState memorySize).memory, .empty⟩
      ⟨stop, stack, memory, output⟩) (halts : image.Holds (.halt :: rest) stop) :
    ∃ final, image.Finishes memorySize final ∧ final.stack = stack ∧ final.memory = memory ∧
      final.output = output := by
  obtain ⟨count, reaches⟩ := runs.runFor
  have found := ((Image.holds_cons rfl _ _).mp halts).1
  have finishes : ∀ limit, count + 1 ≤ limit →
      (image.initialState memorySize).runFor image none limit =
        ⟨⟨stop + 1, stack, memory, output, count + 1⟩, .finished⟩ := by
    intro limit enough
    obtain ⟨fuel, rfl⟩ := Nat.exists_eq_add_of_le enough
    have start := reaches (fuel + 1) 0
    rw [show count + 1 + fuel = fuel + 1 + count by omega]
    refine start.trans ?_
    simp [State.runFor, State.step, Configuration.state, found, Placed.execute, pure, EStateM.pure]
  have large : ¬ memorySize < image.dataSize := by omega
  refine ⟨⟨stop + 1, stack, memory, output, count + 1⟩,
    ⟨⟨count + 1, fun limit enough => ?_⟩, fun enough => ?_⟩, rfl, rfl, rfl⟩
  · simp [Image.run, large, finishes limit enough]
  · simp [Image.run, large, finishes _ enough]

end

/-! ## Programs -/

namespace Program

variable {program : Program} {bindings : List Binding} {options : CompileOptions} {code : Code}
  {image : Image}

/-- The parts of the code of a program. -/
structure Composed (program : Program) (options : CompileOptions) (code body : Code) : Prop where
  generated : ∃ last, blockCode {} program.body 0 = .ok (body, last)
  starts : ∃ rest, code = (if options.memoryManager then Heap.initialization else []) ++
    Environment.prologue ++ .jump Entry.main :: rest
  main : (.label Entry.main :: (body ++ [.halt])) <:+: code
  environment : ∃ withDiscard, Environment.code withDiscard <:+: code
  globals : [.dataLabel Cell.globalBlock, .dataZ program.globalSize] <:+: code
  manager : options.memoryManager = true → Heap.manager <:+: code

theorem exists_composed (compiled : program.compile options = .ok code) :
    ∃ body, Composed program options code body := by
  obtain ⟨main, mainMade, rfl⟩ := compile_eq_ok.mp compiled
  obtain ⟨body, last, made, rfl⟩ := mainCode_eq_ok.mp mainMade
  obtain ⟨rest, prologue⟩ := Environment.exists_code_eq options.memoryManager
  have mainPart : [Instruction.dataLabel Cell.globalBlock, Instruction.dataZ program.globalSize,
      Instruction.label Entry.main] ++ body ++ [Instruction.halt] <:+:
        Code.join [if options.memoryManager then Heap.initialization else [],
          Environment.code options.memoryManager,
          [Instruction.dataLabel Cell.globalBlock, Instruction.dataZ program.globalSize,
            Instruction.label Entry.main] ++ body ++ [Instruction.halt],
          if options.memoryManager then Heap.manager else []] :=
    List.infix_of_mem_flatten (by simp)
  refine ⟨body, ⟨last, made⟩, ⟨?_, ?_⟩, ?_, ⟨options.memoryManager, ?_⟩, ?_, fun present => ?_⟩
  · exact rest ++ ([Instruction.dataLabel Cell.globalBlock, Instruction.dataZ program.globalSize,
      Instruction.label Entry.main] ++ body ++ [Instruction.halt] ++
        if options.memoryManager then Heap.manager else [])
  · simp [prologue]
  · exact List.IsInfix.trans (List.IsSuffix.isInfix
      ⟨[.dataLabel Cell.globalBlock, .dataZ program.globalSize], by simp⟩) mainPart
  · exact List.infix_of_mem_flatten (by simp)
  · exact List.IsInfix.trans (List.IsPrefix.isInfix
      ⟨.label Entry.main :: (body ++ [.halt]), by simp⟩) mainPart
  · exact List.infix_of_mem_flatten (by simp [present])

/-- The heap manager is behind the code of the main block. -/
theorem exists_main (compiled : program.compile ⟨true⟩ = .ok code)
    (assembled : Image.assemble code = .ok image) :
    ∃ body last pc, blockCode {} program.body 0 = .ok (body, last) ∧ image.Holds body pc ∧
      image.Holds Heap.manager (pc + body.size + 1) := by
  rcases compile_eq_ok.mp compiled with ⟨main, mainMade, rfl⟩
  rcases mainCode_eq_ok.mp mainMade with ⟨body, last, made, rfl⟩
  have parts : body ++ (.halt :: Heap.manager) <:+: Code.join [Heap.initialization,
      Environment.code true, [.dataLabel Cell.globalBlock, .dataZ program.globalSize,
        .label Entry.main] ++ body ++ [.halt], Heap.manager] :=
    List.IsSuffix.isInfix ⟨Heap.initialization ++ (Environment.code true ++
      [.dataLabel Cell.globalBlock, .dataZ program.globalSize, .label Entry.main]), by simp⟩
  rcases Image.exists_holds_of_infix assembled parts with ⟨pc, holds⟩
  rcases Image.holds_append.mp holds with ⟨holdsBody, rest⟩
  exact ⟨body, last, pc, made, holdsBody, ((Image.holds_cons rfl _ _).mp rest).2⟩

/-- A brief program can be assembled, and the code of its body stands in the image. -/
theorem exists_body_image (brief : program.isBrief = true) (plain : Plain program.operations)
    (nonnegative : 0 ≤ program.globalSize) :
    ∃ code image body last pc, program.compile ⟨true⟩ = .ok code ∧
      Image.assemble code = .ok image ∧ image.Addressable ∧ image.dataSize ≤ 65536 ∧
      blockCode {} program.body 0 = .ok (body, last) ∧ image.Holds body pc := by
  obtain ⟨code, image, compiled, assembled, addressable, fits⟩ :=
    exists_small_image brief plain nonnegative
  obtain ⟨body, last, pc, made, holds, _⟩ := exists_main compiled assembled
  exact ⟨code, image, body, last, pc, compiled, assembled, addressable, fits, made, holds⟩

namespace Composed

variable {body : Code}

theorem prepared (composed : Composed program options code body)
    (assembled : Image.assemble code = .ok image) (addressable : image.Addressable)
    (fits : image.dataSize ≤ 2147483647) : Prepared code image program.globalSize :=
  ⟨assembled, addressable, fits, composed.environment, composed.globals⟩

theorem lays_pointers (composed : Composed program options code body) {name : String}
    (member : name ∈ [Cell.framePointer, Cell.stackPointer]) : code.Lays name 4 := by
  obtain ⟨withDiscard, before, after, rfl⟩ := composed.environment
  exact ((Environment.lays_pointers withDiscard member).right before).left after

theorem lays_bumpPointer (composed : Composed program options code body)
    (present : options.memoryManager = true) : code.Lays Cell.bumpPointer 4 := by
  obtain ⟨before, after, rfl⟩ := composed.manager present
  have member : Cell.bumpPointer ∈ Heap.cells := by simp [Heap.cells]
  exact ((Heap.lays_cells member).right before).left after

theorem runs_start (composed : Composed program options code body)
    (prepared : Prepared code image program.globalSize) {store : Store} {memory : Memory}
    (laid : Laid bindings program.globalSize)
    (represents : Represents image bindings store memory) (output : ByteArray) :
    ∃ start after, image.Holds (body ++ [.halt]) start ∧ Represents image bindings store after ∧
      Runs image none ⟨0, [], memory, output⟩ ⟨start, [], after, output⟩ := by
  have holds := Image.holds_of_assemble prepared.assembled
  obtain ⟨position, mainHolds⟩ := Image.exists_holds_of_infix prepared.assembled composed.main
  obtain ⟨marks, bodyHolds⟩ := (Image.holds_label _ _ _).mp mainHolds
  obtain ⟨rest, starts⟩ := composed.starts
  rw [starts] at holds
  have initialized : ∃ between,
      Code.act image.word (if options.memoryManager then Heap.initialization else []) [] memory =
        some ([], between) ∧ Represents image bindings store between := by
    cases manager : options.memoryManager with
    | false => exact ⟨memory, rfl, represents⟩
    | true =>
        exact exists_act_initialization prepared laid represents (composed.lays_bumpPointer manager)
  obtain ⟨between, initializes, representsBetween⟩ := initialized
  obtain ⟨after, acts, representsAfter⟩ := exists_act_prologue prepared laid representsBetween
    (composed.lays_pointers (by simp)) (composed.lays_pointers (by simp))
  refine ⟨position, after, bodyHolds, representsAfter, ?_⟩
  exact Runs.jumps prepared.addressable holds (by rw [act_append_eq initializes, acts]) marks

end Composed

/-- What a scalar program means is what its code does. -/
theorem runs_as_executed (scalar : program.IsScalar bindings) {exit : Exit} {store : Store}
    {text : List UInt8} (executes : Executes .zero (.block program.body) exit store text)
    (options : CompileOptions) :
    ∃ code image, program.compile options = .ok code ∧ Image.assemble code = .ok image ∧
      (image.Addressable → image.dataSize ≤ 2147483647 →
        ∀ memorySize, image.dataSize ≤ memorySize →
          ∃ final, image.Finishes memorySize final ∧
            final.output.data.toList = text ++ exit.report ∧ (exit = .next → final.stack = []) ∧
            Represents image bindings store final.memory) := by
  obtain ⟨code, image, compiled, assembled⟩ := scalar.exists_image options
  refine ⟨code, image, compiled, assembled, fun addressable fits memorySize room => ?_⟩
  obtain ⟨body, composed⟩ := exists_composed compiled
  obtain ⟨last, generated⟩ := composed.generated
  have prepared := composed.prepared assembled addressable fits
  obtain ⟨start, memory, holds, represents, starts⟩ := composed.runs_start prepared scalar.laid
    (represents_initialState prepared scalar.laid room) .empty
  obtain ⟨bodyHolds, haltHolds⟩ := Image.holds_append.mp holds
  have performs := executes.performs prepared scalar.laid (.block scalar.body)
    (fun inLoop => nomatch inLoop) (Statement.code_block.mpr generated) bodyHolds represents
  obtain ⟨position, extra, after, leads, leaves, representsAfter, runs⟩ := performs [] .empty
  cases exit with
  | next =>
      cases leads
      cases leaves
      obtain ⟨final, finishes, stack, memory, output⟩ :=
        Image.finishes_of_runs room (starts.trans runs) haltHolds
      refine ⟨final, finishes, ?_, fun _ => stack, memory ▸ representsAfter⟩
      rw [output, toList_data_written]
      simp [Exit.report]
  | fault reason =>
      obtain ⟨stop, rest, halts, reports⟩ := prepared.reports representsAfter.texts leads
        (extra ++ []) (written .empty text)
      obtain ⟨final, finishes, stack, memory, output⟩ :=
        Image.finishes_of_runs room ((starts.trans runs).trans reports) halts
      refine ⟨final, finishes, ?_, fun same => (nomatch same), memory ▸ representsAfter⟩
      rw [output, toList_data_written, toList_data_written]
      simp
  | «break» =>
      obtain ⟨_, innermost, _⟩ := leads
      cases innermost
  | «continue» =>
      obtain ⟨_, innermost, _⟩ := leads
      cases innermost

end Program

/-! A loop that counts down from three and is left at one, before a division by zero. -/

namespace Countdown

def counter : Binding := ⟨"counter", .integer, .global 0, true⟩

def value : Expr := .typed .integer (.identifier counter)

def number (literal : Int32) : Expr := .typed .integer (.integer literal)

def positive : Expr := .typed .boolean (.comparison .greater value (number 0))

def decremented : Expr :=
  .typed .integer (.operation (.instruction .subtract) [value, number 1])

def last : Expr := .typed .boolean (.comparison .equal value (number 1))

def round : List Statement :=
  [.print [.expression value, .newline], .assignment value decremented,
    .ifElse last [.break] (some [.continue])]

def quotient : Expr :=
  .typed .integer (.operation (.snippet .integerDivide) [number 7, decremented])

def program : Program where
  globalSize := 4
  body := [.declaration counter (number 3) false, .while positive round,
    .print [.expression quotient]]

theorem isScalar : program.IsScalar [counter] := by
  have known : counter ∈ [counter] := by simp
  have valueScalar : value.IsScalar [counter] := .identifier known
  have numberScalar : ∀ literal, (number literal).IsScalar [counter] := .integer
  have decrementedScalar : decremented.IsScalar [counter] :=
    .operation .subtract rfl (by simp [valueScalar, numberScalar])
  have quotientScalar : quotient.IsScalar [counter] :=
    .operation .divide rfl (by simp [numberScalar, decrementedScalar])
  have roundScalar : ∀ statement ∈ round, statement.IsScalar [counter] true := by
    simp only [round, List.forall_mem_cons]
    refine ⟨.print (by simp [valueScalar]), .assignment known decrementedScalar rfl,
      .ifElse (.comparison rfl valueScalar (numberScalar 1)) rfl (by simpa using .break)
        (by simpa using .continue), by simp⟩
  refine ⟨⟨by simp [counter], by simp [counter, Ty.IsScalar], by simp [counter, Location.offset],
    ?_, by simp⟩, by decide, ?_⟩
  · simp only [List.forall_mem_singleton]
    decide
  · simp only [program, List.forall_mem_cons]
    exact ⟨.declaration known (numberScalar 3) rfl,
      .while (.comparison rfl valueScalar (numberScalar 0)) rfl roundScalar,
      .print (by simp [quotientScalar]), by simp⟩

theorem evaluate_decremented {store : Store} {current : Int32}
    (known : store.get counter = current) : decremented.evaluate store = pure (current - 1) :=
  known ▸ rfl

theorem evaluate_last {store : Store} {current : Int32} (known : store.get counter = current) :
    last.evaluate store = pure (truth (Relation.holds .equal (current - 1))) :=
  known ▸ rfl

theorem evaluate_positive {store : Store} {current : Int32} (known : store.get counter = current) :
    positive.evaluate store = pure (truth (Relation.holds .greater (current - 0))) :=
  known ▸ rfl

/-- A round prints the counter and counts down. -/
theorem executes_round {store : Store} {current : Int32} (known : store.get counter = current) :
    Executes store (.block round) (if current - 1 = 1 then .break else .continue)
      (store.set counter (current - 1))
      (asciiBytes (toString current.toInt).toList ++ "\n".toUTF8.toList) := by
  have counted : (store.set counter (current - 1)).get counter = current - 1 :=
    store.get_set_same _ rfl
  have prints : Executes store (.print [.expression value, .newline]) .next store
      (asciiBytes (toString current.toInt).toList ++ ("\n".toUTF8.toList ++ [])) :=
    .print (known ▸ rfl) (.print rfl .printNothing)
  have decides : Executes (store.set counter (current - 1))
      (.ifElse last [.break] (some [.continue])) (if current - 1 = 1 then .break else .continue)
      (store.set counter (current - 1)) [] := by
    refine .ifElse (evaluate_last counted) ?_
    by_cases same : current - 1 = 1
    · rw [if_pos same, same]
      exact .blockLeft .break (by simp)
    · have unequal : truth (Relation.holds .equal (current - 1 - 1)) = 0 := by
        have nonzero : current - 1 - 1 ≠ 0 := fun zero => same (by
          rw [← Int32.sub_add_cancel (current - 1) 1, zero]
          rfl)
        simp [truth, Relation.holds, nonzero]
      rw [if_neg same, unequal]
      exact .blockLeft .continue (by simp)
  have left : (if current - 1 = 1 then Exit.break else .continue) ≠ .next := by
    split <;> simp
  have whole : Executes store (.block round) _ _ _ := .blockNext prints (.blockNext
    (.assignment (evaluate_decremented known)) (.blockLeft decides left))
  simpa using whole

theorem executes :
    ∃ store, store.get counter = 1 ∧ Executes .zero (.block program.body)
      (.fault .integerDivideByZero) store "3\n2\n".toUTF8.toList := by
  let three := Store.zero.set counter 3
  let two := three.set counter 2
  let one := two.set counter 1
  have atThree : three.get counter = 3 := Store.zero.get_set_same 3 rfl
  have atTwo : two.get counter = 2 := three.get_set_same 2 rfl
  have atOne : one.get counter = 1 := two.get_set_same 1 rfl
  have loop : Executes three (.while positive round) .next one _ :=
    .whileAgain (evaluate_positive atThree) (by decide) (executes_round atThree) (.inr (by decide))
      (.whileBreak (evaluate_positive atTwo) (by decide) (executes_round atTwo))
  have faults : PrintItem.printed one (.expression quotient) = throw .integerDivideByZero := by
    have operands : evaluateAll one [number 7, decremented] = pure [7, 1 - 1] := atOne ▸ rfl
    rw [PrintItem.printed, quotient, Signature.HasType.divide.evaluate_eq, operands]
    rfl
  have whole : Executes .zero (.block program.body) (.fault .integerDivideByZero) one _ :=
    .blockNext (.declaration rfl) (.blockNext loop (.blockLeft (.printFault faults) (by simp)))
  have text : [] ++ (asciiBytes (toString (Int32.toInt 3)).toList ++ "\n".toUTF8.toList ++
      (asciiBytes (toString (Int32.toInt 2)).toList ++ "\n".toUTF8.toList) ++ []) =
      "3\n2\n".toUTF8.toList := by decide +kernel
  exact ⟨one, atOne, text ▸ whole⟩

theorem counts_down :
    ∃ store code image, program.IsScalar [counter] ∧
      Executes .zero (.block program.body) (.fault .integerDivideByZero) store
        "3\n2\n".toUTF8.toList ∧
      program.compile ⟨false⟩ = .ok code ∧ Image.assemble code = .ok image ∧
      image.Addressable ∧ image.dataSize ≤ 2147483647 ∧ image.dataSize ≤ 65536 ∧
      ∃ final, image.Finishes 65536 final ∧ final.output.data.toList =
        "3\n2\nRuntime error: integer divide by zero\n".toUTF8.toList := by
  obtain ⟨store, _, executes⟩ := executes
  have small : program.isSmall ⟨false⟩ = true := by decide +kernel
  obtain ⟨code, image, compiled, assembled, runs⟩ :=
    Program.runs_as_executed isScalar executes ⟨false⟩
  obtain ⟨addressable, fits⟩ := Program.image_of_isSmall small compiled assembled
  have fitsWord : image.dataSize ≤ 2147483647 := by omega
  obtain ⟨final, finishes, output, _⟩ := runs addressable fitsWord 65536 fits
  have text : "3\n2\n".toUTF8.toList ++ (Exit.fault .integerDivideByZero).report =
      "3\n2\nRuntime error: integer divide by zero\n".toUTF8.toList := by decide +kernel
  exact ⟨store, code, image, isScalar, executes, compiled, assembled, addressable, fitsWord, fits,
    final, finishes, output.trans text⟩

end Countdown

end StackBackend
