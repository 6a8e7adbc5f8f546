import StackBackend.Proofs.Assembling
import StackBackend.Proofs.Severing
import StackBackend.Proofs.Sketches

namespace StackBackend

/-! The shared words survive calls. What a function, an operator or a loop over a sequence has put
into them is gone when control comes out of it again: they hold what they held before. -/

open Generation

/-! ## The code of a program -/

namespace Environment

/-- What stands before the handlers of faults. -/
def preamble : Code :=
  Code.join [[.dataLabel Cell.locationZero, .dataZ 8],
    wordCells [Cell.framePointer, Cell.stackPointer],
    [.memtop, .duplicate], Code.storeWord Cell.framePointer, Code.storeWord Cell.stackPointer,
    [.jump Entry.main],
    (Cell.texts.flatMap fun (label, text) => [.dataLabel label, .dataS text]),
    (Cell.scratch.flatMap fun (label, size) => [.dataLabel label, .dataZ size])]

/-- What stands behind them. -/
def routines (withDiscard : Bool) : Code :=
  Code.join [ClearBytes.code, CopyBytes.code, LowestTerms.code,
    if withDiscard then DiscardRecord.code else []]

theorem code_eq_parts (withDiscard : Bool) :
    code withDiscard = preamble ++ (faultHandlers ++ routines withDiscard) := by
  simp [code, preamble, routines]

/-- The handlers of faults never come back. -/
theorem severed_faultHandlers : faultHandlers.Severed fun _ => False := by
  constructor
  · exact ⟨faultHandlers.dropLast, generalFault, by decide⟩
  · have all : ∀ instruction ∈ faultHandlers, ∀ name ∈ instruction.destination?,
        .label name ∈ faultHandlers := by decide
    exact fun instruction member name goes => .inl (all instruction member name goes)

theorem silent_faultHandlers : ∀ instruction ∈ faultHandlers, instruction.returns = false := by
  decide

theorem label_handler_mem (fault : Fault) : .label fault.handler ∈ faultHandlers := by
  cases fault <;> decide

/-- The environment ends with a return, so that none of its labels is at its end. -/
theorem code_eq_final (withDiscard : Bool) :
    ∃ front : Code, code withDiscard = front ++ [.popPC] := by
  have terms : LowestTerms.code = LowestTerms.code.dropLast ++ [.popPC] := rfl
  have discard : DiscardRecord.code = DiscardRecord.code.dropLast ++ [.popPC] := rfl
  rw [code_eq_parts, routines]
  cases withDiscard with
  | false =>
      rw [terms]
      exact ⟨preamble ++ (faultHandlers ++ (ClearBytes.code ++ (CopyBytes.code ++
        LowestTerms.code.dropLast))), by simp⟩
  | true =>
      rw [if_pos rfl, discard]
      exact ⟨preamble ++ (faultHandlers ++ (ClearBytes.code ++ (CopyBytes.code ++
        (LowestTerms.code ++ DiscardRecord.code.dropLast)))), by simp⟩

/-- A subroutine is entered with the place to return to above what it takes. -/
theorem mem_shapes_of_kinds? {name : String} {takes gives : List WordKind}
    (known : Entry.kinds? name = some (takes, gives)) :
    (name, ⟨.integer :: takes.map Slot.ofKind, gives⟩) ∈ shapes := by
  obtain ⟨front, back, same, _⟩ := List.lookup_eq_some_iff.mp known
  have member : (name, takes, gives) ∈ front ++ (name, takes, gives) :: back := by simp
  rw [← same] at member
  simp only [List.mem_cons, Prod.mk.injEq, List.not_mem_nil, or_false] at member
  rcases member with ⟨rfl, rfl, rfl⟩ | ⟨rfl, rfl, rfl⟩ | ⟨rfl, rfl, rfl⟩ | ⟨rfl, rfl, rfl⟩ |
    ⟨rfl, rfl, rfl⟩ | ⟨rfl, rfl, rfl⟩ <;> decide

end Environment

namespace Image

variable {code : Code} {image : Image}

/-- A label that marks a place is in the code. -/
theorem mem_of_marks (assembled : assemble code = .ok image) {name : String} {place : Nat}
    (marks : image.Marks name place) : .label name ∈ code := by
  obtain ⟨placement, made⟩ := assembled_of_assemble assembled
  obtain ⟨before, name, rest⟩ := (made.symbols_iff name (.code place)).mp marks.1
  simp

/-- All labels that are jumped to or called mark places. -/
theorem marked_of_assemble (assembled : assemble code = .ok image) :
    ∀ placed ∈ image.code, ∀ name, placed.instruction.destination? = some name →
      ∃ place, image.Marks name place := by
  intro placed member name goes
  obtain ⟨instruction, inCode, executed, rfl⟩ := mem_of_assemble assembled member
  obtain ⟨operand, _, other⟩ := Instruction.labelOperand?_of_destination? goes
  have labelled := exists_image_iff.mp ⟨image, assembled⟩
  have label := (labelled.operands instruction inCode executed name operand).2.resolve_left other
  obtain ⟨place, marks, _⟩ := marks_of_holds (holds_of_assemble assembled) label
  exact ⟨place, marks⟩

end Image

namespace Program

variable {program : Program} {options : CompileOptions} {code body : Code} {image : Image}

/-- The code of a program can be charted. -/
theorem exists_whole (typed : program.WellTyped) (valued : Valued program.returnTypes)
    (compiled : program.compile options = .ok code) (assembled : Image.assemble code = .ok image) :
    ∃ chart : Chart image 0 image.code.size, chart.Whole := by
  obtain ⟨labels, known, enters, flows⟩ := flows_compile typed valued compiled
  have holds := Image.holds_of_assemble assembled
  obtain ⟨front, back, parts⟩ : ∃ front back : Code,
      code = front ++ (Environment.faultHandlers ++ back) := by
    obtain ⟨body, last, _, rfl⟩ := compile_eq_ok_body.mp compiled
    rw [prologue, Environment.code_eq_parts]
    exact ⟨(if options.memoryManager then Heap.initialization else []) ++ Environment.preamble,
      Environment.routines options.memoryManager ++ ([.dataLabel Cell.globalBlock,
        .dataZ program.globalSize, .label Entry.main] ++ (body ++ epilogue options)), by simp⟩
  obtain ⟨shapes, last, _, traced⟩ := Code.exists_traced holds flows
  have size : 0 + code.size = image.code.size := by
    rw [Nat.zero_add, Image.codeSize_of_assemble assembled]
  rw [parts, Image.holds_append, Image.holds_append, Nat.zero_add] at holds
  obtain ⟨_, handlers, _⟩ := holds
  have severed := Environment.severed_faultHandlers
  -- The handlers of faults are entered with anything on the stack.
  let chart : Chart image 0 image.code.size := {
    labels, shapes
    lost := fun place => front.size ≤ place ∧ place < front.size + Environment.faultHandlers.size
    start := by rw [traced.begins]
    step := fun place above below _ instruction target found =>
      (traced.step place above (size ▸ below) id instruction target found).2
    falls := fun place _ _ gone instruction target found straight =>
      ⟨by omega, severed.closes.falls handlers gone.2 found straight⟩ }
  have named : ∀ {name : String} {there : Nat}, image.Marks name there →
      labels name = some (shapes there) := by
    intro name there marks
    obtain ⟨place, marks', _, known⟩ := traced.named name (Image.mem_of_marks assembled marks)
    rw [marks.unique marks']
    exact known.resolve_left id
  refine ⟨chart, ⟨⟨Nat.le_refl _, Nat.le_refl _⟩, ?_, ?_⟩, ?_, ?_⟩
  · rintro place _ _ _ instruction target _ _ name _ shape there (⟨fault, rfl⟩ | same) marks _ _
    · obtain ⟨place, marks', above, below⟩ :=
        severed.closes.marks handlers (Environment.label_handler_mem fault)
      rw [marks.unique marks']
      exact .inl ⟨above, below⟩
    · exact .inr (Option.some.inj ((named marks).symm.trans same))
  · intro place _ _ gone instruction target found _ name goes there marks _ _
    have member := Image.mem_of_holds handlers gone.1 gone.2 found
    obtain label | none := severed.leads instruction member name goes
    · obtain ⟨place, marks', inside⟩ := severed.closes.marks handlers label
      rw [marks.unique marks']
      exact inside
    · exact none.elim
  · rintro place shape (⟨subroutine, marks⟩ | marks)
    · have shape := known _ (Environment.mem_shapes_of_kinds? subroutine)
      exact .inr (Option.some.inj ((named marks).symm.trans shape))
    · exact .inr (enters _ _ (named marks))
  · intro place gone instruction target found
    exact Environment.silent_faultHandlers instruction
      (Image.mem_of_holds handlers gone.1 gone.2 found)

/-- No label of the environment is at the code of the statements. -/
theorem marks_environment (plain : Plain program.operations) {last : Nat}
    (made : program.bodyCode 0 = .ok (body, last))
    (assembled : Image.assemble (program.prologue options ++ (body ++ epilogue options)) =
      .ok image)
    {name : String} (names : Environment.Names name) {there : Nat}
    (marks : image.Marks name there) : there < (program.prologue options).size ∨
      (program.prologue options).size + body.size < there := by
  have free : (∀ name ∈ Entry.subroutines, LabelGroup.digitFree name = true) ∧
      ∀ fault ∈ Fault.all, LabelGroup.digitFree fault.handler = true := by decide
  have others : (∀ name ∈ Entry.subroutines, name ≠ Entry.main) ∧
      ∀ fault ∈ Fault.all, fault.handler ≠ Entry.main := by decide
  have serial : LabelGroup.serialOf name = 0 := by
    rcases names with member | ⟨fault, rfl⟩
    · exact LabelGroup.serialOf_of_digitFree (free.1 name member)
    · exact LabelGroup.serialOf_of_digitFree (free.2 fault fault.mem_all)
  have notMain : name ≠ Entry.main := by
    rcases names with member | ⟨fault, rfl⟩
    · exact others.1 name member
    · exact others.2 fault fault.mem_all
  have holds := Image.holds_of_assemble assembled
  rw [Image.holds_append, Image.holds_append, Nat.zero_add] at holds
  obtain ⟨prologueHolds, _, epilogueHolds⟩ := holds
  have range {part : Code} {start : Nat} (holds : image.Holds part start)
      (member : .label name ∈ part) : start ≤ there ∧ there ≤ start + part.size := by
    obtain ⟨place, marks', above, below⟩ := Image.marks_of_holds holds member
    rw [marks.unique marks']
    exact ⟨above, below⟩
  rcases List.mem_append.mp (Image.mem_of_marks assembled marks) with member | member
  · obtain ⟨front, final⟩ := Environment.code_eq_final options.memoryManager
    have parts : program.prologue options =
        ((if options.memoryManager then Heap.initialization else []) ++ front) ++ ([.popPC,
          .dataLabel Cell.globalBlock, .dataZ program.globalSize, .label Entry.main]) := by
      simp [prologue, final]
    rw [parts] at prologueHolds member ⊢
    rcases List.mem_append.mp member with member | member
    · have inside := range (Image.holds_append.mp prologueHolds).1 member
      have size : Code.size [.popPC, .dataLabel Cell.globalBlock, .dataZ program.globalSize,
          .label Entry.main] = 1 := rfl
      rw [Code.size_append, size]
      omega
    · simp [notMain] at member
  · rcases List.mem_append.mp member with member | member
    · have numbered : body.Numbered 0 last := numbered_block program.body plain.labelFree made
      have number := numbered.range name (Code.defines_pos.mpr (.inl member))
      omega
    · have member : .label name ∈ (if options.memoryManager then Heap.manager else []) := by
        simpa [epilogue] using member
      have inside := range ((Image.holds_cons rfl _ _).mp epilogueHolds).2 member
      omega

end Program

/-! ## What is left behind -/

theorem Slot.original_of_plain {cell : String} {slots : List Slot}
    (plain : .content cell ∉ slots) (words : List Word) (present : Int32) :
    original cell slots words present = present := by
  induction slots generalizing words with
  | nil => rfl
  | cons slot slots induction =>
      obtain ⟨other, plain⟩ := not_or.mp (mt List.mem_cons.mpr plain)
      cases words with
      | nil => rfl
      | cons word words =>
          rw [original_cons (Ne.symm other)]
          exact induction plain words

theorem Ty.content_notMem_slots (type : Ty) (cell : String) : .content cell ∉ type.slots := by
  cases type <;> simp [Ty.slots]

/-- Code that refers to its own labels and to the environment, and is left only for what is
outside of a part of it, comes to no place of this part but with the shape of the place. -/
theorem Traced.closed {image : Image} {labels : Labels} {outside : String → Prop}
    {lose : Code → Prop} {code other : Code} {start stop : Nat} {first last : Shape}
    {shapes : Nat → Shape} {lost : Nat → Prop}
    (traced : Traced image labels lose code other start first last shapes lost)
    (severed : ∀ piece, lose piece → piece.Severed outside) (empty : first.slots = [])
    (refers : ∀ instruction ∈ other, ∀ name, instruction.destination? = some name →
      .label name ∈ code ∨ Environment.Names name)
    (apart : ∀ name, Environment.Names name ∨ outside name → ∀ there, image.Marks name there →
      start ≤ there → ¬there ≤ stop)
    (inside : stop ≤ start + code.size) :
    (traced.chart (fun piece loses => (severed piece loses).closes) empty).Closed start stop := by
  refine ⟨⟨Nat.le_refl _, inside⟩, ?_, ?_⟩
  · intro place above below known instruction target found _ name goes shape there enters marks
      behind before
    obtain ⟨member, _⟩ := traced.step place above (by omega) known instruction target found
    have notNames : ¬Environment.Names name := fun names =>
      apart name (.inl names) there marks behind before
    obtain ⟨there', marks', _, shaped⟩ :=
      traced.named name ((refers instruction member name goes).resolve_right notNames)
    obtain rfl := marks.unique marks'
    refine shaped.imp_right fun shaped => ?_
    obtain ⟨fault, rfl⟩ | same := enters
    · exact absurd (.inr ⟨fault, rfl⟩) notNames
    · exact Option.some.inj (shaped.symm.trans same)
  · intro place _ _ gone instruction target found _ name goes there marks behind before
    obtain ⟨there', marks', gone'⟩ | escapes := traced.leads severed gone found goes
    · rwa [marks.unique marks']
    · exact absurd before (apart name (.inr escapes) there marks behind)

section

variable {image : Image} {labels : Labels} {lose : Code → Prop} {code other : Code} {start : Nat}
  {first last : Shape} {shapes : Nat → Shape} {lost : Nat → Prop} {base : List Word}
  {kept : String → Int32} {promised : List WordKind} {configuration : Configuration}

/-- Where the code is entered, its stack and the shared words are tracked from there on. -/
theorem Traced.follows_start
    (traced : Traced image labels lose code other start first last shapes lost)
    (closes : ∀ piece, lose piece → piece.Closes) (empty : first.slots = [])
    (begins : configuration.pc = start) (from_ stop : Nat) :
    (traced.chart closes empty).Follows from_ stop configuration.stack
      (configuration.memory.cell image.word) first.promised configuration := by
  have shape : (traced.chart closes empty).shapes configuration.pc = first := begins ▸ traced.begins
  refine fun _ _ => .inr ?_
  rw [shape]
  exact ⟨rfl, [], rfl, by rw [empty]; exact ⟨.nil, fun _ _ => rfl⟩⟩

/-- Where the code is left at its end, only the words of the last shape are added. -/
theorem Traced.keeps_of_follows
    (traced : Traced image labels lose code other start first last shapes lost)
    (closes : ∀ piece, lose piece → piece.Closes) (empty : first.slots = [])
    (plain : ∀ cell, .content cell ∉ last.slots) {from_ : Nat}
    (follows : (traced.chart closes empty).Follows from_ (start + code.size) base kept promised
      configuration) (ends : configuration.pc = start + code.size)
    (inside : from_ ≤ start + code.size) :
    (∀ cell ∈ Cell.shared, configuration.memory.cell image.word cell = kept cell) ∧
      ∃ words, configuration.stack = words ++ base ∧
        words.map Word.kind = last.slots.map Slot.kind := by
  have known : ¬lost configuration.pc := fun gone => by
    have inside := traced.inside gone
    omega
  obtain ⟨_, words, stack, tracks⟩ :=
    (follows (by rw [ends]; exact inside) (Nat.le_of_eq ends)).resolve_left known
  change Tracks image kept (shapes configuration.pc).slots words configuration.memory at tracks
  rw [ends, traced.ends] at tracks
  refine ⟨fun cell shared => ?_, words, stack, ?_⟩
  · rw [← tracks.original cell shared, Slot.original_of_plain (plain cell)]
  · have kinds : ∀ {slots : List Slot} {words : List Word},
        List.Forall₂ (Slot.Describes image) slots words →
          words.map Word.kind = slots.map Slot.kind := by
      intro slots words describes
      induction describes with
      | nil => rfl
      | cons top _ induction => rw [List.map_cons, List.map_cons, top.kind, induction]
    exact kinds tracks.describes

end

section

variable {image : Image} {surroundings : Surroundings} {kind : ForKind} {loopVariable : Binding}
  {sequence : Expr} {statements : List Statement} {last next start : Nat} {code : Code}

/-- The end of a loop restores what the loop has saved. -/
theorem Statement.for_eq_parts
    (generated : (Statement.for kind loopVariable sequence statements).code surroundings last =
      .ok (code, next)) :
    ∃ work : Code, code =
      (work ++ [.label (LabelGroup.label ⟨"for", last + 1⟩ "end")]) ++ ForLoop.bracket.restore := by
  obtain ⟨layout, address, sequenceCode, _, current, store, bodyCode, _, _, _, _, _, _, rfl⟩ :=
    Statement.code_for.mp generated
  exact ⟨Code.join [ForLoop.setUp address sequenceCode layout,
    ForLoop.advance ⟨"for", last + 1⟩ current store, bodyCode,
    [.label (LabelGroup.label ⟨"for", last + 1⟩ "continue")], Code.increment Cell.forIndex,
    [.jump (LabelGroup.label ⟨"for", last + 1⟩ "start")]], by simp [ForLoop.finish]⟩

/-- Nothing jumps behind the end of a loop. -/
theorem Statement.for_end
    (generated : (Statement.for kind loopVariable sequence statements).code surroundings last =
      .ok (code, next)) (holds : image.Holds code start) {middle : Nat}
    (marks : image.Marks (LabelGroup.label ⟨"for", last + 1⟩ "end") middle) :
    (start ≤ middle ∧ middle < start + code.size) ∧
      ∀ place, middle ≤ place → place < start + code.size → ∀ instruction target,
        image.code[place]? = some ⟨instruction, target⟩ → instruction.destination? = none := by
  obtain ⟨work, rfl⟩ := Statement.for_eq_parts generated
  have restoreSize : Code.size ForLoop.bracket.restore = 12 := rfl
  have label : Code.size (work ++ [.label (LabelGroup.label ⟨"for", last + 1⟩ "end")]) =
      work.size := Code.size_append ..
  have size := Code.size_append (work ++ [.label (LabelGroup.label ⟨"for", last + 1⟩ "end")])
    ForLoop.bracket.restore
  rw [label, restoreSize] at size
  obtain ⟨workHolds, restoreHolds⟩ := Image.holds_append.mp holds
  obtain rfl : middle = start + work.size :=
    marks.unique (Image.holds_append.mp workHolds).2.1
  rw [label] at restoreHolds
  have straight : ∀ instruction ∈ ForLoop.bracket.restore, instruction.destination? = none := by
    decide
  refine ⟨by omega, fun place above below instruction target found => ?_⟩
  exact straight instruction (Image.mem_of_holds restoreHolds above (by omega) found)

/-- A loop is traced apart from the loops around it: its return statements go outside. -/
theorem Statement.exists_traced_for
    (typed : (Statement.for kind loopVariable sequence statements).WellTyped surroundings.result)
    (valued : Valued (Statement.for kind loopVariable sequence statements).returnTypes)
    (generated : (Statement.for kind loopVariable sequence statements).code surroundings last =
      .ok (code, next)) (holds : image.Holds code start) :
    ∃ labels other shapes lost, Traced image labels (Code.Severed surroundings.Outside) code other
        start ⟨[], []⟩ ⟨[], []⟩ shapes lost ∧
      ∀ instruction ∈ other, ∀ name, instruction.destination? = some name →
        .label name ∈ code ∨ Environment.Names name := by
  have plain := Statement.plain_operations _ typed
  -- In place of its return statements, the loop ends in a fault.
  let hole := Fault.missingReturn.handler
  have escapes : Environment.Names hole := .inr ⟨_, rfl⟩
  let inner : Surroundings :=
    { surroundings with loops := [], returnLabel := surroundings.returnLabel.map fun _ => hole }
  have widens : surroundings.Widens surroundings.Outside inner :=
    ⟨⟨surroundings.loops, rfl⟩, rfl, rfl, fun exit same =>
      ⟨.inr same, hole, congrArg (Option.map _) same⟩⟩
  have bodyPlain := plain
  rw [Statement.operations, plain_append] at bodyPlain
  obtain ⟨other, made, cut⟩ := Statement.cut_for (fun context middle bodyCode bodyMade =>
    cut_block (fun _ => .inl) _ (inner.enterLoop context) widens.enterLoop (List.cons_ne_nil _ _)
      statements bodyPlain.2 bodyMade) generated
  obtain ⟨_, own, range, _, provides⟩ :=
    Statement.provides inner (fun _ member => nomatch member) _ typed valued made
  have free : own hole = none := by
    by_contra found
    have zero : LabelGroup.serialOf hole = 0 := LabelGroup.serialOf_of_digitFree (by decide)
    have serial := (range hole found).1
    omega
  let labels : Labels := fun name =>
    own name <|> if name = hole then some ⟨Code.returned surroundings.result, []⟩ else none
  have known : inner.Known labels := by
    refine ⟨nofun, fun exit member => ?_⟩
    obtain ⟨_, _, rfl⟩ := Option.map_eq_some_iff.mp member
    simp [labels, free, inner]
  obtain ⟨flows, _⟩ := provides labels (fun name shape found => by simp [labels, found]) known
  obtain ⟨shapes, lost, _, rfl, traced⟩ :=
    cut.traced (fun piece severed => severed.closes) holds flows
  refine ⟨labels, other, shapes, lost, traced, fun instruction member name goes => ?_⟩
  have linked : inner.Linked (code.scope Environment.Names) :=
    ⟨nofun, nofun, fun exit member => by
      obtain ⟨_, _, rfl⟩ := Option.map_eq_some_iff.mp member
      exact .inr escapes⟩
  exact (Statement.linked (Code.standard_scope fun _ => id) _ linked plain made
    (Code.introduced_scope fun _ => cut.label_mem) instruction member).destination goes

end

/-- The shared words hold what they held. -/
def Configuration.Keeps (image : Image) (before after : Configuration) : Prop :=
  ∀ cell ∈ Cell.shared, after.memory.cell image.word cell = before.memory.cell image.word cell

/-- A function is called by its address, and comes back. -/
structure Configuration.Invokes (image : Image) (limit : Option Nat)
    (caller entered leaving back : Configuration) : Prop where
  calls : caller.Executes image .callV
  orderly : caller.Orderly image
  enters : caller.Next image limit entered
  runs : Level image limit 0 image.code.size entered leaving
  leaves : ∃ instruction, leaving.Executes image instruction ∧ instruction.returns = true
  comes : leaving.Next image limit back

/-- The piece of the code of the statements is between two places of the image. The exit, if there
is one, is behind it. -/
structure Program.Lies (program : Program) (options : CompileOptions) (piece : Code)
    (exit : Option String) (start stop : Nat) : Prop where
  part : ∃ front back final, program.bodyCode 0 = .ok (front ++ (piece ++ back), final) ∧
    start = (program.prologue options).size + front.size ∧ ∀ name ∈ exit, .label name ∈ back
  size : stop = start + piece.size

namespace Program

variable {program : Program} {options : CompileOptions} {code body : Code} {image : Image}

/-- A piece of the code of the statements is in its place. No label of the environment is there,
and the exit is not before the end. -/
theorem Lies.placed {piece : Code} {exit : Option String} {start stop : Nat}
    (lies : program.Lies options piece exit start stop) (plain : Plain program.operations)
    (compiled : program.compile options = .ok code)
    (assembled : Image.assemble code = .ok image) :
    image.Holds piece start ∧
      (∀ name there, Environment.Names name → image.Marks name there → start ≤ there →
        stop < there) ∧
      ∀ name there, exit = some name → image.Marks name there → stop ≤ there := by
  obtain ⟨body, final, made, rfl⟩ := compile_eq_ok_body.mp compiled
  obtain ⟨⟨front, back, _, made', starts, exits⟩, stops⟩ := lies
  obtain ⟨rfl, rfl⟩ := Prod.mk.inj (Except.ok.inj (made.symm.trans made'))
  have holds := Image.holds_of_assemble assembled
  simp only [Image.holds_append, Nat.zero_add, ← starts, ← stops] at holds
  obtain ⟨_, ⟨_, pieceHolds, backHolds⟩, _⟩ := holds
  refine ⟨pieceHolds, fun name there names marks above => ?_, fun name there same marks => ?_⟩
  · have apart := marks_environment plain made assembled names marks
    simp only [Code.size_append] at apart
    omega
  · obtain ⟨place, marks', above, _⟩ := Image.marks_of_holds backHolds (exits name same)
    rw [marks.unique marks']
    exact above

section

variable {limit : Option Nat} (typed : program.WellTyped) (valued : Valued program.returnTypes)
  (compiled : program.compile options = .ok code) (assembled : Image.assemble code = .ok image)
  (addressable : image.Addressable)
include typed valued compiled assembled addressable

/-- A function that was called by its address comes back with the shared words as they were. -/
theorem invocation_keeps {caller entered leaving back : Configuration}
    (invokes : caller.Invokes image limit entered leaving back) :
    caller.Keeps image back ∧ ∃ target, caller.stack = .integer target :: back.stack := by
  obtain ⟨calls, orderly, next, level, ⟨instruction, leaves, returns⟩, comes⟩ := invokes
  obtain ⟨chart, whole⟩ := exists_whole typed valued compiled assembled
  obtain ⟨target, rest, stack, enters⟩ := next.callV calls
  obtain ⟨serial, place, marks, rfl⟩ := orderly.calls calls _ _ stack
  have entry : image.Entry entered.pc ⟨[.integer], []⟩ := by
    rw [enters.pc, Image.toNatClampNeg_ofNat addressable marks.2]
    exact .function marks
  have tracked : entered.Tracked image rest _ ⟨[.integer], []⟩ := enters.tracked [] []
  have inside : leaving.pc < image.code.size := (Array.getElem?_eq_some_iff.mp leaves).1
  have arrives := level.follows whole addressable (Image.marked_of_assemble assembled) chart
    whole.closed rest _ [] (fun _ _ => (whole.enters _ _ entry).imp_right fun same =>
      ⟨congrArg Shape.promised same, same ▸ tracked⟩) (Nat.zero_le _) (Nat.le_of_lt inside)
  have silent : ¬chart.lost leaving.pc := fun lost => by
    rw [whole.silent _ lost _ _ leaves] at returns
    cases returns
  obtain ⟨promised, arrived⟩ := arrives.resolve_left silent
  obtain ⟨given, after, kinds, kept⟩ := arrived.return
    (chart.step _ (Nat.zero_le _) inside silent _ _ leaves) leaves returns comes
  rw [promised, List.map_eq_nil_iff] at kinds
  subst kinds
  exact ⟨kept, _, by rw [stack, after]; rfl⟩

/-- An expression adds the words of its type, and leaves the shared words as they were. -/
theorem expression_keeps {expression : Expr} (expressionTyped : expression.WellTyped)
    (expressionValued : Valued expression.returnTypes) {last next : Nat} {piece : Code}
    (generated : expression.valueCode last = .ok (piece, next)) {start stop : Nat}
    (lies : program.Lies options piece none start stop) {before after : Configuration}
    (level : Level image limit start stop before after) (begins : before.pc = start)
    (ends : after.pc = stop) :
    before.Keeps image after ∧ ∃ words, after.stack = words ++ before.stack ∧
      words.map Word.kind = expression.type.slots.map Slot.kind := by
  obtain ⟨all, whole⟩ := exists_whole typed valued compiled assembled
  obtain ⟨holds, apart, _⟩ := lies.placed (plain_block program.body typed) compiled assembled
  have stops := lies.size
  obtain ⟨_, own, range, _, provides⟩ :=
    expression.provides_valueCode [] [] expressionTyped expressionValued generated
  obtain ⟨flows, _⟩ := provides own fun _ _ => id
  rw [List.append_nil] at flows
  obtain ⟨shapes, _, rfl, traced⟩ := Code.exists_traced holds flows
  have severed (part : Code) (none : False) : part.Severed fun _ => False := none.elim
  have closes (part : Code) (none : False) : part.Closes := none.elim
  have closed := traced.closed severed rfl
    (fun instruction member name goes => expression.names_of_valueCode (fun _ => id)
      (expression.plain_operations expressionTyped) generated member goes)
    (fun name names there marks above =>
      Nat.not_le_of_lt (apart name there (names.resolve_right id) marks above))
    (Nat.le_of_eq stops)
  have arrives := level.follows whole addressable (Image.marked_of_assemble assembled) _ closed _ _
    _ (traced.follows_start closes rfl begins start stop)
  rw [stops] at arrives
  exact traced.keeps_of_follows closes rfl expression.type.content_notMem_slots arrives (by omega)
    (by omega)

/-- A loop over a sequence that is left through its end leaves the shared words as they were. -/
theorem for_keeps {surroundings : Surroundings} {kind : ForKind} {loopVariable : Binding}
    {sequence : Expr} {statements : List Statement}
    (loopTyped :
      (Statement.for kind loopVariable sequence statements).WellTyped surroundings.result)
    (loopValued : Valued (Statement.for kind loopVariable sequence statements).returnTypes)
    {last next : Nat} {piece : Code}
    (generated : (Statement.for kind loopVariable sequence statements).code surroundings last =
      .ok (piece, next)) {start stop : Nat}
    (lies : program.Lies options piece surroundings.returnLabel start stop)
    {before middle after : Configuration}
    (level : Level image limit start middle.pc before middle) (begins : before.pc = start)
    (leaves : image.Marks (LabelGroup.label ⟨"for", last + 1⟩ "end") middle.pc)
    (restores : Level image limit middle.pc stop middle after) (ends : after.pc = stop) :
    before.Keeps image after ∧ after.stack = before.stack := by
  obtain ⟨all, whole⟩ := exists_whole typed valued compiled assembled
  obtain ⟨holds, apart, exits⟩ := lies.placed (plain_block program.body typed) compiled assembled
  have stops := lies.size
  obtain ⟨labels, other, shapes, lost, traced, refers⟩ :=
    Statement.exists_traced_for loopTyped loopValued generated holds
  obtain ⟨inside, straight⟩ := Statement.for_end generated holds leaves
  rw [← stops] at inside straight
  have closes (part : Code) (severed : part.Severed surroundings.Outside) : part.Closes :=
    severed.closes
  -- Up to its end the loop is left for the exit only, and this is behind the end.
  have escapes (name : String) (leads : Environment.Names name ∨ surroundings.Outside name)
      (there : Nat) (marks : image.Marks name there) (behind : start ≤ there) :
      ¬there ≤ middle.pc := by
    obtain names | exit : Environment.Names name ∨ surroundings.returnLabel = some name :=
      leads.elim .inl id
    · have after := apart name there names marks behind
      omega
    · have after := exits name there exit marks
      omega
  have closed := traced.closed (fun _ => id) rfl refers escapes (by omega)
  have works := level.follows whole addressable (Image.marked_of_assemble assembled) _ closed _ _ _
    (traced.follows_start closes rfl begins start middle.pc)
  have falls : (traced.chart closes rfl).Closed middle.pc stop :=
    Chart.closed_of_straight _ (by omega) straight
  have arrives := restores.follows whole addressable (Image.marked_of_assemble assembled) _ falls _
    _ _ fun _ _ => works inside.1 (Nat.le_refl _)
  rw [stops] at arrives
  obtain ⟨kept, words, stack, none⟩ :=
    traced.keeps_of_follows closes rfl nofun arrives (by omega) (by omega)
  rw [List.map_nil, List.map_eq_nil_iff] at none
  exact ⟨kept, by rw [stack, none]; rfl⟩

end

/-- The shared words survive calls, whatever the functions that are called nest and however they
leave their loops. An invocation that comes back, the evaluation of an expression, be it one of
the higher-order operators, and a loop over a sequence that is left through its end leave them as
they were. -/
theorem shared_words_kept (typed : program.WellTyped) (valued : Valued program.returnTypes)
    (compiled : program.compile options = .ok code) (assembled : Image.assemble code = .ok image)
    (addressable : image.Addressable) (limit : Option Nat) :
    (∀ caller entered leaving back : Configuration,
      caller.Invokes image limit entered leaving back → caller.Keeps image back) ∧
    (∀ (expression : Expr) (last next : Nat) (piece : Code) (start stop : Nat)
        (before after : Configuration), expression.WellTyped → Valued expression.returnTypes →
      expression.valueCode last = .ok (piece, next) → program.Lies options piece none start stop →
      Level image limit start stop before after → before.pc = start → after.pc = stop →
        before.Keeps image after) ∧
    (∀ (surroundings : Surroundings) (kind : ForKind) (loopVariable : Binding) (sequence : Expr)
        (statements : List Statement) (last next : Nat) (piece : Code) (start stop : Nat)
        (before middle after : Configuration),
      (Statement.for kind loopVariable sequence statements).WellTyped surroundings.result →
      Valued (Statement.for kind loopVariable sequence statements).returnTypes →
      (Statement.for kind loopVariable sequence statements).code surroundings last =
        .ok (piece, next) → program.Lies options piece surroundings.returnLabel start stop →
      Level image limit start middle.pc before middle → before.pc = start →
      image.Marks (LabelGroup.label ⟨"for", last + 1⟩ "end") middle.pc →
      Level image limit middle.pc stop middle after → after.pc = stop →
        before.Keeps image after) := by
  refine ⟨?_, ?_, ?_⟩
  · intro caller entered leaving back invokes
    exact (invocation_keeps typed valued compiled assembled addressable invokes).1
  · intro expression last next piece start stop before after expressionTyped expressionValued
      generated lies level begins ends
    exact (expression_keeps typed valued compiled assembled addressable expressionTyped
      expressionValued generated lies level begins ends).1
  · intro surroundings kind loopVariable sequence statements last next piece start stop before
      middle after loopTyped loopValued generated lies level begins leaves restores ends
    exact (for_keeps typed valued compiled assembled addressable loopTyped loopValued generated
      lies level begins leaves restores ends).1

end Program

/-- Code that is sketched through a call is run, and what it calls is an invocation. -/
theorem Sketch.Depicts.throughCall {code piece : Code} {image : Image} {globals : Int32}
    {limit : Option Nat} {start serial fuel : Nat} {name : String} {sketch last : Sketch}
    {before : Configuration} (depicts : sketch.Depicts code image piece start before)
    (prepared : Prepared code image globals) (holds : image.Holds piece start)
    (inside : start + Code.size piece ≤ image.code.size)
    (follows : sketch.throughCall piece name serial fuel = some last) :
    ∃ caller entered leaving back middle after : Configuration,
      caller.Invokes image limit entered leaving back ∧
      Level image limit start middle.pc before middle ∧ image.Marks name middle.pc ∧
      Level image limit middle.pc (start + Code.size piece) middle after ∧
      after.pc = start + Code.size piece := by
  unfold Sketch.throughCall at follows
  simp only [Option.bind_eq_bind, Option.bind_eq_some_iff] at follows
  obtain ⟨⟨front, _⟩, found, callerSketch, called, enteredSketch, enters, leavingSketch, works,
    backSketch, resumes, middleSketch, goesOn, ends⟩ := follows
  obtain ⟨_, caller, depictsCaller, calls⟩ :=
    depicts.run prepared holds called (Nat.le_refl _) (Nat.le_refl _)
  obtain ⟨entered, depictsEntered, executes, orderly, next⟩ :=
    depictsCaller.enters prepared holds enters
  obtain ⟨_, leaving, depictsLeaving, inner⟩ :=
    depictsEntered.run prepared holds works (Nat.zero_le _) inside
  obtain ⟨back, depictsBack, behind, leaves, comes⟩ :=
    depictsLeaving.resumes prepared holds depictsCaller.parts resumes
  obtain ⟨ahead, middle, depictsMiddle, rest⟩ :=
    depictsBack.run prepared holds goesOn (Nat.le_refl _) (Nat.le_refl _)
  have marks := depictsMiddle.marks holds ahead
  have place := (Sketch.marks_of_seek holds found).unique marks
  rw [place] at calls rest
  obtain ⟨done, after, depictsAfter, restores⟩ :=
    depictsMiddle.run prepared holds ends (Nat.le_of_eq place.symm) (Nat.le_refl _)
  have callerPlace := depictsCaller.pc
  have backPlace := depictsBack.pc
  have middlePlace := depictsMiddle.pc
  have below : caller.pc < middle.pc := by
    rcases Sketch.eq_or_lt_of_run goesOn with rfl | less
    · omega
    · have below : backSketch.distance < front.size := less
      omega
  have throughout : Level image limit start middle.pc before back :=
    .call calls (by omega) executes rfl orderly next inner leaves rfl comes (by omega)
  have whole := depictsAfter.parts
  rw [List.head?_eq_none_iff.mp done, List.append_nil] at whole
  exact ⟨caller, entered, leaving, back, middle, after,
    ⟨executes, orderly, next, inner, ⟨_, leaves, rfl⟩, comes⟩, throughout.trans rest, marks,
    restores, by rw [depictsAfter.pc, whole, Code.size_reverse]; rfl⟩

namespace Program

/-- The array that the loops go over is in the variable at the beginning of the global block. -/
def loopedArray : Expr :=
  .typed (.array .integer) (.identifier ⟨"numbers", .array .integer, .global 0, true⟩)

/-- Two nested loops, which call a function that returns from a loop of its own. -/
def unwindingLoop : Statement :=
  .for .index ⟨"outer", .integer, .global 4, true⟩ loopedArray
    [.for .index ⟨"inner", .integer, .global 8, true⟩ loopedArray
      [.call (.typed .void (.invocation (.typed (.lambda [] .void) (.lambda []
        [.for .index ⟨"own", .integer, .frameLocal (-12), true⟩ loopedArray [.return none]] 0 4))
        []))]]

def unwinding : Program where
  globalSize := 12
  body := [unwindingLoop]

/-- The cells that the loops and the call go through, the words of the loops shared ones. -/
def unwindingCells : List String :=
  [Cell.framePointer, Cell.stackPointer, Cell.returnAddress, Cell.returnFrame, Cell.forIdentifier,
    Cell.forSequence, Cell.forLength, Cell.forIndex]

/-- The record of the array is at 70000, with one element, and the frames are below 71000. -/
def unwindingWords : List (Sign × Sign) :=
  (unwindingCells.map fun cell => (.label cell 0, .number 71000)) ++
    (([0, 4, 8].map fun offset => (.label Cell.globalBlock offset, .number 70000)) ++
      [70012, 70988, 70992, 70996].map fun address => (.number address, .number 1))

/-- From these words on, the loops are followed through the function to their end. -/
theorem unwinding_sketched :
    ∃ piece next last, unwindingLoop.code {} 0 = .ok (piece, next) ∧
      Sketch.throughCall piece (LabelGroup.label ⟨"for", 1⟩ "end") 3 400
        ⟨[], piece, [], unwindingWords⟩ = some last := by
  have follows : ((unwindingLoop.code {} 0).toOption.bind fun made =>
      Sketch.throughCall made.1 (LabelGroup.label ⟨"for", 1⟩ "end") 3 400
        ⟨[], made.1, [], unwindingWords⟩).isSome = true := by decide +kernel
  obtain ⟨last, follows⟩ := Option.isSome_iff_exists.mp follows
  obtain ⟨⟨piece, next⟩, made, follows⟩ := Option.bind_eq_some_iff.mp follows
  cases generated : unwindingLoop.code {} 0 with
  | error defect =>
      rw [generated] at made
      cases made
  | ok result =>
      rw [generated] at made
      cases made
      exact ⟨piece, next, last, rfl, follows⟩

theorem unwinding_stands {code body : Code} {image : Image}
    (composed : Composed unwinding ⟨true⟩ code body)
    (prepared : Prepared code image unwinding.globalSize) (small : image.dataSize ≤ 65536) :
    ∀ entry ∈ unwindingWords, ∃ index, entry.1.Stands code image 131072 index := by
  have known : ∀ cell ∈ unwindingCells, cell ∈ [Cell.framePointer, Cell.stackPointer] ∨
      (cell, (4 : Int32)) ∈ Cell.scratch := by decide +kernel
  have others : ∀ cell ∈ Cell.globalBlock :: unwindingCells,
      cell ∉ Environment.texts.map Prod.fst := by decide +kernel
  obtain ⟨globals, others⟩ := List.forall_mem_cons.mp others
  refine List.forall_mem_append.mpr ⟨?_, List.forall_mem_append.mpr ⟨?_, ?_⟩⟩
  · refine List.forall_mem_map.mpr fun cell member => ?_
    have lays := (known cell member).elim composed.lays_pointers prepared.lays_scratch
    exact ⟨_, .label lays (others cell member) (by decide) (by decide)⟩
  · have inside {offset : Int32} (nonnegative : 0 ≤ offset.toInt)
        (within : Address.index offset + 4 ≤ unwinding.globalSize.toNatClampNeg) :
        ∃ index, Sign.Stands code image 131072 (.label Cell.globalBlock offset) index :=
      ⟨_, .label prepared.lays_globals globals nonnegative within⟩
    exact List.forall_mem_cons.mpr ⟨inside (by decide) (by decide), List.forall_mem_cons.mpr
      ⟨inside (by decide) (by decide), List.forall_mem_singleton.mpr
        (inside (by decide) (by decide))⟩⟩
  · have behind {address : Int32} (nonnegative : 0 ≤ address.toInt)
        (above : 65536 ≤ Address.index address) (within : Address.index address + 4 ≤ 131072) :
        ∃ index, Sign.Stands code image 131072 (.number address) index :=
      ⟨_, .number nonnegative (Nat.le_trans small above) within⟩
    exact List.forall_mem_cons.mpr ⟨behind (by decide) (by decide) (by decide),
      List.forall_mem_cons.mpr ⟨behind (by decide) (by decide) (by decide),
        List.forall_mem_cons.mpr ⟨behind (by decide) (by decide) (by decide),
          List.forall_mem_singleton.mpr (behind (by decide) (by decide) (by decide))⟩⟩⟩

/-- The loops go one round each, and the function that they call returns from the first round of its
own. -/
theorem unwinding_words_kept :
    ∃ code image loop piece next start stop, unwinding.body = [loop] ∧ unwinding.WellTyped ∧
      Valued unwinding.returnTypes ∧ unwinding.compile ⟨true⟩ = .ok code ∧
      Image.assemble code = .ok image ∧ image.Addressable ∧ loop.code {} 0 = .ok (piece, next) ∧
      unwinding.Lies ⟨true⟩ piece none start stop ∧
      ∃ before caller entered leaving back middle after : Configuration,
        caller.Invokes image none entered leaving back ∧ caller.Keeps image back ∧
        before.pc = start ∧ Level image none start middle.pc before middle ∧
        image.Marks (LabelGroup.label ⟨"for", 1⟩ "end") middle.pc ∧
        Level image none middle.pc stop middle after ∧ after.pc = stop ∧
        before.Keeps image after := by
  have loopTyped : unwindingLoop.WellTyped .void := by
    simp [unwindingLoop, loopedArray, blockWellTyped, Statement.WellTyped, Expr.WellTyped,
      Form.WellTyped, exprsWellTyped, Expr.type, ForKind.Applies]
  have loopValued : Valued unwindingLoop.returnTypes := by
    simp [unwindingLoop, loopedArray, blockReturnTypes, Statement.returnTypes, Expr.returnTypes,
      Form.returnTypes, exprsReturnTypes, Valued]
  have typed : unwinding.WellTyped := ⟨loopTyped, trivial⟩
  have valued : Valued unwinding.returnTypes := by
    rwa [returnTypes, unwinding, blockReturnTypes, blockReturnTypes, List.append_nil]
  have plain := plain_block unwinding.body typed
  obtain ⟨code, image, compiled, assembled, addressable, small⟩ :=
    exists_small_image (by decide +kernel) plain (by decide)
  obtain ⟨_, composed⟩ := exists_composed compiled
  have prepared := composed.prepared assembled addressable (by omega)
  obtain ⟨piece, next, last, pieceMade, follows⟩ := unwinding_sketched
  obtain ⟨body, final, made, parts⟩ := compile_eq_ok_body.mp compiled
  obtain ⟨_, _, rest, same, _, rfl⟩ := blockCode_cons.mp made
  obtain ⟨rfl, rfl⟩ := Prod.mk.inj (Except.ok.inj (pieceMade.symm.trans same))
  obtain ⟨start, lies, inside⟩ : ∃ start, unwinding.Lies ⟨true⟩ piece none start
      (start + piece.size) ∧ start + piece.size ≤ image.code.size := by
    refine ⟨_, ⟨⟨[], rest, final, made, rfl, fun name member =>
      absurd member (Option.not_mem_none name)⟩, rfl⟩, ?_⟩
    rw [Image.codeSize_of_assemble assembled, parts]
    simp only [Code.size_append, Code.size_nil]
    omega
  obtain ⟨holds, _⟩ := lies.placed plain compiled assembled
  have total := image.size_initialState 131072
  have room : image.dataSize ≤ (image.initialState 131072).memory.size := by omega
  obtain ⟨memory, size, texts, words⟩ := Sketch.exists_memory prepared start
    (Texts.initial prepared (by omega)) room
    (by rw [total]; exact unwinding_stands composed prepared small) (by decide +kernel)
  have depicts : Sketch.Depicts code image piece start ⟨[], piece, [], unwindingWords⟩
      ⟨start, [], memory, .empty⟩ := ⟨rfl, rfl, rfl, size ▸ words, texts, size ▸ room⟩
  obtain ⟨caller, entered, leaving, back, middle, after, invokes, level, marks, restores, ends⟩ :=
    depicts.throughCall prepared holds inside follows
  obtain ⟨invocations, _, loops⟩ :=
    shared_words_kept typed valued compiled assembled addressable none
  have kept := loops {} _ _ _ _ 0 next piece start _ _ middle after loopTyped loopValued pieceMade
    lies level rfl marks restores ends
  exact ⟨code, image, unwindingLoop, piece, next, start, _, rfl, typed, valued, compiled, assembled,
    addressable, pieceMade, lies, _, caller, entered, leaving, back, middle, after, invokes,
    invocations _ _ _ _ invokes, rfl, level, marks, restores, ends, kept⟩

end Program

end StackBackend
