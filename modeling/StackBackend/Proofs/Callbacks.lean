import StackBackend.Operator.HigherOrder
import StackBackend.Proofs.Allocation
import StackBackend.Proofs.Brackets
import StackBackend.Proofs.Courses
import StackBackend.Proofs.Invocation

namespace StackBackend

/-! Calls of a function of which only the terms are known. Its arguments are passed by code that
reads what a call leaves alone; the function answers below the stack pointer, and keeps the words
of the operators and the records that are spared. -/

/-! ## Passing values -/

namespace Frame

/-- Nothing has changed but the cells of calls and the memory of the frames below the top. -/
structure Calm (word : String → Int32) (floor top : Nat) (before after : Memory) : Prop where
  size : after.size = before.size
  kept : ∀ index, Cells.Misses word cells index → index < floor ∨ top ≤ index →
    after.byte index = before.byte index

/-- The bytes of the values stand below the pointer, the first one highest. -/
def Passed (memory : Memory) : Nat → List Ty → List (List UInt8) → Prop
  | _, [], [] => True
  | pointer, type :: types, value :: values =>
      memory.read (pointer - type.width) type.width = value ∧
        Passed memory (pointer - type.width) types values
  | _, _, _ => False

/-- The code leaves the value, whatever passing other values has done to the memory. -/
def Fetches (word : String → Int32) (floor top : Nat) (memory : Memory) (code : Code) (type : Ty)
    (value : List UInt8) : Prop :=
  value.length = type.width ∧ ∀ after, Calm word floor top memory after → ∀ stack rest,
    Code.act word (code ++ rest) stack after =
      Code.act word rest (type.words value ++ stack) after

section

variable {word : String → Int32} {floor top : Nat} {before between after : Memory}

theorem Calm.refl (memory : Memory) : Calm word floor top memory memory :=
  ⟨rfl, fun _ _ _ => rfl⟩

theorem Calm.trans (first : Calm word floor top before between)
    (second : Calm word floor top between after) : Calm word floor top before after :=
  ⟨second.size.trans first.size, fun index misses outside =>
    (second.kept index misses outside).trans (first.kept index misses outside)⟩

/-- Other cells keep their words. -/
theorem Calm.cell {all : List String} {low : Nat} {name : String}
    (calm : Calm word floor top before after) (layout : Cells word all low) (above : low ≤ floor)
    (subset : ∀ name ∈ cells, name ∈ all) (member : name ∈ all) (other : name ∉ cells) :
    after.cell word name = before.cell word name := by
  have below := layout.below name member
  refine Memory.word_congr fun index lower upper => calm.kept index (fun cell known => ?_)
    (.inl (by omega))
  have apart := layout.apart name member cell (subset cell known) fun same => other (same ▸ known)
  omega

theorem calm_reserved (type : Ty) : Calm word floor top before (reserved word type before) :=
  ⟨Memory.size_setWord .., fun _ misses _ =>
    Memory.byte_setWord_of_outside (misses _ stackPointer_mem)⟩

/-- A value is stored in the memory of the frames. -/
theorem calm_stored {type : Ty} {index : Nat} {bytes : List UInt8}
    (stored : Ty.Stored word type index bytes before after) (above : floor ≤ index)
    (below : index + type.width ≤ top) : Calm word floor top before after :=
  ⟨stored.size, fun other misses outside => stored.kept other (by omega) fun name member =>
    misses name ((by decide : ∀ name ∈ Ty.storeCells, name ∈ cells) name member)⟩

theorem Passed.congr {types : List Ty} {values : List (List UInt8)} {pointer : Nat}
    (passed : Passed before pointer types values)
    (room : Parameters.width types ≤ pointer)
    (same : ∀ index, pointer - Parameters.width types ≤ index → index < pointer →
      after.byte index = before.byte index) : Passed after pointer types values := by
  induction types generalizing pointer values with
  | nil => cases values with
      | nil => trivial
      | cons => exact passed
  | cons type types induction =>
      cases values with
      | nil => exact passed
      | cons value values =>
          obtain ⟨first, others⟩ := passed
          rw [Parameters.width] at room same
          refine ⟨?_, induction others (by omega) fun index lower upper =>
            same index (by omega) (by omega)⟩
          rw [← first]
          exact Memory.read_congr fun index lower upper => same index (by omega) (by omega)

theorem Passed.length_eq {types : List Ty} {contents : List (List UInt8)} {memory : Memory}
    {pointer : Nat} (passed : Passed memory pointer types contents) :
    contents.length = types.length := by
  induction types generalizing contents pointer with
  | nil => cases contents with
      | nil => rfl
      | cons => exact absurd passed id
  | cons type types induction => cases contents with
      | nil => exact absurd passed id
      | cons content contents => rw [List.length_cons, List.length_cons, induction passed.2]

/-- A value is above those that were passed after it. -/
theorem Passed.read_eq {types : List Ty} {contents : List (List UInt8)} {memory : Memory}
    {base number : Nat} {type : Ty} {content : List UInt8}
    (passed : Passed memory (base + Parameters.width types) types contents)
    (found : types[number]? = some type) (held : contents[number]? = some content) :
    memory.read (base + Parameters.width (types.drop (number + 1))) type.width = content := by
  induction types generalizing contents number with
  | nil => cases found
  | cons first types induction => cases contents with
      | nil => cases held
      | cons content contents =>
          rcases passed with ⟨here, others⟩
          have lower : base + Parameters.width (first :: types) - first.width =
              base + Parameters.width types := by
            rw [Parameters.width]
            omega
          rw [lower] at here others
          cases number with
          | zero =>
              cases found
              cases held
              exact here
          | succ number => exact induction others found held

/-- Passing values stores them below the stack pointer, which moves below them. -/
theorem act_passCodes {start now : Memory} {framePointer : Int32} {pointer : Nat}
    {arguments : List (Code × Ty)} {values : List (List UInt8)} (cells : Cells word cells floor)
    (areValues : ∀ argument ∈ arguments, argument.2.isVoid = false)
    (fetches : List.Forall₂ (fun argument value =>
      Fetches word floor top start argument.1 argument.2 value) arguments values)
    (calm : Calm word floor top start now) (stands : Stands word floor now pointer framePointer)
    (below : pointer ≤ top)
    (room : floor + Parameters.width (arguments.map Prod.snd) ≤ pointer) :
    ∃ after,
      (∀ stack rest, Code.act word (passCodes arguments ++ rest) stack now =
        Code.act word rest stack after) ∧
      Calm word floor top start after ∧
      Stands word floor after (pointer - Parameters.width (arguments.map Prod.snd)) framePointer ∧
      Passed after pointer (arguments.map Prod.snd) values ∧
      ∀ index, pointer ≤ index → after.byte index = now.byte index := by
  induction fetches generalizing now pointer with
  | nil => exact ⟨now, fun _ _ => rfl, calm, stands, trivial, fun _ _ => rfl⟩
  | @cons argument value arguments values fetched others induction =>
      obtain ⟨code, type⟩ := argument
      obtain ⟨isValue, areValues⟩ := List.forall_mem_cons.mp areValues
      obtain ⟨length, fetched⟩ := fetched
      simp only [List.map_cons, Parameters.width] at room isValue length fetched ⊢
      have inside := stands.inside
      have fits := stands.fits
      have named : Address.Names (stackWord word now - type.size) (pointer - type.width) :=
        stands.stack.sub (by rw [type.toInt_size]; omega) (by omega)
      have lowered := reserved_stands type cells stands (by omega)
      have reservedCalm := calm.trans (calm_reserved type)
      have reservedSize : (reserved word type now).size = now.size := Memory.size_setWord ..
      obtain ⟨stored, stores, kept⟩ := Ty.act_storeCode (reserved word type now) isValue
        (cells.mono (by decide)) (Ty.bytes?_words length) named (by omega) (by omega) (by omega)
      have storedSize : stored.size = now.size := kept.size.trans reservedSize
      have storedCalm := reservedCalm.trans (calm_stored kept (by omega) (by omega))
      have storedStands : Stands word floor stored (pointer - type.width) framePointer := by
        refine ⟨?_, ?_, by omega, by omega⟩
        · rw [stackWord, word_cell_of_stored kept cells (by omega) stackPointer_mem (by decide)]
          exact lowered.stack
        · rw [frameWord, word_cell_of_stored kept cells (by omega) framePointer_mem (by decide)]
          exact lowered.frame
      obtain ⟨after, acts, afterCalm, afterStands, passed, same⟩ :=
        induction areValues storedCalm storedStands (by omega) (by omega)
      refine ⟨after, fun stack rest => ?_, afterCalm, ?_, ⟨?_, passed⟩, fun index above => ?_⟩
      · rw [passCodes_cons, passCode, List.append_assoc, List.append_assoc, List.append_assoc,
          act_reserve stack type cells (by omega), fetched _ reservedCalm, stores, acts]
      · rw [← Nat.sub_sub]
        exact afterStands
      · rw [← kept.written]
        exact Memory.read_congr fun index lower upper => same index lower
      · rw [same index (by omega), kept.kept index (by omega)
          ((cells.mono (by decide)).misses_of_floor_le (by omega)),
          reserved_byte cells (by omega)]

end

end Frame

/-! ## The operators in an image -/

namespace HigherOrder

/-- The words that operators work in. -/
def words : List String :=
  [Cell.operatorLambda, Cell.operatorArray, Cell.operatorOtherArray, Cell.operatorIndex,
    Cell.operatorLength, Cell.operatorResult, Cell.operatorCount]

theorem words_known : ∀ name ∈ words, name ∈ Program.wordCells := by
  decide

/-- The cells that the steps of an operator are followed through: its own words, the pointers to
frames, and the cells of the manager. -/
def followed : List String :=
  words ++ [Cell.stackPointer, Cell.framePointer, Cell.freeList, Cell.bumpPointer]

theorem followed_known : ∀ name ∈ followed, name ∈ Program.wordCells :=
  List.forall_mem_append.mpr ⟨words_known, by decide⟩

theorem mem_followed {name : String} (member : name ∈ words) : name ∈ followed :=
  List.mem_append_left _ member

theorem frame_known : ∀ name ∈ Frame.cells, name ∈ Program.wordCells := by
  decide

theorem storeCells_known : ∀ name ∈ Ty.storeCells, name ∈ Program.wordCells := fun name member =>
  frame_known name ((by decide : ∀ name ∈ Ty.storeCells, name ∈ Frame.cells) name member)

theorem words_apart : ∀ name ∈ words, name ∉ Frame.cells := by
  decide

/-- What operators rely on in an image. -/
structure Installed (image : Image) : Prop where
  addressable : image.Addressable
  fits : image.dataSize ≤ 2147483647
  cells : Cells image.word Program.wordCells image.dataSize
  transfer : Cells.Wide image.word Program.wordCells image.dataSize Cell.operatorTransfer
  carried : Cells.Wide image.word Program.wordCells image.dataSize Cell.operatorReturn
  record : Record.Installed image
  copying : CopyBytes.Installed image
  faults : ∀ fault : Fault, ∃ position, image.Marks fault.handler position

namespace Installed

variable {image : Image} {floor : Nat}

theorem deep (installed : Installed image) : 8 ≤ image.dataSize :=
  Nat.le_trans (Nat.le_add_left ..) installed.transfer.below

theorem words (installed : Installed image) :
    Cells image.word HigherOrder.words image.dataSize :=
  installed.cells.mono words_known

theorem frames (installed : Installed image) (above : image.dataSize ≤ floor) :
    Cells image.word Frame.cells floor :=
  (installed.cells.mono frame_known).raise above

/-- Passing values keeps the words of the operators. -/
theorem cell_of_calm (installed : Installed image) {top : Nat} {before after : Memory}
    {name : String} (calm : Frame.Calm image.word floor top before after)
    (above : image.dataSize ≤ floor) (member : name ∈ HigherOrder.words) :
    after.cell image.word name = before.cell image.word name :=
  calm.cell installed.cells above frame_known (words_known name member) (words_apart name member)

end Installed

end HigherOrder

/-! ## Terms -/

namespace Callback

open HigherOrder (words)

/-- The terms on which a function is called: its value and its types, what it answers to the
bytes of its arguments, where the frames begin, the pointers of the caller, the records that no
call writes, and what else every call keeps. -/
structure Terms where
  function : Int32
  types : List Ty
  result : Ty
  answer : List (List UInt8) → List UInt8
  floor : Nat
  top : Nat
  framePointer : Int32
  spared : List Heap.Block
  keeps : Memory → Memory → Prop

namespace Terms

/-- The bytes that a call leaves alone: those of the spared records, and those of the callers. -/
def Spares (terms : Terms) (index : Nat) : Prop :=
  (∃ block ∈ terms.spared, block.Covers index) ∨ terms.top ≤ index

/-- The data and the spared records lie below the frames, which have room for the arguments. -/
structure Fits (terms : Terms) (data : Nat) : Prop where
  above : data ≤ terms.floor
  spared : ∀ block ∈ terms.spared, data ≤ block.address ∧ block.address + block.size ≤ terms.floor
  room : terms.floor + Parameters.width terms.types ≤ terms.top

/-- What calls leave alone lies beyond the data. -/
theorem Fits.le_of_spares {terms : Terms} {data index : Nat} (fits : terms.Fits data)
    (spares : terms.Spares index) : data ≤ index := by
  obtain ⟨block, member, covers⟩ | above := spares
  · exact Nat.le_trans (fits.spared block member).1 covers.1
  · have data := fits.above
    have room := fits.room
    omega

end Terms

/-- The function is about to be called for the arguments. -/
structure Asks (image : Image) (terms : Terms) (arguments : List (List UInt8))
    (made : Configuration) : Prop where
  holds : image.Holds [.callV] made.pc
  stack : made.stack.head? = some (.integer terms.function)
  stands : Frame.Stands image.word terms.floor made.memory
    (terms.top - Parameters.width terms.types) terms.framePointer
  inside : terms.top ≤ made.memory.size
  passed : Frame.Passed made.memory terms.top terms.types arguments

/-- The function has returned on its terms. -/
structure Honours (image : Image) (terms : Terms) (arguments : List (List UInt8))
    (made returned : Configuration) : Prop where
  pc : returned.pc = made.pc + 1
  stack : returned.stack = made.stack.tail
  stands : Frame.Stands image.word terms.floor returned.memory terms.top terms.framePointer
  answer : returned.memory.read (terms.top - terms.result.width) terms.result.width =
    terms.answer arguments
  steady : Steady image.word words terms.Spares made.memory returned.memory
  keeps : terms.keeps made.memory returned.memory

/-- A call for the arguments that has been made and honoured. -/
def Serves (image : Image) (terms : Terms) (arguments : List (List UInt8))
    (call : Excursion) : Prop :=
  Asks image terms arguments call.start ∧ Honours image terms arguments call.start call.finish

/-- Every call that a course from the start comes to returns on its terms. -/
def Obliges (image : Image) (limit : Option Nat) (terms : Terms) (start : Configuration) : Prop :=
  ∀ calls made arguments, Course image limit calls start made → Asks image terms arguments made →
    ∃ returned, Runs image limit made returned ∧ Honours image terms arguments made returned

section

variable {image : Image} {limit : Option Nat} {terms : Terms} {start : Configuration}
  {calls : List Excursion} {pc : Nat} {stack : List Word} {memory : Memory} {output : ByteArray}
  {call : Code} {arguments : List (Code × Ty)} {values : List (List UInt8)}

/-- Passing values keeps what a call keeps. -/
theorem steady_of_calm (installed : HigherOrder.Installed image) (fits : terms.Fits image.dataSize)
    {after : Memory} (calm : Frame.Calm image.word terms.floor terms.top memory after) :
    Steady image.word words terms.Spares memory after where
  size := calm.size
  cells name member := installed.cell_of_calm calm fits.above member
  bytes index spares := by
    have frames := installed.frames (Nat.le_refl _)
    obtain ⟨block, member, covers⟩ | above := spares
    · have bounds := fits.spared block member
      unfold Heap.Block.Covers at covers
      exact calm.kept index (frames.misses_of_floor_le (by omega)) (.inl (by omega))
    · have room := fits.room
      have data := fits.above
      exact calm.kept index (frames.misses_of_floor_le (by omega)) (.inr above)

/-- A call of the function in the cell passes the values and leaves the answer on the stack. -/
theorem invokes (installed : HigherOrder.Installed image) (fits : terms.Fits image.dataSize)
    (isValue : terms.result.isVoid = false)
    (generated : Frame.invoke HigherOrder.callee arguments terms.result = .ok call)
    (types : arguments.map Prod.snd = terms.types) (holds : image.Holds call pc)
    (stands : Frame.Stands image.word terms.floor memory terms.top terms.framePointer)
    (function : memory.cell image.word Cell.operatorLambda = terms.function)
    (fetches : List.Forall₂ (fun argument value =>
      Frame.Fetches image.word terms.floor terms.top memory argument.1 argument.2 value)
      arguments values)
    (reached : Course image limit calls start ⟨pc, stack, memory, output⟩)
    (obliges : Obliges image limit terms start) :
    ∃ excursion passed after output', Course image limit (calls ++ [excursion]) start
        ⟨pc + call.size, terms.result.words (terms.answer values) ++ stack, after, output'⟩ ∧
      Serves image terms values excursion ∧
      Frame.Calm image.word terms.floor terms.top memory passed ∧ terms.keeps passed after ∧
      Frame.Stands image.word terms.floor after terms.top terms.framePointer ∧
      Steady image.word words terms.Spares memory after ∧
      (terms.answer values).length = terms.result.width := by
  obtain ⟨areValues, rfl⟩ := Frame.invoke_eq_ok.mp generated
  have parts : Code.join [Frame.passCodes arguments, HigherOrder.callee, [.callV],
      Frame.result terms.result] = (Frame.passCodes arguments ++ HigherOrder.callee) ++
        .callV :: Frame.result terms.result := by
    simp only [Code.join_cons, Code.join_nil, List.append_nil, List.append_assoc, List.cons_append,
      List.nil_append]
  rw [parts] at holds ⊢
  obtain ⟨holdsLook, holdsCall⟩ := Image.holds_append.mp holds
  obtain ⟨found, holdsResult⟩ := (Image.holds_cons rfl _ _).mp holdsCall
  have frames := installed.frames fits.above
  have inside := stands.inside
  have room := fits.room
  have deep := installed.deep
  have data := fits.above
  have width := terms.result.width_le
  obtain ⟨passed, passes, calm, lowered, standing, _⟩ := Frame.act_passCodes frames areValues
    fetches (.refl memory) stands (Nat.le_refl _) (types ▸ room)
  rw [types] at lowered standing
  -- The function is called with its value on the stack.
  have looks : Code.act image.word (Frame.passCodes arguments ++ HigherOrder.callee) stack memory =
      some (.integer terms.function :: stack, passed) := by
    have member : Cell.operatorLambda ∈ words := by simp [words]
    rw [passes, HigherOrder.callee,
      installed.words.act_lastLoad member (by have := calm.size; omega),
      installed.cell_of_calm calm data member, function]
  have comes := reached.straight holdsLook looks
  have asks : Asks image terms values ⟨pc + (Frame.passCodes arguments ++ HigherOrder.callee).size,
      .integer terms.function :: stack, passed, output⟩ :=
    ⟨(Image.holds_cons rfl [] _).mpr ⟨found, trivial⟩, rfl, lowered, calm.size.symm ▸ inside,
      standing⟩
  obtain ⟨returned, away, honours⟩ := obliges calls _ values comes asks
  have visited := comes.visit away
  obtain ⟨position, stack', after, output'⟩ := returned
  obtain ⟨atNext, below, standsAfter, answered, steady, keeps⟩ := id honours
  obtain rfl : _ = position := atNext.symm
  obtain rfl : stack = stack' := below.symm
  have leaves : Code.act image.word (Frame.result terms.result) stack after =
      some (terms.result.words (terms.answer values) ++ stack, after) :=
    Code.act_alone (Frame.act_result stack isValue frames standsAfter (by omega) answered)
  refine ⟨⟨_, _⟩, passed, after, output', ?_, ⟨asks, honours⟩, calm, keeps, standsAfter,
    (steady_of_calm installed fits calm).trans steady, ?_⟩
  · have position : pc + (Frame.passCodes arguments ++ HigherOrder.callee ++
        .callV :: Frame.result terms.result).size =
        pc + (Frame.passCodes arguments ++ HigherOrder.callee).size + 1 +
          (Frame.result terms.result).size := by
      rw [Code.size_append_cons _ _ rfl, ← Nat.add_assoc, ← Nat.add_assoc]
    rw [position]
    exact visited.straight holdsResult leaves
  · rw [← answered, Memory.length_read]

end

end Callback

/-! ## The operators in a program -/

namespace Program

variable {program : Program} {code : Code} {image : Image}

theorem lays_wide (compiled : program.compile ⟨true⟩ = .ok code) :
    ∀ name ∈ [Cell.operatorTransfer, Cell.operatorReturn], code.Lays name 8 := by
  obtain ⟨main, _, rfl⟩ := compile_eq_ok.mp compiled
  intro name member
  have listed : (name, (8 : Int32)) ∈ Cell.scratch := by
    simp only [List.mem_cons, List.not_mem_nil, or_false] at member
    rcases member with rfl | rfl <;> simp [Cell.scratch]
  exact (Environment.lays_scratch 8 true listed).join (by simp)

/-- What operators rely on is part of every program that has the manager. -/
theorem operators_installed (compiled : program.compile ⟨true⟩ = .ok code)
    (assembled : Image.assemble code = .ok image) (addressable : image.Addressable)
    (fits : image.dataSize ≤ 2147483647) : HigherOrder.Installed image := by
  have cells := word_cells compiled assembled fits
  have wide {name : String} (member : name ∈ [Cell.operatorTransfer, Cell.operatorReturn])
      (other : name ∉ wordCells) : Cells.Wide image.word wordCells image.dataSize name :=
    Image.wide_of_assemble assembled fits (lays_wordCells compiled) (lays_wide compiled name member)
      other
  have record := record_installed compiled assembled addressable fits
  obtain ⟨body, composed⟩ := exists_composed compiled
  have prepared := composed.prepared assembled addressable fits
  exact
    { addressable, fits, cells, record
      transfer := wide (by simp) (by decide)
      carried := wide (by simp) (by decide)
      copying := prepared.copyBytes_installed
      faults := fun fault =>
        let ⟨position, marks, _⟩ := prepared.labelled_handler fault
        ⟨position, marks⟩ }

end Program

end StackBackend
