import StackBackend.Proofs.Comparison
import StackBackend.Proofs.Filling
import StackBackend.Proofs.HeapHistory
import StackBackend.Proofs.ScopeLayout

namespace StackBackend

/-! A function that returns what an expression over its parameters denotes keeps to its terms:
whoever calls it finds the answer below the stack pointer, and everything else as it was. -/

namespace Frame

/-- Entering a function changes nothing but its frame and the cells of calls. -/
theorem calm_entered {word : String → Int32} {floor top pointer : Nat} {memory : Memory}
    (returnAddress frameSize : Int32) (room : floor + 8 ≤ pointer) (below : pointer ≤ top) :
    Calm word floor top memory (entered word pointer returnAddress frameSize memory) where
  size := by simp only [entered, Memory.size_setWord]
  kept index misses outside := by
    rw [entered, Memory.byte_setWord_of_outside (misses _ stackPointer_mem),
      Memory.byte_setWord_of_outside (misses _ framePointer_mem),
      Memory.byte_setWord_of_outside (by omega), Memory.byte_setWord_of_outside (by omega)]

end Frame

namespace Callback

open StackBackend.Frame (Calm Stands Passed)

/-- Where the body of a function begins: the frame pointer is below the arguments. -/
structure Begun (image : Image) (terms : Terms) (arguments : List (List UInt8)) (memory : Memory) :
    Prop where
  inside : terms.top ≤ memory.size
  frame : Address.Names (Frame.frameWord image.word memory)
    (terms.top - Parameters.width terms.types)
  passed : Passed memory terms.top terms.types arguments

/-- The body of a function answers: it comes to the exit with the answer above the slot for it, and
with the memory as it was. -/
def Answers (image : Image) (limit : Option Nat) (terms : Terms)
    (function : Frame.Function image terms.types terms.result) : Prop :=
  ∀ enter, function.Layout enter → ∀ memory arguments, Begun image terms arguments memory →
    ∀ stack output, ∃ value,
      Runs image limit ⟨function.start + 1 + enter.size, stack, memory, output⟩
        ⟨function.exit, value ++ (Frame.slot (Frame.frameWord image.word memory)
          (Parameters.size terms.types) terms.result ++ stack), memory, output⟩ ∧
      terms.result.bytes? value = some (terms.answer arguments)

section

variable {image : Image} {limit : Option Nat} {terms : Terms} {made start : Configuration}
  {arguments : List (List UInt8)} {function : Frame.Function image terms.types terms.result}

/-- A function that answers comes back on its terms. -/
theorem Answers.honours (installed : HigherOrder.Installed image)
    (answers : Answers image limit terms function) (fits : terms.Fits image.dataSize)
    (named : function.value = terms.function)
    (room : terms.floor + function.localWidth + 8 + Parameters.width terms.types ≤ terms.top)
    (small : terms.top < 2147483648)
    (keeps : ∀ before after, Calm image.word terms.floor terms.top before after →
      terms.keeps before after)
    (asks : Asks image terms arguments made) :
    ∃ returned, Runs image limit made returned ∧ Honours image terms arguments made returned := by
  obtain ⟨position, stack, memory, output⟩ := made
  obtain ⟨holds, head, stands, inside, passed⟩ := asks
  obtain ⟨rest, rfl⟩ : ∃ rest, stack = .integer function.value :: rest := by
    rw [named]
    exact List.head?_eq_some_iff.mp head
  have frames := installed.frames fits.above
  have frame := stands.stack
  have cancel : terms.top - Parameters.width terms.types + Parameters.width terms.types =
      terms.top := by omega
  obtain ⟨enter, layout⟩ := function.layout
  obtain ⟨frameSize, size, enters⟩ := Frame.act_enter rest (Int32.ofNat (position + 1)) frames
    layout.entering stands (by omega)
  have localSize : function.localSize.toInt = (function.localWidth : Int) :=
    (Int.toNat_of_nonneg function.nonnegative).symm
  have entered := Frame.entered_entered (Int32.ofNat (position + 1)) frames stands
    (by rw [size, localSize]) (by omega)
  have calmEnter := @Frame.calm_entered image.word terms.floor terms.top _ memory
    (Int32.ofNat (position + 1)) frameSize (show terms.floor + 8 ≤
      terms.top - Parameters.width terms.types by omega) (Nat.sub_le ..)
  have outcome : enter.outcome image.word (.integer (Int32.ofNat (position + 1)) :: rest) memory =
      Frame.entered image.word (terms.top - Parameters.width terms.types)
        (Int32.ofNat (position + 1)) frameSize memory :=
    Code.outcome_eq (Code.act_alone enters)
  generalize Frame.entered image.word (terms.top - Parameters.width terms.types)
    (Int32.ofNat (position + 1)) frameSize memory = begun at entered calmEnter outcome
  -- The body answers, and the exit code puts the answer where the caller looks for it.
  have entry : Address.Names (Frame.frameWord image.word begun)
      (terms.top - Parameters.width terms.types) := by
    rw [entered.stands.frame]
    exact stands.stack
  obtain ⟨value, answered, encoded⟩ := answers enter layout begun arguments
    ⟨by rw [entered.size]; exact inside, entry, passed.congr (by omega) fun index lower _ =>
      entered.kept index (by omega) (.inr lower)⟩ rest output
  obtain ⟨runs, left⟩ := Frame.returns function frames installed.addressable holds layout rfl stands
    (by omega) (by rw [cancel]; exact inside) (by omega)
    (fun after same _ => by
      rw [same, outcome]
      exact ⟨answered, .refl begun⟩) encoded
  have parameters : (Parameters.size terms.types).toInt = (Parameters.width terms.types : Int) :=
    Parameters.toInt_size (by omega)
  obtain ⟨after, leaves, _, others⟩ := Frame.act_leave_kept rest frames entry parameters encoded
    (by omega) (by rw [cancel, entered.size]; exact inside) (by omega)
  have leave := Code.act_alone leaves
  rw [Code.outcome_eq leave, cancel] at left
  rw [Code.outcome_eq leave] at runs
  have calm : Calm image.word terms.floor terms.top memory after :=
    calmEnter.trans ⟨left.size.trans entered.size.symm, fun index misses outside => by
      have width := terms.result.width_le
      exact others index misses (by omega)⟩
  exact ⟨_, runs, rfl, rfl, left.stands, left.result, steady_of_calm installed fits calm,
    keeps memory after calm⟩

/-- A function that answers keeps to its terms from wherever it is called. -/
theorem Answers.obliges (installed : HigherOrder.Installed image)
    (answers : Answers image limit terms function) (fits : terms.Fits image.dataSize)
    (named : function.value = terms.function)
    (room : terms.floor + function.localWidth + 8 + Parameters.width terms.types ≤ terms.top)
    (small : terms.top < 2147483648)
    (keeps : ∀ before after, Calm image.word terms.floor terms.top before after →
      terms.keeps before after) : Obliges image limit terms start :=
  fun _ _ _ _ asks => answers.honours installed fits named room small keeps asks

end

end Callback

/-! ## Functions in a program -/

namespace Frame

namespace Function

variable {image : Image} {limit : Option Nat} {types : List Ty} {result : Ty}

/-- The code of a lambda in an image is a function. -/
theorem exists_of_valueCode {bindings : List Binding} {body : List Statement} {localSize : Int32}
    {last next start : Nat} {code : Code} (nonnegative : 0 ≤ localSize.toInt)
    (valued : (Expr.typed (.lambda types result) (.lambda bindings body (Parameters.size types)
      localSize)).valueCode last = .ok (code, next)) (placed : image.Holds code start) :
    ∃ function : Function image types result, function.start = start ∧ function.body = body ∧
      function.localSize = localSize ∧ function.fragment.code = code := by
  obtain ⟨fragment, generated, valued⟩ := Expr.valueCode_eq_ok.mp valued
  rw [Expr.fragment_eq] at generated
  obtain ⟨_, enter, bodyCode, known, _, _, rfl⟩ := Form.fragment_lambda.mp generated
  cases known
  obtain ⟨_, rfl⟩ | ⟨address, _⟩ := Fragment.valueCode_eq_ok.mp valued
  · have parts := placed
    simp only [Fragment.value, Form.lambdaCode, Code.join_cons, Code.join_nil, List.append_nil,
      List.cons_append, List.nil_append] at parts
    obtain ⟨_, parts⟩ := (Image.holds_cons rfl _ _).mp parts
    obtain ⟨_, parts⟩ := (Image.holds_label ..).mp parts
    obtain ⟨_, parts⟩ := Image.holds_append.mp parts
    obtain ⟨_, parts⟩ := Image.holds_append.mp parts
    obtain ⟨_, parts⟩ := Image.holds_append.mp parts
    obtain ⟨exits, _⟩ := (Image.holds_label ..).mp parts
    exact ⟨{ bindings, body, localSize, last, next, start, fragment := _, exit := _
             nonnegative, generated, placed, exits }, rfl, rfl, rfl, rfl⟩
  · cases address

/-- The code of a lambda goes around the function and leaves its value. -/
theorem evaluates (function : Function image types result) (addressable : image.Addressable)
    (before : Configuration) (atStart : before.pc = function.start) :
    HigherOrder.Evaluates image limit [] function.fragment.code [.integer function.value] before
      ⟨before.pc + function.fragment.code.size, .integer function.value :: before.stack,
        before.memory, before.output⟩ := by
  obtain ⟨pc, stack, memory, output⟩ := before
  obtain rfl : pc = function.start := atStart
  refine ⟨?_, rfl, rfl, .refl memory⟩
  obtain ⟨_, enter, code, known, _, _, same⟩ := Form.fragment_lambda.mp function.generated
  cases known
  have parts : function.fragment.code = .jump (LabelGroup.label ⟨"lambda", function.last + 1⟩ "end") ::
      ((.label (LabelGroup.label ⟨"lambda", function.last + 1⟩ "start") :: (enter ++ (code ++
        ((if result.isVoid then [] else [.jump Fault.missingReturn.handler]) ++
          .label (LabelGroup.label ⟨"lambda", function.last + 1⟩ "return") ::
            leave (Parameters.size types) result)))) ++
        [.label (LabelGroup.label ⟨"lambda", function.last + 1⟩ "end"),
          .pushD (LabelGroup.label ⟨"lambda", function.last + 1⟩ "start")]) := by
    simp [same, Fragment.value, Form.lambdaCode]
  have placed := function.placed
  rw [parts] at placed ⊢
  obtain ⟨_, rest⟩ := Image.holds_append.mp ((Image.holds_cons rfl _ _).mp placed).2
  obtain ⟨marks, pushes⟩ := (Image.holds_label ..).mp rest
  have course : Course image limit [] _ _ := ((Course.refl ⟨function.start, stack, memory,
    output⟩).jump addressable placed marks).straight pushes rfl
  simpa only [value, Code.size_cons, Code.size_append, Code.size_nil, Instruction.isDirective,
    Bool.false_eq_true, if_false, if_true, Nat.add_assoc, Nat.zero_add] using course

end Function

end Frame

namespace Callback

/-! ## Expressions over parameters -/

section

variable {image : Image} {limit : Option Nat} {terms : Terms} {first second : Expr}
  {left right : List (List UInt8) → Int32}

end

end Callback

/-! ## An array of two numbers

A program puts an array into a global variable and evaluates an expression. -/

namespace Program

def twoNumbers : Binding :=
  ⟨"numbers", .array .integer, .global 0, false⟩

/-- Evaluates the form after an array of two numbers has been put into the variable. -/
def applying (type : Ty) (form : Form) : Program where
  globalSize := 4
  body := (reserving 2).body ++ [.call (.typed type form)]

/-- The heap with the array in it. -/
def stagedLedger (image : Image) : Heap.Ledger :=
  ((Heap.Ledger.initial image.dataSize).allocate 24).2

/-- The pointer to the array. -/
def stagedPointer (image : Image) : Int32 :=
  Int32.ofNat (image.dataSize + 4)

def stagedBlock (image : Image) : Heap.Block :=
  ⟨image.dataSize + 4, 24⟩

/-- The numbers in the array. -/
def stagedNumbers : List (List UInt8) :=
  [WordBytes.ofInt32 5, WordBytes.ofInt32 2]

/-- The array is the first block of the heap and in the variable, and there is room for frames. -/
structure Staged (image : Image) (memory : Memory) : Prop where
  size : memory.size = 131072
  small : image.dataSize ≤ 65536
  cells : Cells image.word (Cell.globalBlock :: wordCells) image.dataSize
  stored : memory.cell image.word Cell.globalBlock = stagedPointer image
  sound : Heap.Sound image.word memory (stagedLedger image)
  array : Record.IsArray memory (stagedLedger image) (stagedPointer image) (stagedBlock image)
    .integer 2
  stands : Frame.Stands image.word 70000 memory 71000 (memory.cell image.word Cell.framePointer)
  begins : Record.Begins memory (stagedBlock image).address 0 .integer 2
  items : Record.items memory (stagedBlock image).address .integer 2 = stagedNumbers

section

variable {type : Ty} {form : Form} {code : Code} {image : Image}

theorem cells_applying (compiled : (applying type form).compile ⟨true⟩ = .ok code)
    (assembled : Image.assemble code = .ok image) (small : image.dataSize ≤ 65536) :
    Cells image.word (Cell.globalBlock :: wordCells) image.dataSize := by
  obtain ⟨body, composed⟩ := exists_composed compiled
  obtain ⟨before, after, rfl⟩ := composed.globals
  refine Image.cells_of_assemble assembled (List.forall_mem_cons.mpr ⟨?_,
    lays_wordCells compiled⟩) (Nat.le_refl _) (by omega)
  exact ((Code.lays_cons Cell.globalBlock (.dataZ 4) []).right before).left after

/-- There is a memory in which the variable of the program points to the array of the numbers. -/
theorem exists_staged (compiled : (applying type form).compile ⟨true⟩ = .ok code)
    (assembled : Image.assemble code = .ok image) (addressable : image.Addressable)
    (small : image.dataSize ≤ 65536) {pc : Nat}
    (holds : image.Holds (Record.allocateEmptyArray 0 Ty.integer.size) pc) :
    ∃ memory, Staged image memory := by
  have installed := operators_installed compiled assembled addressable (by omega)
  have cells := cells_applying compiled assembled small
  obtain ⟨initial, size, sound⟩ := exists_sound compiled assembled addressable small
  have width : 16 + 2 * Ty.integer.width = 24 := by decide
  have room : ((Heap.Ledger.initial image.dataSize).allocate (16 + 2 * Ty.integer.width)).2.bump =
      image.dataSize + 4 + 24 := by rw [width]; rfl
  obtain ⟨allocated, _, formed, soundFormed⟩ := (@Course.refl image none ⟨pc, [.integer 2], initial,
    .empty⟩).allocates installed holds sound (show Address.Names 2 2 by decide)
      (by rw [room, size]; omega) (by rw [room]; omega)
  rw [width] at soundFormed
  have heap : Address.index (image.word Cell.heap) = image.dataSize := installed.record.start
  have sizeFormed := formed.size
  have standing : Steady image.word [Cell.freeList, Cell.bumpPointer] _ allocated
      (allocated.setCell image.word Cell.stackPointer 71000) :=
    cells.steady_setCell (by decide) 71000 (by decide)
  have putting : Steady image.word [Cell.freeList, Cell.bumpPointer, Cell.stackPointer] _
      (allocated.setCell image.word Cell.stackPointer 71000)
      ((allocated.setCell image.word Cell.stackPointer 71000).setCell image.word Cell.globalBlock
        (Int32.ofNat (image.dataSize + 4))) :=
    cells.steady_setCell (by decide) _ (by decide)
  have setting := standing.trans (putting.mono (by decide) fun _ keeps => keeps)
  have stored := @Cells.cell_setCell _ _ _ (allocated.setCell image.word Cell.stackPointer 71000) _
    (Int32.ofNat (image.dataSize + 4)) cells (List.mem_cons_self ..)
    (by rw [standing.size, sizeFormed, size]; omega)
  have pointed := (putting.cells Cell.stackPointer (by simp)).trans
    (cells.cell_setCell (by decide) (by omega))
  generalize (allocated.setCell image.word Cell.stackPointer 71000).setCell image.word
    Cell.globalBlock (Int32.ofNat (image.dataSize + 4)) = memory at setting stored pointed
  have soundSet : Heap.Sound image.word memory (stagedLedger image) :=
    soundFormed.steady (setting.mono (fun _ listed => listed) fun index inside => by omega)
  have live : stagedBlock image ∈ (stagedLedger image).live :=
    (sound.live_allocate 24).mpr (.inl rfl)
  have sizeSet := setting.size
  -- The numbers are put into the array.
  have eight : stagedNumbers.flatten.length = 8 := rfl
  have writing := @Cells.steady_write image.word _ _ memory (image.dataSize + 20)
    stagedNumbers.flatten cells (Nat.le_add_right ..)
  have soundWritten := Heap.sound_write installed.record.managed.cells soundSet live
    (show image.dataSize + 4 ≤ image.dataSize + 20 by omega)
    (show image.dataSize + 20 + stagedNumbers.flatten.length ≤ image.dataSize + 4 + 24 by omega)
  have items := Memory.read_write memory (image.dataSize + 20) stagedNumbers.flatten (by omega)
  rw [eight] at writing
  have sizeWritten := writing.size
  generalize memory.write (image.dataSize + 20) stagedNumbers.flatten = written
    at writing soundWritten items sizeWritten
  obtain ⟨first, second⟩ := List.append_inj ((Memory.read_append written _ 4 4).symm.trans items)
    (Memory.length_read ..)
  have header : ∀ index, image.dataSize + 4 ≤ index → index < image.dataSize + 20 →
      written.byte index = allocated.byte index := fun index lower upper =>
    (writing.bytes index (.inl upper)).trans (setting.bytes index (by omega))
  refine ⟨written, by omega, small, cells, (writing.cells _ (List.mem_cons_self ..)).trans stored,
    soundWritten, ⟨Address.names_ofNat (by omega), live, ?_,
    show 16 + 2 * Ty.integer.width ≤ 24 by decide⟩, ⟨?_, rfl, by decide, by omega⟩,
    formed.begins.congr fun index (lower : image.dataSize + 4 ≤ index)
      (upper : index < image.dataSize + 4 + 16) => header index lower (by omega), ?_⟩
  · show Address.Names (written.word (image.dataSize + 4 + 12)) 2
    rw [Memory.word_congr fun index (lower : image.dataSize + 4 + 12 ≤ index) upper =>
      header index (by omega) (by omega)]
    exact formed.begins.length
  · show Address.Names (written.cell image.word Cell.stackPointer) 71000
    rw [writing.cells Cell.stackPointer (by simp [wordCells]), pointed]
    decide
  · show [written.read (image.dataSize + 4 + 16 + 0 * 4) 4,
      written.read (image.dataSize + 4 + 16 + 1 * 4) 4] = stagedNumbers
    rw [show image.dataSize + 4 + 16 + 0 * 4 = image.dataSize + 20 by omega, first,
      show image.dataSize + 4 + 16 + 1 * 4 = image.dataSize + 20 + 4 by omega, second]
    rfl

/-- An image of the program, with the code of the form before the heap manager, and the memory in
which it is come to. -/
theorem exists_placed_stage (brief : (applying type form).isBrief = true)
    (plain : Plain (applying type form).operations) :
    ∃ code image expansion next pc memory position, (applying type form).compile ⟨true⟩ = .ok code ∧
      Image.assemble code = .ok image ∧ image.Addressable ∧ image.dataSize ≤ 65536 ∧
      (Expr.typed type form).valueCode 0 = .ok (expansion, next) ∧ image.Holds expansion pc ∧
      pc + expansion.size ≤ position ∧ image.Holds Heap.manager position ∧
      Staged image memory := by
  obtain ⟨code, image, compiled, assembled, addressable, fits⟩ :=
    exists_small_image brief plain (show (0 : Int32) ≤ 4 by decide)
  obtain ⟨body, last, pc, made, holds, manager⟩ := exists_main compiled assembled
  have front : (reserving 2).body = [.declaration twoNumbers (.typed (.array .integer) (.operation
    (.snippet .arrayAllocate) [.typed .integer (.integer 2)])) false] := rfl
  rw [applying, front, List.singleton_append] at made
  obtain ⟨first, _, _, declared, others, rfl⟩ := blockCode_cons.mp made
  obtain ⟨second, _, _, called, none, rfl⟩ := blockCode_cons.mp others
  obtain ⟨rfl, rfl⟩ := blockCode_nil.mp none
  have declaration : (Statement.declaration twoNumbers (.typed (.array .integer) (.operation
      (.snippet .arrayAllocate) [.typed .integer (.integer 2)])) false).code {} 0 =
        .ok ([.pushD Cell.globalBlock, .pushI 0, .add, .pushI 2] ++
          Record.allocateEmptyArray 0 Ty.integer.size ++ Ty.integer.storeCode, 0) := rfl
  rw [declaration] at declared
  cases declared
  obtain ⟨expansion, valued, rfl⟩ := Statement.code_call.mp called
  obtain ⟨holdsFirst, holds⟩ := Image.holds_append.mp holds
  obtain ⟨holdsFirst, _⟩ := Image.holds_append.mp holdsFirst
  obtain ⟨_, allocates⟩ := Image.holds_append.mp holdsFirst
  obtain ⟨holds, _⟩ := Image.holds_append.mp holds
  obtain ⟨expanded, _⟩ := Image.holds_append.mp holds
  obtain ⟨memory, staged⟩ := exists_staged compiled assembled addressable fits allocates
  refine ⟨code, image, expansion, _, _, memory, _, compiled, assembled, addressable, fits, valued,
    expanded, ?_, manager, staged⟩
  simp only [Code.size_append]
  omega

theorem exists_stage (brief : (applying type form).isBrief = true)
    (plain : Plain (applying type form).operations) :
    ∃ code image expansion next pc memory, (applying type form).compile ⟨true⟩ = .ok code ∧
      Image.assemble code = .ok image ∧ image.Addressable ∧ image.dataSize ≤ 65536 ∧
      (Expr.typed type form).valueCode 0 = .ok (expansion, next) ∧ image.Holds expansion pc ∧
      Staged image memory := by
  obtain ⟨code, image, expansion, next, pc, memory, _, compiled, assembled, addressable, fits,
    valued, holds, _, _, staged⟩ := exists_placed_stage brief plain
  exact ⟨code, image, expansion, next, pc, memory, compiled, assembled, addressable, fits, valued,
    holds, staged⟩

end

/-! ## Functions of numbers -/

open HigherOrder (Evaluates Ready resultBlock)

/-- The code of the variable. -/
def twoNumbersCode : Code :=
  [.pushD Cell.globalBlock, .pushI 0, .add, .loadI]

/-- The terms of a function that writes nothing. -/
def pureTerms (image : Image) (memory : Memory) (function : Int32) (types : List Ty)
    (result : Ty) (answer : List (List UInt8) → List UInt8) (spared : List Heap.Block) :
    Callback.Terms where
  function
  types
  result
  answer
  floor := 70000
  top := 71000
  framePointer := memory.cell image.word Cell.framePointer
  spared
  keeps := Frame.Calm image.word 70000 71000

section

variable {image : Image} {limit : Option Nat} {memory : Memory} {types : List Ty} {result : Ty}
  {answer : List (List UInt8) → List UInt8} {spared : List Heap.Block}

/-- The code of the variable leaves the pointer. -/
theorem Staged.act_twoNumbers (staged : Staged image memory) {now : Memory} {kept : Nat → Prop}
    (steady : Steady image.word [Cell.globalBlock] kept memory now) (stack : List Word)
    (rest : Code) : Code.act image.word (twoNumbersCode ++ rest) stack now =
      Code.act image.word rest (.integer (stagedPointer image) :: stack) now := by
  have size : now.size = memory.size := steady.size
  have initial := staged.size
  have small := staged.small
  have located := staged.cells.located Cell.globalBlock (List.mem_cons_self ..)
  have below := staged.cells.below Cell.globalBlock (List.mem_cons_self ..)
  have stored : now.cell image.word Cell.globalBlock = stagedPointer image :=
    (steady.cells _ (List.mem_cons_self ..)).trans staged.stored
  rw [twoNumbersCode, List.cons_append, Code.act_pushD, List.cons_append, Code.act_pushI,
    List.cons_append, Code.act_add, Int32.add_zero, List.cons_append,
    Code.act_loadAt located (by omega), ← stored]
  rfl

/-- The array is the value of its variable, which operators leave alone. -/
theorem Staged.evaluates (staged : Staged image memory) {before : Configuration} {kept : Nat → Prop}
    (steady : Steady image.word [Cell.globalBlock] kept memory before.memory) {cell : String}
    {others : Code} (holds : image.Holds (twoNumbersCode ++ (Record.nullCheck ++ Code.storeWord cell ++
      others)) before.pc) :
    ∃ held, Evaluates image limit [] twoNumbersCode [.integer (stagedPointer image)] before held ∧
      held.memory = before.memory ∧
      image.Holds others (held.parked image cell (stagedPointer image)).pc := by
  obtain ⟨pc, stack, now, output⟩ := before
  have reads : Code.act image.word twoNumbersCode stack now =
      some (.integer (stagedPointer image) :: stack, now) :=
    Code.act_alone (staged.act_twoNumbers steady stack)
  have evaluates : Evaluates image limit [] twoNumbersCode [.integer (stagedPointer image)]
      ⟨pc, stack, now, output⟩ ⟨pc + twoNumbersCode.size, .integer (stagedPointer image) :: stack,
        now, output⟩ :=
    ⟨(Course.refl _).straight (Image.holds_append.mp holds).1 reads, rfl, rfl, .refl _⟩
  exact ⟨_, evaluates, rfl, (Image.holds_append.mp (evaluates.rest holds)).2⟩

/-- A word of the operators leaves the variable alone. -/
theorem Staged.steady_setCell (staged : Staged image memory) {cell : String}
    (known : cell ∈ HigherOrder.words) (value : Int32) {now : Memory} :
    Steady image.word [Cell.globalBlock] (fun index => image.dataSize ≤ index) now
      (now.setCell image.word cell value) := by
  have other : Cell.globalBlock ∉ HigherOrder.words := by decide
  exact staged.cells.steady_setCell (List.mem_cons_of_mem _ (HigherOrder.words_known cell known)) value
    (List.forall_mem_singleton.mpr ⟨List.mem_cons_self .., fun same => other (same ▸ known)⟩)

/-- A function that does nothing but return the value of a form. -/
def returning (parameters : List Binding) (result : Ty) (form : Form) : Expr :=
  .typed (.lambda (parameters.map Binding.type) result) (.lambda parameters
    [.return (some (.typed result form))] (Parameters.size (parameters.map Binding.type)) 0)

/-- A parameter for a number. -/
def number (name : String) (offset : Int32) : Binding :=
  ⟨name, .integer, .parameter offset, false⟩

/-- The number of an argument. -/
def argument (arguments : List (List UInt8)) (position : Nat) : Int32 :=
  WordBytes.toInt32 (arguments.getD position [])

/-- The function of two numbers that an instruction makes one of. -/
def combining (instruction : Instruction) : Expr :=
  returning [number "x" 4, number "y" 0] .integer (.operation (.instruction instruction)
    [.typed .integer (.identifier (number "x" 4)), .typed .integer (.identifier (number "y" 0))])

/-- The array, parked in a word. -/
def stagedSource (image : Image) (cell : String) : HigherOrder.Source :=
  ⟨cell, .integer, stagedBlock image⟩

/-- The parked array and a fresh array of the same length. -/
def stagedBlocks (image : Image) (result : Ty) (cells : List String) : List Heap.Block :=
  ((stagedLedger image).allocate (16 + 2 * result.width)).1 ::
    (cells.map (stagedSource image)).map HigherOrder.Source.block

def fillingTerms (image : Image) (memory : Memory) (function : Int32) (types : List Ty) (result : Ty)
    (answer : List (List UInt8) → List UInt8) (cells : List String) : Callback.Terms :=
  pureTerms image memory function types result answer (stagedBlocks image result cells)

/-- The parked array is ready for what fills an array of the same length. -/
theorem Staged.ready (staged : Staged image memory) (installed : HigherOrder.Installed image)
    (small : image.dataSize ≤ 65536) {now : Memory} {cells : List String}
    (steady : Steady image.word [Cell.stackPointer, Cell.framePointer, Cell.freeList,
      Cell.bumpPointer] (fun index => image.dataSize ≤ index) memory now)
    (known : ∀ cell ∈ cells, cell ∈ [Cell.operatorArray, Cell.operatorOtherArray])
    (parked : ∀ cell ∈ cells, now.cell image.word cell = stagedPointer image) (function : Int32)
    (room : Parameters.width types ≤ 16) :
    Ready image (fillingTerms image memory function types result answer cells)
      (cells.map (stagedSource image)) (stagedLedger image) 2 now := by
  have width := result.width_le
  have first := installed.record.start
  refine ⟨staged.sound.steady (steady.mono (by decide) fun index inside => by omega), ?_, ?_,
    ?_, ?_, staged.stands.of_steady (steady.mono (by decide) fun _ keeps => keeps), rfl⟩
  · intro source member
    obtain ⟨cell, listed, rfl⟩ := List.mem_map.mp member
    exact known cell listed
  · intro source member
    obtain ⟨cell, listed, rfl⟩ := List.mem_map.mp member
    rw [show now.cell image.word (stagedSource image cell).cell = _ from parked cell listed]
    refine HigherOrder.IsArray.steady staged.array steady fun index covers => ?_
    unfold Heap.Block.Covers at covers
    exact Nat.le_trans (Nat.le_add_right ..) covers.1
  · show image.dataSize + 4 + 24 + 4 + (16 + 2 * result.width) ≤ 70000
    omega
  · show 70000 + Parameters.width types ≤ 71000
    omega

end

end Program

end StackBackend
