import StackBackend.Proofs.Access
import StackBackend.Proofs.Generation

namespace StackBackend

/-! The calling convention, piece by piece: what passing an argument, entering a
function, leaving it and reading its result do to the two pointers and to the
memory of the frames. The frames lie from an address `floor` on; everything that
the pieces pass through is below it. -/

namespace Frame

/-- The cells that calls go through. -/
def cells : List String :=
  [Cell.stackPointer, Cell.framePointer, Cell.returnAddress, Cell.returnFrame,
    Cell.rationalStoreAddress, Cell.rationalStoreDenominator]

theorem stackPointer_mem : Cell.stackPointer ∈ cells := by simp [cells]

theorem framePointer_mem : Cell.framePointer ∈ cells := by simp [cells]

theorem returnAddress_mem : Cell.returnAddress ∈ cells := by simp [cells]

theorem returnFrame_mem : Cell.returnFrame ∈ cells := by simp [cells]

/-- The word in the stack pointer. -/
abbrev stackWord (word : String → Int32) (memory : Memory) : Int32 :=
  memory.word (Address.index (word Cell.stackPointer))

/-- The word in the frame pointer. -/
abbrev frameWord (word : String → Int32) (memory : Memory) : Int32 :=
  memory.word (Address.index (word Cell.framePointer))

/-- The two pointers, with the stack pointer inside the memory of the frames. -/
structure Stands (word : String → Int32) (floor : Nat) (memory : Memory) (stackPointer : Nat)
    (framePointer : Int32) : Prop where
  stack : Address.Names (stackWord word memory) stackPointer
  frame : frameWord word memory = framePointer
  above : floor ≤ stackPointer
  inside : stackPointer ≤ memory.size

theorem Stands.fits {word : String → Int32} {floor : Nat} {memory : Memory} {stackPointer : Nat}
    {framePointer : Int32} (stands : Stands word floor memory stackPointer framePointer) :
    stackPointer < 2147483648 := by
  have named := stands.stack
  have bound := Int32.toInt_lt (stackWord word memory)
  unfold Address.Names at named
  omega

section

variable {word : String → Int32} {floor : Nat} {memory : Memory} {stack : List Word}
  {stackPointer : Nat} {framePointer : Int32}

/-! ## Entry -/

/-- The memory with which the body of a function starts. -/
def entered (word : String → Int32) (stackPointer : Nat) (returnAddress frameSize : Int32)
    (memory : Memory) : Memory :=
  (((memory.setWord (stackPointer - 4) (frameWord word memory)).setWord
    (stackPointer - 8) returnAddress).setWord
    (Address.index (word Cell.framePointer)) (stackWord word memory)).setWord
    (Address.index (word Cell.stackPointer)) (stackWord word memory + -frameSize)

theorem enter_eq_ok {localSize : Int32} {code : Code}
    (generated : enter localSize = .ok code) :
    ∃ frameSize : Int32, frameSize.toInt = 8 + localSize.toInt ∧
      code = Code.join [Code.loadWord Cell.stackPointer, Code.addOffset savedFrameOffset,
        Code.loadWord Cell.framePointer, [.storeI],
        Code.loadWord Cell.stackPointer, Code.addOffset returnAddressOffset, [.exchange, .storeI],
        Code.loadWord Cell.stackPointer, Code.storeWord Cell.framePointer,
        moveStackPointer (-frameSize)] := by
  obtain ⟨frameSize, checked, built⟩ := Except.bind_eq_ok.mp generated
  exact ⟨frameSize, Checked.add_eq_ok.mp checked, Except.pure_eq_ok.mp built⟩

theorem act_enter (stack : List Word) (returnAddress : Int32) {localSize : Int32} {code : Code}
    (cells : Cells word cells floor) (generated : enter localSize = .ok code)
    (stands : Stands word floor memory stackPointer framePointer)
    (room : floor + 8 ≤ stackPointer) :
    ∃ frameSize : Int32, frameSize.toInt = 8 + localSize.toInt ∧
      ∀ rest, Code.act word (code ++ rest) (.integer returnAddress :: stack) memory =
        Code.act word rest stack (entered word stackPointer returnAddress frameSize memory) := by
  obtain ⟨frameSize, size, rfl⟩ := enter_eq_ok generated
  refine ⟨frameSize, size, fun rest => ?_⟩
  have inside := stands.inside
  have above := stands.above
  have saved : Address.Names (stackWord word memory + savedFrameOffset) (stackPointer - 4) :=
    stands.stack.add (by change (stackPointer : Int) + -4 = _; omega) (by have := stands.fits; omega)
  have returned : Address.Names (stackWord word memory + returnAddressOffset) (stackPointer - 8) :=
    stands.stack.add (by change (stackPointer : Int) + -8 = _; omega) (by have := stands.fits; omega)
  simp only [moveStackPointer, Code.join_cons, Code.join_nil, List.append_assoc, List.cons_append,
    List.nil_append]
  rw [cells.act_load stackPointer_mem (by omega), Code.act_addOffset,
    cells.act_load framePointer_mem (by omega), Code.act_setWord saved (by omega),
    cells.act_load stackPointer_mem (by rw [Memory.size_setWord]; omega),
    cells.word_set_above stackPointer_mem (by omega), Code.act_addOffset, Code.act_exchange,
    Code.act_setWord returned (by rw [Memory.size_setWord]; omega),
    cells.act_load stackPointer_mem (by simp only [Memory.size_setWord]; omega),
    cells.word_set_above stackPointer_mem (by omega),
    cells.word_set_above stackPointer_mem (by omega),
    cells.act_store framePointer_mem (by simp only [Memory.size_setWord]; omega),
    cells.act_load stackPointer_mem (by simp only [Memory.size_setWord]; omega),
    cells.word_set_other framePointer_mem stackPointer_mem (by decide),
    cells.word_set_above stackPointer_mem (by omega),
    cells.word_set_above stackPointer_mem (by omega), Code.act_addOffset,
    cells.act_store stackPointer_mem (by simp only [Memory.size_setWord]; omega)]
  rfl

/-- What the body of a function finds: its own pointers, and below the frame
pointer the two words that lead back. -/
structure Entered (word : String → Int32) (floor : Nat) (before after : Memory)
    (stackPointer localSize : Nat) (returnAddress : Int32) : Prop where
  size : after.size = before.size
  stands : Stands word floor after (stackPointer - 8 - localSize) (stackWord word before)
  savedFrame : after.word (stackPointer - 4) = frameWord word before
  returnAddress : after.word (stackPointer - 8) = returnAddress
  kept : ∀ index, floor ≤ index → index < stackPointer - 8 ∨ stackPointer ≤ index →
    after.byte index = before.byte index

/-- The frame pointer is what the stack pointer was. -/
theorem frameWord_entered (returnAddress frameSize : Int32) (cells : Cells word cells floor)
    (inside : floor ≤ memory.size) :
    frameWord word (entered word stackPointer returnAddress frameSize memory) =
      stackWord word memory := by
  rw [frameWord, entered, cells.word_set_other stackPointer_mem framePointer_mem (by decide),
    cells.word_set framePointer_mem (by simp only [Memory.size_setWord]; omega)]

/-- Entry writes cells and the two words below the stack pointer. -/
theorem byte_entered (returnAddress frameSize : Int32) {index : Nat} (cells : Cells word cells floor)
    (above : floor ≤ index) (outside : index < stackPointer - 8 ∨ stackPointer ≤ index)
    (room : 8 ≤ stackPointer) :
    (entered word stackPointer returnAddress frameSize memory).byte index = memory.byte index := by
  rw [entered, cells.byte_set stackPointer_mem above, cells.byte_set framePointer_mem above,
    Memory.byte_setWord_of_outside (by omega), Memory.byte_setWord_of_outside (by omega)]

theorem entered_entered (returnAddress : Int32) {frameSize : Int32} {localSize : Nat}
    (cells : Cells word cells floor)
    (stands : Stands word floor memory stackPointer framePointer)
    (size : frameSize.toInt = 8 + (localSize : Int))
    (room : floor + 8 + localSize ≤ stackPointer) :
    Entered word floor memory (entered word stackPointer returnAddress frameSize memory)
      stackPointer localSize returnAddress where
  size := by simp only [entered, Memory.size_setWord]
  stands := by
    have inside := stands.inside
    refine ⟨?_, ?_, by omega, by simp only [entered, Memory.size_setWord]; omega⟩
    · rw [stackWord, entered, cells.word_set stackPointer_mem
        (by simp only [Memory.size_setWord]; omega), ← Int32.sub_eq_add_neg]
      exact stands.stack.sub (by omega) (by have := stands.fits; omega)
    · exact frameWord_entered returnAddress frameSize cells (by omega)
  savedFrame := by
    have inside := stands.inside
    rw [entered, cells.above_set stackPointer_mem (by omega),
      cells.above_set framePointer_mem (by omega), Memory.word_setWord_of_apart (by omega),
      Memory.word_setWord (by omega)]
  returnAddress := by
    have inside := stands.inside
    rw [entered, cells.above_set stackPointer_mem (by omega),
      cells.above_set framePointer_mem (by omega),
      Memory.word_setWord (by simp only [Memory.size_setWord]; omega)]
  kept index above outside :=
    byte_entered returnAddress frameSize cells above outside (by omega)

/-! ## Exit -/

/-- The exit code up to the jump back. -/
def leaveStraight (parameterSize : Int32) (result : Ty) : Code :=
  Code.join [Code.loadWord Cell.framePointer, Code.readWord returnAddressOffset,
    Code.storeWord Cell.returnAddress,
    Code.loadWord Cell.framePointer, Code.readWord savedFrameOffset,
    Code.storeWord Cell.returnFrame,
    Code.loadWord Cell.framePointer, Code.addOffset parameterSize,
    Code.storeWord Cell.stackPointer,
    result.storeCode,
    Code.loadWord Cell.returnFrame, Code.storeWord Cell.framePointer,
    Code.loadWord Cell.returnAddress]

theorem leave_eq (parameterSize : Int32) (result : Ty) :
    leave parameterSize result = leaveStraight parameterSize result ++ [.return] := by
  simp only [leave, leaveStraight, Code.join_cons, Code.join_nil, List.append_assoc,
    List.append_nil]

/-- What the caller finds when a function has been left: the pointers it had when
it began to pass arguments, and the result in the bytes below the stack pointer. -/
structure Left (word : String → Int32) (floor : Nat) (before after : Memory) (top : Nat)
    (framePointer : Int32) (result : Ty) (bytes : List UInt8) : Prop where
  size : after.size = before.size
  stands : Stands word floor after top framePointer
  result : after.read (top - result.width) result.width = bytes
  kept : ∀ index, top ≤ index → after.byte index = before.byte index

/-- The address under the value when a function is left; nothing for void. -/
def slot (framePointer parameterSize : Int32) (result : Ty) : List Word :=
  if result.isVoid then [] else [.integer (framePointer + (parameterSize - result.size))]

theorem word_cell_of_stored {type : Ty} {index : Nat} {bytes : List UInt8}
    {after : Memory} {name : String} (stored : Ty.Stored word type index bytes memory after)
    (cells : Cells word cells floor) (above : floor ≤ index) (member : name ∈ Frame.cells)
    (different : name ∉ Ty.storeCells) :
    after.word (Address.index (word name)) = memory.word (Address.index (word name)) := by
  have below := cells.below name member
  refine Memory.word_congr fun other lower upper => stored.kept other (Or.inl (by omega)) ?_
  intro cell storeMember
  have cellMember : cell ∈ Frame.cells := by
    simp only [Ty.storeCells, List.mem_cons, List.not_mem_nil, or_false] at storeMember
    rcases storeMember with rfl | rfl <;> simp [Frame.cells]
  have apart := cells.apart name member cell cellMember fun same => different (same ▸ storeMember)
  omega

theorem slot_names {parameterSize frame : Int32} {base parameters : Nat} (result : Ty)
    (named : Address.Names frame base) (size : parameterSize.toInt = (parameters : Int))
    (low : 8 ≤ base) (fits : base + parameters < 2147483648) :
    Address.Names (frame + (parameterSize - result.size)) (base + parameters - result.width) := by
  have width := result.width_le
  have difference : (parameterSize - result.size).toInt = (parameters : Int) - result.width := by
    rw [Address.toInt_sub, size, result.toInt_size] <;> rw [size, result.toInt_size] <;> omega
  exact named.add (by rw [difference]; omega) (by omega)

/-- Stores the result through the slot under it. -/
theorem act_storeResult (stack : List Word) (memory : Memory) {parameterSize : Int32}
    {base parameters : Nat} {result : Ty} {value : List Word} {bytes : List UInt8} {frame : Int32}
    (cells : Cells word cells floor)
    (named : Address.Names frame base) (size : parameterSize.toInt = (parameters : Int))
    (encoded : result.bytes? value = some bytes) (low : floor + 8 ≤ base)
    (inside : base + parameters ≤ memory.size) (fits : base + parameters < 2147483648) :
    ∃ after : Memory,
      (∀ rest, Code.act word (result.storeCode ++ rest)
          (value ++ (slot frame parameterSize result ++ stack)) memory =
        Code.act word rest stack after) ∧
      Ty.Stored word result (base + parameters - result.width) bytes memory after := by
  have width := result.width_le
  have storeCells : Cells word Ty.storeCells floor := cells.mono (by simp [Ty.storeCells, Frame.cells])
  cases isVoid : result.isVoid with
  | true =>
      cases result <;> cases isVoid
      simp only [Ty.bytes?, Option.ite_none_right_eq_some] at encoded
      obtain ⟨rfl, same⟩ := encoded
      cases same
      exact ⟨memory, fun rest => rfl, rfl, rfl, fun _ _ _ => rfl⟩
  | false =>
      have named := slot_names result named size (by omega) fits
      obtain ⟨after, acts, stored⟩ := Ty.act_storeCode memory isVoid
        storeCells encoded named (by omega) (by omega) (by omega)
      refine ⟨after, fun rest => ?_, stored⟩
      rw [slot, isVoid, if_neg Bool.false_ne_true]
      exact acts stack rest

/-- The memory when the words that lead back are parked and the stack pointer is
back. -/
def parked (word : String → Int32) (memory : Memory) (base : Nat) (parameterSize : Int32) :
    Memory :=
  ((memory.setWord (Address.index (word Cell.returnAddress)) (memory.word (base - 8))).setWord
    (Address.index (word Cell.returnFrame)) (memory.word (base - 4))).setWord
    (Address.index (word Cell.stackPointer)) (frameWord word memory + parameterSize)

/-- The exit code restores the pointers of the caller and puts the result below its stack pointer.
Nothing else changes but the cells of calls. -/
theorem act_leave_kept (stack : List Word) {parameterSize : Int32} {base parameters : Nat}
    {result : Ty} {value : List Word} {bytes : List UInt8} (cells : Cells word cells floor)
    (frame : Address.Names (frameWord word memory) base)
    (size : parameterSize.toInt = (parameters : Int)) (encoded : result.bytes? value = some bytes)
    (low : floor + 8 ≤ base) (inside : base + parameters ≤ memory.size)
    (fits : base + parameters < 2147483648) :
    ∃ after,
      (∀ rest, Code.act word (leaveStraight parameterSize result ++ rest)
          (value ++ (slot (frameWord word memory) parameterSize result ++ stack)) memory =
        Code.act word rest (.integer (memory.word (base - 8)) :: stack) after) ∧
      Left word floor memory after (base + parameters) (memory.word (base - 4)) result bytes ∧
      ∀ index, Cells.Misses word Frame.cells index →
        index < base + parameters - result.width ∨ base + parameters ≤ index →
        after.byte index = memory.byte index := by
  have width := result.width_le
  have saved : Address.Names (frameWord word memory + savedFrameOffset) (base - 4) :=
    frame.add (by change (base : Int) + -4 = _; omega) (by omega)
  have returned : Address.Names (frameWord word memory + returnAddressOffset) (base - 8) :=
    frame.add (by change (base : Int) + -8 = _; omega) (by omega)
  have top : Address.Names (frameWord word memory + parameterSize) (base + parameters) :=
    frame.add (by omega) fits
  have parkedSize : (parked word memory base parameterSize).size = memory.size := by
    simp only [parked, Memory.size_setWord]
  obtain ⟨stored, storing, kept⟩ := act_storeResult stack
    (parked word memory base parameterSize) cells frame size encoded low
    (by rw [parkedSize]; exact inside) fits
  -- The store of the result does not touch the parked words.
  have storedSize : stored.size = memory.size := kept.size.trans parkedSize
  have address : stored.word (Address.index (word Cell.returnAddress)) = memory.word (base - 8) := by
    rw [word_cell_of_stored kept cells (by omega) returnAddress_mem (by decide), parked,
      cells.word_set_other stackPointer_mem returnAddress_mem (by decide),
      cells.word_set_other returnFrame_mem returnAddress_mem (by decide),
      cells.word_set returnAddress_mem (by omega)]
  have savedFrame : stored.word (Address.index (word Cell.returnFrame)) =
      memory.word (base - 4) := by
    rw [word_cell_of_stored kept cells (by omega) returnFrame_mem (by decide), parked,
      cells.word_set_other stackPointer_mem returnFrame_mem (by decide),
      cells.word_set returnFrame_mem (by rw [Memory.size_setWord]; omega)]
  have stackBack : stackWord word stored = frameWord word memory + parameterSize := by
    rw [stackWord, word_cell_of_stored kept cells (by omega) stackPointer_mem (by decide), parked,
      cells.word_set stackPointer_mem (by simp only [Memory.size_setWord]; omega)]
  have others (index : Nat) (misses : Cells.Misses word Frame.cells index)
      (outside : index < base + parameters - result.width ∨ base + parameters ≤ index) :
      (stored.setWord (Address.index (word Cell.framePointer)) (memory.word (base - 4))).byte index =
        memory.byte index := by
    rw [Memory.byte_setWord_of_outside (misses _ framePointer_mem), kept.kept index (by omega)
        fun name member => misses name
          ((by decide : ∀ name ∈ Ty.storeCells, name ∈ Frame.cells) name member),
      parked, Memory.byte_setWord_of_outside (misses _ stackPointer_mem),
      Memory.byte_setWord_of_outside (misses _ returnFrame_mem),
      Memory.byte_setWord_of_outside (misses _ returnAddress_mem)]
  refine ⟨stored.setWord (Address.index (word Cell.framePointer)) (memory.word (base - 4)),
    fun rest => ?_, ?_, others⟩
  · simp only [leaveStraight, Code.join_cons, Code.join_nil, List.append_assoc, List.nil_append]
    rw [cells.act_load framePointer_mem (by omega), Code.act_readWord returned (by omega),
      cells.act_store returnAddress_mem (by omega),
      cells.act_load framePointer_mem (by rw [Memory.size_setWord]; omega),
      cells.word_set_other returnAddress_mem framePointer_mem (by decide),
      Code.act_readWord saved (by rw [Memory.size_setWord]; omega),
      cells.above_set returnAddress_mem (by omega),
      cells.act_store returnFrame_mem (by rw [Memory.size_setWord]; omega),
      cells.act_load framePointer_mem (by simp only [Memory.size_setWord]; omega),
      cells.word_set_other returnFrame_mem framePointer_mem (by decide),
      cells.word_set_other returnAddress_mem framePointer_mem (by decide), Code.act_addOffset,
      cells.act_store stackPointer_mem (by simp only [Memory.size_setWord]; omega)]
    refine (storing _).trans ?_
    rw [cells.act_load returnFrame_mem (by omega), savedFrame,
      cells.act_store framePointer_mem (by omega),
      cells.act_load returnAddress_mem (by rw [Memory.size_setWord]; omega),
      cells.word_set_other framePointer_mem returnAddress_mem (by decide), address]
  · refine ⟨by rw [Memory.size_setWord, storedSize], ⟨?_, ?_, by omega, ?_⟩, ?_, ?_⟩
    · have back : stackWord word (stored.setWord (Address.index (word Cell.framePointer))
          (memory.word (base - 4))) = frameWord word memory + parameterSize :=
        (cells.word_set_other framePointer_mem stackPointer_mem (by decide)).trans stackBack
      rw [back]
      exact top
    · exact cells.word_set framePointer_mem (by omega)
    · rw [Memory.size_setWord, storedSize]
      exact inside
    · rw [Memory.read_setWord_of_apart
        (Or.inr (Nat.le_trans (cells.below _ framePointer_mem) (by omega)))]
      exact kept.written
    · intro index above
      exact others index (cells.misses_of_floor_le (by omega)) (.inr above)

theorem act_leave (stack : List Word) {parameterSize : Int32} {base parameters : Nat} {result : Ty}
    {value : List Word} {bytes : List UInt8} (cells : Cells word cells floor)
    (frame : Address.Names (frameWord word memory) base)
    (size : parameterSize.toInt = (parameters : Int)) (encoded : result.bytes? value = some bytes)
    (low : floor + 8 ≤ base) (inside : base + parameters ≤ memory.size)
    (fits : base + parameters < 2147483648) :
    ∃ after,
      (∀ rest, Code.act word (leaveStraight parameterSize result ++ rest)
          (value ++ (slot (frameWord word memory) parameterSize result ++ stack)) memory =
        Code.act word rest (.integer (memory.word (base - 8)) :: stack) after) ∧
      Left word floor memory after (base + parameters) (memory.word (base - 4)) result bytes :=
  let ⟨after, acts, left, _⟩ := act_leave_kept stack cells frame size encoded low inside fits
  ⟨after, acts, left⟩

/-! ## The caller -/

/-- Makes room for an argument and leaves its address on the stack. -/
def reserve (type : Ty) : Code :=
  Code.join [Code.loadWord Cell.stackPointer, [.pushI type.size, .subtract, .duplicate],
    Code.storeWord Cell.stackPointer]

/-- The memory with room for an argument. -/
def reserved (word : String → Int32) (type : Ty) (memory : Memory) : Memory :=
  memory.setWord (Address.index (word Cell.stackPointer)) (stackWord word memory - type.size)

theorem act_reserve (stack : List Word) (type : Ty) (cells : Cells word cells floor)
    (inside : floor ≤ memory.size) (rest : Code) :
    Code.act word (reserve type ++ rest) stack memory =
      Code.act word rest (.integer (stackWord word memory - type.size) :: stack)
        (reserved word type memory) := by
  simp only [reserve, Code.join_cons, Code.join_nil, List.append_assoc, List.cons_append,
    List.nil_append]
  rw [cells.act_load stackPointer_mem inside, Code.act_pushI, Code.act_subtract,
    Code.act_duplicate, cells.act_store stackPointer_mem inside]
  rfl

theorem reserved_stands (type : Ty) (cells : Cells word cells floor)
    (stands : Stands word floor memory stackPointer framePointer)
    (room : floor + type.width ≤ stackPointer) :
    Stands word floor (reserved word type memory) (stackPointer - type.width) framePointer where
  stack := by
    have inside := stands.inside
    rw [stackWord, reserved, cells.word_set stackPointer_mem (by omega)]
    exact stands.stack.sub (by rw [type.toInt_size]; omega) (by have := stands.fits; omega)
  frame := by
    rw [frameWord, reserved, cells.word_set_other stackPointer_mem framePointer_mem (by decide)]
    exact stands.frame
  above := by omega
  inside := by
    have inside := stands.inside
    rw [reserved, Memory.size_setWord]
    omega

theorem reserved_byte {type : Ty} (cells : Cells word cells floor) {index : Nat}
    (above : floor ≤ index) : (reserved word type memory).byte index = memory.byte index :=
  cells.byte_set stackPointer_mem above

theorem act_result (stack : List Word) {type : Ty} {bytes : List UInt8} (isValue : type.isVoid = false)
    (cells : Cells word cells floor)
    (stands : Stands word floor memory stackPointer framePointer)
    (room : type.width ≤ stackPointer)
    (found : memory.read (stackPointer - type.width) type.width = bytes) (rest : Code) :
    Code.act word (result type ++ rest) stack memory =
      Code.act word rest (type.words bytes ++ stack) memory := by
  have inside := stands.inside
  have above := stands.above
  have fits := stands.fits
  have named : Address.Names (stackWord word memory - type.size) (stackPointer - type.width) :=
    stands.stack.sub (by rw [type.toInt_size]; omega) (by omega)
  simp only [result, isValue, Bool.false_eq_true, if_false, List.append_assoc, List.cons_append,
    List.nil_append]
  rw [cells.act_load stackPointer_mem (by omega), Code.act_pushI, Code.act_subtract,
    Ty.act_loadCode isValue named (by omega) (by omega), found]

/-- The code that passes an argument of a type that has values. -/
def passCode (argument : Code × Ty) : Code :=
  reserve argument.2 ++ argument.1 ++ argument.2.storeCode

/-- The code that passes arguments in order. -/
def passCodes (arguments : List (Code × Ty)) : Code :=
  (arguments.map passCode).flatten

theorem passCodes_cons (argument : Code × Ty) (rest : List (Code × Ty)) :
    passCodes (argument :: rest) = passCode argument ++ passCodes rest := rfl

theorem passCodes_singleton (argument : Code × Ty) : passCodes [argument] = passCode argument :=
  List.append_nil _

theorem passArgument_eq_ok {argument : Code} {type : Ty} {code : Code} :
    passArgument argument type = .ok code ↔
      type.isVoid = false ∧ code = passCode (argument, type) := by
  unfold passArgument Ty.store
  cases type.isVoid <;>
    simp [bind, Except.bind, pure, Except.pure, passCode, reserve, eq_comm]

theorem mapM_passArgument_eq_ok {arguments : List (Code × Ty)} {passed : List Code} :
    (arguments.mapM fun (argument, type) => passArgument argument type) = .ok passed ↔
      (∀ argument ∈ arguments, argument.2.isVoid = false) ∧
        passed = arguments.map passCode := by
  induction arguments generalizing passed with
  | nil =>
      rw [List.mapM_nil, Except.pure_eq_ok]
      simp
  | cons argument rest induction =>
      rw [List.mapM_cons]
      simp only [Except.bind_eq_ok, Except.pure_eq_ok, passArgument_eq_ok, induction,
        List.forall_mem_cons, List.map_cons]
      constructor
      · rintro ⟨first, ⟨isValue, rfl⟩, others, ⟨values, rfl⟩, rfl⟩
        exact ⟨⟨isValue, values⟩, rfl⟩
      · rintro ⟨⟨isValue, values⟩, rfl⟩
        exact ⟨_, ⟨isValue, rfl⟩, _, ⟨values, rfl⟩, rfl⟩

theorem invoke_eq_ok {callee code : Code} {arguments : List (Code × Ty)} {resultType : Ty} :
    invoke callee arguments resultType = .ok code ↔
      (∀ argument ∈ arguments, argument.2.isVoid = false) ∧
        code = Code.join [passCodes arguments, callee, [.callV], result resultType] := by
  unfold invoke
  simp only [Except.bind_eq_ok, Except.pure_eq_ok, mapM_passArgument_eq_ok]
  constructor
  · rintro ⟨passed, ⟨values, rfl⟩, rfl⟩
    exact ⟨values, rfl⟩
  · rintro ⟨values, rfl⟩
    exact ⟨_, ⟨values, rfl⟩, rfl⟩

end

end Frame

end StackBackend
