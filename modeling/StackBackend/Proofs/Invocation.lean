import StackBackend.Proofs.Calling

namespace StackBackend

/-! Calls inside calls. A run inside one activation is a sequence of steps of its
own, which may write the locals and parameters of the activation, and of
invocations, whose arguments, callee and body are such runs again. Whatever the
depth, an invocation gives the pointers back and keeps every byte of the frames
around it. -/

namespace Code

/-- The memory that straight code leaves. -/
def outcome (word : String → Int32) (code : Code) (stack : List Word) (memory : Memory) : Memory :=
  ((code.act word stack memory).map Prod.snd).getD memory

theorem outcome_eq {word : String → Int32} {code : Code} {stack stack' : List Word}
    {memory memory' : Memory} (acts : code.act word stack memory = some (stack', memory')) :
    code.outcome word stack memory = memory' := by
  rw [outcome, acts]
  rfl

end Code

namespace Parameters

/-- The bytes of a parameter list as a number. -/
def width : List Ty → Nat
  | [] => 0
  | type :: rest => type.width + width rest

theorem toInt_size {types : List Ty} (fits : width types < 2147483648) :
    (size types).toInt = (width types : Int) := by
  induction types with
  | nil => rfl
  | cons type rest induction =>
      simp only [width] at fits
      have others := induction (by omega)
      have first := type.toInt_size
      have sum : size (type :: rest) = type.size + size rest := rfl
      rw [sum, Address.toInt_add (by omega) (by omega), width]
      omega

theorem width_drop {types : List Ty} {number : Nat} {type : Ty}
    (found : types[number]? = some type) :
    width (types.drop number) = type.width + width (types.drop (number + 1)) := by
  rcases List.getElem?_eq_some_iff.mp found with ⟨inside, rfl⟩
  rw [List.drop_eq_getElem_cons inside, width]

theorem width_drop_le (types : List Ty) {first second : Nat} (order : first ≤ second) :
    width (types.drop second) ≤ width (types.drop first) := by
  induction order with
  | refl => exact Nat.le_refl _
  | @step second _ induction =>
      apply Nat.le_trans _ induction
      cases found : types[second]? with
      | none =>
          have short := List.getElem?_eq_none_iff.mp found
          rw [List.drop_eq_nil_of_le (Nat.le_succ_of_le short)]
          exact Nat.zero_le _
      | some type =>
          rw [width_drop found]
          exact Nat.le_add_left _ _

/-- A parameter is above all that follow it. -/
theorem getElem?_locations (types : List Ty) (number : Nat) :
    (locations types)[number]? =
      types[number]?.map fun _ => .parameter (size (types.drop (number + 1))) := by
  induction types generalizing number with
  | nil => rfl
  | cons type rest induction =>
      cases number with
      | zero => rfl
      | succ number =>
          rw [locations, List.getElem?_cons_succ, List.getElem?_cons_succ, induction]
          rfl

theorem toInt_size_drop {types : List Ty} (fits : width types < 2147483648) (number : Nat) :
    (size (types.drop number)).toInt = width (types.drop number) := by
  have less := width_drop_le types (Nat.zero_le number)
  rw [List.drop_zero] at less
  exact toInt_size (by omega)

end Parameters

namespace Frame

/-! ## Functions -/

/-- A function in an image: the code of a lambda for the given parameters, and
where it is entered and left. -/
structure Function (image : Image) (types : List Ty) (result : Ty) where
  bindings : List Binding
  body : List Statement
  localSize : Int32
  last : Nat
  next : Nat
  fragment : Fragment
  /-- Where the code of the lambda starts. -/
  start : Nat
  /-- Where its exit is. -/
  exit : Nat
  nonnegative : 0 ≤ localSize.toInt
  generated : (Form.lambda bindings body (Parameters.size types) localSize).fragment
    (.lambda types result) last = .ok (fragment, next)
  placed : image.Holds fragment.code start
  exits : image.Marks (LabelGroup.label ⟨"lambda", last + 1⟩ "return") exit

namespace Function

variable {image : Image} {types : List Ty} {result : Ty}

/-- The value of the lambda: the word of its entry. -/
def value (function : Function image types result) : Int32 :=
  image.word (LabelGroup.label ⟨"lambda", function.last + 1⟩ "start")

/-- The bytes of the locals as a number. -/
def localWidth (function : Function image types result) : Nat :=
  function.localSize.toInt.toNat

/-- What the code of a function is made of and where the pieces stand. -/
structure Layout (function : Function image types result) (enter : Code) : Prop where
  entering : Frame.enter function.localSize = .ok enter
  entry : image.Marks (LabelGroup.label ⟨"lambda", function.last + 1⟩ "start")
    (function.start + 1)
  holdsEnter : image.Holds enter (function.start + 1)
  holdsLeave : image.Holds (leave (Parameters.size types) result) function.exit

theorem layout (function : Function image types result) :
    ∃ enter, function.Layout enter := by
  obtain ⟨result', enter, bodyCode, known, entering, _, same⟩ :=
    Form.fragment_lambda.mp function.generated
  cases known
  have placed := function.placed
  rw [same] at placed
  simp only [Fragment.value, Form.lambdaCode, Code.join_cons, Code.join_nil, List.append_nil,
    List.cons_append, List.nil_append] at placed
  rw [Image.holds_cons rfl, Image.holds_label] at placed
  obtain ⟨_, entry, placed⟩ := placed
  have holdsEnter := (Image.holds_append.mp placed).1
  have afterEnter := (Image.holds_append.mp placed).2
  have afterBody := (Image.holds_append.mp afterEnter).2
  have atReturn := (Image.holds_append.mp afterBody).2
  rw [Image.holds_label] at atReturn
  obtain ⟨marks, afterReturn⟩ := atReturn
  have exit := marks.unique function.exits
  rw [exit] at afterReturn
  exact ⟨enter, entering, entry, holdsEnter, (Image.holds_append.mp afterReturn).1⟩

end Function

/-! ## Runs of one activation -/

/-- What a step of an activation leaves alone: the two pointers, and the memory of
the frames but for the bytes that are its own. -/
structure Keeps (word : String → Int32) (floor : Nat) (own : Nat → Prop)
    (before after : Memory) : Prop where
  size : after.size = before.size
  stack : stackWord word after = stackWord word before
  frame : frameWord word after = frameWord word before
  bytes : ∀ index, floor ≤ index → ¬own index → after.byte index = before.byte index

/-- The bytes that belong to a function in its frame: the locals and the
parameters, but not the two words between them. -/
def Own (base localWidth parameterWidth index : Nat) : Prop :=
  (base - 8 - localWidth ≤ index ∧ index < base - 8) ∨
    (base ≤ index ∧ index < base + parameterWidth)

/-- An expression owns no byte of the frames. -/
def Nothing (_ : Nat) : Prop :=
  False

mutual

/-- A run inside one activation. -/
inductive Conduct (image : Image) (limit : Option Nat) (floor : Nat) :
    (Nat → Prop) → Configuration → Configuration → Prop
  | done {own : Nat → Prop} {configuration : Configuration} :
      Conduct image limit floor own configuration configuration
  | step {own : Nat → Prop} {first second last : Configuration}
      (next : first.Next image limit second)
      (keeps : Keeps image.word floor own first.memory second.memory)
      (rest : Conduct image limit floor own second last) :
      Conduct image limit floor own first last
  | call {own : Nat → Prop} {first second last : Configuration} {code : Code} {result : Ty}
      {value : List Word} {top : Nat} {framePointer : Int32}
      (invocation : Invocation image limit floor code result value top framePointer first second)
      (rest : Conduct image limit floor own second last) :
      Conduct image limit floor own first last

/-- Arguments passed one after the other. Room is made for an argument before it
is evaluated, and its value is stored there. -/
inductive Passing (image : Image) (limit : Option Nat) (floor : Nat) :
    List (Code × Ty) → Configuration → Configuration → Prop
  | nil {configuration : Configuration} :
      Passing image limit floor [] configuration configuration
  | cons {argument : Code} {type : Ty} {others : List (Code × Ty)} {pc : Nat}
      {stack value : List Word} {memory changed : Memory} {output output' : ByteArray}
      {slot : Int32} {bytes : List UInt8} {last : Configuration}
      (reserves : slot = stackWord image.word memory - type.size)
      (evaluated : Conduct image limit floor Nothing
        ⟨pc + (reserve type).size, .integer slot :: stack, reserved image.word type memory, output⟩
        ⟨pc + (reserve type).size + argument.size, value ++ .integer slot :: stack, changed,
          output'⟩)
      (encoded : type.bytes? value = some bytes)
      (rest : Passing image limit floor others
        ⟨pc + (passCode (argument, type)).size, stack,
          type.storeCode.outcome image.word (value ++ .integer slot :: stack) changed, output'⟩
        last) :
      Passing image limit floor ((argument, type) :: others) ⟨pc, stack, memory, output⟩ last

/-- An invocation of a function from the first argument to the value it returns.
Its body starts when the function has been entered and ends at the exit, with the
value on the stack above the address of the slot for it. -/
inductive Invocation (image : Image) (limit : Option Nat) (floor : Nat) :
    Code → Ty → List Word → Nat → Int32 → Configuration → Configuration → Prop
  | intro {callee code enter : Code} {arguments : List (Code × Ty)} {result : Ty}
      {function : Function image (arguments.map Prod.snd) result} {pc callPosition top : Nat}
      {framePointer : Int32} {stack value : List Word} {memory passed called finished : Memory}
      {output output₁ output₂ output₃ : ByteArray}
      (generated : invoke callee arguments result = .ok code) (placed : image.Holds code pc)
      (entering : Frame.enter function.localSize = .ok enter)
      (stands : Stands image.word floor memory top framePointer)
      (room : floor + function.localWidth + 8 + Parameters.width (arguments.map Prod.snd) ≤ top)
      (calls : callPosition = pc + (passCodes arguments).size + callee.size)
      (passing : Passing image limit floor arguments ⟨pc, stack, memory, output⟩
        ⟨pc + (passCodes arguments).size, stack, passed, output₁⟩)
      (evaluated : Conduct image limit floor Nothing
        ⟨pc + (passCodes arguments).size, stack, passed, output₁⟩
        ⟨callPosition, .integer function.value :: stack, called, output₂⟩)
      (conducted : Conduct image limit floor
        (Own (top - Parameters.width (arguments.map Prod.snd)) function.localWidth
          (Parameters.width (arguments.map Prod.snd)))
        ⟨function.start + 1 + enter.size, stack,
          enter.outcome image.word (.integer (Int32.ofNat (callPosition + 1)) :: stack) called,
          output₂⟩
        ⟨function.exit,
          value ++ (slot (frameWord image.word finished)
            (Parameters.size (arguments.map Prod.snd)) result ++ stack),
          finished, output₃⟩)
      (admits : result.Admits value) :
      Invocation image limit floor code result value top framePointer
        ⟨pc, stack, memory, output⟩
        ⟨pc + code.size, value ++ stack,
          (leaveStraight (Parameters.size (arguments.map Prod.snd)) result).outcome image.word
            (value ++ (slot (frameWord image.word finished)
              (Parameters.size (arguments.map Prod.snd)) result ++ stack)) finished,
          output₃⟩

end

/-- Straight code that writes nothing is a run of any activation. -/
theorem Conduct.straight {image : Image} {limit : Option Nat} {floor pc : Nat} {own : Nat → Prop}
    {code : Code} {stack stack' : List Word} {memory memory' : Memory} {output : ByteArray}
    {last : Configuration} (holds : image.Holds code pc)
    (reads : ∀ instruction ∈ code, instruction.writes = false)
    (acts : code.act image.word stack memory = some (stack', memory'))
    (rest : Conduct image limit floor own ⟨pc + code.size, stack', memory, output⟩ last) :
    Conduct image limit floor own ⟨pc, stack, memory, output⟩ last := by
  induction code generalizing pc stack with
  | nil =>
      cases acts
      exact rest
  | cons instruction code induction =>
      rw [Code.act] at acts
      rw [Code.size_cons] at rest
      obtain ⟨quiet, reads⟩ := List.forall_mem_cons.mp reads
      cases directive : instruction.isDirective with
      | true =>
          rw [directive, if_pos rfl] at acts
          rw [directive, if_pos rfl, Nat.zero_add] at rest
          refine induction ?_ reads acts rest
          have after := (@Image.holds_append image [instruction] code pc).mp holds
          simpa [directive] using after.2
      | false =>
          rw [directive, if_neg Bool.false_ne_true] at acts
          rw [directive, if_neg Bool.false_ne_true, ← Nat.add_assoc] at rest
          obtain ⟨⟨between, changed⟩, first, others⟩ := Option.bind_eq_some_iff.mp acts
          obtain ⟨found, holds⟩ := (Image.holds_cons directive code pc).mp holds
          obtain rfl := Instruction.memory_of_act first quiet
          have next : Configuration.Next image limit ⟨pc, stack, changed, output⟩
              ⟨pc + 1, between, changed, output⟩ :=
            Configuration.next_of_execute found fun steps =>
              Placed.execute_of_act first (pc + 1) output steps
          exact .step next ⟨rfl, rfl, rfl, fun _ _ _ => rfl⟩ (induction holds reads others rest)

/-! ## What runs keep -/

section

variable {image : Image} {limit : Option Nat} {floor top : Nat} {framePointer : Int32}

theorem Stands.of_keeps {word : String → Int32} {own : Nat → Prop} {before after : Memory}
    (stands : Stands word floor before top framePointer)
    (keeps : Keeps word top own before after) :
    Stands word floor after top framePointer where
  stack := by rw [keeps.stack]; exact stands.stack
  frame := by rw [keeps.frame]; exact stands.frame
  above := stands.above
  inside := by rw [keeps.size]; exact stands.inside

theorem Keeps.refl {word : String → Int32} {own : Nat → Prop} (memory : Memory) :
    Keeps word floor own memory memory :=
  ⟨rfl, rfl, rfl, fun _ _ _ => rfl⟩

theorem Keeps.trans {word : String → Int32} {own : Nat → Prop} {first second last : Memory}
    (left : Keeps word floor own first second) (right : Keeps word floor own second last) :
    Keeps word floor own first last where
  size := right.size.trans left.size
  stack := right.stack.trans left.stack
  frame := right.frame.trans left.frame
  bytes index above notOwn :=
    (right.bytes index above notOwn).trans (left.bytes index above notOwn)

theorem Keeps.mono {word : String → Int32} {own : Nat → Prop} {before after : Memory}
    (keeps : Keeps word floor own before after) (higher : floor ≤ top) :
    Keeps word top own before after :=
  { keeps with bytes := fun index above => keeps.bytes index (Nat.le_trans higher above) }

/-- Passing one argument, whatever its evaluation does to the rest of the memory. -/
theorem passes_stored (argument : Code) (type : Ty) (pc : Nat) {stack value : List Word}
    {memory changed : Memory} {output output' : ByteArray} {slot : Int32} {bytes : List UInt8}
    (cells : Cells image.word cells floor) (isValue : type.isVoid = false)
    (placed : image.Holds (passCode (argument, type)) pc)
    (pointer : Address.Names (stackWord image.word memory) top) (inside : top ≤ memory.size)
    (room : floor + type.width ≤ top) (reserves : slot = stackWord image.word memory - type.size)
    (runs : Runs image limit
      ⟨pc + (reserve type).size, .integer slot :: stack, reserved image.word type memory, output⟩
      ⟨pc + (reserve type).size + argument.size, value ++ .integer slot :: stack, changed,
        output'⟩)
    (size : changed.size = memory.size) (encoded : type.bytes? value = some bytes) :
    Runs image limit ⟨pc, stack, memory, output⟩
        ⟨pc + (passCode (argument, type)).size, stack,
          type.storeCode.outcome image.word (value ++ .integer slot :: stack) changed, output'⟩ ∧
      Ty.Stored image.word type (top - type.width) bytes changed
        (type.storeCode.outcome image.word (value ++ .integer slot :: stack) changed) := by
  have fits : top < 2147483648 := by
    have bound := Int32.toInt_lt (stackWord image.word memory)
    unfold Address.Names at pointer
    omega
  obtain ⟨placedFront, placedStore⟩ := Image.holds_append.mp placed
  obtain ⟨placedReserve, _⟩ := Image.holds_append.mp placedFront
  have named : Address.Names slot (top - type.width) := by
    rw [reserves]
    exact pointer.sub (by rw [type.toInt_size]; omega) (by omega)
  have storeCells : Cells image.word Ty.storeCells floor :=
    cells.mono (by simp [Ty.storeCells, Frame.cells])
  obtain ⟨after, acts, stored⟩ := Ty.act_storeCode changed isValue
    storeCells encoded named (by omega) (by omega) (by omega)
  have acted := Code.act_alone (acts stack)
  rw [Code.outcome_eq acted]
  refine ⟨?_, stored⟩
  have front := Code.act_alone (act_reserve stack type cells (show floor ≤ memory.size by omega))
  rw [← reserves] at front
  have positions : pc + (passCode (argument, type)).size =
      pc + (reserve type).size + argument.size + type.storeCode.size := by
    simp only [passCode, Code.size_append]
    omega
  rw [positions]
  simp only [Code.size_append] at placedStore
  rw [← Nat.add_assoc] at placedStore
  exact (Runs.straight placedReserve front).trans (runs.trans (Runs.straight placedStore acted))

/-- Passing one argument, when its evaluation keeps what it has to keep. -/
theorem passes (argument : Code) (type : Ty) (pc : Nat) {stack value : List Word}
    {memory changed : Memory} {output output' : ByteArray} {slot : Int32} {bytes : List UInt8}
    (cells : Cells image.word cells floor) (isValue : type.isVoid = false)
    (placed : image.Holds (passCode (argument, type)) pc)
    (stands : Stands image.word floor memory top framePointer)
    (room : floor + type.width ≤ top)
    (reserves : slot = stackWord image.word memory - type.size)
    (runs : Runs image limit
      ⟨pc + (reserve type).size, .integer slot :: stack, reserved image.word type memory, output⟩
      ⟨pc + (reserve type).size + argument.size, value ++ .integer slot :: stack, changed,
        output'⟩)
    (keeps : Keeps image.word (top - type.width) Nothing (reserved image.word type memory) changed)
    (encoded : type.bytes? value = some bytes) :
    Runs image limit ⟨pc, stack, memory, output⟩
        ⟨pc + (passCode (argument, type)).size, stack,
          type.storeCode.outcome image.word (value ++ .integer slot :: stack) changed, output'⟩ ∧
      Stands image.word floor
        (type.storeCode.outcome image.word (value ++ .integer slot :: stack) changed)
        (top - type.width) framePointer ∧
      (type.storeCode.outcome image.word (value ++ .integer slot :: stack) changed).size =
        memory.size ∧
      ∀ index, top ≤ index →
        (type.storeCode.outcome image.word (value ++ .integer slot :: stack) changed).byte index =
          memory.byte index := by
  have inside := stands.inside
  have afterwards := (reserved_stands type cells stands room).of_keeps keeps
  have changedSize : changed.size = memory.size :=
    keeps.size.trans (by rw [reserved, Memory.size_setWord])
  have storeCells : Cells image.word Ty.storeCells floor :=
    cells.mono (by simp [Ty.storeCells, Frame.cells])
  obtain ⟨passed, stored⟩ := passes_stored argument type pc cells isValue placed stands.stack inside
    room reserves runs changedSize encoded
  refine ⟨passed, ⟨?_, ?_, by omega, by rw [stored.size]; omega⟩, stored.size.trans changedSize, ?_⟩
  · rw [stackWord, word_cell_of_stored stored cells (by omega) stackPointer_mem (by decide)]
    exact afterwards.stack
  · rw [frameWord, word_cell_of_stored stored cells (by omega) framePointer_mem (by decide)]
    exact afterwards.frame
  · intro index above
    rw [stored.kept index (Or.inr (by omega)) (storeCells.misses_of_floor_le (by omega)),
      keeps.bytes index (by omega) id, reserved_byte cells (by omega)]

/-- What the caller finds right behind its call, and what becomes of it. -/
structure Returned (image : Image) (limit : Option Nat) (floor : Nat) (code : Code) (result : Ty)
    (value : List Word) (top : Nat) (framePointer : Int32)
    (before returned after : Configuration) : Prop where
  called : Stands image.word floor before.memory top framePointer
  runs : Runs image limit before returned
  /-- Control is right behind the call, before the code that reads the result. -/
  position : returned.pc + (Frame.result result).size = before.pc + code.size
  stack : returned.stack = before.stack
  stands : Stands image.word floor returned.memory top framePointer
  continues : Runs image limit returned after
  ends : after = ⟨before.pc + code.size, value ++ before.stack, returned.memory, returned.output⟩
  size : after.memory.size = before.memory.size
  kept : ∀ index, top ≤ index → after.memory.byte index = before.memory.byte index

theorem Returned.keeps (own : Nat → Prop) {code : Code} {result : Ty} {value : List Word}
    {top' : Nat} {framePointer' : Int32} {before returned after : Configuration}
    (back : Returned image limit floor code result value top' framePointer' before returned after)
    (stands : Stands image.word floor before.memory top framePointer) :
    Runs image limit before after ∧ Keeps image.word top own before.memory after.memory := by
  have memory : after.memory = returned.memory := by rw [back.ends]
  have sameTop := back.called.stack.unique stands.stack
  subst sameTop
  refine ⟨back.runs.trans back.continues, back.size, ?_, ?_, fun index above _ =>
    back.kept index above⟩
  · rw [memory]
    exact Int32.toInt_inj.mp (back.stands.stack.trans stands.stack.symm)
  · rw [memory, back.stands.frame, ← back.called.frame]

/-- Reading the result when the function has been left. -/
theorem reads (limit : Option Nat) (stack : List Word) (output : ByteArray) {result : Ty}
    {value : List Word} {bytes : List UInt8} {before after : Memory} {pc : Nat}
    (cells : Cells image.word cells floor) (room : 8 ≤ top)
    (placed : image.Holds (Frame.result result) pc)
    (left : Left image.word floor before after top framePointer result bytes)
    (encoded : result.bytes? value = some bytes) (decoded : result.words bytes = value) :
    Runs image limit ⟨pc, stack, after, output⟩
      ⟨pc + (Frame.result result).size, value ++ stack, after, output⟩ := by
  cases isVoid : result.isVoid with
  | true =>
      cases result <;> cases isVoid
      simp only [Ty.bytes?, Option.ite_none_right_eq_some] at encoded
      rw [encoded.1]
      exact .refl _
  | false =>
      have acts := Code.act_alone (act_result stack isVoid cells left.stands
        (Nat.le_trans result.width_le room) left.result)
      rw [decoded] at acts
      exact Runs.straight placed acts

/-- The words that lead back are still there when a body ends. -/
theorem word_of_keeps {word : String → Int32} {base localWidth parameterWidth index : Nat}
    {before after : Memory}
    (keeps : Keeps word (base - 8 - localWidth) (Own base localWidth parameterWidth) before after)
    (lower : base - 8 ≤ index) (upper : index + 4 ≤ base) :
    after.word index = before.word index := by
  refine Memory.word_congr fun other fromIndex below => keeps.bytes other (by omega) ?_
  unfold Own
  omega

/-- A function that was called comes back with its result, when its body keeps
what a body has to keep. -/
theorem returns {types : List Ty} {result : Ty} (function : Function image types result)
    {enter : Code} {callPosition base localWidth : Nat} {stack value : List Word}
    {called finished : Memory} {output output' : ByteArray} {rest : Code} {bytes : List UInt8}
    (cells : Cells image.word cells floor) (addressable : image.Addressable)
    (placed : image.Holds (.callV :: rest) callPosition) (layout : function.Layout enter)
    (width : localWidth = function.localWidth)
    (stands : Stands image.word floor called base framePointer)
    (room : floor + localWidth + 8 ≤ base)
    (inside : base + Parameters.width types ≤ called.size)
    (fits : base + Parameters.width types < 2147483648)
    (body : ∀ after : Memory,
      after = enter.outcome image.word (.integer (Int32.ofNat (callPosition + 1)) :: stack) called →
      Stands image.word floor after (base - 8 - localWidth) (stackWord image.word called) →
      Runs image limit ⟨function.start + 1 + enter.size, stack, after, output⟩
          ⟨function.exit,
            value ++ (slot (frameWord image.word finished) (Parameters.size types) result ++ stack),
            finished, output'⟩ ∧
        Keeps image.word (base - 8 - localWidth) (Own base localWidth (Parameters.width types))
          after finished)
    (encoded : result.bytes? value = some bytes) :
    Runs image limit ⟨callPosition, .integer function.value :: stack, called, output⟩
        ⟨callPosition + 1, stack,
          (leaveStraight (Parameters.size types) result).outcome image.word
            (value ++ (slot (frameWord image.word finished) (Parameters.size types) result ++ stack))
            finished, output'⟩ ∧
      Left image.word floor called
        ((leaveStraight (Parameters.size types) result).outcome image.word
          (value ++ (slot (frameWord image.word finished) (Parameters.size types) result ++ stack))
          finished)
        (base + Parameters.width types) framePointer result bytes := by
  have returnInside : callPosition + 1 ≤ image.code.size := by
    obtain ⟨found, _⟩ := (Image.holds_cons rfl rest callPosition).mp placed
    obtain ⟨bound, _⟩ := Array.getElem?_eq_some_iff.mp found
    exact bound
  -- Into the function and through its entry code.
  have jumps : Runs image limit ⟨callPosition, .integer function.value :: stack, called, output⟩
      ⟨function.start + 1, .integer (Int32.ofNat (callPosition + 1)) :: stack, called, output⟩ := by
    rw [Function.value, layout.entry.word]
    exact Runs.callValue addressable placed layout.entry.2
  obtain ⟨frameSize, size, enters⟩ := act_enter stack
    (Int32.ofNat (callPosition + 1)) cells layout.entering stands (by omega)
  have localSize : function.localSize.toInt = (localWidth : Int) := by
    rw [width, Function.localWidth]
    exact (Int.toNat_of_nonneg function.nonnegative).symm
  have acts := Code.act_alone enters
  have entered := entered_entered (Int32.ofNat (callPosition + 1)) cells stands
    (by rw [size, localSize]) (by omega)
  have runsEnter := @Runs.straight _ limit _ _ _ output _ _ _ layout.holdsEnter acts
  -- Through the body.
  obtain ⟨runsBody, keeps⟩ := body _ (Code.outcome_eq acts).symm entered.stands
  have frame : Address.Names (frameWord image.word finished) base := by
    rw [keeps.frame, entered.stands.frame]
    exact stands.stack
  have address : finished.word (base - 8) = Int32.ofNat (callPosition + 1) :=
    (word_of_keeps keeps (by omega) (by omega)).trans entered.returnAddress
  have saved : finished.word (base - 4) = framePointer :=
    (word_of_keeps keeps (by omega) (by omega)).trans (entered.savedFrame.trans stands.frame)
  have finishedSize : finished.size = called.size := keeps.size.trans entered.size
  -- Through the exit code and back.
  obtain ⟨after, leaves, left⟩ := act_leave stack cells frame
    (Parameters.toInt_size (by omega)) encoded (by omega) (by omega) fits
  have acted := Code.act_alone leaves
  rw [address] at acted
  rw [Code.outcome_eq acted]
  have holdsLeave := layout.holdsLeave
  rw [leave_eq] at holdsLeave
  obtain ⟨holdsStraight, holdsReturn⟩ := Image.holds_append.mp holdsLeave
  refine ⟨?_, left.size.trans finishedSize, by rw [← saved]; exact left.stands, left.result, ?_⟩
  · exact jumps.trans (runsEnter.trans (runsBody.trans
      ((Runs.straight holdsStraight acted).trans
        (Runs.returns addressable holdsReturn returnInside))))
  · intro index above
    have notOwn : ¬Own base localWidth (Parameters.width types) index := by
      unfold Own
      omega
    rw [left.kept index above, keeps.bytes index (by omega) notOwn,
      entered.kept index (by have := stands.above; omega) (by omega)]

/-! ## Any depth

One case for each way a run is put together; the induction over all three kinds
of run combines them. -/

/-- What is to be shown of a run inside an activation: it comes back to its own
pointers, and above its stack pointer only bytes of its own have changed. -/
def KeptBy (image : Image) (limit : Option Nat) (floor : Nat) (own : Nat → Prop)
    (first last : Configuration) : Prop :=
  ∀ (top : Nat) (framePointer : Int32), Stands image.word floor first.memory top framePointer →
    Runs image limit first last ∧ Keeps image.word top own first.memory last.memory

/-- What is to be shown of the passing of arguments. -/
def PassedBy (image : Image) (limit : Option Nat) (floor : Nat) (arguments : List (Code × Ty))
    (first last : Configuration) : Prop :=
  ∀ (top : Nat) (framePointer : Int32), Stands image.word floor first.memory top framePointer →
    floor + Parameters.width (arguments.map Prod.snd) ≤ top →
    (∀ argument ∈ arguments, argument.2.isVoid = false) →
    image.Holds (passCodes arguments) first.pc →
    Runs image limit first last ∧
      Stands image.word floor last.memory (top - Parameters.width (arguments.map Prod.snd))
        framePointer ∧
      last.memory.size = first.memory.size ∧
      ∀ index, top ≤ index → last.memory.byte index = first.memory.byte index

theorem kept_step {own : Nat → Prop} {first second last : Configuration}
    (next : first.Next image limit second)
    (keeps : Keeps image.word floor own first.memory second.memory)
    (rest : KeptBy image limit floor own second last) :
    KeptBy image limit floor own first last := by
  intro top framePointer stands
  have kept := keeps.mono stands.above
  obtain ⟨runs, others⟩ := rest top framePointer (stands.of_keeps kept)
  exact ⟨.step next runs, kept.trans others⟩

theorem kept_call {own : Nat → Prop} {first second last : Configuration} {code : Code}
    {result : Ty} {value : List Word}
    (back : ∃ returned,
      Returned image limit floor code result value top framePointer first returned second)
    (rest : KeptBy image limit floor own second last) :
    KeptBy image limit floor own first last := by
  intro top framePointer stands
  obtain ⟨returned, back⟩ := back
  obtain ⟨toCall, kept⟩ := back.keeps own stands
  obtain ⟨runs, keeps⟩ := rest top framePointer (stands.of_keeps kept)
  exact ⟨toCall.trans runs, kept.trans keeps⟩

theorem passed_cons (cells : Cells image.word cells floor) {argument : Code} {type : Ty}
    {others : List (Code × Ty)} {pc : Nat} {stack value : List Word} {memory changed : Memory}
    {output output' : ByteArray} {slot : Int32} {bytes : List UInt8} {last : Configuration}
    (reserves : slot = stackWord image.word memory - type.size)
    (evaluated : KeptBy image limit floor Nothing
      ⟨pc + (reserve type).size, .integer slot :: stack, reserved image.word type memory, output⟩
      ⟨pc + (reserve type).size + argument.size, value ++ .integer slot :: stack, changed,
        output'⟩)
    (encoded : type.bytes? value = some bytes)
    (rest : PassedBy image limit floor others
      ⟨pc + (passCode (argument, type)).size, stack,
        type.storeCode.outcome image.word (value ++ .integer slot :: stack) changed, output'⟩
      last) :
    PassedBy image limit floor ((argument, type) :: others) ⟨pc, stack, memory, output⟩ last := by
  intro top framePointer stands room values placed
  simp only [List.map_cons, Parameters.width] at room
  rw [passCodes_cons] at placed
  obtain ⟨placedFirst, placedRest⟩ := Image.holds_append.mp placed
  obtain ⟨runs, keeps⟩ := evaluated _ _
    (reserved_stands type cells stands (by omega))
  obtain ⟨passed, lowered, size, kept⟩ := passes argument type pc
    cells (values (argument, type) List.mem_cons_self) placedFirst stands (by omega) reserves runs
    keeps encoded
  obtain ⟨runsRest, below, restSize, restKept⟩ := rest _ _ lowered (by omega)
    (fun argument member => values argument (by simp [member])) placedRest
  refine ⟨passed.trans runsRest, ?_, restSize.trans size, fun index above => ?_⟩
  · rw [List.map_cons, Parameters.width, ← Nat.sub_sub]
    exact below
  · rw [restKept index (by omega), kept index above]

theorem back_intro (cells : Cells image.word cells floor) (addressable : image.Addressable)
    {callee code enter : Code} {arguments : List (Code × Ty)} {result : Ty}
    {function : Function image (arguments.map Prod.snd) result} {pc callPosition top : Nat}
    {framePointer : Int32} {stack value : List Word} {memory passed called finished : Memory}
    {output output₁ output₂ output₃ : ByteArray}
    (generated : invoke callee arguments result = .ok code) (placed : image.Holds code pc)
    (entering : Frame.enter function.localSize = .ok enter)
    (stands : Stands image.word floor memory top framePointer)
    (room : floor + function.localWidth + 8 + Parameters.width (arguments.map Prod.snd) ≤ top)
    (calls : callPosition = pc + (passCodes arguments).size + callee.size)
    (passing : PassedBy image limit floor arguments ⟨pc, stack, memory, output⟩
      ⟨pc + (passCodes arguments).size, stack, passed, output₁⟩)
    (evaluated : KeptBy image limit floor Nothing
      ⟨pc + (passCodes arguments).size, stack, passed, output₁⟩
      ⟨callPosition, .integer function.value :: stack, called, output₂⟩)
    (conducted : KeptBy image limit floor
      (Own (top - Parameters.width (arguments.map Prod.snd)) function.localWidth
        (Parameters.width (arguments.map Prod.snd)))
      ⟨function.start + 1 + enter.size, stack,
        enter.outcome image.word (.integer (Int32.ofNat (callPosition + 1)) :: stack) called,
        output₂⟩
      ⟨function.exit,
        value ++ (slot (frameWord image.word finished)
          (Parameters.size (arguments.map Prod.snd)) result ++ stack),
        finished, output₃⟩)
    (admits : result.Admits value) :
    ∃ returned, Returned image limit floor code result value top framePointer
      ⟨pc, stack, memory, output⟩ returned
      ⟨pc + code.size, value ++ stack,
        (leaveStraight (Parameters.size (arguments.map Prod.snd)) result).outcome image.word
          (value ++ (slot (frameWord image.word finished)
            (Parameters.size (arguments.map Prod.snd)) result ++ stack)) finished,
        output₃⟩ := by
  obtain ⟨values, rfl⟩ := invoke_eq_ok.mp generated
  obtain ⟨enter', layout⟩ := function.layout
  obtain rfl : enter' = enter := Except.ok.inj (layout.entering.symm.trans entering)
  obtain ⟨bytes, encoded, decoded⟩ := admits
  have inside := stands.inside
  have fits := stands.fits
  simp only [Code.join_cons, Code.join_nil, List.append_nil] at placed
  obtain ⟨placedPassing, placedCallee⟩ := Image.holds_append.mp placed
  obtain ⟨_, placedCall⟩ := Image.holds_append.mp placedCallee
  rw [← calls] at placedCall
  have placedResult := ((Image.holds_cons rfl _ _).mp placedCall).2
  obtain ⟨passes, lowered, passedSize, passedKept⟩ := passing _ _ stands (by omega) values
    placedPassing
  obtain ⟨evaluates, calleeKeeps⟩ := evaluated _ _ lowered
  have calledSize := calleeKeeps.size.trans passedSize
  dsimp only at calledSize
  obtain ⟨comesBack, left⟩ := returns function cells addressable placedCall layout rfl
    (lowered.of_keeps calleeKeeps) (by omega) (by rw [calledSize]; omega) (by omega)
    (fun after same bodyStands => by
      subst same
      exact conducted _ _ bodyStands)
    encoded
  rw [Nat.sub_add_cancel (by omega)] at left
  have reading := reads limit stack output₃ cells (by omega)
    placedResult left encoded decoded
  have position : callPosition + 1 + (Frame.result result).size =
      pc + Code.size (Code.join [passCodes arguments, callee, [.callV], Frame.result result]) := by
    simp only [Code.join_cons, Code.join_nil, Code.size_append, Code.size_cons, Code.size_nil,
      Instruction.isDirective, Bool.false_eq_true, if_false, calls]
    omega
  rw [position] at reading
  refine ⟨_, stands, passes.trans (evaluates.trans comesBack), position, rfl, left.stands, reading,
    rfl, left.size.trans calledSize, fun index above => ?_⟩
  rw [left.kept index above, calleeKeeps.bytes index (by omega) id, passedKept index above]

theorem Conduct.kept (cells : Cells image.word cells floor) (addressable : image.Addressable)
    {own : Nat → Prop} {first last : Configuration}
    (conduct : Conduct image limit floor own first last) :
    KeptBy image limit floor own first last :=
  @Conduct.rec image limit floor
    (fun own first last _ => KeptBy image limit floor own first last)
    (fun arguments first last _ => PassedBy image limit floor arguments first last)
    (fun code result value top framePointer before after _ => ∃ returned,
      Returned image limit floor code result value top framePointer before returned after)
    (fun _ _ _ => ⟨.refl _, .refl _⟩)
    (fun next keeps _ rest => kept_step next keeps rest)
    (fun _ _ back rest => kept_call back rest)
    (fun _ _ stands _ _ _ => ⟨.refl _, stands, rfl, fun _ _ => rfl⟩)
    (fun reserves _ encoded _ evaluated rest => passed_cons cells reserves evaluated encoded rest)
    (fun generated placed entering stands room calls _ _ _ admits passing evaluated conducted =>
      back_intro cells addressable generated placed entering stands room calls passing evaluated
        conducted admits)
    _ _ _ conduct

theorem Passing.kept (cells : Cells image.word cells floor) (addressable : image.Addressable)
    {arguments : List (Code × Ty)} {first last : Configuration}
    (passing : Passing image limit floor arguments first last) :
    PassedBy image limit floor arguments first last := by
  induction arguments generalizing first with
  | nil =>
      cases passing
      exact fun _ _ stands _ _ _ => ⟨.refl _, stands, rfl, fun _ _ => rfl⟩
  | cons argument others induction =>
      cases passing with
      | cons reserves evaluated encoded rest =>
          exact passed_cons cells reserves (evaluated.kept cells addressable) encoded
            (induction rest)

/-- An invocation comes back to right behind its call with the pointers it had, and
ends with the value on top of the stack it had. No byte at or above its stack
pointer has changed. -/
theorem Invocation.returns (cells : Cells image.word cells floor)
    (addressable : image.Addressable) {code : Code} {result : Ty} {value : List Word} {top : Nat}
    {framePointer : Int32} {before after : Configuration}
    (invocation : Invocation image limit floor code result value top framePointer before after) :
    ∃ returned,
      Returned image limit floor code result value top framePointer before returned after := by
  cases invocation with
  | intro generated placed entering stands room calls passing evaluated conducted admits =>
      exact back_intro cells addressable generated placed entering stands room calls
        (passing.kept cells addressable) (evaluated.kept cells addressable)
        (conducted.kept cells addressable) admits

/-! ## Return statements -/

/-- The slot of the result is computed from the frame pointer. -/
theorem act_returnSlot {word : String → Int32} {memory : Memory} {result : Ty}
    {parameterSize : Int32} {code : Code} (isValue : result.isVoid = false)
    (cells : Cells word cells floor) (inside : floor ≤ memory.size)
    (generated : returnSlot parameterSize result = .ok code) (stack : List Word) (rest : Code) :
    Code.act word (code ++ rest) stack memory =
      Code.act word rest (slot (frameWord word memory) parameterSize result ++ stack) memory := by
  obtain ⟨offset, subtracted, built⟩ := Except.bind_eq_ok.mp generated
  obtain rfl := Except.pure_eq_ok.mp built
  have difference := Checked.subtract_eq_ok.mp subtracted
  have lower := Int32.le_toInt offset
  have upper := Int32.toInt_lt offset
  obtain rfl : offset = parameterSize - result.size :=
    Int32.toInt_inj.mp (by rw [Address.toInt_sub] <;> omega)
  rw [List.append_assoc, cells.act_load framePointer_mem inside, Code.act_addOffset, slot, isValue,
    if_neg Bool.false_ne_true, List.singleton_append]

theorem writes_returnSlot {parameterSize : Int32} {result : Ty} {code : Code}
    (generated : returnSlot parameterSize result = .ok code) :
    ∀ instruction ∈ code, instruction.writes = false := by
  obtain ⟨offset, _, built⟩ := Except.bind_eq_ok.mp generated
  obtain rfl := Except.pure_eq_ok.mp built
  unfold Code.addOffset
  split <;> simp [Code.loadWord, Instruction.writes]

/-- One run of an activation after another. -/
theorem Conduct.trans {own : Nat → Prop} {first second last : Configuration} :
    Conduct image limit floor own first second → Conduct image limit floor own second last →
      Conduct image limit floor own first last
  | .done, after => after
  | .step next keeps rest, after => .step next keeps (rest.trans after)
  | .call invocation rest, after => .call invocation (rest.trans after)

section

open Generation

variable {types : List Ty} {result : Ty} {function : Function image types result}
  {surroundings : Surroundings} {last next pc : Nat} {code : Code} {own : Nat → Prop}
  {stack : List Word} {memory : Memory} {output : ByteArray} {before : Configuration}

/-- A return statement with a value, wherever it stands in a function, comes to the exit as the
calling convention asks: the slot that its code computes for the value is the one that the frame
pointer gives at the exit. -/
theorem conducts_return (cells : Cells image.word cells floor) (addressable : image.Addressable)
    (exits : surroundings.returnLabel =
      some (LabelGroup.label ⟨"lambda", function.last + 1⟩ "return"))
    (parameters : surroundings.parameterSize = Parameters.size types)
    (results : surroundings.result = result) (isValue : result.isVoid = false)
    {expression : Expr} (generated : (Statement.return (some expression)).code surroundings last =
      .ok (code, next)) (holds : image.Holds code pc)
    (stands : Stands image.word floor memory top framePointer)
    (unwinds : Conduct image limit floor own before
      ⟨pc + surroundings.unwind.size, stack, memory, output⟩)
    {value : List Word} {finished : Memory} {output' : ByteArray}
    (evaluates : ∀ valueCode here, expression.valueCode last = .ok (valueCode, next) →
      image.Holds valueCode here → Conduct image limit floor own
        ⟨here, slot (frameWord image.word memory) (Parameters.size types) result ++ stack, memory,
          output⟩
        ⟨here + valueCode.size, value ++
          (slot (frameWord image.word memory) (Parameters.size types) result ++ stack), finished,
          output'⟩) :
    Conduct image limit floor own before ⟨function.exit,
      value ++ (slot (frameWord image.word finished) (Parameters.size types) result ++ stack),
      finished, output'⟩ := by
  obtain ⟨exit, returned, found, made, rfl⟩ := Statement.code_return.mp generated
  cases exits.symm.trans found
  simp only [Statement.returnedCode, bind_eq_ok, pure_eq_ok, lift_eq_ok] at made
  obtain ⟨slotCode, _, ⟨slotMade, rfl⟩, valueCode, _, valued, rfl, rfl⟩ := made
  rw [parameters, results] at slotMade
  obtain ⟨holdsFront, holdsJump⟩ := Image.holds_append.mp holds
  obtain ⟨_, holdsReturned⟩ := Image.holds_append.mp holdsFront
  obtain ⟨holdsSlot, holdsValue⟩ := Image.holds_append.mp holdsReturned
  have inside : floor ≤ memory.size := Nat.le_trans stands.above stands.inside
  have slots := Code.act_alone (act_returnSlot isValue cells inside slotMade stack)
  have evaluated := evaluates valueCode _ valued holdsValue
  -- The frame pointer is the same when the value has been evaluated.
  have kept := (evaluated.kept cells addressable _ _ stands).2.frame
  rw [← kept] at evaluated slots
  have position : pc + (surroundings.unwind ++ (slotCode ++ valueCode)).size =
      pc + surroundings.unwind.size + slotCode.size + valueCode.size := by
    simp only [Code.size_append]
    omega
  rw [position] at holdsJump
  refine unwinds.trans (.straight holdsSlot (writes_returnSlot slotMade) slots ?_)
  exact evaluated.trans
    (.step (Configuration.next_jump addressable holdsJump function.exits) (.refl finished) .done)

/-- A return statement without a value comes to the exit of a void function with nothing. -/
theorem conducts_return_none (addressable : image.Addressable)
    {function : Function image types .void}
    (exits : surroundings.returnLabel =
      some (LabelGroup.label ⟨"lambda", function.last + 1⟩ "return"))
    (generated : (Statement.return none).code surroundings last = .ok (code, next))
    (holds : image.Holds code pc)
    (unwinds : Conduct image limit floor own before
      ⟨pc + surroundings.unwind.size, stack, memory, output⟩) :
    Conduct image limit floor own before ⟨function.exit,
      [] ++ (slot (frameWord image.word memory) (Parameters.size types) .void ++ stack), memory,
      output⟩ := by
  obtain ⟨exit, returned, found, made, rfl⟩ := Statement.code_return.mp generated
  cases exits.symm.trans found
  obtain ⟨rfl, rfl⟩ := pure_eq_ok.mp made
  rw [List.append_nil] at holds
  exact unwinds.trans (.step (Configuration.next_jump addressable (Image.holds_append.mp holds).2
    function.exits) (.refl memory) .done)

end

end

end Frame

end StackBackend
