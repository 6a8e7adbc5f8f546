import StackBackend.Proofs.PureFunctions
import StackBackend.Proofs.Safety
import StackBackend.Proofs.TypedAccess

namespace StackBackend

/-! Parameters are where their arguments were put. The offsets of parameters are sums of sizes,
counted from the last one; the slots of arguments come from a stack pointer that moves while
other arguments are evaluated. Both say the same when the callee is entered. -/

/-! ## Offsets -/

namespace Parameters

/-- The position is a byte of the parameter with the given number, when parameters are counted
from the base. -/
def InSlot (types : List Ty) (base number position : Nat) : Prop :=
  ∃ type offset, types[number]? = some type ∧
    (locations types)[number]? = some (.parameter offset) ∧
    base + offset.toInt ≤ position ∧ (position : Int) < base + offset.toInt + type.width

variable {types : List Ty} {base position : Nat}

theorem inSlot_iff {number : Nat} (fits : width types < 2147483648) :
    InSlot types base number position ↔
      number < types.length ∧ base + width (types.drop (number + 1)) ≤ position ∧
        position < base + width (types.drop number) := by
  have offset := toInt_size_drop fits (number + 1)
  constructor
  · rintro ⟨type, _, found, located, lower, upper⟩
    have split := width_drop found
    rw [getElem?_locations, found] at located
    cases located
    exact ⟨(List.getElem?_eq_some_iff.mp found).1, by omega, by omega⟩
  · rintro ⟨inside, lower, upper⟩
    have found := List.getElem?_eq_getElem inside
    have split := width_drop found
    refine ⟨_, size (types.drop (number + 1)), found, ?_, ?_, ?_⟩
    · rw [getElem?_locations, found]
      rfl
    · omega
    · omega

theorem inSlot_unique {first second : Nat} (fits : width types < 2147483648)
    (inFirst : InSlot types base first position) (inSecond : InSlot types base second position) :
    first = second := by
  rcases (inSlot_iff fits).mp inFirst with ⟨_, lowerFirst, upperFirst⟩
  rcases (inSlot_iff fits).mp inSecond with ⟨_, lowerSecond, upperSecond⟩
  rcases Nat.lt_trichotomy first second with less | same | more
  · have below := width_drop_le types (show first + 1 ≤ second from less)
    omega
  · exact same
  · have below := width_drop_le types (show second + 1 ≤ first from more)
    omega

theorem exists_inSlot (fits : width types < 2147483648) :
    (∃ number, InSlot types base number position) ↔
      base ≤ position ∧ position < base + width types := by
  constructor
  · rintro ⟨number, inSlot⟩
    rcases (inSlot_iff fits).mp inSlot with ⟨_, lower, upper⟩
    have below := width_drop_le types (Nat.zero_le number)
    rw [List.drop_zero] at below
    omega
  · rintro ⟨lower, upper⟩
    simp only [inSlot_iff fits]
    clear fits
    induction types with
    | nil => exact absurd upper (by rw [width]; omega)
    | cons type types induction =>
        by_cases above : base + width types ≤ position
        · exact ⟨0, Nat.succ_pos _, above, upper⟩
        · rcases induction (by omega) with ⟨number, inside, bounds⟩
          exact ⟨number + 1, Nat.succ_lt_succ inside, bounds⟩

end Parameters

namespace Frame

/-! ## Passing -/

/-- Code has been evaluated: its value is on the stack, the stack pointer is what it was, and no
byte from there on has changed. -/
structure Evaluated (image : Image) (limit : Option Nat) (code : Code) (value : List Word)
    (before after : Configuration) : Prop where
  runs : Runs image limit before after
  pc : after.pc = before.pc + code.size
  stack : after.stack = value ++ before.stack
  pointer : stackWord image.word after.memory = stackWord image.word before.memory
  kept : ∀ index : Nat, (stackWord image.word before.memory).toInt ≤ index →
    after.memory.byte index = before.memory.byte index

/-- What code that only pushes words makes of a configuration. -/
def pushing (code : Code) (value : List Word) (before : Configuration) : Configuration :=
  ⟨before.pc + code.size, value ++ before.stack, before.memory, before.output⟩

theorem Evaluated.straight {image : Image} {limit : Option Nat} {code : Code} {value : List Word}
    {before : Configuration} (placed : image.Holds code before.pc)
    (acts : code.act image.word before.stack before.memory =
      some (value ++ before.stack, before.memory)) :
    Evaluated image limit code value before (pushing code value before) where
  runs := Runs.straight placed acts
  pc := rfl
  stack := rfl
  pointer := rfl
  kept _ _ := rfl

/-- Where the evaluation of an argument begins: there is room for its value, and the address of
the room is on the stack. -/
def reserving (image : Image) (type : Ty) (before : Configuration) : Configuration :=
  ⟨before.pc + (reserve type).size,
    .integer (stackWord image.word before.memory - type.size) :: before.stack,
    reserved image.word type before.memory, before.output⟩

/-- What storing an argument makes of where its evaluation ended. -/
def storing (image : Image) (type : Ty) (stack : List Word) (evaluated : Configuration) :
    Configuration :=
  ⟨evaluated.pc + type.storeCode.size, stack,
    type.storeCode.outcome image.word evaluated.stack evaluated.memory, evaluated.output⟩

/-- Arguments have been evaluated and stored one after the other. -/
inductive Conveyed (image : Image) (limit : Option Nat) :
    List (Code × Ty) → List (List Word) → Configuration → Configuration → Prop
  | nil (here : Configuration) : Conveyed image limit [] [] here here
  | cons {argument : Code} {type : Ty} {others : List (Code × Ty)} {value : List Word}
      {values : List (List Word)} {before evaluated after : Configuration}
      (evaluates : Evaluated image limit argument value (reserving image type before) evaluated)
      (isValue : type.IsValue value)
      (rest : Conveyed image limit others values (storing image type before.stack evaluated)
        after) :
      Conveyed image limit ((argument, type) :: others) (value :: values) before after

/-- What passing arguments comes to. -/
structure Delivered (image : Image) (limit : Option Nat) (arguments : List (Code × Ty))
    (values : List (List Word)) (before after : Configuration) (top : Nat) : Prop where
  runs : Runs image limit before after
  pc : after.pc = before.pc + (passCodes arguments).size
  stack : after.stack = before.stack
  size : after.memory.size = before.memory.size
  pointer : Address.Names (stackWord image.word after.memory)
    (top - Parameters.width (arguments.map Prod.snd))
  kept : ∀ index, top ≤ index → after.memory.byte index = before.memory.byte index
  passed : ∃ contents, Passed after.memory top (arguments.map Prod.snd) contents ∧
    List.zipWith Ty.words (arguments.map Prod.snd) contents = values

section

variable {code : Code} {image : Image} {limit : Option Nat} {floor top : Nat}
  {arguments : List (Code × Ty)} {values : List (List Word)} {before after : Configuration}

/-- An argument is passed: its value is in the bytes right below the old stack pointer, and
the stack pointer is moved below them. -/
theorem delivers {argument : Code} {type : Ty} {value : List Word} {evaluated : Configuration}
    (assembled : Image.assemble code = .ok image) (addressable : image.Addressable)
    (cells : Cells image.word cells floor)
    (placed : image.Holds (passCode (argument, type)) before.pc)
    (pointer : Address.Names (stackWord image.word before.memory) top)
    (inside : top ≤ before.memory.size) (room : floor + type.width ≤ top)
    (evaluates : Evaluated image limit argument value (reserving image type before) evaluated)
    (isValue : type.IsValue value) :
    Delivered image limit [(argument, type)] [value] before
      (storing image type before.stack evaluated) top := by
  rcases isValue.admits with ⟨bytes, encoded, back⟩
  have fits : top < 2147483648 := by
    have bound := Int32.toInt_lt (stackWord image.word before.memory)
    unfold Address.Names at pointer
    omega
  have storeCells : Cells image.word Ty.storeCells floor :=
    cells.mono (by simp [Ty.storeCells, Frame.cells])
  -- The stack pointer during the evaluation and after it.
  have lowered : Address.Names (stackWord image.word (reserved image.word type before.memory))
      (top - type.width) := by
    rw [stackWord, reserved, cells.word_set stackPointer_mem (by omega)]
    exact pointer.sub (by rw [type.toInt_size]; omega) (by omega)
  have runs := evaluates.runs
  have ends := evaluates.pc
  have leaves := evaluates.stack
  have still := evaluates.pointer
  have kept := evaluates.kept
  rcases evaluated with ⟨pc, stack, changed, output⟩
  simp only [reserving] at runs ends leaves still kept
  subst ends leaves
  have size : changed.size = before.memory.size := by
    have same := Image.size_of_runs assembled addressable runs
    simpa only [reserved, Memory.size_setWord] using same
  rcases passes_stored argument type before.pc cells isValue.isVoid placed pointer inside room rfl
    runs size encoded with ⟨passes, stored⟩
  have position : before.pc + (passCode (argument, type)).size =
      before.pc + (reserve type).size + argument.size + type.storeCode.size := by
    simp only [passCode, Code.size_append]
    omega
  rw [position] at passes
  refine ⟨passes, ?_, rfl, stored.size.trans size, ?_, fun index above => ?_, [bytes], ?_, ?_⟩
  · rw [passCodes_singleton, position]
    rfl
  · have moved : stackWord image.word changed =
        stackWord image.word (reserved image.word type before.memory) := still
    rw [storing, stackWord,
      word_cell_of_stored stored cells (by omega) stackPointer_mem (by decide)]
    change Address.Names (stackWord image.word changed) _
    rw [moved]
    simpa [Parameters.width] using lowered
  · unfold Address.Names at lowered
    rw [storing, stored.kept index (.inr (by omega)) (storeCells.misses_of_floor_le (by omega)),
      kept index (by omega), reserved_byte cells (by omega)]
  · exact ⟨stored.written, trivial⟩
  · rw [List.map_cons, List.map_nil, List.zipWith_cons_cons, back]
    rfl

theorem Delivered.cons {argument : Code × Ty} {value : List Word} {middle : Configuration}
    (first : Delivered image limit [argument] [value] before middle top)
    (others : Delivered image limit arguments values middle after (top - argument.2.width))
    (room : Parameters.width ((argument :: arguments).map Prod.snd) ≤ top) :
    Delivered image limit (argument :: arguments) (value :: values) before after top := by
  simp only [List.map_cons, Parameters.width] at room
  rcases first.passed with ⟨contents, passedFirst, sameFirst⟩
  rcases others.passed with ⟨rest, passedOthers, sameOthers⟩
  have width : Parameters.width ([argument].map Prod.snd) = argument.2.width := rfl
  have untouched := passedFirst.congr (by omega) fun index lower _ =>
    others.kept index (by omega)
  refine ⟨first.runs.trans others.runs, ?_, others.stack.trans first.stack,
    others.size.trans first.size, ?_, fun index above => ?_, ?_⟩
  · rw [others.pc, first.pc, passCodes_singleton, passCodes_cons, Code.size_append]
    omega
  · have pointer := others.pointer
    rwa [Nat.sub_sub] at pointer
  · exact (others.kept index (by omega)).trans (first.kept index above)
  · cases contents with
    | nil => exact absurd untouched id
    | cons content contents =>
        cases contents with
        | cons => exact absurd untouched.2 id
        | nil =>
            refine ⟨content :: rest, ⟨untouched.1, passedOthers⟩, ?_⟩
            rw [List.map_cons, List.zipWith_cons_cons, sameOthers]
            exact congrArg (· ++ values) sameFirst

/-- Arguments are passed by passing one after the other. -/
theorem Conveyed.delivered (assembled : Image.assemble code = .ok image)
    (addressable : image.Addressable) (cells : Cells image.word cells floor)
    (conveyed : Conveyed image limit arguments values before after)
    (placed : image.Holds (passCodes arguments) before.pc)
    (pointer : Address.Names (stackWord image.word before.memory) top)
    (inside : top ≤ before.memory.size)
    (room : floor + Parameters.width (arguments.map Prod.snd) ≤ top) :
    Delivered image limit arguments values before after top := by
  induction conveyed generalizing top with
  | nil here => exact ⟨.refl here, rfl, rfl, rfl, pointer, fun _ _ => rfl, [], trivial, rfl⟩
  | @cons argument type others value values before evaluated after evaluates isValue rest
      induction =>
      simp only [List.map_cons, Parameters.width] at room
      rw [passCodes_cons] at placed
      rcases Image.holds_append.mp placed with ⟨placedFirst, placedOthers⟩
      have first := delivers assembled addressable cells placedFirst pointer inside
        (show floor + type.width ≤ top by omega) evaluates isValue
      have next := first.pc
      rw [passCodes_singleton] at next
      have size := first.size
      apply first.cons _ (by simp only [List.map_cons, Parameters.width]; omega)
      apply induction
      · rwa [next]
      · exact first.pointer
      · rw [size]
        exact Nat.le_trans (Nat.sub_le _ _) inside
      · change floor + Parameters.width (others.map Prod.snd) ≤ top - type.width
        omega

/-- Code that leaves the same value and the memory as it was, wherever it runs. -/
def IsConstant (image : Image) (argument : Code × Ty) (value : List Word) : Prop :=
  argument.2.IsValue value ∧ ∀ stack memory,
    Code.act image.word argument.1 stack memory = some (value ++ stack, memory)

theorem Conveyed.of_constants (constants : List.Forall₂ (IsConstant image) arguments values)
    (placed : image.Holds (passCodes arguments) before.pc) :
    ∃ after, Conveyed image limit arguments values before after := by
  induction constants generalizing before with
  | nil => exact ⟨before, .nil before⟩
  | @cons argument value arguments values constant _ induction =>
      rw [passCodes_cons] at placed
      rcases Image.holds_append.mp placed with ⟨placedFirst, placedOthers⟩
      have placedArgument := (Image.holds_append.mp (Image.holds_append.mp placedFirst).1).2
      have evaluates := @Evaluated.straight image limit argument.1 value
        (reserving image argument.2 before) placedArgument (constant.2 _ _)
      simp only [passCode, Code.size_append, ← Nat.add_assoc] at placedOthers
      have placedLater : image.Holds (passCodes arguments) (storing image argument.2 before.stack
        (pushing argument.1 value (reserving image argument.2 before))).pc := placedOthers
      rcases induction placedLater with ⟨after, conveyed⟩
      exact ⟨after, .cons evaluates constant.1 conveyed⟩

end

/-! ## Arguments and parameters -/

/-- The values of the arguments are where a pointer and the offsets of the parameters lead. The
slots do not overlap, and they fill what is between the base and the top. -/
structure InPlace (types : List Ty) (values : List (List Word)) (pointer : Int32) (memory : Memory)
    (base top : Nat) : Prop where
  names : Address.Names pointer base
  filled : (top : Int) = base + (Parameters.size types).toInt
  length : values.length = types.length
  stored : ∀ {number : Nat} {type : Ty} {value : List Word}, types[number]? = some type →
    values[number]? = some value → ∃ offset index,
      (Parameters.locations types)[number]? = some (.parameter offset) ∧
      Address.Names (pointer + offset) index ∧ index + type.width ≤ memory.size ∧
      type.words (memory.read index type.width) = value
  fills : ∀ position, (∃ number, Parameters.InSlot types base number position) ↔
    base ≤ position ∧ position < top
  apart : ∀ {position first second}, Parameters.InSlot types base first position →
    Parameters.InSlot types base second position → first = second

section

variable {types : List Ty} {contents : List (List UInt8)} {memory : Memory} {base : Nat}

theorem Passed.inPlace {pointer : Int32}
    (passed : Passed memory (base + Parameters.width types) types contents)
    (names : Address.Names pointer base) (inside : base + Parameters.width types ≤ memory.size)
    (fits : base + Parameters.width types < 2147483648) :
    InPlace types (List.zipWith Ty.words types contents) pointer memory base
      (base + Parameters.width types) where
  names := names
  filled := by
    rw [Parameters.toInt_size (by omega)]
    omega
  length := by
    rw [List.length_zipWith, passed.length_eq, Nat.min_self]
  stored {number type value} found held := by
    rcases List.getElem?_zipWith_eq_some.mp held with ⟨_, content, same, contained, rfl⟩
    rw [found] at same
    cases same
    have offset := Parameters.toInt_size_drop (show Parameters.width types < 2147483648 by omega)
      (number + 1)
    have all := Parameters.width_drop_le types (Nat.zero_le number)
    have split := Parameters.width_drop found
    rw [List.drop_zero] at all
    refine ⟨Parameters.size (types.drop (number + 1)),
      base + Parameters.width (types.drop (number + 1)), ?_, ?_, by omega, ?_⟩
    · rw [Parameters.getElem?_locations, found]
      rfl
    · exact names.add (by rw [offset]; omega) (by omega)
    · rw [passed.read_eq found contained]
  fills position := Parameters.exists_inSlot (by omega)
  apart := Parameters.inSlot_unique (by omega)

/-- The callee makes the stack pointer its frame pointer, and the arguments stay where they
are. -/
theorem Passed.enters {image : Image} {limit : Option Nat} {floor entry : Nat} {stack : List Word}
    {output : ByteArray} {returnAddress localSize : Int32} {enter : Code}
    (passed : Passed memory (base + Parameters.width types) types contents)
    (cells : Cells image.word cells floor)
    (names : Address.Names (stackWord image.word memory) base) (deep : floor + 8 ≤ base)
    (inside : base + Parameters.width types ≤ memory.size)
    (fits : base + Parameters.width types < 2147483648)
    (entering : Frame.enter localSize = .ok enter) (placed : image.Holds enter entry) :
    ∃ started, Runs image limit ⟨entry, .integer returnAddress :: stack, memory, output⟩ started ∧
      started.pc = entry + enter.size ∧ started.stack = stack ∧
      frameWord image.word started.memory = stackWord image.word memory ∧
      InPlace types (List.zipWith Ty.words types contents) (frameWord image.word started.memory)
        started.memory base (base + Parameters.width types) := by
  have stands : Stands image.word floor memory base (frameWord image.word memory) :=
    ⟨names, rfl, by omega, by omega⟩
  rcases act_enter stack returnAddress cells entering stands deep with ⟨frameSize, _, acts⟩
  have enters := Code.act_alone acts
  have framed : frameWord image.word (entered image.word base returnAddress frameSize memory) =
      stackWord image.word memory :=
    frameWord_entered returnAddress frameSize cells (by omega)
  have stays : Passed (entered image.word base returnAddress frameSize memory)
      (base + Parameters.width types) types contents := by
    apply passed.congr (by omega)
    intro index lower _
    have above : base ≤ index := by omega
    exact byte_entered returnAddress frameSize cells (by omega) (.inr above) (by omega)
  have size : (entered image.word base returnAddress frameSize memory).size = memory.size := by
    simp only [entered, Memory.size_setWord]
  generalize entered image.word base returnAddress frameSize memory = after at *
  refine ⟨⟨entry + enter.size, stack, after, output⟩, Runs.straight placed enters, rfl, rfl, framed,
    ?_⟩
  apply stays.inPlace
  · rw [framed]
    exact names
  · rw [size]
    exact inside
  · exact fits

end

end Frame

namespace Program

open StackBackend.Frame

/-- When the arguments of an invocation and its callee have been evaluated, control gets to the
callee with every argument in the slot of its parameter, below the stack pointer of the caller.
The callee makes the stack pointer its frame pointer, and the arguments stay in their slots. -/
theorem arguments_in_place {program : Program} {options : CompileOptions} {code call callee : Code}
    {image : Image} {limit : Option Nat} {arguments : List (Code × Ty)} {result : Ty}
    {values : List (List Word)} {before ready calling : Configuration} {top entry : Nat}
    (compiled : program.compile options = .ok code) (assembled : Image.assemble code = .ok image)
    (addressable : image.Addressable)
    (generated : invoke callee arguments result = .ok call) (placed : image.Holds call before.pc)
    (pointer : Address.Names (stackWord image.word before.memory) top)
    (inside : top ≤ before.memory.size)
    (room : image.dataSize + Parameters.width (arguments.map Prod.snd) ≤ top)
    (conveyed : Conveyed image limit arguments values before ready)
    (evaluated : Evaluated image limit callee [.integer (Int32.ofNat entry)] ready calling)
    (inCode : entry ≤ image.code.size) :
    ∃ entered base, Runs image limit before entered ∧ entered.pc = entry ∧
      entered.stack = .integer (Int32.ofNat (calling.pc + 1)) :: before.stack ∧
      InPlace (arguments.map Prod.snd) values (stackWord image.word entered.memory)
        entered.memory base top ∧
      ∀ {localSize enter}, Frame.enter localSize = .ok enter → image.Holds enter entry →
        image.dataSize + 8 ≤ base →
        ∃ started, Runs image limit entered started ∧ started.pc = entry + enter.size ∧
          started.stack = before.stack ∧
          frameWord image.word started.memory = stackWord image.word entered.memory ∧
          InPlace (arguments.map Prod.snd) values (frameWord image.word started.memory)
            started.memory base top := by
  have fits : top < 2147483648 := by
    have bound := Int32.toInt_lt (stackWord image.word before.memory)
    unfold Address.Names at pointer
    omega
  have cells := frame_cells compiled assembled (Nat.le_refl _) (by omega)
  rcases invoke_eq_ok.mp generated with ⟨_, rfl⟩
  simp only [Code.join_cons, Code.join_nil, List.cons_append, List.nil_append] at placed
  rcases Image.holds_append.mp placed with ⟨placedArguments, placed⟩
  rcases Image.holds_append.mp placed with ⟨placedCallee, placedCall⟩
  have delivered := conveyed.delivered assembled addressable cells placedArguments pointer inside
    room
  rcases delivered.passed with ⟨contents, passed, rfl⟩
  rcases Nat.exists_eq_add_of_le' (Nat.le_trans (Nat.le_add_left _ _) room) with ⟨base, rfl⟩
  have lowered := delivered.pointer
  rw [Nat.add_sub_cancel] at lowered
  -- The evaluation of the callee leaves the arguments alone.
  rw [← delivered.pc] at placedCallee placedCall
  rw [← evaluated.pc] at placedCall
  have still := evaluated.pointer
  have names : Address.Names (stackWord image.word calling.memory) base := by
    rw [still]
    exact lowered
  have inPlace := passed.congr (by omega) fun index lower _ => evaluated.kept index (by
    unfold Address.Names at lowered
    omega)
  have size : calling.memory.size = before.memory.size :=
    (Image.size_of_runs assembled addressable evaluated.runs).trans delivered.size
  have calls : Runs image limit calling ⟨entry,
      .integer (Int32.ofNat (calling.pc + 1)) :: before.stack, calling.memory,
      calling.output⟩ := by
    have stack := evaluated.stack
    rw [delivered.stack] at stack
    rcases calling with ⟨pc, _, memory, output⟩
    cases stack
    exact Runs.callValue addressable placedCall inCode
  have arrives := delivered.runs.trans (evaluated.runs.trans calls)
  have settled := inPlace.inPlace names (by omega) fits
  refine ⟨⟨entry, .integer (Int32.ofNat (calling.pc + 1)) :: before.stack, calling.memory,
    calling.output⟩, base, arrives, rfl, rfl, settled, ?_⟩
  intro localSize enter entering placedEnter deep
  exact inPlace.enters cells names deep (by omega) fits entering placedEnter

/-! A function of three parameters, of four, eight and one bytes, that answers seven. -/

def mixedTypes : List Ty :=
  [.integer, .floating, .character]

def mixedFunction : Expr :=
  .typed (.lambda mixedTypes .integer)
    (.lambda [] [.return (some (.typed .integer (.integer 7)))] (Parameters.size mixedTypes) 0)

/-- Calls the function and drops the answer. -/
def mixing : Program where
  globalSize := 0
  body := [.call (.typed .integer (.invocation mixedFunction [.typed .integer (.integer 5),
    .typed .floating (.floating ⟨0x4000000000000000⟩), .typed .character (.character 33)]))]

namespace Mixing

def arguments : List (Code × Ty) :=
  [([.pushI 5], .integer), ([.pushF ⟨0x4000000000000000⟩], .floating), ([.pushI 33], .character)]

def values : List (List Word) :=
  [[.integer 5], [.floating ⟨0x4000000000000000⟩], [.integer 33]]

def enter : Code :=
  Code.join [Code.loadWord Cell.stackPointer, Code.addOffset savedFrameOffset,
    Code.loadWord Cell.framePointer, [.storeI],
    Code.loadWord Cell.stackPointer, Code.addOffset returnAddressOffset, [.exchange, .storeI],
    Code.loadWord Cell.stackPointer, Code.storeWord Cell.framePointer, moveStackPointer (-8)]

def function : Code :=
  Form.lambdaCode ⟨"lambda", 1⟩ enter
    (Code.loadWord Cell.framePointer ++
      [.pushI 9, .add, .pushI 7, .jump (LabelGroup.label ⟨"lambda", 1⟩ "return")]) 13 .integer

def call : Code :=
  Code.join [passCodes arguments, function, [.callV], Frame.result .integer]

theorem body_eq : blockCode {} mixing.body 0 = .ok (call ++ Ty.integer.discard, 1) := rfl

theorem exists_image :
    ∃ code image pc, mixing.compile ⟨true⟩ = .ok code ∧ Image.assemble code = .ok image ∧
      image.Addressable ∧ image.dataSize ≤ 65536 ∧ image.Holds call pc := by
  have plain : Plain mixing.operations := by
    simp [Plain, mixing, mixedFunction, operations, blockOperations, Statement.operations,
      Expr.operations, Form.operations, exprsOperations]
  rcases exists_body_image (by decide +kernel) plain (by simp [mixing]) with
    ⟨code, image, body, _, pc, compiled, assembled, addressable, fits, made, holds⟩
  cases body_eq.symm.trans made
  exact ⟨code, image, pc, compiled, assembled, addressable, fits, (Image.holds_append.mp holds).1⟩

theorem width_arguments : Parameters.width (arguments.map Prod.snd) = 13 := by decide

theorem size_arguments : (Parameters.size (arguments.map Prod.snd)).toInt = 13 := by decide

theorem mixed_in_place :
    ∃ code image pc memory started base, mixing.compile ⟨true⟩ = .ok code ∧
      Image.assemble code = .ok image ∧ image.Holds call pc ∧
      Runs image none ⟨pc, [], memory, .empty⟩ started ∧ started.stack = [] ∧
      InPlace mixedTypes values (frameWord image.word started.memory) started.memory base
        65600 := by
  rcases exists_image with ⟨code, image, pc, compiled, assembled, addressable, fits, placed⟩
  have cells := frame_cells compiled assembled fits (by decide)
  rcases Answer.exists_stands cells with ⟨memory, framePointer, stands⟩
  rcases Image.holds_append.mp placed with ⟨placedArguments, placedRest⟩
  have constants : List.Forall₂ (IsConstant image) arguments values :=
    .cons ⟨.integer 5, fun _ _ => rfl⟩ (.cons ⟨.floating _, fun _ _ => rfl⟩
      (.cons ⟨.character (by decide) (by decide), fun _ _ => rfl⟩ .nil))
  rcases @Conveyed.of_constants image none arguments values ⟨pc, [], memory, .empty⟩ constants
    placedArguments with ⟨ready, conveyed⟩
  have room : image.dataSize + Parameters.width (arguments.map Prod.snd) ≤ 65600 := by
    rw [width_arguments]
    omega
  have delivered := conveyed.delivered assembled addressable cells placedArguments stands.stack
    stands.inside (by rw [width_arguments]; decide)
  -- The callee is the function, whose code stands behind the arguments.
  have valued : mixedFunction.valueCode 0 = .ok (function, 1) := rfl
  rcases Frame.Function.exists_of_valueCode (by decide) valued
    (Image.holds_append.mp placedRest).1 with ⟨made, start, _, _, same⟩
  rcases made.layout with ⟨enter, layout⟩
  have entry : made.value = Int32.ofNat (made.start + 1) := layout.entry.word
  have evaluates : HigherOrder.Evaluates image none [] made.fragment.code _ ready _ :=
    made.evaluates addressable ready (delivered.pc.trans start.symm)
  rw [same, entry] at evaluates
  have evaluated : Evaluated image none function [.integer (Int32.ofNat (made.start + 1))] ready
      (pushing function [.integer (Int32.ofNat (made.start + 1))] ready) :=
    ⟨evaluates.course.runs, evaluates.pc, evaluates.stack, rfl, fun _ _ => rfl⟩
  have generated : invoke function arguments .integer = .ok call := rfl
  rcases @arguments_in_place mixing ⟨true⟩ code call function image none arguments .integer values
    ⟨pc, [], memory, .empty⟩ ready _ 65600 (made.start + 1) compiled assembled addressable generated
    placed stands.stack stands.inside room conveyed evaluated layout.entry.2 with
    ⟨entered, base, arrives, atEntry, _, inPlace, enters⟩
  have top := inPlace.filled
  rw [size_arguments] at top
  rcases enters layout.entering layout.holdsEnter (by omega) with
    ⟨started, starts, _, stack, _, still⟩
  have runs : Runs image none ⟨pc, [], memory, .empty⟩ started := arrives.trans starts
  exact ⟨code, image, pc, memory, started, base, compiled, assembled, placed, runs, stack, still⟩

end Mixing

end Program

end StackBackend
