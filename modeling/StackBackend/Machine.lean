import StackBackend.Binary64.Arithmetic
import StackBackend.Format
import StackBackend.Image

namespace StackBackend

/-! The stack machine: a stack of typed words, a flat memory with the data
segment at address zero, and a program counter into the code segment. Running
past the end of the code halts. -/

inductive Word where
  | integer (value : Int32)
  | floating (value : Binary64)
deriving DecidableEq

namespace Word

def text : Word → List Char
  | .integer value => Format.integerText value
  | .floating value => value.compactText

end Word

inductive WordKind where
  | integer
  | floating
deriving DecidableEq

namespace WordKind

def description : WordKind → String
  | .integer => "an integer"
  | .floating => "a float"

end WordKind

/-- What can go wrong in one instruction. -/
inductive Trap where
  | stackUnderflow
  | wordMismatch (expected : WordKind)
  | outOfBounds (address : Int32) (width : Nat)
  | divisionByZero
  | badJump (target : Int32)
  | outputRefused
deriving DecidableEq

/-- Why a run ended in failure. -/
inductive MachineError where
  | trap (pc : Nat) (trap : Trap)
  | stepLimit (limit : Nat)
  | imageTooLarge (data memory : Nat)
deriving DecidableEq

namespace MachineError

def message : MachineError → String
  | .trap pc .stackUnderflow => s!"stack underflow at instruction {pc}"
  | .trap pc (.wordMismatch expected) =>
      s!"expected {expected.description} on the stack at instruction {pc}"
  | .trap pc (.outOfBounds address width) =>
      s!"access of {width} bytes at address {address.toInt} is out of bounds at instruction {pc}"
  | .trap pc .divisionByZero => s!"integer division by zero at instruction {pc}"
  | .trap pc (.badJump target) =>
      s!"jump to {target.toInt} is outside the program at instruction {pc}"
  | .trap _ .outputRefused => "failed to write program output"
  | .stepLimit limit => s!"step limit of {limit} exceeded"
  | .imageTooLarge data memory =>
      s!"program data ({data} bytes) does not fit in {memory} bytes of memory"

end MachineError

/-- The operand stack is kept top first. -/
structure State where
  pc : Nat
  stack : List Word
  memory : Memory
  output : ByteArray
  steps : Nat

/-! An instruction either succeeds with a new state or traps. A trap keeps the
state it was raised in: operands that were popped stay popped. -/

abbrev Effect := EStateM Trap State

namespace Effect

def push (word : Word) : Effect Unit := fun state =>
  .ok () { state with stack := word :: state.stack }

def pop : Effect Word := fun state =>
  match state with
  | ⟨pc, [], memory, output, steps⟩ => .error .stackUnderflow ⟨pc, [], memory, output, steps⟩
  | ⟨pc, word :: stack, memory, output, steps⟩ => .ok word ⟨pc, stack, memory, output, steps⟩

def popInteger : Effect Int32 := do
  match ← pop with
  | .integer value => return value
  | .floating _ => throw (.wordMismatch .integer)

def popFloating : Effect Binary64 := do
  match ← pop with
  | .floating value => return value
  | .integer _ => throw (.wordMismatch .floating)

def pushInteger (value : Int32) : Effect Unit :=
  push (.integer value)

def pushTruth (value : Bool) : Effect Unit :=
  pushInteger (if value then 1 else 0)

def unary (operation : Int32 → Int32) : Effect Unit := do
  pushInteger (operation (← popInteger))

def binary (operation : Int32 → Int32 → Int32) : Effect Unit := do
  let right ← popInteger
  let left ← popInteger
  pushInteger (operation left right)

/-- A binary operation that traps when its right operand is zero. -/
def dividing (operation : Int32 → Int32 → Int32) : Effect Unit := do
  let right ← popInteger
  let left ← popInteger
  if right = 0 then throw .divisionByZero
  pushInteger (operation left right)

def floatingBinary (operation : Binary64 → Binary64 → Binary64) : Effect Unit := do
  let right ← popFloating
  let left ← popFloating
  push (.floating (operation left right))

/-! Control. A jump may go to any instruction or just past the last one. -/

def jumpTo (image : Image) (target : Int32) : Effect Unit := fun state =>
  if 0 ≤ target ∧ target.toNatClampNeg ≤ image.code.size then
    .ok () { state with pc := target.toNatClampNeg }
  else
    .error (.badJump target) state

def jumpIf (image : Image) (target : Int32) (condition : Bool) : Effect Unit :=
  if condition then jumpTo image target else pure ()

/-- Pushes the index of the instruction after the current one. -/
def pushNext : Effect Unit := fun state =>
  .ok () { state with stack := .integer (Int32.ofNat state.pc) :: state.stack }

/-! Memory. -/

def load (address : Int32) (width : Nat) : Effect (List UInt8) := fun state =>
  match state.memory.index? address width with
  | some index => .ok (state.memory.read index width) state
  | none => .error (.outOfBounds address width) state

def store (address : Int32) (values : List UInt8) : Effect Unit := fun state =>
  match state.memory.index? address values.length with
  | some index => .ok () { state with memory := state.memory.write index values }
  | none => .error (.outOfBounds address values.length) state

/-- The zero-terminated text at an address. -/
def loadText (address : Int32) : Effect (List UInt8) := fun state =>
  match state.memory.index? address 1 with
  | none => .error (.outOfBounds address 1) state
  | some index =>
      match state.memory.terminated? index with
      | some bytes => .ok bytes state
      | none => .error (.outOfBounds address (state.memory.size - index + 1)) state

/-! Output. The sink may refuse what would take it past a limit; writing nothing
is never refused. -/

def write (limit : Option Nat) (bytes : List UInt8) : Effect Unit := fun state =>
  let refused :=
    match limit with
    | none => false
    | some limit => !bytes.isEmpty && limit < state.output.size + bytes.length
  if refused then
    .error .outputRefused state
  else
    .ok () { state with output := bytes.foldl ByteArray.push state.output }

/-- The argument that a conversion takes off the stack. -/
def argument : Conversion → Effect Argument
  | .integer | .character => return .integer (← popInteger)
  | .floating => return .floating (← popFloating)
  | .string => do return .string (← loadText (← popInteger))

/-- Takes one argument for each conversion, the last conversion first; the
result is in the order of the conversions again. -/
def arguments (taken : List Argument) : List Conversion → Effect (List Argument)
  | [] => return taken
  | conversion :: rest => do arguments ((← argument conversion) :: taken) rest

def printFormatted (limit : Option Nat) : Effect Unit := do
  let format ← loadText (← popInteger)
  let arguments ← arguments [] (Format.conversions format).reverse
  write limit (Format.render format arguments)

/-- The text of a stack, bottom first. -/
def stackText (stack : List Word) : List Char :=
  "Stack: [".toList ++
    (List.intercalate [',', ' '] (stack.reverse.map Word.text)) ++ [']', '\n']

def printStack (limit : Option Nat) : Effect Unit := do
  let state ← get
  write limit (asciiBytes (stackText state.stack))

end Effect

/-! ## Instructions -/

open Effect in
/-- Executes an instruction whose successor is the program counter already. The
result says whether to go on. -/
def Placed.execute (image : Image) (limit : Option Nat) (placed : Placed) : Effect Bool := do
  match placed.instruction with
  | .pushI value => pushInteger value
  | .pushF value => push (.floating value)
  | .pushD _ => pushInteger placed.target
  | .pop => let _ ← pop
  | .duplicate =>
      let top ← pop
      push top
      push top
  | .exchange =>
      let top ← pop
      let below ← pop
      push top
      push below
  | .add => binary (· + ·)
  | .subtract => binary (· - ·)
  | .multiply => binary (· * ·)
  | .divide => dividing (· / ·)
  | .remainder => dividing (· % ·)
  | .negate => unary (- ·)
  | .fAdd => floatingBinary Binary64.add
  | .fSubtract => floatingBinary Binary64.subtract
  | .fMultiply => floatingBinary Binary64.multiply
  | .fDivide => floatingBinary Binary64.divide
  | .fNegate => push (.floating (← popFloating).negate)
  | .convertF => push (.floating (Binary64.ofInt32 (← popInteger)))
  | .convertI => pushInteger (← popFloating).truncate
  | .and =>
      let right ← popInteger
      let left ← popInteger
      pushTruth (left != 0 && right != 0)
  | .or =>
      let right ← popInteger
      let left ← popInteger
      pushTruth (left != 0 || right != 0)
  | .bNegate => pushTruth ((← popInteger) == 0)
  | .btAnd => binary (· &&& ·)
  | .btOr => binary (· ||| ·)
  | .btXor => binary (· ^^^ ·)
  | .btNot => unary (~~~ ·)
  | .jump _ => jumpTo image placed.target
  | .jumpTrue _ => jumpIf image placed.target ((← popInteger) != 0)
  | .jumpFalse _ => jumpIf image placed.target ((← popInteger) == 0)
  | .jumpPos _ => jumpIf image placed.target (decide (0 < (← popInteger)))
  | .jumpNeg _ => jumpIf image placed.target (decide ((← popInteger) < 0))
  | .jumpFPos _ => jumpIf image placed.target (← popFloating).isAboveZero
  | .jumpFNeg _ => jumpIf image placed.target (← popFloating).isBelowZero
  | .jumpFZero _ => jumpIf image placed.target (← popFloating).isZero
  | .call _ =>
      pushNext
      jumpTo image placed.target
  | .callV =>
      let target ← popInteger
      pushNext
      jumpTo image target
  | .return | .popPC => jumpTo image (← popInteger)
  | .pushPC => pushNext
  | .memtop => pushInteger (Int32.ofNat (← get).memory.size)
  | .loadC => pushInteger (WordBytes.toInt32 (← load (← popInteger) 1))
  | .loadI => pushInteger (WordBytes.toInt32 (← load (← popInteger) 4))
  | .loadF => push (.floating (WordBytes.toBinary64 (← load (← popInteger) 8)))
  | .storeC =>
      let value ← popInteger
      let address ← popInteger
      store address [value.toUInt32.toUInt8]
  | .storeI =>
      let value ← popInteger
      let address ← popInteger
      store address (WordBytes.ofInt32 value)
  | .storeF =>
      let value ← popFloating
      let address ← popInteger
      store address (WordBytes.ofBinary64 value)
  | .printf => printFormatted limit
  | .pStack => printStack limit
  | .halt => return false
  | .nop => pure ()
  | .label _ | .dataLabel _ | .dataC _ | .dataI _ | .dataF _ | .dataS _ | .dataZ _
  | .dataD _ => pure ()
  return true

/-! ## Runs -/

inductive Step where
  | running (state : State)
  | halted (state : State)
  | trapped (pc : Nat) (trap : Trap) (state : State)

/-- One step from a state. Past the end of the code there is nothing to do but
halt. -/
def State.step (image : Image) (limit : Option Nat) (state : State) : Step :=
  match state with
  | ⟨pc, stack, memory, output, steps⟩ =>
      match image.code[pc]? with
      | none => .halted ⟨pc, stack, memory, output, steps⟩
      | some placed =>
          match placed.execute image limit ⟨pc + 1, stack, memory, output, steps + 1⟩ with
          | .ok true next => .running next
          | .ok false next => .halted next
          | .error trap next => .trapped pc trap next

inductive Ending where
  | finished
  | failed (error : MachineError)
  /-- The number of steps allowed was used up. -/
  | suspended
deriving DecidableEq

structure Run where
  state : State
  ending : Ending

/-- Runs for at most the given number of steps. -/
def State.runFor (image : Image) (limit : Option Nat) : Nat → State → Run
  | 0, state => ⟨state, if state.pc < image.code.size then .suspended else .finished⟩
  | fuel + 1, state =>
      match state.step image limit with
      | .running next => next.runFor image limit fuel
      | .halted next => ⟨next, .finished⟩
      | .trapped pc trap next => ⟨next, .failed (.trap pc trap)⟩

structure MachineOptions where
  /-- Bytes of memory. -/
  memorySize : Nat := 1048576
  /-- A run that wants more steps than this fails. -/
  stepLimit : Option Nat := none
  /-- Output that would grow past this is refused. -/
  outputLimit : Option Nat := none

namespace Image

/-- The state in which a run starts. -/
def initialState (image : Image) (memorySize : Nat) : State where
  pc := 0
  stack := []
  memory := loadData (Memory.zeros memorySize) 0 image.data
  output := ByteArray.empty
  steps := 0

/-- More steps than any run that is waited for can take. -/
def unlimitedSteps : Nat := 0x4000000000000000

/-- Loads the image and runs it. Without a step limit only a run of
`unlimitedSteps` steps is given up, as suspended. -/
def run (image : Image) (options : MachineOptions) : Except MachineError Run :=
  if options.memorySize < image.dataSize then
    .error (.imageTooLarge image.dataSize options.memorySize)
  else
    let start := image.initialState options.memorySize
    match options.stepLimit with
    | none => .ok (start.runFor image options.outputLimit unlimitedSteps)
    | some limit =>
        let run := start.runFor image options.outputLimit limit
        match run.ending with
        | .suspended => .ok { run with ending := .failed (.stepLimit limit) }
        | _ => .ok run

end Image

end StackBackend
