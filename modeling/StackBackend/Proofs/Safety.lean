import Mathlib.Logic.Relation
import StackBackend.Proofs.Assembler
import StackBackend.Proofs.Confinement
import StackBackend.Proofs.Run

namespace StackBackend

/-! What the machine does with any code whatever. The program counter stays in the code or
right behind it and the memory keeps its size; a step sees no byte outside the memory and
changes only the bytes that a store names; and a step that traps changes neither the memory
nor the output. Only jumps to a word from the stack can go astray. -/

/-! ## What an instruction leaves alone -/

namespace State

/-- The program counter, the memory and the output are the same. -/
structure Quiet (before after : State) : Prop where
  pc : after.pc = before.pc
  memory : after.memory = before.memory
  output : after.output = before.output

theorem Quiet.refl (state : State) : state.Quiet state :=
  ⟨rfl, rfl, rfl⟩

theorem Quiet.trans {first second third : State} (left : first.Quiet second)
    (right : second.Quiet third) : first.Quiet third :=
  ⟨right.pc.trans left.pc, right.memory.trans left.memory, right.output.trans left.output⟩

/-- The memory is the same, and so is the program counter unless it is a place in the
code. -/
structure Within (image : Image) (before after : State) : Prop where
  pc : after.pc = before.pc ∨ after.pc ≤ image.code.size
  memory : after.memory = before.memory

theorem Within.of_quiet {image : Image} {before between after : State}
    (quiet : before.Quiet between) (within : between.Within image after) :
    before.Within image after :=
  ⟨quiet.pc ▸ within.pc, within.memory.trans quiet.memory⟩

end State

/-- Whether the instruction jumps to a word from the stack. -/
def Instruction.jumpsToWord : Instruction → Bool
  | .callV | .return | .popPC => true
  | _ => false

namespace Effect

variable {α β : Type} {image : Image} {instruction : Instruction}
  {allowed : State → State → Prop}

/-- The result of an allowed change of the state, or a trap, where no more than the stack
has changed before. Only instructions that jump to a word trap for a jump. -/
inductive Upshot (instruction : Instruction) (allowed : State → State → Prop) (state : State) :
    EStateM.Result Trap State α → Prop
  | ok (value : α) {middle next : State} (quiet : state.Quiet middle)
      (change : allowed middle next) : Upshot instruction allowed state (.ok value next)
  | error (trap : Trap) {next : State} (quiet : state.Quiet next)
      (strays : ∀ target, trap = .badJump target → instruction.jumpsToWord = true) :
      Upshot instruction allowed state (.error trap next)

theorem Upshot.after {before between : State} {result : EStateM.Result Trap State α}
    (quiet : before.Quiet between) (upshot : Upshot instruction allowed between result) :
    Upshot instruction allowed before result := by
  cases upshot with
  | ok value more change => exact .ok value (quiet.trans more) change
  | error trap more strays => exact .error trap (quiet.trans more) strays

def Ends (instruction : Instruction) (allowed : State → State → Prop) (effect : Effect α) : Prop :=
  ∀ state, Upshot instruction allowed state (effect state)

theorem Ends.bind {first : Effect α} {rest : α → Effect β} (quiet : first.Ends instruction Eq)
    (later : ∀ value, (rest value).Ends instruction allowed) :
    (first >>= rest).Ends instruction allowed := by
  intro state
  have before := quiet state
  change Upshot instruction allowed state (EStateM.bind first rest state)
  unfold EStateM.bind
  generalize first state = result at before ⊢
  cases before with
  | error trap quiet strays => exact .error trap quiet strays
  | ok value quiet same =>
      cases same
      exact (later value _).after quiet

/-- An effect after which the machine goes on. -/
theorem Ends.going {effect : Effect α} (ends : effect.Ends instruction allowed) :
    (effect >>= fun _ => (pure true : Effect Bool)).Ends instruction allowed := by
  intro state
  have before := ends state
  change Upshot instruction allowed state (EStateM.bind effect (fun _ => pure true) state)
  unfold EStateM.bind
  generalize effect state = result at before ⊢
  cases before with
  | error trap quiet strays => exact .error trap quiet strays
  | ok value quiet change => exact .ok true quiet change

theorem Ends.within {effect : Effect α} (ends : effect.Ends instruction Eq) :
    effect.Ends instruction (State.Within image) := by
  intro state
  have before := ends state
  generalize effect state = result at before ⊢
  cases before with
  | error trap quiet strays => exact .error trap quiet strays
  | ok value quiet same =>
      cases same
      exact .ok value quiet ⟨.inl rfl, rfl⟩

theorem ends_pure (value : α) : (pure value : Effect α).Ends instruction Eq :=
  fun state => .ok value (.refl state) rfl

theorem ends_throw {trap : Trap} (other : ∀ target, trap ≠ .badJump target) :
    (throw trap : Effect α).Ends instruction Eq :=
  fun state => .error trap (.refl state) fun target same => absurd same (other target)

/-- A change of nothing but the stack. -/
theorem Upshot.restacked (value : α) {state next : State} (quiet : state.Quiet next) :
    Upshot instruction Eq state (.ok value next) :=
  .ok value quiet rfl

theorem ends_push (word : Word) : (push word).Ends instruction Eq :=
  fun _ => .restacked () ⟨rfl, rfl, rfl⟩

theorem ends_pushNext : pushNext.Ends instruction Eq :=
  fun _ => .restacked () ⟨rfl, rfl, rfl⟩

theorem ends_pop : pop.Ends instruction Eq := by
  rintro ⟨pc, _ | ⟨word, stack⟩, memory, output, steps⟩
  · exact .error .stackUnderflow (.refl _) nofun
  · exact .restacked word ⟨rfl, rfl, rfl⟩

theorem ends_popInteger : popInteger.Ends instruction Eq :=
  ends_pop.bind fun word => by
    cases word with
    | integer value => exact ends_pure value
    | floating value => exact ends_throw nofun

theorem ends_popFloating : popFloating.Ends instruction Eq :=
  ends_pop.bind fun word => by
    cases word with
    | integer value => exact ends_throw nofun
    | floating value => exact ends_pure value

theorem ends_load (address : Int32) (width : Nat) : (load address width).Ends instruction Eq := by
  intro state
  unfold load
  cases state.memory.index? address width with
  | none => exact .error _ (.refl state) nofun
  | some index => exact .ok _ (.refl state) rfl

theorem ends_loadText (address : Int32) : (loadText address).Ends instruction Eq := by
  intro state
  unfold loadText
  cases state.memory.index? address 1 with
  | none => exact .error _ (.refl state) nofun
  | some index =>
      dsimp only
      cases state.memory.terminated? index with
      | none => exact .error _ (.refl state) nofun
      | some bytes => exact .ok bytes (.refl state) rfl

theorem ends_argument (conversion : Conversion) : (argument conversion).Ends instruction Eq := by
  cases conversion with
  | integer | character => exact ends_popInteger.bind fun value => ends_pure _
  | floating => exact ends_popFloating.bind fun value => ends_pure _
  | string =>
      exact ends_popInteger.bind fun address =>
        (ends_loadText address).bind fun text => ends_pure _

theorem ends_arguments (taken : List Argument) (conversions : List Conversion) :
    (arguments taken conversions).Ends instruction Eq := by
  induction conversions generalizing taken with
  | nil => exact ends_pure taken
  | cons conversion rest induction =>
      exact (ends_argument conversion).bind fun value => induction (value :: taken)

theorem ends_write (limit : Option Nat) (bytes : List UInt8) :
    (write limit bytes).Ends instruction (State.Within image) := by
  intro state
  unfold write
  extract_lets refused
  clear_value refused
  cases refused with
  | true => exact .error .outputRefused (.refl state) nofun
  | false => exact .ok () (.refl state) ⟨.inl rfl, rfl⟩

theorem ends_printFormatted (limit : Option Nat) :
    (printFormatted limit).Ends instruction (State.Within image) :=
  ends_popInteger.bind fun address => (ends_loadText address).bind fun _ =>
    (ends_arguments [] _).bind fun _ => ends_write limit _

/-- A jump to a place in the code gets there. -/
theorem ends_jumpTo {target : Int32}
    (leads : instruction.jumpsToWord = true ∨ 0 ≤ target.toInt ∧ target.toInt ≤ image.code.size) :
    (jumpTo image target).Ends instruction (State.Within image) := by
  intro state
  unfold jumpTo
  by_cases inside : 0 ≤ target ∧ target.toNatClampNeg ≤ image.code.size
  · rw [if_pos inside]
    exact .ok () (.refl state) ⟨.inr inside.2, rfl⟩
  · rw [if_neg inside]
    refine .error _ (.refl state) fun _ _ => leads.resolve_right fun within => inside ⟨?_, ?_⟩
    · exact Int32.le_iff_toInt_le.mpr within.1
    · exact Int.toNat_le.mpr within.2

theorem ends_jumpIf {target : Int32} (leads : 0 ≤ target.toInt ∧ target.toInt ≤ image.code.size)
    (condition : Bool) : (jumpIf image target condition).Ends instruction (State.Within image) := by
  cases condition with
  | false => exact (ends_pure ()).within
  | true => exact ends_jumpTo (.inr leads)

theorem ends_unary (operation : Int32 → Int32) : (unary operation).Ends instruction Eq :=
  ends_popInteger.bind fun _ => ends_push _

theorem ends_binary (operation : Int32 → Int32 → Int32) :
    (binary operation).Ends instruction Eq :=
  ends_popInteger.bind fun _ => ends_popInteger.bind fun _ => ends_push _

theorem ends_dividing (operation : Int32 → Int32 → Int32) :
    (dividing operation).Ends instruction Eq :=
  ends_popInteger.bind fun right => ends_popInteger.bind fun left => by
    split
    · have other : ∀ target, Trap.divisionByZero ≠ .badJump target := nofun
      exact (ends_throw other).bind fun _ => ends_push _
    · exact (ends_pure _).bind fun _ => ends_push _

theorem ends_floatingBinary (operation : Binary64 → Binary64 → Binary64) :
    (floatingBinary operation).Ends instruction Eq :=
  ends_popFloating.bind fun _ => ends_popFloating.bind fun _ => ends_push _

end Effect

open Effect in
/-- All instructions but stores leave the memory as it is, and jumps stay in the code. -/
theorem Placed.ends_execute {image : Image} (limit : Option Nat) {placed : Placed}
    (reads : placed.instruction.writes = false)
    (leads : placed.instruction.destination?.isSome = true →
      0 ≤ placed.target.toInt ∧ placed.target.toInt ≤ image.code.size) :
    (placed.execute image limit).Ends placed.instruction (State.Within image) := by
  obtain ⟨instruction, target⟩ := placed
  cases instruction with
  | storeC | storeI | storeF => cases reads
  | pushI | pushF | pushD => exact (ends_push _).within.going
  | pop => exact ends_pop.within.going
  | duplicate =>
      exact ends_pop.bind fun top => (ends_push top).bind fun _ => (ends_push top).within.going
  | exchange =>
      exact ends_pop.bind fun top => ends_pop.bind fun below =>
        (ends_push top).bind fun _ => (ends_push below).within.going
  | add | subtract | multiply | btAnd | btOr | btXor => exact (ends_binary _).within.going
  | divide | remainder => exact (ends_dividing _).within.going
  | negate | btNot => exact (ends_unary _).within.going
  | fAdd | fSubtract | fMultiply | fDivide => exact (ends_floatingBinary _).within.going
  | fNegate | convertI => exact ends_popFloating.bind fun _ => (ends_push _).within.going
  | convertF | bNegate => exact ends_popInteger.bind fun _ => (ends_push _).within.going
  | and | or =>
      exact ends_popInteger.bind fun _ => ends_popInteger.bind fun _ => (ends_push _).within.going
  | jump => exact (ends_jumpTo (.inr (leads rfl))).going
  | jumpTrue | jumpFalse | jumpPos | jumpNeg =>
      exact ends_popInteger.bind fun _ => (ends_jumpIf (leads rfl) _).going
  | jumpFPos | jumpFNeg | jumpFZero =>
      exact ends_popFloating.bind fun _ => (ends_jumpIf (leads rfl) _).going
  | call => exact ends_pushNext.bind fun _ => (ends_jumpTo (.inr (leads rfl))).going
  | callV =>
      exact ends_popInteger.bind fun _ => ends_pushNext.bind fun _ => (ends_jumpTo (.inl rfl)).going
  | «return» | popPC => exact ends_popInteger.bind fun _ => (ends_jumpTo (.inl rfl)).going
  | pushPC => exact ends_pushNext.within.going
  | memtop => exact fun state => (ends_push _).within.going state
  | loadC | loadI | loadF =>
      exact ends_popInteger.bind fun address => (ends_load address _).bind fun _ =>
        (ends_push _).within.going
  | printf => exact (ends_printFormatted limit).going
  | pStack => exact fun state => (ends_write limit _).going state
  | halt => exact (ends_pure false).within
  | nop | label | dataLabel | dataC | dataI | dataF | dataS | dataZ | dataD =>
      exact (ends_pure true).within

/-! ## What an instruction stores -/

/-- Bytes from an address on are written over, and no others. -/
structure Memory.Stored (before after : Memory) (address : Int32) (bytes : List UInt8) : Prop where
  inside : 0 ≤ address.toInt ∧ address.toInt + bytes.length ≤ before.size
  size : after.size = before.size
  written : after.read address.toInt.toNat bytes.length = bytes
  others : ∀ index : Nat, index < address.toInt ∨ address.toInt + bytes.length ≤ index →
    after.byte index = before.byte index

theorem Memory.stored_write {memory : Memory} {address : Int32} {bytes : List UInt8} {index : Nat}
    (found : memory.index? address bytes.length = some index) :
    memory.Stored (memory.write index bytes) address bytes := by
  obtain ⟨names, fits⟩ := index?_eq_some.mp found
  have place : address.toInt = index := names
  refine ⟨by omega, size_write _ _ _, ?_, fun other outside => ?_⟩
  · rw [place, Int.toNat_natCast]
    exact read_write memory index bytes fits
  · exact byte_write_of_outside memory index other bytes (by omega)

namespace Instruction

/-- The address and the bytes that a store takes from the stack. -/
def stored? : Instruction → List Word → Option (Int32 × List UInt8)
  | .storeC, .integer value :: .integer address :: _ => some (address, [value.toUInt32.toUInt8])
  | .storeI, .integer value :: .integer address :: _ => some (address, WordBytes.ofInt32 value)
  | .storeF, .floating value :: .integer address :: _ => some (address, WordBytes.ofBinary64 value)
  | _, _ => none

/-- The number of bytes that a store writes. -/
def storeWidth : Instruction → Nat
  | .storeC => 1
  | .storeI => 4
  | .storeF => 8
  | _ => 0

theorem length_of_stored? {instruction : Instruction} {stack : List Word} {address : Int32}
    {bytes : List UInt8} (stored : instruction.stored? stack = some (address, bytes)) :
    bytes.length = instruction.storeWidth := by
  unfold stored? at stored
  split at stored <;> cases stored <;> rfl

/-- The memory changes in the bytes of a store, and only there. -/
def Leaves (instruction : Instruction) (stack : List Word) (before after : Memory) : Prop :=
  match instruction.stored? stack with
  | some (address, bytes) =>
      bytes.length = instruction.storeWidth ∧ before.Stored after address bytes
  | none => after = before

theorem Leaves.size {instruction : Instruction} {stack : List Word} {before after : Memory}
    (leaves : instruction.Leaves stack before after) : after.size = before.size := by
  unfold Leaves at leaves
  split at leaves
  · exact leaves.2.size
  · rw [leaves]

theorem leaves_of_reads {instruction : Instruction} (reads : instruction.writes = false)
    (stack : List Word) (memory : Memory) : instruction.Leaves stack memory memory := by
  cases instruction <;> first | rfl | cases reads

end Instruction

/-- The program counter stays, or it is a place in the code; the memory changes as the
instruction says. -/
structure Placed.Leaves (image : Image) (placed : Placed) (before after : State) : Prop where
  pc : after.pc = before.pc ∨ after.pc ≤ image.code.size
  memory : placed.instruction.Leaves before.stack before.memory after.memory

open Effect in
theorem Placed.upshot_store {image : Image} {placed : Placed} {state : State} {address : Int32}
    {bytes : List UInt8} {rest : List Word}
    (stored : placed.instruction.stored? state.stack = some (address, bytes)) :
    Upshot placed.instruction (fun _ next => placed.Leaves image state next) state
      ((store address bytes >>= fun _ => (pure true : Effect Bool))
        { state with stack := rest }) := by
  change Upshot _ _ _ (EStateM.bind (store address bytes) _ _)
  unfold EStateM.bind store
  dsimp only
  cases found : state.memory.index? address bytes.length with
  | none => exact .error (.outOfBounds ..) ⟨rfl, rfl, rfl⟩ nofun
  | some index =>
      refine .ok true (.refl state) ⟨.inl rfl, ?_⟩
      rw [Instruction.Leaves, stored]
      exact ⟨Instruction.length_of_stored? stored, Memory.stored_write found⟩

open Effect in
/-- What one instruction comes to, whatever the state. -/
theorem Placed.upshot_execute {image : Image} (limit : Option Nat) {placed : Placed}
    (leads : placed.instruction.destination?.isSome = true →
      0 ≤ placed.target.toInt ∧ placed.target.toInt ≤ image.code.size) (state : State) :
    Upshot placed.instruction (fun _ next => placed.Leaves image state next) state
      (placed.execute image limit state) := by
  cases writes : placed.instruction.writes with
  | false =>
      have upshot := ends_execute limit writes leads state
      generalize placed.execute image limit state = result at upshot ⊢
      cases upshot with
      | error trap quiet strays => exact .error trap quiet strays
      | ok value quiet within =>
          have within := within.of_quiet quiet
          refine .ok value quiet ⟨within.pc, ?_⟩
          rw [within.memory]
          exact Instruction.leaves_of_reads writes _ _
  | true =>
      obtain ⟨instruction, target⟩ := placed
      obtain ⟨pc, stack, memory, output, steps⟩ := state
      cases instruction with
      | storeC | storeI =>
          match stack with
          | [] | [.integer value] => exact .error .stackUnderflow ⟨rfl, rfl, rfl⟩ nofun
          | .floating value :: rest | .integer value :: .floating address :: rest =>
              exact .error (.wordMismatch .integer) ⟨rfl, rfl, rfl⟩ nofun
          | .integer value :: .integer address :: rest => exact upshot_store rfl
      | storeF =>
          match stack with
          | [] | [.floating value] => exact .error .stackUnderflow ⟨rfl, rfl, rfl⟩ nofun
          | .integer value :: rest => exact .error (.wordMismatch .floating) ⟨rfl, rfl, rfl⟩ nofun
          | .floating value :: .floating address :: rest =>
              exact .error (.wordMismatch .integer) ⟨rfl, rfl, rfl⟩ nofun
          | .floating value :: .integer address :: rest => exact upshot_store rfl
      | _ => cases writes

/-! ## Steps and runs -/

namespace Step

/-- The state that a step ends in. -/
def state : Step → State
  | .running state | .halted state | .trapped _ _ state => state

/-- What a step from a state may come to. Behind the code the machine halts. Anywhere else it
executes an instruction, which is no directive: the instruction succeeds and changes the
memory at most where it stores, or it traps and changes neither memory nor output. Only what
the sink has of output that it refuses is left open, and only a jump to a word goes
astray. -/
inductive Sound (image : Image) (state : State) : Step → Prop
  | finished (behind : state.pc = image.code.size) : Sound image state (.halted state)
  | running {placed : Placed} {next : State} (found : image.code[state.pc]? = some placed)
      (executed : placed.instruction.isDirective = false) (pc : next.pc ≤ image.code.size)
      (memory : placed.instruction.Leaves state.stack state.memory next.memory) :
      Sound image state (.running next)
  | halted {placed : Placed} {next : State} (found : image.code[state.pc]? = some placed)
      (executed : placed.instruction.isDirective = false) (pc : next.pc ≤ image.code.size)
      (memory : placed.instruction.Leaves state.stack state.memory next.memory) :
      Sound image state (.halted next)
  | trapped {placed : Placed} {trap : Trap} {next : State}
      (found : image.code[state.pc]? = some placed)
      (executed : placed.instruction.isDirective = false) (pc : next.pc ≤ image.code.size)
      (memory : next.memory = state.memory)
      (output : trap ≠ .outputRefused → next.output = state.output)
      (strays : ∀ target, trap = .badJump target → placed.instruction.jumpsToWord = true) :
      Sound image state (.trapped state.pc trap next)

theorem Sound.pc_le {image : Image} {before : State} {step : Step}
    (sound : step.Sound image before) : step.state.pc ≤ image.code.size := by
  cases sound with
  | finished behind => exact Nat.le_of_eq behind
  | running found executed pc memory | halted found executed pc memory => exact pc
  | trapped found executed pc memory output strays => exact pc

theorem Sound.size {image : Image} {before : State} {step : Step}
    (sound : step.Sound image before) : step.state.memory.size = before.memory.size := by
  cases sound with
  | finished behind => rfl
  | running found executed pc memory | halted found executed pc memory => exact memory.size
  | trapped found executed pc memory output strays => exact congrArg Memory.size memory

end Step

namespace Image

variable {code : Code} {image : Image}

theorem sound_step (assembled : assemble code = .ok image) (codeFits : code.size < 2147483648)
    (limit : Option Nat) {state : State} (within : state.pc ≤ image.code.size) :
    (state.step image limit).Sound image state := by
  obtain ⟨pc, stack, memory, output, steps⟩ := state
  unfold State.step
  dsimp only at within ⊢
  cases found : image.code[pc]? with
  | none =>
      have behind := Array.getElem?_eq_none_iff.mp found
      exact .finished (Nat.le_antisymm within behind)
  | some placed =>
      have member : placed ∈ image.code := Array.mem_of_getElem? found
      have inside : pc + 1 ≤ image.code.size := (Array.getElem?_eq_some_iff.mp found).1
      have executed : placed.instruction.isDirective = false := by
        obtain ⟨instruction, _, executed, rfl⟩ := mem_of_assemble assembled member
        exact executed
      have upshot := placed.upshot_execute limit
        (destination_of_assemble assembled codeFits member)
        ⟨pc + 1, stack, memory, output, steps + 1⟩
      dsimp only
      generalize placed.execute image limit ⟨pc + 1, stack, memory, output, steps + 1⟩ = result
        at upshot ⊢
      cases upshot with
      | error trap quiet strays =>
          exact .trapped found executed (quiet.pc ▸ inside) quiet.memory (fun _ => quiet.output)
            strays
      | @ok value middle next quiet change =>
          have pc : next.pc ≤ image.code.size := by
            rcases change.pc with stays | jumps
            · exact stays ▸ inside
            · exact jumps
          cases value with
          | true => exact .running found executed pc change.memory
          | false => exact .halted found executed pc change.memory

/-- There is code wherever a step is made. -/
theorem pc_lt_of_next {limit : Option Nat} {first second : Configuration}
    (next : first.Next image limit second) : first.pc < image.code.size := by
  refine Nat.not_le.mp fun beyond => ?_
  have halts := next 0
  rw [Configuration.state, State.step, Array.getElem?_eq_none beyond] at halts
  cases halts

/-- A run keeps the size of the memory. -/
theorem size_of_runs (assembled : assemble code = .ok image) (addressable : image.Addressable)
    {limit : Option Nat} {first last : Configuration} (runs : Runs image limit first last) :
    last.memory.size = first.memory.size := by
  have fits : code.size < 2147483648 := codeSize_of_assemble assembled ▸ addressable
  induction runs with
  | refl => rfl
  | @step first second last next _ induction =>
      have sound := sound_step assembled fits limit
        (show (first.state 0).pc ≤ image.code.size from Nat.le_of_lt (pc_lt_of_next next))
      rw [next 0] at sound
      exact induction.trans sound.size

/-- A state is reached from another one by steps of any number. -/
def Reaches (image : Image) (limit : Option Nat) : State → State → Prop :=
  Relation.ReflTransGen fun before after => before.step image limit = .running after

/-- What holds in every state of a run. -/
structure Safe (image : Image) (limit : Option Nat) (memorySize : Nat) (state : State) : Prop where
  pc : state.pc ≤ image.code.size
  size : state.memory.size = memorySize
  sound : (state.step image limit).Sound image state
  confined : ∀ other : State, state.Alike other →
    (state.step image limit).Agree (other.step image limit)

section

variable (assembled : assemble code = .ok image) (codeFits : code.size < 2147483648)
include assembled codeFits

theorem safe_of_pc (limit : Option Nat) {state : State} (pc : state.pc ≤ image.code.size) :
    image.Safe limit state.memory.size state where
  pc
  size := rfl
  sound := sound_step assembled codeFits limit pc
  confined _ alike := state.agree_step image limit alike

theorem safe_of_reaches {limit : Option Nat} {memorySize : Nat} {state : State}
    (reached : image.Reaches limit (image.initialState memorySize) state) :
    image.Safe limit memorySize state := by
  induction reached with
  | refl =>
      have start := safe_of_pc assembled codeFits limit
        (show (image.initialState memorySize).pc ≤ image.code.size from Nat.zero_le _)
      rwa [show (image.initialState memorySize).memory.size = memorySize from
        size_loadData _ 0 _] at start
  | @tail before after reached step safe =>
      have pc := safe.sound.pc_le
      have size := safe.sound.size
      rw [step] at pc size
      have next := safe_of_pc assembled codeFits limit pc
      rwa [size, safe.size] at next

theorem safe_runFor {limit : Option Nat} {memorySize : Nat} (fuel : Nat) {state : State}
    (reached : image.Reaches limit (image.initialState memorySize) state) :
    image.Safe limit memorySize (state.runFor image limit fuel).state := by
  induction fuel generalizing state with
  | zero => exact safe_of_reaches assembled codeFits reached
  | succ fuel induction =>
      have safe := safe_of_reaches assembled codeFits reached
      have pc := safe.sound.pc_le
      have size := safe.sound.size.trans safe.size
      unfold State.runFor
      cases step : state.step image limit with
      | running next => exact induction (reached.tail step)
      | halted next | trapped place trap next =>
          rw [step] at pc size
          have last := safe_of_pc assembled codeFits limit pc
          rwa [size] at last

theorem safe_run {options : MachineOptions} {run : Run} (ran : image.run options = .ok run) :
    image.Safe options.outputLimit options.memorySize run.state := by
  have safe : ∀ fuel, image.Safe options.outputLimit options.memorySize
      ((image.initialState options.memorySize).runFor image options.outputLimit fuel).state :=
    fun fuel => safe_runFor assembled codeFits fuel .refl
  unfold Image.run at ran
  split at ran
  · cases ran
  · split at ran
    · cases ran
      exact safe _
    · dsimp only at ran
      split at ran <;> cases ran <;> exact safe _

/-- Every state of a run of any code is safe, and so is the state in which it ends. -/
theorem safe_always (limit : Option Nat) (memorySize : Nat) :
    (∀ state, image.Reaches limit (image.initialState memorySize) state →
      image.Safe limit memorySize state) ∧
      ∀ options run, image.run options = .ok run →
        image.Safe options.outputLimit options.memorySize run.state :=
  ⟨fun _ reached => safe_of_reaches assembled codeFits reached,
    fun _ _ ran => safe_run assembled codeFits ran⟩

end

/-- Code that stores behind the memory. -/
def hostile : Code :=
  [.memtop, .jumpTrue "wild", .halt, .label "wild", .memtop, .pushI 9, .storeI, .callV]

theorem hostile_confined : hostile.size < 2147483648 ∧
    ∃ image run, assemble hostile = .ok image ∧ image.run ⟨64, some 100, none⟩ = .ok run ∧
      image.Safe none 64 run.state := by
  have fits : hostile.size < 2147483648 := by decide
  obtain ⟨image, assembled⟩ := exists_image_iff.mpr (Code.defects_eq_nil.mp
    (show hostile.defects = [] by decide))
  have empty : image.dataSize = hostile.dataSize := dataSize_of_assemble assembled
  obtain ⟨run, ran⟩ : ∃ run, image.run ⟨64, some 100, none⟩ = .ok run := by
    unfold Image.run
    rw [empty, if_neg (show ¬64 < hostile.dataSize by decide)]
    dsimp only
    split <;> exact ⟨_, rfl⟩
  exact ⟨fits, image, run, assembled, ran, (safe_always assembled fits none 64).2 _ _ ran⟩

end Image

end StackBackend
