import StackBackend.Machine
import StackBackend.Proofs.Words

namespace StackBackend

/-! Runs of the machine, without the count of their steps.

A run is put together from stretches. Code that neither jumps nor prints acts on
the operand stack and the memory alone, so a stretch of it is described by a
function; jumps, calls and output are single steps. -/

/-! ## Configurations -/

/-- What a run can see of a state: everything but the number of steps taken. -/
structure Configuration where
  pc : Nat
  stack : List Word
  memory : Memory
  output : ByteArray

namespace Configuration

def state (configuration : Configuration) (steps : Nat) : State :=
  ⟨configuration.pc, configuration.stack, configuration.memory, configuration.output, steps⟩

/-- One step leads from the first configuration to the second. -/
def Next (image : Image) (limit : Option Nat) (before after : Configuration) : Prop :=
  ∀ steps, (before.state steps).step image limit = .running (after.state (steps + 1))

end Configuration

inductive Runs (image : Image) (limit : Option Nat) : Configuration → Configuration → Prop
  | refl (configuration : Configuration) : Runs image limit configuration configuration
  | step {first second last : Configuration} (next : first.Next image limit second)
      (rest : Runs image limit second last) : Runs image limit first last

namespace Runs

variable {image : Image} {limit : Option Nat} {first second last : Configuration}

theorem single (next : first.Next image limit second) : Runs image limit first second :=
  .step next (.refl second)

theorem trans (left : Runs image limit first second) (right : Runs image limit second last) :
    Runs image limit first last := by
  induction left with
  | refl => exact right
  | step next _ induction => exact .step next (induction right)

/-- A run takes some number of steps, and with that much more fuel the machine
gets to where the run leads. -/
theorem runFor (runs : Runs image limit first last) :
    ∃ count, ∀ fuel steps,
      (first.state steps).runFor image limit (fuel + count) =
        (last.state (steps + count)).runFor image limit fuel := by
  induction runs with
  | refl => exact ⟨0, fun _ _ => rfl⟩
  | step next _ induction =>
      obtain ⟨count, same⟩ := induction
      refine ⟨count + 1, fun fuel steps => ?_⟩
      rw [← Nat.add_assoc, State.runFor, next steps]
      simp only [same fuel (steps + 1)]
      rw [show steps + 1 + count = steps + (count + 1) by omega]

end Runs

/-! ## Code in an image -/

namespace Code

/-- The instructions of the code that are executed, directives left out. -/
def size (code : Code) : Nat :=
  code.countP (!·.isDirective)

@[simp] theorem size_nil : size [] = 0 := rfl

@[simp] theorem size_append (first second : Code) :
    size (first ++ second) = size first + size second :=
  List.countP_append

@[simp] theorem size_cons (instruction : Instruction) (rest : Code) :
    size (instruction :: rest) = (if instruction.isDirective then 0 else 1) + size rest := by
  cases executed : instruction.isDirective with
  | false =>
      simp only [size, List.countP_cons, executed, Bool.not_false, if_true, Bool.false_eq_true,
        if_false]
      exact Nat.add_comm _ _
  | true => simp [size, executed]

theorem size_executed {instruction : Instruction} (executed : instruction.isDirective = false)
    (rest : Code) : size (instruction :: rest) = size rest + 1 := by
  rw [size_cons, executed, if_neg Bool.false_ne_true, Nat.add_comm]

theorem size_reverse (code : Code) : size code.reverse = size code :=
  List.countP_reverse

end Code

namespace Instruction

/-- The word that the label operand stands for, zero when there is none. -/
def target (word : String → Int32) (instruction : Instruction) : Int32 :=
  match instruction.labelOperand? with
  | some name => word name
  | none => 0

end Instruction

namespace Image

/-- The word that a label stands for at run time. -/
def word (image : Image) (label : String) : Int32 :=
  match image.symbols[label]? with
  | some symbol => symbol.word
  | none => 0

/-- The label names a place in the code. -/
def Marks (image : Image) (name : String) (position : Nat) : Prop :=
  image.symbols[name]? = some (.code position) ∧ position ≤ image.code.size

/-- The code stands in the image from a position on, its labels where it defines
them. -/
def Holds (image : Image) : Code → Nat → Prop
  | [], _ => True
  | .label name :: rest, position =>
      image.Marks name position ∧ image.Holds rest position
  | instruction :: rest, position =>
      if instruction.isDirective then
        image.Holds rest position
      else
        image.code[position]? = some ⟨instruction, instruction.target image.word⟩ ∧
          image.Holds rest (position + 1)

variable {image : Image}

@[simp] theorem holds_nil (position : Nat) : image.Holds [] position := trivial

@[simp] theorem holds_label (name : String) (rest : Code) (position : Nat) :
    image.Holds (.label name :: rest) position ↔
      image.Marks name position ∧ image.Holds rest position :=
  Iff.rfl

theorem holds_cons {instruction : Instruction} (executed : instruction.isDirective = false)
    (rest : Code) (position : Nat) :
    image.Holds (instruction :: rest) position ↔
      image.code[position]? = some ⟨instruction, instruction.target image.word⟩ ∧
        image.Holds rest (position + 1) := by
  cases instruction <;> first | rfl | cases executed

theorem holds_directive {instruction : Instruction} (directive : instruction.isDirective = true)
    (notLabel : ∀ name, instruction ≠ .label name) (rest : Code) (position : Nat) :
    image.Holds (instruction :: rest) position ↔ image.Holds rest position := by
  cases instruction <;> first | rfl | exact absurd rfl (notLabel _) | cases directive

theorem holds_append {first second : Code} {position : Nat} :
    image.Holds (first ++ second) position ↔
      image.Holds first position ∧ image.Holds second (position + first.size) := by
  induction first generalizing position with
  | nil => simp
  | cons instruction rest induction =>
      rw [List.cons_append, Code.size_cons]
      cases directive : instruction.isDirective with
      | false =>
          rw [holds_cons directive, holds_cons directive, induction, and_assoc, Nat.add_assoc]
          rfl
      | true =>
          rw [if_pos rfl, Nat.zero_add]
          by_cases label : ∃ name, instruction = .label name
          · obtain ⟨name, rfl⟩ := label
            rw [holds_label, holds_label, induction]
            exact and_assoc.symm
          · have notLabel : ∀ name, instruction ≠ .label name := fun name same =>
              label ⟨name, same⟩
            rw [holds_directive directive notLabel, holds_directive directive notLabel, induction]

end Image

/-! ## Straight code

What an instruction that neither jumps nor prints does to the stack and the
memory. It does nothing when it would trap. -/

namespace Operand

variable {α : Type} {stack : List Word} {result : α}

/-- Takes a word off the stack. -/
def any (stack : List Word) (next : Word → List Word → Option α) : Option α :=
  match stack with
  | top :: rest => next top rest
  | [] => none

/-- Takes an integer off the stack. -/
def whole (stack : List Word) (next : Int32 → List Word → Option α) : Option α :=
  match stack with
  | .integer value :: rest => next value rest
  | _ => none

/-- Takes a floating number off the stack. -/
def real (stack : List Word) (next : Binary64 → List Word → Option α) : Option α :=
  match stack with
  | .floating value :: rest => next value rest
  | _ => none

theorem any_eq_some {next : Word → List Word → Option α} :
    any stack next = some result ↔
      ∃ top rest, stack = top :: rest ∧ next top rest = some result := by
  cases stack with
  | nil => simp [any]
  | cons top rest => grind [any]

theorem whole_eq_some {next : Int32 → List Word → Option α} :
    whole stack next = some result ↔
      ∃ value rest, stack = .integer value :: rest ∧ next value rest = some result := by
  cases stack with
  | nil => simp [whole]
  | cons top rest => cases top <;> grind [whole]

theorem real_eq_some {next : Binary64 → List Word → Option α} :
    real stack next = some result ↔
      ∃ value rest, stack = .floating value :: rest ∧ next value rest = some result := by
  cases stack with
  | nil => simp [real]
  | cons top rest => cases top <;> grind [real]

end Operand

namespace Instruction

open Operand in
def act (word : String → Int32) (instruction : Instruction) (stack : List Word)
    (memory : Memory) : Option (List Word × Memory) :=
  match instruction with
  | .pushI value => some (.integer value :: stack, memory)
  | .pushF value => some (.floating value :: stack, memory)
  | .pushD name => some (.integer (word name) :: stack, memory)
  | .pop => any stack fun _ stack => some (stack, memory)
  | .duplicate => any stack fun top stack => some (top :: top :: stack, memory)
  | .exchange =>
      any stack fun top stack => any stack fun below stack =>
        some (below :: top :: stack, memory)
  | .add => binary (· + ·)
  | .subtract => binary (· - ·)
  | .multiply => binary (· * ·)
  | .divide => dividing (· / ·)
  | .remainder => dividing (· % ·)
  | .negate => unary (- ·)
  | .fAdd => floatingBinary Binary64.add
  | .fSubtract => floatingBinary Binary64.subtract
  | .fMultiply => floatingBinary Binary64.multiply
  | .fDivide => floatingBinary Binary64.divide
  | .fNegate => real stack fun value stack => some (.floating value.negate :: stack, memory)
  | .convertF =>
      whole stack fun value stack => some (.floating (Binary64.ofInt32 value) :: stack, memory)
  | .convertI => real stack fun value stack => some (.integer value.truncate :: stack, memory)
  | .and => binary fun left right => if left != 0 && right != 0 then 1 else 0
  | .or => binary fun left right => if left != 0 || right != 0 then 1 else 0
  | .bNegate => unary fun value => if value == 0 then 1 else 0
  | .btAnd => binary (· &&& ·)
  | .btOr => binary (· ||| ·)
  | .btXor => binary (· ^^^ ·)
  | .btNot => unary (~~~ ·)
  | .memtop => some (.integer (Int32.ofNat memory.size) :: stack, memory)
  | .loadC =>
      whole stack fun address stack => (memory.load? address 1).map fun bytes =>
        (.integer (WordBytes.toInt32 bytes) :: stack, memory)
  | .loadI =>
      whole stack fun address stack => (memory.load? address 4).map fun bytes =>
        (.integer (WordBytes.toInt32 bytes) :: stack, memory)
  | .loadF =>
      whole stack fun address stack => (memory.load? address 8).map fun bytes =>
        (.floating (WordBytes.toBinary64 bytes) :: stack, memory)
  | .storeC =>
      whole stack fun value stack => whole stack fun address stack =>
        (memory.store? address [value.toUInt32.toUInt8]).map (stack, ·)
  | .storeI =>
      whole stack fun value stack => whole stack fun address stack =>
        (memory.store? address (WordBytes.ofInt32 value)).map (stack, ·)
  | .storeF =>
      real stack fun value stack => whole stack fun address stack =>
        (memory.store? address (WordBytes.ofBinary64 value)).map (stack, ·)
  | .nop => some (stack, memory)
  | _ => none
where
  unary (operation : Int32 → Int32) : Option (List Word × Memory) :=
    whole stack fun value stack => some (.integer (operation value) :: stack, memory)
  binary (operation : Int32 → Int32 → Int32) : Option (List Word × Memory) :=
    whole stack fun right stack => whole stack fun left stack =>
      some (.integer (operation left right) :: stack, memory)
  dividing (operation : Int32 → Int32 → Int32) : Option (List Word × Memory) :=
    whole stack fun right stack => whole stack fun left stack =>
      if right = 0 then none else some (.integer (operation left right) :: stack, memory)
  floatingBinary (operation : Binary64 → Binary64 → Binary64) : Option (List Word × Memory) :=
    real stack fun right stack => real stack fun left stack =>
      some (.floating (operation left right) :: stack, memory)

end Instruction

namespace Code

/-- Straight code, an instruction after the other. -/
def act (word : String → Int32) : Code → List Word → Memory → Option (List Word × Memory)
  | [], stack, memory => some (stack, memory)
  | instruction :: rest, stack, memory =>
      if instruction.isDirective then
        act word rest stack memory
      else
        (instruction.act word stack memory).bind fun (stack, memory) => act word rest stack memory

section

variable {word : String → Int32} {rest : Code} {stack : List Word} {memory : Memory}

@[simp] theorem act_nil : act word [] stack memory = some (stack, memory) := rfl

/-- Code acts on its own as it does in front of other code. -/
theorem act_alone {code : Code} {stack' : List Word} {memory' : Memory}
    (acts : ∀ rest, act word (code ++ rest) stack memory = act word rest stack' memory') :
    act word code stack memory = some (stack', memory') := by
  have alone := acts []
  rwa [List.append_nil, act_nil] at alone

theorem act_of_act {instruction : Instruction} {stack' : List Word} {memory' : Memory}
    (executed : instruction.isDirective = false)
    (acts : instruction.act word stack memory = some (stack', memory')) :
    act word (instruction :: rest) stack memory = act word rest stack' memory' := by
  rw [act, executed, if_neg Bool.false_ne_true, acts]
  rfl

@[simp] theorem act_label (name : String) :
    act word (.label name :: rest) stack memory = act word rest stack memory := rfl

@[simp] theorem act_pushI (value : Int32) :
    act word (.pushI value :: rest) stack memory = act word rest (.integer value :: stack) memory :=
  rfl

@[simp] theorem act_pushF (value : Binary64) :
    act word (.pushF value :: rest) stack memory =
      act word rest (.floating value :: stack) memory := rfl

@[simp] theorem act_pushD (name : String) :
    act word (.pushD name :: rest) stack memory =
      act word rest (.integer (word name) :: stack) memory := rfl

@[simp] theorem act_pop (top : Word) :
    act word (.pop :: rest) (top :: stack) memory = act word rest stack memory := rfl

@[simp] theorem act_duplicate (top : Word) :
    act word (.duplicate :: rest) (top :: stack) memory =
      act word rest (top :: top :: stack) memory := rfl

@[simp] theorem act_exchange (top below : Word) :
    act word (.exchange :: rest) (top :: below :: stack) memory =
      act word rest (below :: top :: stack) memory := rfl

@[simp] theorem act_add (left right : Int32) :
    act word (.add :: rest) (.integer right :: .integer left :: stack) memory =
      act word rest (.integer (left + right) :: stack) memory := rfl

@[simp] theorem act_subtract (left right : Int32) :
    act word (.subtract :: rest) (.integer right :: .integer left :: stack) memory =
      act word rest (.integer (left - right) :: stack) memory := rfl

@[simp] theorem act_multiply (left right : Int32) :
    act word (.multiply :: rest) (.integer right :: .integer left :: stack) memory =
      act word rest (.integer (left * right) :: stack) memory := rfl

@[simp] theorem act_negate (value : Int32) :
    act word (.negate :: rest) (.integer value :: stack) memory =
      act word rest (.integer (-value) :: stack) memory := rfl

@[simp] theorem act_and (left right : Int32) :
    act word (.and :: rest) (.integer right :: .integer left :: stack) memory =
      act word rest (.integer (if left != 0 && right != 0 then 1 else 0) :: stack) memory := rfl

@[simp] theorem act_btAnd (left right : Int32) :
    act word (.btAnd :: rest) (.integer right :: .integer left :: stack) memory =
      act word rest (.integer (left &&& right) :: stack) memory := rfl

@[simp] theorem act_btOr (left right : Int32) :
    act word (.btOr :: rest) (.integer right :: .integer left :: stack) memory =
      act word rest (.integer (left ||| right) :: stack) memory := rfl

@[simp] theorem act_memtop :
    act word (.memtop :: rest) stack memory =
      act word rest (.integer (Int32.ofNat memory.size) :: stack) memory := rfl

theorem act_divide {left right : Int32} (nonzero : right ≠ 0) :
    act word (.divide :: rest) (.integer right :: .integer left :: stack) memory =
      act word rest (.integer (left / right) :: stack) memory :=
  act_of_act rfl (if_neg nonzero)

theorem act_remainder {left right : Int32} (nonzero : right ≠ 0) :
    act word (.remainder :: rest) (.integer right :: .integer left :: stack) memory =
      act word rest (.integer (left % right) :: stack) memory :=
  act_of_act rfl (if_neg nonzero)

theorem act_loadC {address : Int32} {bytes : List UInt8}
    (found : memory.load? address 1 = some bytes) :
    act word (.loadC :: rest) (.integer address :: stack) memory =
      act word rest (.integer (WordBytes.toInt32 bytes) :: stack) memory :=
  act_of_act rfl (by
    change Option.map _ (memory.load? address 1) = _
    rw [found]
    rfl)

theorem act_loadI {address : Int32} {bytes : List UInt8}
    (found : memory.load? address 4 = some bytes) :
    act word (.loadI :: rest) (.integer address :: stack) memory =
      act word rest (.integer (WordBytes.toInt32 bytes) :: stack) memory :=
  act_of_act rfl (by
    change Option.map _ (memory.load? address 4) = _
    rw [found]
    rfl)

theorem act_loadF {address : Int32} {bytes : List UInt8}
    (found : memory.load? address 8 = some bytes) :
    act word (.loadF :: rest) (.integer address :: stack) memory =
      act word rest (.floating (WordBytes.toBinary64 bytes) :: stack) memory :=
  act_of_act rfl (by
    change Option.map _ (memory.load? address 8) = _
    rw [found]
    rfl)

theorem act_storeC {address value : Int32} {after : Memory}
    (stored : memory.store? address [value.toUInt32.toUInt8] = some after) :
    act word (.storeC :: rest) (.integer value :: .integer address :: stack) memory =
      act word rest stack after :=
  act_of_act rfl (by
    change Option.map _ (memory.store? address _) = _
    rw [stored]
    rfl)

theorem act_storeI {address value : Int32} {after : Memory}
    (stored : memory.store? address (WordBytes.ofInt32 value) = some after) :
    act word (.storeI :: rest) (.integer value :: .integer address :: stack) memory =
      act word rest stack after :=
  act_of_act rfl (by
    change Option.map _ (memory.store? address _) = _
    rw [stored]
    rfl)

theorem act_storeF {address : Int32} {value : Binary64} {after : Memory}
    (stored : memory.store? address (WordBytes.ofBinary64 value) = some after) :
    act word (.storeF :: rest) (.floating value :: .integer address :: stack) memory =
      act word rest stack after :=
  act_of_act rfl (by
    change Option.map _ (memory.store? address _) = _
    rw [stored]
    rfl)

end

end Code

namespace Effect

theorem load_eq (state : State) {address : Int32} {width : Nat} {bytes : List UInt8}
    (found : state.memory.load? address width = some bytes) :
    load address width state = .ok bytes state := by
  obtain ⟨index, named, rfl⟩ := Option.map_eq_some_iff.mp found
  rw [load, named]

theorem store_eq (state : State) {address : Int32} {values : List UInt8} {after : Memory}
    (stored : state.memory.store? address values = some after) :
    store address values state = .ok () { state with memory := after } := by
  obtain ⟨index, named, rfl⟩ := Option.map_eq_some_iff.mp stored
  rw [store, named]

end Effect

namespace Placed

/-- The machine does what straight code says. -/
theorem execute_of_act {image : Image} {limit : Option Nat} {instruction : Instruction}
    {stack stack' : List Word} {memory memory' : Memory}
    (acts : instruction.act image.word stack memory = some (stack', memory'))
    (pc : Nat) (output : ByteArray) (steps : Nat) :
    (Placed.mk instruction (instruction.target image.word)).execute image limit
        ⟨pc, stack, memory, output, steps⟩ =
      .ok true ⟨pc, stack', memory', output, steps⟩ := by
  cases instruction with
  | pushI | pushF | pushD | memtop | nop =>
      cases acts
      rfl
  | pop | duplicate =>
      obtain ⟨top, rest, rfl, same⟩ := Operand.any_eq_some.mp acts
      cases same
      rfl
  | exchange =>
      obtain ⟨top, rest, rfl, acts⟩ := Operand.any_eq_some.mp acts
      obtain ⟨below, rest, rfl, same⟩ := Operand.any_eq_some.mp acts
      cases same
      rfl
  | add | subtract | multiply | and | or | btAnd | btOr | btXor =>
      obtain ⟨right, rest, rfl, acts⟩ := Operand.whole_eq_some.mp acts
      obtain ⟨left, rest, rfl, same⟩ := Operand.whole_eq_some.mp acts
      cases same
      rfl
  | divide | remainder =>
      obtain ⟨right, rest, rfl, acts⟩ := Operand.whole_eq_some.mp acts
      obtain ⟨left, rest, rfl, divided⟩ := Operand.whole_eq_some.mp acts
      split at divided
      · cases divided
      · rename_i nonzero
        cases divided
        simp only [execute, Effect.dividing, Effect.popInteger, Effect.pop, Effect.pushInteger,
          Effect.push, nonzero, bind, EStateM.bind, pure, EStateM.pure, if_false]
  | negate | bNegate | btNot | convertF =>
      obtain ⟨value, rest, rfl, same⟩ := Operand.whole_eq_some.mp acts
      cases same
      rfl
  | fAdd | fSubtract | fMultiply | fDivide =>
      obtain ⟨right, rest, rfl, acts⟩ := Operand.real_eq_some.mp acts
      obtain ⟨left, rest, rfl, same⟩ := Operand.real_eq_some.mp acts
      cases same
      rfl
  | fNegate | convertI =>
      obtain ⟨value, rest, rfl, same⟩ := Operand.real_eq_some.mp acts
      cases same
      rfl
  | loadC | loadI | loadF =>
      obtain ⟨address, rest, rfl, acts⟩ := Operand.whole_eq_some.mp acts
      obtain ⟨bytes, found, same⟩ := Option.map_eq_some_iff.mp acts
      cases same
      have loaded := Effect.load_eq ⟨pc, rest, memory, output, steps⟩ found
      simp only [execute, Effect.popInteger, Effect.pop, Effect.pushInteger, Effect.push, loaded,
        bind, EStateM.bind, pure, EStateM.pure]
  | storeC | storeI =>
      obtain ⟨value, rest, rfl, acts⟩ := Operand.whole_eq_some.mp acts
      obtain ⟨address, rest, rfl, acts⟩ := Operand.whole_eq_some.mp acts
      obtain ⟨after, stored, same⟩ := Option.map_eq_some_iff.mp acts
      cases same
      have done := Effect.store_eq ⟨pc, stack', memory, output, steps⟩ stored
      simp only [execute, Effect.popInteger, Effect.pop, done, bind, EStateM.bind, pure,
        EStateM.pure]
  | storeF =>
      obtain ⟨value, rest, rfl, acts⟩ := Operand.real_eq_some.mp acts
      obtain ⟨address, rest, rfl, acts⟩ := Operand.whole_eq_some.mp acts
      obtain ⟨after, stored, same⟩ := Option.map_eq_some_iff.mp acts
      cases same
      have done := Effect.store_eq ⟨pc, stack', memory, output, steps⟩ stored
      simp only [execute, Effect.popFloating, Effect.popInteger, Effect.pop, done, bind,
        EStateM.bind, pure, EStateM.pure]
  | _ => cases acts

end Placed

namespace Instruction

/-- Whether the instruction writes to the memory. -/
def writes : Instruction → Bool
  | .storeC | .storeI | .storeF => true
  | _ => false

/-- All other straight instructions leave the memory as it is. -/
theorem memory_of_act {word : String → Int32} {instruction : Instruction}
    {stack stack' : List Word} {memory memory' : Memory}
    (acts : instruction.act word stack memory = some (stack', memory'))
    (reads : instruction.writes = false) : memory' = memory := by
  cases instruction with
  | storeC | storeI | storeF => cases reads
  | pushI | pushF | pushD | memtop | nop =>
      cases acts
      rfl
  | pop | duplicate =>
      obtain ⟨_, _, _, same⟩ := Operand.any_eq_some.mp acts
      cases same
      rfl
  | exchange =>
      obtain ⟨_, _, _, acts⟩ := Operand.any_eq_some.mp acts
      obtain ⟨_, _, _, same⟩ := Operand.any_eq_some.mp acts
      cases same
      rfl
  | add | subtract | multiply | and | or | btAnd | btOr | btXor =>
      obtain ⟨_, _, _, acts⟩ := Operand.whole_eq_some.mp acts
      obtain ⟨_, _, _, same⟩ := Operand.whole_eq_some.mp acts
      cases same
      rfl
  | divide | remainder =>
      obtain ⟨_, _, _, acts⟩ := Operand.whole_eq_some.mp acts
      obtain ⟨_, _, _, divided⟩ := Operand.whole_eq_some.mp acts
      split at divided <;> cases divided
      rfl
  | negate | bNegate | btNot | convertF =>
      obtain ⟨_, _, _, same⟩ := Operand.whole_eq_some.mp acts
      cases same
      rfl
  | fAdd | fSubtract | fMultiply | fDivide =>
      obtain ⟨_, _, _, acts⟩ := Operand.real_eq_some.mp acts
      obtain ⟨_, _, _, same⟩ := Operand.real_eq_some.mp acts
      cases same
      rfl
  | fNegate | convertI =>
      obtain ⟨_, _, _, same⟩ := Operand.real_eq_some.mp acts
      cases same
      rfl
  | loadC | loadI | loadF =>
      obtain ⟨_, _, _, acts⟩ := Operand.whole_eq_some.mp acts
      obtain ⟨_, _, same⟩ := Option.map_eq_some_iff.mp acts
      cases same
      rfl
  | _ => cases acts

end Instruction

/-! ## Steps -/

namespace Instruction

/-- Whether a conditional jump is taken for the word it pops. -/
def test : Instruction → Word → Option Bool
  | .jumpTrue _, .integer value => some (value != 0)
  | .jumpFalse _, .integer value => some (value == 0)
  | .jumpPos _, .integer value => some (decide (0 < value))
  | .jumpNeg _, .integer value => some (decide (value < 0))
  | .jumpFPos _, .floating value => some value.isAboveZero
  | .jumpFNeg _, .floating value => some value.isBelowZero
  | .jumpFZero _, .floating value => some value.isZero
  | _, _ => none

end Instruction

namespace Image

/-- Every place in the code has a word of its own. -/
def Addressable (image : Image) : Prop :=
  image.code.size < 2147483648

variable {image : Image}

theorem Marks.unique {name : String} {first second : Nat} (left : image.Marks name first)
    (right : image.Marks name second) : first = second := by
  have same := left.1.symm.trans right.1
  cases same
  rfl

theorem Marks.word {name : String} {position : Nat} (marks : image.Marks name position) :
    image.word name = Int32.ofNat position := by
  rw [Image.word, marks.1]
  rfl

theorem jumpTo_eq (addressable : image.Addressable) {position : Nat}
    (inside : position ≤ image.code.size) (state : State) :
    Effect.jumpTo image (Int32.ofNat position) state = .ok () { state with pc := position } := by
  have fits : position < 2147483648 := Nat.lt_of_le_of_lt inside addressable
  have index : (Int32.ofNat position).toNatClampNeg = position :=
    Int32.toNatClampNeg_ofNat_of_lt fits
  have nonnegative : 0 ≤ Int32.ofNat position := by
    rw [Int32.le_iff_toInt_le, Int32.toInt_ofNat_of_lt fits]
    exact Int.natCast_nonneg position
  rw [Effect.jumpTo, index, if_pos ⟨nonnegative, inside⟩]

theorem jumpIf_eq (addressable : image.Addressable) {position : Nat}
    (inside : position ≤ image.code.size) (taken : Bool) (state : State) :
    Effect.jumpIf image (Int32.ofNat position) taken state =
      .ok () { state with pc := if taken then position else state.pc } := by
  cases taken with
  | false => rfl
  | true => exact jumpTo_eq addressable inside state

end Image

namespace Configuration

variable {image : Image} {limit : Option Nat} {pc : Nat} {stack : List Word} {memory : Memory}
  {output : ByteArray}

theorem next_of_execute {placed : Placed} {after : Configuration}
    (found : image.code[pc]? = some placed)
    (executes : ∀ steps, placed.execute image limit ⟨pc + 1, stack, memory, output, steps⟩ =
      .ok true (after.state steps)) :
    Next image limit ⟨pc, stack, memory, output⟩ after := by
  intro steps
  simp only [state, State.step, found, executes (steps + 1)]

theorem next_jump {name : String} {position : Nat} {rest : Code} (addressable : image.Addressable)
    (holds : image.Holds (.jump name :: rest) pc) (marks : image.Marks name position) :
    Next image limit ⟨pc, stack, memory, output⟩ ⟨position, stack, memory, output⟩ := by
  obtain ⟨found, _⟩ := (Image.holds_cons rfl rest pc).mp holds
  refine next_of_execute found fun steps => ?_
  simp only [Instruction.target, Instruction.labelOperand?, Instruction.operand, marks.word,
    Placed.execute, Image.jumpTo_eq addressable marks.2, state, bind, EStateM.bind, pure,
    EStateM.pure]

/-- A conditional jump pops a word, which decides whether it is taken. -/
theorem next_branch (addressable : image.Addressable) {instruction : Instruction} {word : Word}
    {name : String} {position : Nat} {rest : Code} {taken : Bool}
    (holds : image.Holds (instruction :: rest) pc)
    (names : instruction.labelOperand? = some name) (marks : image.Marks name position)
    (tests : instruction.test word = some taken) :
    Next image limit ⟨pc, word :: stack, memory, output⟩
      ⟨if taken then position else pc + 1, stack, memory, output⟩ := by
  have executed : instruction.isDirective = false := by
    unfold Instruction.test at tests
    split at tests <;> first | rfl | cases tests
  obtain ⟨found, _⟩ := (Image.holds_cons executed rest pc).mp holds
  refine next_of_execute found fun steps => ?_
  simp only [Instruction.target, names, marks.word]
  unfold Instruction.test at tests
  split at tests <;> cases tests <;>
    simp only [Placed.execute, Effect.popInteger, Effect.popFloating, Effect.pop,
      Image.jumpIf_eq addressable marks.2, state, bind, EStateM.bind, pure,
      EStateM.pure]

/-- A jump for zero is not taken for another number, whatever its label is. -/
theorem next_pass {name : String} {value : Int32} {rest : Code} (nonzero : value ≠ 0)
    (holds : image.Holds (.jumpFalse name :: rest) pc) :
    Next image limit ⟨pc, .integer value :: stack, memory, output⟩
      ⟨pc + 1, stack, memory, output⟩ := by
  obtain ⟨found, _⟩ := (Image.holds_cons rfl rest pc).mp holds
  refine next_of_execute found fun steps => ?_
  simp only [Placed.execute, Effect.popInteger, Effect.pop, Effect.jumpIf,
    beq_eq_false_iff_ne.mpr nonzero, state, bind, EStateM.bind, pure, EStateM.pure,
    Bool.false_eq_true, if_false]

/-- A call through a value pops the target and pushes the place to return to. -/
theorem next_callValue {position : Nat} {rest : Code} (addressable : image.Addressable)
    (holds : image.Holds (.callV :: rest) pc) (inside : position ≤ image.code.size) :
    Next image limit ⟨pc, .integer (Int32.ofNat position) :: stack, memory, output⟩
      ⟨position, .integer (Int32.ofNat (pc + 1)) :: stack, memory, output⟩ := by
  obtain ⟨found, _⟩ := (Image.holds_cons rfl rest pc).mp holds
  refine next_of_execute found fun steps => ?_
  simp only [Placed.execute, Effect.popInteger, Effect.pop, Effect.pushNext,
    Image.jumpTo_eq addressable inside, state, bind, EStateM.bind, pure, EStateM.pure]

theorem next_return {position : Nat} {rest : Code} (addressable : image.Addressable)
    (holds : image.Holds (.return :: rest) pc) (inside : position ≤ image.code.size) :
    Next image limit ⟨pc, .integer (Int32.ofNat position) :: stack, memory, output⟩
      ⟨position, stack, memory, output⟩ := by
  obtain ⟨found, _⟩ := (Image.holds_cons rfl rest pc).mp holds
  refine next_of_execute found fun steps => ?_
  simp only [Placed.execute, Effect.popInteger, Effect.pop, Image.jumpTo_eq addressable inside,
    state, bind, EStateM.bind, pure, EStateM.pure]

end Configuration

namespace Runs

variable {image : Image} {limit : Option Nat} {pc position : Nat} {stack : List Word}
  {memory : Memory} {output : ByteArray} {rest : Code} {name : String}

/-- Straight code does to stack and memory what its function says. -/
theorem straight {code : Code} {stack' : List Word} {memory' : Memory}
    (holds : image.Holds code pc)
    (acts : code.act image.word stack memory = some (stack', memory')) :
    Runs image limit ⟨pc, stack, memory, output⟩ ⟨pc + code.size, stack', memory', output⟩ := by
  induction code generalizing pc stack memory with
  | nil =>
      cases acts
      exact .refl _
  | cons instruction rest induction =>
      rw [Code.act] at acts
      rw [Code.size_cons]
      cases directive : instruction.isDirective with
      | true =>
          rw [directive, if_pos rfl] at acts
          rw [if_pos rfl, Nat.zero_add]
          refine induction ?_ acts
          have after := (@Image.holds_append image [instruction] rest pc).mp holds
          simpa [directive] using after.2
      | false =>
          rw [directive, if_neg Bool.false_ne_true] at acts
          rw [if_neg Bool.false_ne_true, ← Nat.add_assoc]
          obtain ⟨⟨between, changed⟩, first, acts⟩ := Option.bind_eq_some_iff.mp acts
          obtain ⟨found, holds⟩ := (Image.holds_cons directive rest pc).mp holds
          refine .step (Configuration.next_of_execute found fun steps => ?_)
            (induction holds acts)
          exact Placed.execute_of_act first (pc + 1) output steps

theorem jump (addressable : image.Addressable) (holds : image.Holds (.jump name :: rest) pc)
    (marks : image.Marks name position) :
    Runs image limit ⟨pc, stack, memory, output⟩ ⟨position, stack, memory, output⟩ :=
  .single (Configuration.next_jump addressable holds marks)

theorem branch (addressable : image.Addressable) {instruction : Instruction} {word : Word}
    {taken : Bool} (holds : image.Holds (instruction :: rest) pc)
    (names : instruction.labelOperand? = some name) (marks : image.Marks name position)
    (tests : instruction.test word = some taken) :
    Runs image limit ⟨pc, word :: stack, memory, output⟩
      ⟨if taken then position else pc + 1, stack, memory, output⟩ :=
  .single (Configuration.next_branch addressable holds names marks tests)

theorem callValue (addressable : image.Addressable) (holds : image.Holds (.callV :: rest) pc)
    (inside : position ≤ image.code.size) :
    Runs image limit ⟨pc, .integer (Int32.ofNat position) :: stack, memory, output⟩
      ⟨position, .integer (Int32.ofNat (pc + 1)) :: stack, memory, output⟩ :=
  .single (Configuration.next_callValue addressable holds inside)

theorem returns (addressable : image.Addressable) (holds : image.Holds (.return :: rest) pc)
    (inside : position ≤ image.code.size) :
    Runs image limit ⟨pc, .integer (Int32.ofNat position) :: stack, memory, output⟩
      ⟨position, stack, memory, output⟩ :=
  .single (Configuration.next_return addressable holds inside)

end Runs

end StackBackend
