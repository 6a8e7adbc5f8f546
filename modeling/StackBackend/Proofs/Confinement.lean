import StackBackend.Machine
import StackBackend.Proofs.Words

namespace StackBackend

/-! A step sees no byte outside the memory. From two states that differ only there, the machine
makes the same step, to two states that differ only there. -/

/-! ## States that are alike -/

namespace Memory

/-- The memories are of one size and have the same bytes inside. -/
structure Alike (left right : Memory) : Prop where
  size : left.size = right.size
  bytes : ∀ index, index < left.size → left.byte index = right.byte index

namespace Alike

variable {left right : Memory}

theorem index? (alike : left.Alike right) (address : Int32) (width : Nat) :
    left.index? address width = right.index? address width := by
  rw [Memory.index?, Memory.index?, alike.size]

theorem read (alike : left.Alike right) {start width : Nat} (inside : start + width ≤ left.size) :
    left.read start width = right.read start width :=
  read_congr fun index _ upper => alike.bytes index (by omega)

theorem scanZero (alike : left.Alike right) {index count : Nat} (reversed : List UInt8)
    (inside : index + count ≤ left.size) :
    left.scanZero index reversed count = right.scanZero index reversed count := by
  induction count generalizing index reversed with
  | zero => rfl
  | succ count induction =>
      have same := alike.bytes index (by omega)
      have rest := induction (right.byte index :: reversed)
        (show index + 1 + count ≤ left.size by omega)
      rw [Memory.scanZero, Memory.scanZero, same, rest]

theorem terminated? (alike : left.Alike right) {index : Nat} (inside : index < left.size) :
    left.terminated? index = right.terminated? index := by
  rw [Memory.terminated?, Memory.terminated?, ← alike.size]
  exact alike.scanZero [] (by omega)

theorem set (alike : left.Alike right) (index : Nat) (value : UInt8) :
    (left.set index value).Alike (right.set index value) where
  size := by rw [size_set, size_set, alike.size]
  bytes other inside := by
    rw [size_set] at inside
    rw [byte_set, byte_set, alike.size, alike.bytes other inside]

theorem write (alike : left.Alike right) (start : Nat) (values : List UInt8) :
    (left.write start values).Alike (right.write start values) := by
  induction values generalizing left right start with
  | nil => exact alike
  | cons value rest induction => exact induction (alike.set start value) (start + 1)

end Alike

end Memory

/-- The states differ outside their memories at most. -/
structure State.Alike (left right : State) : Prop where
  pc : left.pc = right.pc
  stack : left.stack = right.stack
  memory : left.memory.Alike right.memory
  output : left.output = right.output
  steps : left.steps = right.steps

namespace Effect

variable {α β : Type}

/-- The same answer, in states that are alike. -/
inductive Agree : EStateM.Result Trap State α → EStateM.Result Trap State α → Prop
  | ok (value : α) {left right : State} (alike : left.Alike right) :
      Agree (.ok value left) (.ok value right)
  | error (trap : Trap) {left right : State} (alike : left.Alike right) :
      Agree (.error trap left) (.error trap right)

/-- The effect does not depend on what is outside the memory. -/
def Confined (effect : Effect α) : Prop :=
  ∀ left right : State, left.Alike right → Agree (effect left) (effect right)

theorem confined_pure (value : α) : Confined (pure value : Effect α) :=
  fun _ _ alike => .ok value alike

theorem confined_throw (trap : Trap) : Confined (throw trap : Effect α) :=
  fun _ _ alike => .error trap alike

theorem Confined.bind {first : Effect α} {rest : α → Effect β} (confined : first.Confined)
    (later : ∀ value, (rest value).Confined) : (first >>= rest).Confined := by
  intro left right alike
  have agree := confined left right alike
  change Agree (EStateM.bind first rest left) (EStateM.bind first rest right)
  unfold EStateM.bind
  generalize first left = leftResult at agree ⊢
  generalize first right = rightResult at agree ⊢
  cases agree with
  | ok value alike => exact later value _ _ alike
  | error trap alike => exact .error trap alike

theorem Confined.get {rest : State → Effect α} (later : ∀ state, (rest state).Confined)
    (same : ∀ left right : State, left.Alike right → rest left = rest right) :
    (get >>= rest).Confined := by
  intro left right alike
  change Agree (rest left left) (rest right right)
  rw [same left right alike]
  exact later right left right alike

theorem confined_push (word : Word) : (push word).Confined := fun _ _ alike =>
  .ok () ⟨alike.pc, congrArg (word :: ·) alike.stack, alike.memory, alike.output, alike.steps⟩

theorem confined_pop : pop.Confined := by
  rintro ⟨pc, stack, left, output, steps⟩ ⟨_, _, right, _, _⟩ ⟨rfl, rfl, alike, rfl, rfl⟩
  cases stack with
  | nil => exact .error _ ⟨rfl, rfl, alike, rfl, rfl⟩
  | cons word rest => exact .ok word ⟨rfl, rfl, alike, rfl, rfl⟩

theorem confined_popInteger : popInteger.Confined :=
  confined_pop.bind fun word => by
    cases word with
    | integer value => exact confined_pure value
    | floating value => exact confined_throw _

theorem confined_popFloating : popFloating.Confined :=
  confined_pop.bind fun word => by
    cases word with
    | integer value => exact confined_throw _
    | floating value => exact confined_pure value

theorem confined_jumpTo (image : Image) (target : Int32) : (jumpTo image target).Confined := by
  intro left right alike
  unfold jumpTo
  split
  · exact .ok () ⟨rfl, alike.stack, alike.memory, alike.output, alike.steps⟩
  · exact .error _ alike

theorem confined_jumpIf (image : Image) (target : Int32) (condition : Bool) :
    (jumpIf image target condition).Confined := by
  cases condition with
  | false => exact confined_pure ()
  | true => exact confined_jumpTo image target

theorem confined_pushNext : pushNext.Confined := fun _ _ alike =>
  .ok () ⟨alike.pc, by rw [alike.pc, alike.stack], alike.memory, alike.output, alike.steps⟩

theorem confined_load (address : Int32) (width : Nat) : (load address width).Confined := by
  intro left right alike
  unfold load
  rw [← alike.memory.index?]
  cases found : left.memory.index? address width with
  | none => exact .error _ alike
  | some index =>
      dsimp only
      rw [alike.memory.read (Memory.index?_eq_some.mp found).2]
      exact .ok _ alike

theorem confined_store (address : Int32) (values : List UInt8) :
    (store address values).Confined := by
  intro left right alike
  unfold store
  rw [← alike.memory.index?]
  cases left.memory.index? address values.length with
  | none => exact .error _ alike
  | some index =>
      have stored := alike.memory.write index values
      exact .ok _ ⟨alike.pc, alike.stack, stored, alike.output, alike.steps⟩

theorem confined_loadText (address : Int32) : (loadText address).Confined := by
  intro left right alike
  unfold loadText
  rw [← alike.memory.index?]
  cases found : left.memory.index? address 1 with
  | none => exact .error _ alike
  | some index =>
      dsimp only
      rw [← alike.memory.terminated? (Memory.index?_eq_some.mp found).2, ← alike.memory.size]
      cases left.memory.terminated? index with
      | none => exact .error _ alike
      | some bytes => exact .ok bytes alike

theorem confined_write (limit : Option Nat) (bytes : List UInt8) :
    (write limit bytes).Confined := by
  intro left right alike
  unfold write
  rw [← alike.output]
  dsimp only
  split <;> split
  · exact .error _ alike
  · exact .ok _ ⟨alike.pc, alike.stack, alike.memory, rfl, alike.steps⟩
  · exact .error _ alike
  · exact .ok _ ⟨alike.pc, alike.stack, alike.memory, rfl, alike.steps⟩

theorem confined_argument (conversion : Conversion) : (argument conversion).Confined := by
  cases conversion with
  | integer | character => exact confined_popInteger.bind fun value => confined_pure _
  | floating => exact confined_popFloating.bind fun value => confined_pure _
  | string =>
      exact confined_popInteger.bind fun address =>
        (confined_loadText address).bind fun text => confined_pure _

theorem confined_arguments (taken : List Argument) (conversions : List Conversion) :
    (arguments taken conversions).Confined := by
  induction conversions generalizing taken with
  | nil => exact confined_pure taken
  | cons conversion rest induction =>
      exact (confined_argument conversion).bind fun value => induction (value :: taken)

theorem confined_printFormatted (limit : Option Nat) : (printFormatted limit).Confined :=
  confined_popInteger.bind fun address => (confined_loadText address).bind fun _ =>
    (confined_arguments [] _).bind fun _ => confined_write limit _

theorem confined_printStack (limit : Option Nat) : (printStack limit).Confined :=
  .get (fun state => confined_write limit _) fun left right alike => by rw [alike.stack]

theorem confined_unary (operation : Int32 → Int32) : (unary operation).Confined :=
  confined_popInteger.bind fun _ => confined_push _

theorem confined_binary (operation : Int32 → Int32 → Int32) : (binary operation).Confined :=
  confined_popInteger.bind fun _ => confined_popInteger.bind fun _ => confined_push _

theorem confined_dividing (operation : Int32 → Int32 → Int32) : (dividing operation).Confined :=
  confined_popInteger.bind fun right => confined_popInteger.bind fun left => by
    split
    · exact (confined_throw _).bind fun _ => confined_push _
    · exact (confined_pure _).bind fun _ => confined_push _

theorem confined_floatingBinary (operation : Binary64 → Binary64 → Binary64) :
    (floatingBinary operation).Confined :=
  confined_popFloating.bind fun _ => confined_popFloating.bind fun _ => confined_push _

/-- An effect after which the machine goes on. -/
theorem Confined.going {effect : Effect α} (confined : effect.Confined) :
    (effect >>= fun _ => (pure true : Effect Bool)).Confined :=
  confined.bind fun _ => confined_pure true

end Effect

open Effect in
theorem Placed.confined_execute (image : Image) (limit : Option Nat) (placed : Placed) :
    (placed.execute image limit).Confined := by
  obtain ⟨instruction, target⟩ := placed
  cases instruction with
  | pushI | pushF | pushD => exact (confined_push _).going
  | pop => exact confined_pop.going
  | duplicate =>
      exact confined_pop.bind fun top => (confined_push top).bind fun _ => (confined_push top).going
  | exchange =>
      exact confined_pop.bind fun top => confined_pop.bind fun below =>
        (confined_push top).bind fun _ => (confined_push below).going
  | add | subtract | multiply | btAnd | btOr | btXor => exact (confined_binary _).going
  | divide | remainder => exact (confined_dividing _).going
  | negate | btNot => exact (confined_unary _).going
  | fAdd | fSubtract | fMultiply | fDivide => exact (confined_floatingBinary _).going
  | fNegate | convertI => exact confined_popFloating.bind fun value => (confined_push _).going
  | convertF | bNegate => exact confined_popInteger.bind fun value => (confined_push _).going
  | and | or =>
      exact confined_popInteger.bind fun right => confined_popInteger.bind fun left =>
        (confined_push _).going
  | jump => exact (confined_jumpTo image target).going
  | jumpTrue | jumpFalse | jumpPos | jumpNeg =>
      exact confined_popInteger.bind fun value => (confined_jumpIf image target _).going
  | jumpFPos | jumpFNeg | jumpFZero =>
      exact confined_popFloating.bind fun value => (confined_jumpIf image target _).going
  | call => exact confined_pushNext.bind fun _ => (confined_jumpTo image target).going
  | callV =>
      exact confined_popInteger.bind fun target => confined_pushNext.bind fun _ =>
        (confined_jumpTo image target).going
  | «return» | popPC =>
      exact confined_popInteger.bind fun target => (confined_jumpTo image target).going
  | pushPC => exact confined_pushNext.going
  | memtop =>
      exact .get (fun state => (confined_push _).going) fun left right alike => by
        rw [alike.memory.size]
  | loadC | loadI | loadF =>
      exact confined_popInteger.bind fun address => (confined_load address _).bind fun bytes =>
        (confined_push _).going
  | storeC | storeI =>
      exact confined_popInteger.bind fun value => confined_popInteger.bind fun address =>
        (confined_store address _).going
  | storeF =>
      exact confined_popFloating.bind fun value => confined_popInteger.bind fun address =>
        (confined_store address _).going
  | printf => exact (confined_printFormatted limit).going
  | pStack => exact (confined_printStack limit).going
  | halt => exact confined_pure false
  | nop | label | dataLabel | dataC | dataI | dataF | dataS | dataZ | dataD =>
      exact confined_pure true

/-! ## Steps -/

/-- The same step, to states that are alike. -/
inductive Step.Agree : Step → Step → Prop
  | running {left right : State} (alike : left.Alike right) : Agree (.running left) (.running right)
  | halted {left right : State} (alike : left.Alike right) : Agree (.halted left) (.halted right)
  | trapped (pc : Nat) (trap : Trap) {left right : State} (alike : left.Alike right) :
      Agree (.trapped pc trap left) (.trapped pc trap right)

/-- A step sees no byte outside the memory. -/
theorem State.agree_step (image : Image) (limit : Option Nat) {left right : State}
    (alike : left.Alike right) : (left.step image limit).Agree (right.step image limit) := by
  obtain ⟨pc, stack, memory, output, steps⟩ := left
  obtain ⟨_, _, other, _, _⟩ := right
  obtain ⟨rfl, rfl, alike, rfl, rfl⟩ := alike
  unfold step
  dsimp only
  cases image.code[pc]? with
  | none => exact .halted ⟨rfl, rfl, alike, rfl, rfl⟩
  | some placed =>
      have agree := placed.confined_execute image limit ⟨pc + 1, stack, memory, output, steps + 1⟩
        ⟨pc + 1, stack, other, output, steps + 1⟩ ⟨rfl, rfl, alike, rfl, rfl⟩
      dsimp only
      generalize placed.execute image limit ⟨pc + 1, stack, memory, output, steps + 1⟩ = result
        at agree ⊢
      generalize placed.execute image limit ⟨pc + 1, stack, other, output, steps + 1⟩ = result'
        at agree ⊢
      cases agree with
      | error trap alike => exact .trapped pc trap alike
      | ok value alike =>
          cases value with
          | true => exact .running alike
          | false => exact .halted alike

end StackBackend
