import StackBackend.Proofs.Safety
import StackBackend.Proofs.Shape

namespace StackBackend

/-! What an instruction that goes through says of the state it was executed in: the stack had
the words that it takes, and all else that it needs was there. -/

/-- The kind of a word. -/
def Word.kind : Word → WordKind
  | .integer _ => .integer
  | .floating _ => .floating

namespace Word

theorem kind_eq_integer {word : Word} : word.kind = .integer ↔ ∃ value, word = .integer value := by
  cases word <;> simp [kind]

end Word

namespace Effect

variable {α β : Type} {state last : State}

theorem bind_eq_ok {first : Effect α} {rest : α → Effect β} {value : β} :
    (first >>= rest) state = .ok value last ↔
      ∃ result between, first state = .ok result between ∧
        rest result between = .ok value last := by
  change EStateM.bind first rest state = _ ↔ _
  unfold EStateM.bind
  cases first state with
  | ok result between => simp [and_assoc]
  | error trap between => simp

theorem pure_eq_ok {result value : α} :
    (pure result : Effect α) state = .ok value last ↔ result = value ∧ state = last := by
  change EStateM.Result.ok result state = .ok value last ↔ _
  rw [EStateM.Result.ok.injEq]

theorem throw_eq_ok {trap : Trap} {value : α} :
    (throw trap : Effect α) state = .ok value last ↔ False := by
  change EStateM.Result.error trap state = .ok value last ↔ _
  simp

theorem pop_eq_ok {word : Word} :
    pop state = .ok word last ↔
      ∃ rest, state.stack = word :: rest ∧ { state with stack := rest } = last := by
  obtain ⟨pc, _ | ⟨top, rest⟩, memory, output, steps⟩ := state <;> simp [pop, and_assoc]

theorem popInteger_eq_ok {value : Int32} :
    popInteger state = .ok value last ↔
      ∃ rest, state.stack = .integer value :: rest ∧ { state with stack := rest } = last := by
  simp only [popInteger, bind_eq_ok, pop_eq_ok]
  constructor
  · rintro ⟨word, between, ⟨rest, same, rfl⟩, taken⟩
    cases word with
    | integer top =>
        obtain ⟨rfl, rfl⟩ := pure_eq_ok.mp taken
        exact ⟨rest, same, rfl⟩
    | floating top => exact (throw_eq_ok.mp taken).elim
  · rintro ⟨rest, same, rfl⟩
    exact ⟨_, _, ⟨rest, same, rfl⟩, rfl⟩

theorem popFloating_eq_ok {value : Binary64} :
    popFloating state = .ok value last ↔
      ∃ rest, state.stack = .floating value :: rest ∧ { state with stack := rest } = last := by
  simp only [popFloating, bind_eq_ok, pop_eq_ok]
  constructor
  · rintro ⟨word, between, ⟨rest, same, rfl⟩, taken⟩
    cases word with
    | integer top => exact (throw_eq_ok.mp taken).elim
    | floating top =>
        obtain ⟨rfl, rfl⟩ := pure_eq_ok.mp taken
        exact ⟨rest, same, rfl⟩
  · rintro ⟨rest, same, rfl⟩
    exact ⟨_, _, ⟨rest, same, rfl⟩, rfl⟩

theorem load_eq_ok {address : Int32} {width : Nat} {bytes : List UInt8} :
    load address width state = .ok bytes last ↔
      state.memory.load? address width = some bytes ∧ state = last := by
  unfold load Memory.load?
  cases state.memory.index? address width <;> simp

theorem store_eq_ok {address : Int32} {bytes : List UInt8} {value : Unit} :
    store address bytes state = .ok value last ↔
      ∃ memory, state.memory.store? address bytes = some memory ∧
        { state with memory } = last := by
  unfold store Memory.store?
  cases state.memory.index? address bytes.length <;> simp

theorem jumpTo_eq_ok {image : Image} {target : Int32} {value : Unit} :
    jumpTo image target state = .ok value last ↔
      (0 ≤ target ∧ target.toNatClampNeg ≤ image.code.size) ∧
        { state with pc := target.toNatClampNeg } = last := by
  unfold jumpTo
  split <;> rename_i inside
  · simp [inside]
  · simp only [reduceCtorEq, inside, false_and]

theorem write_eq_ok {limit : Option Nat} {bytes : List UInt8} {value : Unit}
    (written : write limit bytes state = .ok value last) :
    last.pc = state.pc ∧ last.stack = state.stack ∧ last.memory = state.memory := by
  unfold write at written
  extract_lets refused at written
  clear_value refused
  cases refused <;> cases written
  exact ⟨rfl, rfl, rfl⟩

theorem loadText_eq_ok {address : Int32} {bytes : List UInt8}
    (loaded : loadText address state = .ok bytes last) :
    last = state ∧ ∃ index, state.memory.index? address 1 = some index ∧
      state.memory.terminated? index = some bytes := by
  unfold loadText at loaded
  split at loaded
  · cases loaded
  · rename_i index found
    split at loaded <;> cases loaded
    exact ⟨rfl, index, found, ‹_›⟩

end Effect

/-! ## Instructions of fixed kinds -/

/-- Words of these kinds are taken off the stack, others are left there, and no more than that
is changed. -/
structure State.Exchanges (takes gives : List WordKind) (before after : State) : Prop where
  pc : after.pc = before.pc
  memory : after.memory = before.memory
  stack : ∃ taken given rest, before.stack = taken ++ rest ∧ after.stack = given ++ rest ∧
    taken.map Word.kind = takes ∧ given.map Word.kind = gives

namespace Effect

variable {α β : Type} {takes gives : List WordKind}

/-- Where the effect goes through, it takes and leaves words of these kinds. -/
def Swaps (takes gives : List WordKind) (effect : Effect α) : Prop :=
  ∀ before after value, effect before = .ok value after → before.Exchanges takes gives after

/-- What the first effect takes lies above what the rest takes. -/
theorem Swaps.bind {before : List WordKind} {first : Effect α} {rest : α → Effect β}
    (pops : first.Swaps before []) (later : ∀ value, (rest value).Swaps takes gives) :
    (first >>= rest).Swaps (before ++ takes) gives := by
  intro state last result done
  obtain ⟨value, between, one, done⟩ := bind_eq_ok.mp done
  obtain ⟨pc, memory, found, left, others, stack, behind, rfl, none⟩ := pops _ _ _ one
  obtain rfl := List.map_eq_nil_iff.mp none
  obtain ⟨pc', memory', taken, given, below, remains, after, rfl, rfl⟩ := later value _ _ _ done
  refine ⟨pc'.trans pc, memory'.trans memory, found ++ taken, given, below, ?_, after,
    List.map_append, rfl⟩
  rw [stack, List.append_assoc, ← remains, behind, List.nil_append]

theorem swaps_popInteger : popInteger.Swaps [.integer] [] := by
  intro before after value done
  obtain ⟨rest, stack, rfl⟩ := popInteger_eq_ok.mp done
  exact ⟨rfl, rfl, [.integer value], [], rest, stack, rfl, rfl, rfl⟩

theorem swaps_popFloating : popFloating.Swaps [.floating] [] := by
  intro before after value done
  obtain ⟨rest, stack, rfl⟩ := popFloating_eq_ok.mp done
  exact ⟨rfl, rfl, [.floating value], [], rest, stack, rfl, rfl, rfl⟩

theorem swaps_load (address : Int32) (width : Nat) : (load address width).Swaps [] [] := by
  intro before after bytes done
  obtain ⟨_, rfl⟩ := load_eq_ok.mp done
  exact ⟨rfl, rfl, [], [], _, rfl, rfl, rfl, rfl⟩

theorem swaps_loadText (address : Int32) : (loadText address).Swaps [] [] := by
  intro before after bytes done
  obtain ⟨rfl, _⟩ := loadText_eq_ok done
  exact ⟨rfl, rfl, [], [], _, rfl, rfl, rfl, rfl⟩

/-- An effect after which the machine goes on. -/
theorem Swaps.going {effect : Effect α} (swaps : effect.Swaps takes gives) :
    (effect >>= fun _ => (pure true : Effect Bool)).Swaps takes gives := by
  intro before after result done
  obtain ⟨value, between, first, ended⟩ := bind_eq_ok.mp done
  cases ended
  exact swaps _ _ _ first

theorem swaps_push (word : Word) : (push word).Swaps [] [word.kind] := by
  intro before after value done
  cases done
  exact ⟨rfl, rfl, [], [word], _, rfl, rfl, rfl, rfl⟩

theorem swaps_pushNext : pushNext.Swaps [] [.integer] := by
  intro before after value done
  cases done
  exact ⟨rfl, rfl, [], [_], _, rfl, rfl, rfl, rfl⟩

theorem swaps_write (limit : Option Nat) (bytes : List UInt8) :
    (write limit bytes).Swaps [] [] := by
  intro before after value done
  obtain ⟨pc, stack, memory⟩ := write_eq_ok done
  exact ⟨pc, memory, [], [], _, rfl, stack, rfl, rfl⟩

theorem swaps_unary (operation : Int32 → Int32) :
    (unary operation).Swaps [.integer] [.integer] :=
  swaps_popInteger.bind fun _ => swaps_push _

theorem swaps_binary (operation : Int32 → Int32 → Int32) :
    (binary operation).Swaps [.integer, .integer] [.integer] :=
  swaps_popInteger.bind fun _ => swaps_popInteger.bind fun _ => swaps_push _

theorem swaps_dividing (operation : Int32 → Int32 → Int32) :
    (dividing operation).Swaps [.integer, .integer] [.integer] := by
  refine swaps_popInteger.bind fun right => swaps_popInteger.bind fun left => ?_
  intro before after value done
  split at done
  · obtain ⟨_, _, thrown, _⟩ := bind_eq_ok.mp done
    cases thrown
  · exact swaps_push _ _ _ _ done

theorem swaps_floatingBinary (operation : Binary64 → Binary64 → Binary64) :
    (floatingBinary operation).Swaps [.floating, .floating] [.floating] :=
  swaps_popFloating.bind fun _ => swaps_popFloating.bind fun _ => swaps_push _

theorem swaps_pure (value : α) : (pure value : Effect α).Swaps [] [] := by
  rintro before _ _ ⟨⟩
  exact ⟨rfl, rfl, [], [], _, rfl, rfl, rfl, rfl⟩

theorem swaps_argument (conversion : Conversion) :
    (argument conversion).Swaps [conversion.kind] [] := by
  cases conversion with
  | integer | character => exact swaps_popInteger.bind fun _ => swaps_pure _
  | floating => exact swaps_popFloating.bind fun _ => swaps_pure _
  | string =>
      exact swaps_popInteger.bind fun _ => (swaps_loadText _).bind fun _ => swaps_pure _

/-- Output takes one word for each conversion. -/
theorem swaps_arguments (taken : List Argument) (conversions : List Conversion) :
    (arguments taken conversions).Swaps (conversions.map Conversion.kind) [] := by
  induction conversions generalizing taken with
  | nil => exact swaps_pure taken
  | cons conversion rest induction =>
      exact (swaps_argument conversion).bind fun first => induction (first :: taken)

end Effect

open Effect in
/-- What an instruction does that takes and leaves the same kinds of words everywhere. -/
theorem Placed.swaps_execute {image : Image} {limit : Option Nat} (placed : Placed)
    {takes gives : List WordKind}
    (kinds : placed.instruction.kinds? = some (takes, gives))
    (reads : placed.instruction.writes = false) (stays : placed.instruction ≠ .callV)
    (goesOn : placed.instruction ≠ .halt) :
    (placed.execute image limit).Swaps takes gives := by
  obtain ⟨instruction, target⟩ := placed
  cases instruction <;>
    simp only [Instruction.kinds?, Option.some.injEq, Prod.mk.injEq, reduceCtorEq] at kinds <;>
    obtain ⟨rfl, rfl⟩ := kinds
  case storeC | storeI | storeF => cases reads
  case callV => exact absurd rfl stays
  case halt => exact absurd rfl goesOn
  case pushI | pushF => exact (swaps_push _).going
  case pushPC => exact swaps_pushNext.going
  case memtop => exact fun before _ _ done => (swaps_push _).going before _ _ done
  case nop =>
    rintro before _ _ ⟨⟩
    exact ⟨rfl, rfl, [], [], _, rfl, rfl, rfl, rfl⟩
  case pStack => exact fun before _ _ done => (swaps_write limit _).going before _ _ done
  case add | subtract | multiply | btAnd | btOr | btXor => exact (swaps_binary _).going
  case divide | remainder => exact (swaps_dividing _).going
  case and | or =>
    exact swaps_popInteger.bind fun _ => swaps_popInteger.bind fun _ => (swaps_push _).going
  case fAdd | fSubtract | fMultiply | fDivide => exact (swaps_floatingBinary _).going
  case negate | btNot => exact (swaps_unary _).going
  case bNegate | convertF => exact swaps_popInteger.bind fun _ => (swaps_push _).going
  case fNegate | convertI => exact swaps_popFloating.bind fun _ => (swaps_push _).going
  case loadC | loadI | loadF =>
    exact swaps_popInteger.bind fun _ => (swaps_load _ _).bind fun _ => (swaps_push _).going

/-! ## Where control goes -/

namespace Effect

variable {α β : Type}

/-- Where the effect goes through, control goes on behind the instruction. -/
def Stays (effect : Effect α) : Prop :=
  ∀ before after value, effect before = .ok value after → after.pc = before.pc

theorem Stays.bind {first : Effect α} {rest : α → Effect β} (stays : first.Stays)
    (later : ∀ value, (rest value).Stays) : (first >>= rest).Stays := by
  intro before after value done
  obtain ⟨result, between, one, done⟩ := bind_eq_ok.mp done
  exact (later result _ _ _ done).trans (stays _ _ _ one)

theorem stays_pure (value : α) : (pure value : Effect α).Stays := by
  rintro before _ _ ⟨⟩
  rfl

theorem Stays.going {effect : Effect α} (stays : effect.Stays) :
    (effect >>= fun _ => (pure true : Effect Bool)).Stays :=
  stays.bind fun _ => stays_pure true

theorem Swaps.stays {effect : Effect α} {takes gives : List WordKind}
    (swaps : effect.Swaps takes gives) : effect.Stays :=
  fun _ _ _ done => (swaps _ _ _ done).pc

theorem stays_pop : pop.Stays := by
  intro before after word done
  obtain ⟨rest, stack, rfl⟩ := pop_eq_ok.mp done
  rfl

theorem stays_store (address : Int32) (bytes : List UInt8) : (store address bytes).Stays := by
  intro before after value done
  obtain ⟨memory, stored, rfl⟩ := store_eq_ok.mp done
  rfl

end Effect

open Effect in
/-- Control goes on behind all instructions but jumps, calls and returns. -/
theorem Placed.stays_execute {image : Image} {limit : Option Nat} (placed : Placed)
    (straight : placed.instruction.destination? = none)
    (returns : placed.instruction.jumpsToWord = false) (goesOn : placed.instruction ≠ .halt) :
    (placed.execute image limit).Stays := by
  obtain ⟨instruction, target⟩ := placed
  have popped := swaps_popInteger.stays
  have pushed (word : Word) := (swaps_push word).stays
  cases instruction with
  | jump | jumpTrue | jumpFalse | jumpPos | jumpNeg | jumpFPos | jumpFNeg | jumpFZero | call =>
      cases straight
  | callV | «return» | popPC => cases returns
  | halt => exact absurd rfl goesOn
  | pushD => exact (pushed _).going
  | pop => exact stays_pop.going
  | duplicate => exact stays_pop.bind fun _ => (pushed _).bind fun _ => (pushed _).going
  | exchange =>
      exact stays_pop.bind fun _ => stays_pop.bind fun _ => (pushed _).bind fun _ =>
        (pushed _).going
  | storeC | storeI => exact popped.bind fun _ => popped.bind fun _ => (stays_store _ _).going
  | storeF =>
      exact swaps_popFloating.stays.bind fun _ => popped.bind fun _ => (stays_store _ _).going
  | printf =>
      exact (popped.bind fun _ => (swaps_loadText _).stays.bind fun _ =>
        (swaps_arguments [] _).stays.bind fun _ => (swaps_write limit _).stays).going
  | label | dataLabel | dataC | dataI | dataF | dataS | dataZ | dataD => exact stays_pure true
  | _ => exact Swaps.stays (swaps_execute _ rfl rfl nofun nofun)

open Effect in
/-- A jump goes to its label, or on behind it. -/
theorem Placed.pc_of_destination {image : Image} {limit : Option Nat} {placed : Placed}
    {name : String} {before after : State} {goesOn : Bool}
    (goes : placed.instruction.destination? = some name)
    (executed : placed.execute image limit before = .ok goesOn after) :
    after.pc = placed.target.toNatClampNeg ∨
      after.pc = before.pc ∧ ∀ other, placed.instruction ≠ .jump other := by
  obtain ⟨instruction, target⟩ := placed
  have branched : ∀ {state : State} {taken : Bool} {last : State} {value : Unit},
      jumpIf image target taken state = .ok value last → last.pc = target.toNatClampNeg ∨
        last.pc = state.pc := by
    intro state taken last value jumped
    cases taken with
    | false =>
        cases jumped
        exact .inr rfl
    | true =>
        obtain ⟨_, rfl⟩ := jumpTo_eq_ok.mp jumped
        exact .inl rfl
  cases instruction <;> cases goes
  case jump =>
    obtain ⟨_, _, jumped, executed⟩ := bind_eq_ok.mp executed
    obtain ⟨_, rfl⟩ := jumpTo_eq_ok.mp jumped
    cases executed
    exact .inl rfl
  case call =>
    obtain ⟨_, _, pushed, executed⟩ := bind_eq_ok.mp executed
    obtain ⟨_, _, jumped, executed⟩ := bind_eq_ok.mp executed
    obtain ⟨_, rfl⟩ := jumpTo_eq_ok.mp jumped
    cases executed
    exact .inl rfl
  all_goals
    obtain ⟨_, between, popped, executed⟩ := bind_eq_ok.mp executed
    obtain ⟨_, _, jumped, executed⟩ := bind_eq_ok.mp executed
    cases executed
    have same : between.pc = before.pc := by
      first
      | exact swaps_popInteger.stays _ _ _ popped
      | exact swaps_popFloating.stays _ _ _ popped
    rw [← same]
    exact (branched jumped).imp_right fun stays => ⟨stays, nofun⟩

end StackBackend
