import StackBackend.Proofs.Levels
import StackBackend.Proofs.StructuredPrinting

namespace StackBackend

/-! Runs that are sketched before the image is known. A sketch has numbers and labels in the place
of the words on the operand stack and of some words in memory. On sketches, code is followed by
evaluation, and a machine that is where a sketch says follows the code at one level of calls. -/

/-! ## Signs -/

/-- A word as far as it is known without the image: a number, an address counted from a label, or
a place in the code counted from its beginning. -/
inductive Sign where
  | number (value : Int32)
  | label (name : String) (offset : Int32)
  | place (distance : Nat)
deriving DecidableEq

namespace Sign

/-- The word that the sign stands for. -/
def value (image : Image) (start : Nat) : Sign → Int32
  | .number value => value
  | .label name offset => image.word name + offset
  | .place distance => Int32.ofNat (start + distance)

abbrev word (image : Image) (start : Nat) (sign : Sign) : Word :=
  .integer (sign.value image start)

/-- The sign of the sum. -/
def add : Sign → Sign → Option Sign
  | .number left, .number right => some (.number (left + right))
  | .label name offset, .number right => some (.label name (offset + right))
  | _, _ => none

/-- Words at the two signs do not overlap. -/
def Clear : Sign → Sign → Prop
  | .label name offset, .label other distance => name ≠ other ∨
      Address.index offset + 4 ≤ Address.index distance ∨
      Address.index distance + 4 ≤ Address.index offset
  | .number first, .number second => Address.index first + 4 ≤ Address.index second ∨
      Address.index second + 4 ≤ Address.index first
  | .number _, .label _ _ | .label _ _, .number _ => True
  | _, _ => False

instance : (first second : Sign) → Decidable (first.Clear second)
  | .label .., .label .. => inferInstanceAs (Decidable (_ ∨ _ ∨ _))
  | .number _, .number _ => inferInstanceAs (Decidable (_ ∨ _))
  | .number _, .label .. | .label .., .number _ => inferInstanceAs (Decidable True)
  | .place _, _ | .label .., .place _ | .number _, .place _ => inferInstanceAs (Decidable False)

/-- A word is at the sign: in the data and outside of the texts, or behind the data. -/
inductive Stands (code : Code) (image : Image) (size : Nat) : Sign → Nat → Prop
  | label {name : String} {width : Nat} {offset : Int32} (lays : code.Lays name width)
      (other : name ∉ Environment.texts.map Prod.fst) (nonnegative : 0 ≤ offset.toInt)
      (inside : Address.index offset + 4 ≤ width) :
      Stands code image size (.label name offset) (image.place name + Address.index offset)
  | number {address : Int32} (nonnegative : 0 ≤ address.toInt)
      (above : image.dataSize ≤ Address.index address)
      (inside : Address.index address + 4 ≤ size) :
      Stands code image size (.number address) (Address.index address)

section

variable {code : Code} {image : Image} {globals : Int32} {start size : Nat} {sign other : Sign}
  {index : Nat}

theorem value_label (image : Image) (start : Nat) (name : String) :
    value image start (.label name 0) = image.word name :=
  Int32.add_zero _

theorem value_add {sum : Sign} (added : sign.add other = some sum) :
    sum.value image start = sign.value image start + other.value image start := by
  cases other with
  | number right =>
      cases sign with
      | number left =>
          cases added
          rfl
      | label name offset =>
          cases added
          exact (Int32.add_assoc ..).symm
      | place distance => cases added
  | label | place => cases sign <;> cases added

variable (prepared : Prepared code image globals) (stands : sign.Stands code image size index)
include prepared stands

theorem Stands.names (start : Nat) : Address.Names (sign.value image start) index := by
  cases stands with
  | @label name width offset lays other nonnegative inside =>
      have below := Image.place_add_le prepared.assembled lays
      have fits := prepared.fits
      refine (prepared.names_place lays).add ?_ (by omega)
      unfold Address.index Int32.toNatClampNeg
      omega
  | number nonnegative above inside => exact Address.names_index nonnegative

theorem Stands.index_eq (start : Nat) : Address.index (sign.value image start) = index := by
  have names := stands.names prepared start
  unfold Address.Names at names
  unfold Address.index Int32.toNatClampNeg
  omega

theorem Stands.inside (room : image.dataSize ≤ size) : index + 4 ≤ size := by
  cases stands with
  | label lays other nonnegative inside =>
      have below := Image.place_add_le prepared.assembled lays
      omega
  | number nonnegative above inside => exact inside

theorem Stands.apart {second : Nat} (others : other.Stands code image size second)
    (clear : sign.Clear other) : index + 4 ≤ second ∨ second + 4 ≤ index := by
  cases stands with
  | @label name _ _ lays _ _ inside =>
      have below := Image.place_add_le prepared.assembled lays
      cases others with
      | @label other _ _ otherLays _ _ otherInside =>
          by_cases same : name = other
          · subst same
            have clear := clear.resolve_left fun different => different rfl
            omega
          · have apart := Image.places_apart prepared.assembled lays otherLays same
            omega
      | number _ above _ => omega
  | number _ above _ =>
      cases others with
      | label lays _ _ inside =>
          have below := Image.place_add_le prepared.assembled lays
          omega
      | number _ _ _ => exact clear

/-- Writing the word keeps the texts. -/
theorem Stands.texts {memory : Memory} (texts : Texts image memory) (value : Int32) :
    Texts image (memory.setWord index value) := by
  cases stands with
  | label lays other _ inside =>
      exact texts.write prepared lays other (Nat.le_add_right ..)
        (by rw [Memory.length_ofInt32]; omega)
  | number _ above _ => exact texts.write_above prepared above _

end

end Sign

/-! ## Sketches -/

/-- The code that has been passed, the last instruction first, and the rest of it, the operand
stack, and words in memory by their addresses. -/
structure Sketch where
  passed : Code
  rest : Code
  stack : List Sign
  words : List (Sign × Sign)

/-- What an instruction that neither jumps nor writes leaves on the stack. Only what the code of
loops and calls is made of is sketched. -/
def Instruction.sketched (words : List (Sign × Sign)) :
    Instruction → List Sign → Option (List Sign)
  | .pushI value, stack => some (.number value :: stack)
  | .pushD name, stack => some (.label name 0 :: stack)
  | .duplicate, top :: stack => some (top :: top :: stack)
  | .exchange, top :: below :: stack => some (below :: top :: stack)
  | .add, right :: left :: stack => (left.add right).map (· :: stack)
  | .subtract, .number right :: .number left :: stack => some (.number (left - right) :: stack)
  | .loadI, address :: stack => (words.lookup address).map (· :: stack)
  | _, _ => none

/-- The cell whose word a store behind the code is for by name. The last instruction is first. -/
def Code.namedCell? : Code → Option String
  | .exchange :: .pushD cell :: _ => some cell
  | .add :: .pushI number :: .loadI :: .duplicate :: .pushD cell :: _ =>
      if number = 1 then some cell else none
  | _ => none

namespace Sketch

/-- The words with a new one at the address. -/
def put (address value : Sign) (words : List (Sign × Sign)) : List (Sign × Sign) :=
  words.map fun entry => if entry.1 = address then (address, value) else entry

/-- The store goes to a known word and to no other, and to a shared word by its name only. -/
def Admits (passed : Code) (address : Sign) (words : List (Sign × Sign)) : Prop :=
  address ∈ words.map Prod.fst ∧ (∀ entry ∈ words, entry.1 = address ∨ address.Clear entry.1) ∧
    ∀ cell ∈ Cell.shared, passed.namedCell? = some cell ∨ address.Clear (.label cell 0)

instance (passed : Code) (address : Sign) (words : List (Sign × Sign)) :
    Decidable (Admits passed address words) :=
  inferInstanceAs (Decidable (_ ∧ _))

/-- The code before the label, the last instruction first, and the code from it on. -/
def seek (name : String) (passed : Code) : Code → Option (Code × Code)
  | .label other :: rest =>
      if other = name then some (passed, .label other :: rest)
      else seek name (.label other :: passed) rest
  | instruction :: rest => seek name (instruction :: passed) rest
  | [] => none

variable (piece : Code)

def jump (sketch : Sketch) (name : String) : Option Sketch :=
  (seek name [] piece).map fun (passed, rest) => { sketch with passed, rest }

/-- One step, or no step at a label. Calls and returns are not followed. -/
def step (sketch : Sketch) : Option Sketch :=
  match sketch.rest with
  | .label name :: rest => some { sketch with passed := .label name :: sketch.passed, rest }
  | .jump name :: _ => sketch.jump piece name
  | .jumpFalse name :: rest =>
      match sketch.stack with
      | .number value :: stack =>
          if value = 0 then { sketch with stack }.jump piece name
          else some { sketch with passed := .jumpFalse name :: sketch.passed, rest, stack }
      | _ => none
  | .storeI :: rest =>
      match sketch.stack with
      | value :: address :: stack =>
          if Admits sketch.passed address sketch.words then
            some ⟨.storeI :: sketch.passed, rest, stack, put address value sketch.words⟩
          else none
      | _ => none
  | instruction :: rest =>
      (instruction.sketched sketch.words sketch.stack).map fun stack =>
        { sketch with passed := instruction :: sketch.passed, rest, stack }
  | [] => none

/-- The distance from the beginning of the code. -/
def distance (sketch : Sketch) : Nat :=
  Code.size sketch.passed

/-- Follows the code between two distances until the given instruction is next. -/
def run (next : Option Instruction) (low high : Nat) : Nat → Sketch → Option Sketch
  | 0, _ => none
  | fuel + 1, sketch =>
      if sketch.rest.head? = next then some sketch
      else if low ≤ sketch.distance ∧ sketch.distance < high then
        (sketch.step piece).bind (run next low high fuel)
      else none

/-- The function with the number is entered by its address. -/
def enter (serial : Nat) (sketch : Sketch) : Option Sketch :=
  match sketch.rest, sketch.stack with
  | .callV :: _, .label name offset :: stack =>
      if name = LabelGroup.label ⟨"lambda", serial⟩ "start" ∧ offset = 0 then
        { sketch with stack := .place (sketch.distance + 1) :: stack }.jump piece name
      else none
  | _, _ => none

/-- What was called goes back to behind its call. -/
def resume (caller leaving : Sketch) : Option Sketch :=
  match caller.rest, leaving.rest, leaving.stack with
  | .callV :: rest, .return :: _, .place distance :: stack =>
      if distance = caller.distance + 1 then
        some ⟨.callV :: caller.passed, rest, stack, leaving.words⟩
      else none
  | _, _, _ => none

/-- Code with one call is followed through what it calls up to the label, and to the end. -/
def throughCall (name : String) (serial fuel : Nat) (sketch : Sketch) : Option Sketch := do
  let (front, _) ← seek name [] piece
  let caller ← sketch.run piece (some .callV) 0 front.size fuel
  let entered ← caller.enter piece serial
  let leaving ← entered.run piece (some .return) 0 piece.size fuel
  let back ← caller.resume leaving
  let middle ← back.run piece (some (.label name)) 0 front.size fuel
  middle.run piece none front.size piece.size fuel

end Sketch

/-! ## What a machine does where a sketch says it is -/

/-- What names a cell before a store is the beginning of the code that stores to it. -/
theorem Code.exists_of_namedCell? {passed : Code} {cell : String}
    (named : passed.namedCell? = some cell) :
    ∃ front : Code, ∃ code ∈ [Code.storeWord cell, Code.increment cell],
      passed.reverse ++ [.storeI] = front ++ code := by
  unfold namedCell? at named
  split at named
  · next tail =>
      cases named
      exact ⟨tail.reverse, storeWord cell, by simp, by simp [storeWord]⟩
  · next number other tail =>
      split at named <;> cases named
      subst number
      exact ⟨tail.reverse, increment cell, by simp, by simp [increment]⟩
  · cases named

namespace Sketch

theorem shared_scratch : ∀ cell ∈ Cell.shared, (cell, (4 : Int32)) ∈ Cell.scratch := by
  decide +kernel

theorem shared_apart : ∀ cell ∈ Cell.shared, cell ∉ Environment.texts.map Prod.fst := by
  decide +kernel

/-- The machine is at the place, with the words of the sketch on the operand stack and in
memory. -/
structure Depicts (code : Code) (image : Image) (piece : Code) (start : Nat) (sketch : Sketch)
    (configuration : Configuration) : Prop where
  parts : piece = sketch.passed.reverse ++ sketch.rest
  pc : configuration.pc = start + sketch.distance
  stack : configuration.stack = sketch.stack.map (Sign.word image start)
  words : ∀ entry ∈ sketch.words, ∃ index,
    entry.1.Stands code image configuration.memory.size index ∧
      configuration.memory.word index = entry.2.value image start
  texts : Texts image configuration.memory
  room : image.dataSize ≤ configuration.memory.size

/-- Memory can be made to hold words that do not overlap. -/
theorem exists_memory {code : Code} {image : Image} {globals : Int32}
    (prepared : Prepared code image globals) (start : Nat) {memory : Memory}
    (texts : Texts image memory) (room : image.dataSize ≤ memory.size)
    {words : List (Sign × Sign)}
    (stands : ∀ entry ∈ words, ∃ index, entry.1.Stands code image memory.size index)
    (clear : words.Pairwise fun first second => first.1.Clear second.1) :
    ∃ after : Memory, after.size = memory.size ∧ Texts image after ∧
      ∀ entry ∈ words, ∃ index, entry.1.Stands code image memory.size index ∧
        after.word index = entry.2.value image start := by
  induction words with
  | nil => exact ⟨memory, rfl, texts, fun _ none => absurd none List.not_mem_nil⟩
  | cons entry words induction =>
      obtain ⟨⟨index, stand⟩, stands⟩ := List.forall_mem_cons.mp stands
      obtain ⟨apart, clear⟩ := List.pairwise_cons.mp clear
      obtain ⟨after, size, texts, known⟩ := induction stands clear
      refine ⟨after.setWord index (entry.2.value image start), by rw [Memory.size_setWord, size],
        stand.texts prepared texts _, List.forall_mem_cons.mpr ⟨⟨index, stand, ?_⟩, ?_⟩⟩
      · exact Memory.word_setWord (size ▸ stand.inside prepared room) _
      · intro other member
        obtain ⟨place, stands, word⟩ := known other member
        refine ⟨place, stands, ?_⟩
        rw [Memory.word_setWord_of_apart (stand.apart prepared stands (apart other member)).symm,
          word]

section

variable {code piece : Code} {image : Image} {globals : Int32} {start lower upper : Nat}
  {limit : Option Nat} {sketch next : Sketch} {configuration : Configuration}

theorem seek_parts {name : String} {passed code front rest : Code}
    (found : seek name passed code = some (front, rest)) :
    front.reverse ++ rest = passed.reverse ++ code ∧ ∃ others, rest = .label name :: others := by
  fun_induction seek name passed code with
  | case1 passed rest =>
      cases found
      exact ⟨rfl, _, rfl⟩
  | case2 passed other rest different induction =>
      obtain ⟨parts, others⟩ := induction found
      exact ⟨by simpa using parts, others⟩
  | case3 passed instruction rest _ induction =>
      obtain ⟨parts, others⟩ := induction found
      exact ⟨by simpa using parts, others⟩
  | case4 => cases found

theorem Depicts.holds (depicts : sketch.Depicts code image piece start configuration)
    (holds : image.Holds piece start) : image.Holds sketch.rest configuration.pc := by
  rw [depicts.parts, Image.holds_append, Code.size_reverse] at holds
  rw [depicts.pc]
  exact holds.2

theorem Depicts.marks (depicts : sketch.Depicts code image piece start configuration)
    (holds : image.Holds piece start) {name : String}
    (ahead : sketch.rest.head? = some (.label name)) : image.Marks name configuration.pc := by
  obtain ⟨others, rest⟩ := List.head?_eq_some_iff.mp ahead
  have found := depicts.holds holds
  rw [rest] at found
  exact ((Image.holds_label ..).mp found).1

/-- The label marks the place where it is found. -/
theorem marks_of_seek (holds : image.Holds piece start) {name : String} {front rest : Code}
    (found : seek name [] piece = some (front, rest)) :
    image.Marks name (start + Code.size front) := by
  obtain ⟨parts, others, rfl⟩ := seek_parts found
  rw [← show front.reverse ++ _ = piece from parts, Image.holds_append, Code.size_reverse] at holds
  exact ((Image.holds_label ..).mp holds.2).1

/-- A jump comes to the place that the label marks. -/
theorem Depicts.jump (depicts : sketch.Depicts code image piece start configuration)
    (holds : image.Holds piece start) {name : String} (jumps : sketch.jump piece name = some next) :
    ∃ place, image.Marks name place ∧
      next.Depicts code image piece start { configuration with pc := place } := by
  obtain ⟨⟨front, rest⟩, found, rfl⟩ := Option.map_eq_some_iff.mp jumps
  obtain ⟨parts, _⟩ := seek_parts found
  exact ⟨_, marks_of_seek holds found, parts.symm, rfl, depicts.stack, depicts.words,
    depicts.texts, depicts.room⟩

/-- The memory is used as it is laid out where a store goes to a shared word by its name only. -/
theorem Depicts.orderly (depicts : sketch.Depicts code image piece start configuration)
    (prepared : Prepared code image globals) {instruction : Instruction}
    (executes : configuration.Executes image instruction)
    (stores : ∀ address bytes, instruction.stored? configuration.stack = some (address, bytes) →
      ∀ cell ∈ Cell.shared, image.Meets address bytes cell → image.StoresTo cell configuration.pc)
    (calls : instruction = .callV → ∀ target rest, configuration.stack = .integer target :: rest →
      ∃ serial place, image.Marks (LabelGroup.label ⟨"lambda", serial⟩ "start") place ∧
        target = Int32.ofNat place) : configuration.Orderly image where
  stores other address bytes executed := by
    obtain rfl := (Placed.mk.inj (Option.some.inj (executed.symm.trans executes))).1
    exact stores address bytes
  formats entry member := by
    have text : entry ∈ Environment.texts := by
      rcases List.mem_cons.mp member with rfl | member
      · simp [Environment.texts]
      · exact List.mem_append_left _ (List.mem_filter.mp member).1
    have lays := prepared.lays_text text
    have below := Image.place_add_le prepared.assembled lays
    have fits := prepared.fits
    rw [Image.index_word prepared.assembled lays (by omega)]
    exact depicts.texts _ _ text
  calls executed :=
    calls (Placed.mk.inj (Option.some.inj (executes.symm.trans executed))).1

/-- An instruction that neither writes nor calls does nothing to the layout. -/
theorem Depicts.orderly_of_silent (depicts : sketch.Depicts code image piece start configuration)
    (prepared : Prepared code image globals) {instruction : Instruction}
    (executes : configuration.Executes image instruction) (calls : instruction.calls = false)
    (silent : ∀ stack, instruction.stored? stack = none) : configuration.Orderly image := by
  refine depicts.orderly prepared executes (fun address bytes stored => ?_) ?_
  · rw [silent] at stored
    cases stored
  · rintro rfl
    cases calls

/-- Behind the instruction that is next. -/
theorem Depicts.passes (depicts : sketch.Depicts code image piece start configuration)
    {instruction : Instruction} {rest : Code} (ahead : sketch.rest = instruction :: rest)
    (executed : instruction.isDirective = false) :
    piece = (instruction :: sketch.passed).reverse ++ rest ∧
      configuration.pc + 1 = start + Code.size (instruction :: sketch.passed) := by
  have parts := depicts.parts
  rw [ahead] at parts
  refine ⟨by simpa using parts, ?_⟩
  rw [Code.size_executed executed]
  exact congrArg (· + 1) depicts.pc

/-- An instruction that only reads acts as it is sketched. -/
theorem act_of_sketched (prepared : Prepared code image globals) {memory : Memory}
    (room : image.dataSize ≤ memory.size) {words : List (Sign × Sign)}
    (known : ∀ entry ∈ words, ∃ index, entry.1.Stands code image memory.size index ∧
      memory.word index = entry.2.value image start)
    {instruction : Instruction} {stack left : List Sign}
    (sketched : instruction.sketched words stack = some left) :
    instruction.act image.word (stack.map (Sign.word image start)) memory =
        some (left.map (Sign.word image start), memory) ∧
      instruction.isDirective = false ∧ instruction.calls = false ∧
      instruction.returns = false ∧ ∀ stack, instruction.stored? stack = none := by
  cases instruction with
  | pushI value =>
      cases sketched
      exact ⟨rfl, rfl, rfl, rfl, fun _ => rfl⟩
  | pushD name =>
      cases sketched
      refine ⟨?_, rfl, rfl, rfl, fun _ => rfl⟩
      rw [List.map_cons, Sign.word, Sign.value_label]
      rfl
  | duplicate =>
      rcases stack with _ | ⟨top, stack⟩ <;> cases sketched
      exact ⟨rfl, rfl, rfl, rfl, fun _ => rfl⟩
  | exchange =>
      rcases stack with _ | ⟨top, _ | ⟨below, stack⟩⟩ <;> cases sketched
      exact ⟨rfl, rfl, rfl, rfl, fun _ => rfl⟩
  | add =>
      rcases stack with _ | ⟨right, _ | ⟨left, stack⟩⟩
      · cases sketched
      · cases sketched
      · obtain ⟨sum, added, rfl⟩ := Option.map_eq_some_iff.mp sketched
        refine ⟨?_, rfl, rfl, rfl, fun _ => rfl⟩
        simp only [List.map_cons, Sign.word, Sign.value_add added]
        rfl
  | subtract =>
      rcases stack with _ | ⟨right | _ | _, _ | ⟨left | _ | _, stack⟩⟩ <;> cases sketched
      exact ⟨rfl, rfl, rfl, rfl, fun _ => rfl⟩
  | loadI =>
      cases stack with
      | nil => cases sketched
      | cons address stack =>
          obtain ⟨sign, found, rfl⟩ := Option.map_eq_some_iff.mp sketched
          obtain ⟨before, after, same, _⟩ := List.lookup_eq_some_iff.mp found
          obtain ⟨index, stands, word⟩ := known (address, sign) (same ▸ by simp)
          refine ⟨?_, rfl, rfl, rfl, fun _ => rfl⟩
          change Option.map _ (memory.load? (address.value image start) 4) = _
          rw [Memory.load?_eq (stands.names prepared start) (stands.inside prepared room),
            List.map_cons, Sign.word, ← word]
          rfl
  | _ => cases sketched

/-- What is followed is at the end already, or it is not behind the given code. -/
theorem eq_or_lt_of_run {ahead : Option Instruction} {low high fuel : Nat} {last : Sketch}
    (runs : sketch.run piece ahead low high fuel = some last) :
    sketch = last ∨ sketch.distance < high := by
  cases fuel with
  | zero => cases runs
  | succ fuel =>
      rw [Sketch.run] at runs
      split at runs
      · exact .inl (Option.some.inj runs)
      · split at runs
        · next inside => exact .inr inside.2
        · cases runs

variable (depicts : sketch.Depicts code image piece start configuration)
  (prepared : Prepared code image globals) (holds : image.Holds piece start)
include depicts prepared holds

theorem Depicts.acts (inside : lower ≤ configuration.pc ∧ configuration.pc < upper)
    {instruction : Instruction} {rest : Code} {stack : List Sign}
    (ahead : sketch.rest = instruction :: rest)
    (sketched : instruction.sketched sketch.words sketch.stack = some stack) :
    ∃ after, Depicts code image piece start
        { sketch with passed := instruction :: sketch.passed, rest, stack } after ∧
      Level image limit lower upper configuration after := by
  obtain ⟨acts, executed, calls, returns, silent⟩ :=
    act_of_sketched prepared depicts.room depicts.words sketched
  have found := depicts.holds holds
  rw [ahead, Image.holds_cons executed] at found
  have orderly := depicts.orderly_of_silent prepared found.1 calls silent
  obtain ⟨parts, behind⟩ := depicts.passes ahead executed
  obtain ⟨pc, operands, memory, output⟩ := configuration
  obtain rfl : operands = _ := depicts.stack
  exact ⟨⟨pc + 1, stack.map (Sign.word image start), memory, output⟩,
    ⟨parts, behind, rfl, depicts.words, depicts.texts, depicts.room⟩,
    .step (.refl ..) inside found.1 calls returns orderly
      (Configuration.next_of_execute found.1 fun steps => Placed.execute_of_act acts ..)⟩

/-- Only a store that names a shared word meets it. -/
theorem Depicts.storesTo_of_meets {rest : Code} {address : Sign} {index : Nat}
    (ahead : sketch.rest = .storeI :: rest)
    (stands : address.Stands code image configuration.memory.size index)
    (admits : Admits sketch.passed address sketch.words) {bytes : List UInt8}
    (width : bytes.length = 4) :
    ∀ cell ∈ Cell.shared, image.Meets (address.value image start) bytes cell →
      image.StoresTo cell configuration.pc := by
  intro cell shared meets
  rcases admits.2.2 cell shared with named | clear
  · obtain ⟨front, store, member, parts⟩ := Code.exists_of_namedCell? named
    have whole := depicts.parts
    rw [ahead, ← List.singleton_append, ← List.append_assoc, parts, List.append_assoc] at whole
    rw [whole, Image.holds_append, Image.holds_append] at holds
    refine ⟨store, member, _, holds.2.1, ?_⟩
    have sizes := congrArg Code.size parts
    rw [Code.size_append, Code.size_append, Code.size_reverse] at sizes
    rw [depicts.pc, distance, Nat.add_assoc, ← sizes]
    rfl
  · have lays : code.Lays cell 4 := prepared.lays_scratch (shared_scratch cell shared)
    have below := Image.place_add_le prepared.assembled lays
    have fits := prepared.fits
    have there : Sign.Stands code image configuration.memory.size (.label cell 0) _ :=
      .label lays (shared_apart cell shared) (by decide) (by decide)
    have apart := stands.apart prepared there clear
    have zero : Address.index 0 = 0 := by decide
    unfold Image.Meets at meets
    rw [Image.index_word prepared.assembled lays (by omega), stands.index_eq prepared,
      width] at meets
    omega

/-- A store changes the word that is known at its address. -/
theorem Depicts.stores (inside : lower ≤ configuration.pc ∧ configuration.pc < upper)
    {rest : Code} {value address : Sign} {stack : List Sign} (ahead : sketch.rest = .storeI :: rest)
    (operands : sketch.stack = value :: address :: stack)
    (admits : Admits sketch.passed address sketch.words) :
    ∃ after, Depicts code image piece start
        ⟨.storeI :: sketch.passed, rest, stack, put address value sketch.words⟩ after ∧
      Level image limit lower upper configuration after := by
  obtain ⟨entry, member, same⟩ := List.mem_map.mp admits.1
  obtain ⟨index, stands, _⟩ := depicts.words entry member
  rw [same] at stands
  have names := depicts.storesTo_of_meets prepared holds ahead stands admits
    (Memory.length_ofInt32 (value.value image start))
  obtain ⟨parts, behind⟩ := depicts.passes ahead rfl
  have found := depicts.holds holds
  rw [ahead, Image.holds_cons rfl] at found
  have room := depicts.room
  have within := stands.inside prepared room
  obtain ⟨pc, words, memory, output⟩ := configuration
  obtain rfl : words = .integer (value.value image start) ::
      .integer (address.value image start) :: stack.map (Sign.word image start) := by
    have words := depicts.stack
    rwa [operands] at words
  have stored : memory.store? (address.value image start)
      (WordBytes.ofInt32 (value.value image start)) =
        some (memory.setWord index (value.value image start)) :=
    Memory.store?_eq (stands.names prepared start) (by rwa [Memory.length_ofInt32])
  have acts : Instruction.storeI.act image.word (.integer (value.value image start) ::
      .integer (address.value image start) :: stack.map (Sign.word image start)) memory =
        some (stack.map (Sign.word image start),
          memory.setWord index (value.value image start)) := by
    change Option.map _ (memory.store? _ _) = _
    rw [stored]
    rfl
  refine ⟨⟨pc + 1, stack.map (Sign.word image start),
      memory.setWord index (value.value image start), output⟩,
    ⟨parts, behind, rfl, ?_, stands.texts prepared depicts.texts _,
      by rwa [Memory.size_setWord]⟩,
    .step (.refl ..) inside found.1 rfl rfl (depicts.orderly prepared found.1 ?_ ?_)
      (Configuration.next_of_execute found.1 fun steps => Placed.execute_of_act acts ..)⟩
  · intro changed member
    obtain ⟨old, known, rfl⟩ := List.mem_map.mp member
    rw [Memory.size_setWord]
    split
    · exact ⟨index, stands, Memory.word_setWord within _⟩
    · next other =>
        obtain ⟨place, there, word⟩ := depicts.words old known
        have clear := (admits.2.1 old known).resolve_left other
        refine ⟨place, there, ?_⟩
        rw [Memory.word_setWord_of_apart (stands.apart prepared there clear).symm, word]
  · intro place bytes stores
    obtain ⟨rfl, rfl⟩ := Prod.mk.inj (Option.some.inj stores)
    exact names
  · rintro ⟨⟩

theorem Depicts.jumps (inside : lower ≤ configuration.pc ∧ configuration.pc < upper)
    {name : String} {rest : Code}
    (ahead : sketch.rest = .jump name :: rest) (jumped : sketch.jump piece name = some next) :
    ∃ after, next.Depicts code image piece start after ∧
      Level image limit lower upper configuration after := by
  obtain ⟨place, marks, there⟩ := depicts.jump holds jumped
  have found := depicts.holds holds
  rw [ahead] at found
  have executes := ((Image.holds_cons rfl rest _).mp found).1
  exact ⟨_, there, .step (.refl ..) inside executes rfl rfl
    (depicts.orderly_of_silent prepared executes rfl fun _ => rfl)
    (Configuration.next_jump prepared.addressable found marks)⟩

/-- A conditional jump pops its word, and is taken for zero. -/
theorem Depicts.branches (inside : lower ≤ configuration.pc ∧ configuration.pc < upper)
    {name : String} {rest : Code}
    {value : Int32} {stack : List Sign} (ahead : sketch.rest = .jumpFalse name :: rest)
    (operands : sketch.stack = .number value :: stack)
    (branched : (if value = 0 then { sketch with stack }.jump piece name
      else some { sketch with passed := .jumpFalse name :: sketch.passed, rest, stack }) =
        some next) :
    ∃ after, next.Depicts code image piece start after ∧
      Level image limit lower upper configuration after := by
  have found := depicts.holds holds
  rw [ahead] at found
  have executes := ((Image.holds_cons rfl rest _).mp found).1
  have orderly := depicts.orderly_of_silent prepared executes rfl fun _ => rfl
  obtain ⟨parts, behind⟩ := depicts.passes ahead rfl
  have here := depicts.parts
  obtain ⟨pc, words, memory, output⟩ := configuration
  obtain rfl : words = .integer value :: stack.map (Sign.word image start) := by
    have words := depicts.stack
    rwa [operands] at words
  have popped : Depicts code image piece start { sketch with stack }
      ⟨pc, stack.map (Sign.word image start), memory, output⟩ :=
    ⟨here, depicts.pc, rfl, depicts.words, depicts.texts, depicts.room⟩
  split at branched
  · next zero =>
      subst zero
      obtain ⟨place, marks, there⟩ := popped.jump holds branched
      have taken : (Instruction.jumpFalse name).test (.integer 0) = some true := rfl
      exact ⟨_, there, .step (.refl ..) inside executes rfl rfl orderly
        (Configuration.next_branch prepared.addressable found rfl marks taken)⟩
  · next nonzero =>
      cases branched
      exact ⟨⟨pc + 1, stack.map (Sign.word image start), memory, output⟩,
        ⟨parts, behind, rfl, depicts.words, depicts.texts, depicts.room⟩,
        .step (.refl ..) inside executes rfl rfl orderly (Configuration.next_pass nonzero found)⟩

/-- The machine takes the steps of the sketch at one level. -/
theorem Depicts.step (inside : lower ≤ configuration.pc ∧ configuration.pc < upper)
    (steps : sketch.step piece = some next) :
    ∃ after, next.Depicts code image piece start after ∧
      Level image limit lower upper configuration after := by
  unfold Sketch.step at steps
  split at steps
  · next name rest ahead =>
      cases steps
      have parts := depicts.parts
      rw [ahead] at parts
      exact ⟨configuration, ⟨by simpa using parts, depicts.pc, depicts.stack, depicts.words,
        depicts.texts, depicts.room⟩, .refl ..⟩
  · next ahead => exact depicts.jumps prepared holds inside ahead steps
  · next ahead =>
      split at steps
      · next operands => exact depicts.branches prepared holds inside ahead operands steps
      · cases steps
  · next ahead =>
      split at steps
      · next operands =>
          split at steps
          · next admits =>
              cases steps
              exact depicts.stores prepared holds inside ahead operands admits
          · cases steps
      · cases steps
  · next ahead =>
      obtain ⟨stack, sketched, rfl⟩ := Option.map_eq_some_iff.mp steps
      exact depicts.acts prepared holds inside ahead sketched
  · cases steps

/-- The machine follows the code as far as the sketch does. -/
theorem Depicts.run {ahead : Option Instruction} {low high fuel : Nat} {last : Sketch}
    (runs : sketch.run piece ahead low high fuel = some last) (above : lower ≤ start + low)
    (below : start + high ≤ upper) :
    last.rest.head? = ahead ∧ ∃ after, last.Depicts code image piece start after ∧
      Level image limit lower upper configuration after := by
  induction fuel generalizing sketch configuration with
  | zero => cases runs
  | succ fuel induction =>
      rw [Sketch.run] at runs
      split at runs
      · next same =>
          cases runs
          exact ⟨same, configuration, depicts, .refl ..⟩
      · split at runs
        · next inside =>
            obtain ⟨next, steps, runs⟩ := Option.bind_eq_some_iff.mp runs
            have place := depicts.pc
            have inside : lower ≤ configuration.pc ∧ configuration.pc < upper := by omega
            obtain ⟨between, there, first⟩ := depicts.step prepared holds inside steps
            obtain ⟨same, after, arrived, others⟩ := induction there runs
            exact ⟨same, after, arrived, first.trans others⟩
        · cases runs

/-- A function is entered by its address. -/
theorem Depicts.enters {serial : Nat} (enters : sketch.enter piece serial = some next) :
    ∃ entered, next.Depicts code image piece start entered ∧
      configuration.Executes image .callV ∧ configuration.Orderly image ∧
      configuration.Next image limit entered := by
  unfold Sketch.enter at enters
  split at enters
  · next rest name offset stack ahead operands =>
      split at enters
      · next entry =>
          obtain ⟨rfl, rfl⟩ := entry
          have found := depicts.holds holds
          rw [ahead] at found
          have executes := ((Image.holds_cons rfl rest _).mp found).1
          have orderly := depicts.orderly prepared executes fun _ _ stored => by cases stored
          have pc := depicts.pc
          have words := depicts.stack
          rw [operands, List.map_cons, Sign.word, Sign.value_label] at words
          have pushed : Depicts code image piece start
              { sketch with stack := .place (sketch.distance + 1) :: stack }
              ⟨configuration.pc, .integer (Int32.ofNat (configuration.pc + 1)) ::
                stack.map (Sign.word image start), configuration.memory, configuration.output⟩ :=
            ⟨depicts.parts, pc, by rw [pc]; rfl, depicts.words, depicts.texts, depicts.room⟩
          obtain ⟨place, marks, there⟩ := pushed.jump holds enters
          rw [marks.word] at words
          refine ⟨_, there, executes, orderly fun _ target others same => ?_, ?_⟩
          · obtain ⟨same, _⟩ := List.cons.inj (words.symm.trans same)
            exact ⟨serial, place, marks, (Word.integer.inj same).symm⟩
          · obtain ⟨here, operands, memory, output⟩ := configuration
            obtain rfl : operands = _ := words
            exact Configuration.next_callValue prepared.addressable found marks.2
      · cases enters
  · cases enters

/-- What was called goes back to behind its call. -/
theorem Depicts.resumes {caller : Sketch}
    (parts : piece = caller.passed.reverse ++ caller.rest)
    (resumes : caller.resume sketch = some next) :
    ∃ back, next.Depicts code image piece start back ∧ back.pc = start + caller.distance + 1 ∧
      configuration.Executes image .return ∧ configuration.Next image limit back := by
  unfold Sketch.resume at resumes
  split at resumes
  · next rest others distance stack ahead ends operands =>
      split at resumes
      · next same =>
          subst same
          cases resumes
          have found := depicts.holds holds
          rw [ends] at found
          rw [ahead] at parts
          have words := depicts.stack
          rw [operands] at words
          have inside : start + (caller.distance + 1) ≤ image.code.size := by
            have called := holds
            rw [parts, Image.holds_append, Code.size_reverse, Image.holds_cons rfl] at called
            exact (Array.getElem?_eq_some_iff.mp called.2.1).1
          obtain ⟨pc, operands, memory, output⟩ := configuration
          obtain rfl : operands = _ := words
          refine ⟨⟨start + (caller.distance + 1), stack.map (Sign.word image start), memory,
            output⟩, ⟨by simpa using parts, ?_, rfl, depicts.words, depicts.texts, depicts.room⟩,
            rfl, ((Image.holds_cons rfl _ _).mp found).1,
            Configuration.next_return prepared.addressable found inside⟩
          exact congrArg (start + ·) (Code.size_executed rfl _).symm
      · cases resumes
  · cases resumes

end

end Sketch

end StackBackend
