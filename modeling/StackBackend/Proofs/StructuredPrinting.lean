import StackBackend.Proofs.ByteLoops
import StackBackend.Proofs.Correctness
import StackBackend.Proofs.PrintSteps

namespace StackBackend

/-! Values in print. The code of a type prints every value of the type in memory, with arrays
nested to any depth. It stops at the first null pointer, with the fault of null arrays. -/

/-! ## Values -/

/-- A value as memory holds it, with the values that it refers to. -/
inductive Value where
  | boolean (value : Bool)
  | character (byte : UInt8)
  | integer (value : Int32)
  | lambda
  /-- The bytes of a string up to its first zero byte. -/
  | string (bytes : List UInt8)
  | array (elements : List Value)
  | null

mutual

/-- There is no null pointer in the value. -/
def Value.isWhole : Value → Bool
  | .null => false
  | .array elements => areWhole elements
  | _ => true

def areWhole : List Value → Bool
  | [] => true
  | value :: rest => value.isWhole && areWhole rest

end

def separator : List UInt8 := asciiBytes ", ".toList

/-- The type is built of truth values, characters, integers, strings, functions and arrays. -/
def Ty.isStructural : Ty → Bool
  | .boolean | .character | .integer | .string | .lambda .. => true
  | .array element => element.isStructural
  | .floating | .rational | .void => false

mutual

/-- What prints of the value: all of it, or what stands before the first null pointer. -/
def Value.text : Value → List UInt8
  | .boolean value => (if value then "true" else "false").toUTF8.toList
  | .character byte => [byte]
  | .integer value => asciiBytes (Format.integerText value)
  | .lambda => asciiBytes "<lambda>".toList
  | .string bytes => bytes
  | .array elements =>
      asciiBytes "[".toList ++ (elementsText elements ++
        if areWhole elements then asciiBytes "]".toList else [])
  | .null => []

def elementsText : List Value → List UInt8
  | [] => []
  | [value] => value.text
  | value :: next :: rest =>
      value.text ++ if value.isWhole then separator ++ elementsText (next :: rest) else []

end

theorem elementsText_cons (value : Value) {rest : List Value} (more : rest ≠ []) :
    elementsText (value :: rest) =
      value.text ++ if value.isWhole then separator ++ elementsText rest else [] := by
  cases rest with
  | nil => exact absurd rfl more
  | cons next rest => rw [elementsText]

/-- Elements without null pointers are all there, with separators between them. -/
theorem elementsText_of_areWhole {values : List Value} (whole : areWhole values = true) :
    elementsText values = separator.intercalate (values.map Value.text) := by
  induction values with
  | nil => rfl
  | cons value rest induction =>
      obtain ⟨valueWhole, restWhole⟩ := Bool.and_eq_true_iff.mp (areWhole.eq_2 value rest ▸ whole)
      cases rest with
      | nil => simp [elementsText]
      | cons next rest =>
          rw [elementsText_cons value (List.cons_ne_nil _ _), if_pos valueWhole, induction restWhole]
          simp [List.intercalate_cons_cons]

/-- An array without null pointers prints as the texts of its elements between brackets. -/
theorem text_of_areWhole {elements : List Value} (whole : areWhole elements = true) :
    (Value.array elements).text = asciiBytes "[".toList ++
      (separator.intercalate (elements.map Value.text) ++ asciiBytes "]".toList) := by
  rw [Value.text, if_pos whole, elementsText_of_areWhole whole]

/-- The word of the type means the value: it is a number, or the address of a record. -/
inductive Memory.Means (memory : Memory) : Ty → Int32 → Value → Prop
  | boolean (word : Int32) : Means memory .boolean word (.boolean (word != 0))
  | character (word : Int32) : Means memory .character word (.character word.toUInt32.toUInt8)
  | integer (word : Int32) : Means memory .integer word (.integer word)
  | lambda (parameters : List Ty) (result : Ty) (word : Int32) :
      Means memory (.lambda parameters result) word .lambda
  | string {address : Int32} {index : Nat} {bytes : List UInt8}
      (names : Address.Names address index) (positive : 0 < index)
      (spells : memory.Spells (index + 12) bytes) : Means memory .string address (.string bytes)
  | array {element : Ty} {address : Int32} {index : Nat} {values : List Value}
      (names : Address.Names address index) (positive : 0 < index)
      (length : Address.Names (memory.word (index + 12)) values.length)
      (inside : index + 16 + values.length * element.width ≤ memory.size)
      (words : Nat → Int32)
      (loaded : ∀ position < values.length, element.words
        (memory.read (index + 16 + position * element.width) element.width) =
          [.integer (words position)])
      (elements : ∀ (position : Nat) (below : position < values.length),
        Means memory element (words position) values[position]) :
      Means memory (.array element) address (.array values)
  | nullString : Means memory .string 0 .null
  | nullArray (element : Ty) : Means memory (.array element) 0 .null

/-! ## Runs -/

variable {code : Code} {image : Image} {size : Int32} {memory : Memory}

/-- The run prints the text. It comes to the position or, when there is a null pointer, to the
fault of null arrays; the memory stays as it is. -/
def Leads (image : Image) (memory : Memory) (first : Configuration) (whole : Bool)
    (position : Nat) (left : List Word) (text : List UInt8) : Prop :=
  match whole with
  | true => Runs image none first ⟨position, left, memory, written first.output text⟩
  | false => ∃ handler rest, image.Marks Fault.nullArray.handler handler ∧
      Runs image none first ⟨handler, rest, memory, written first.output text⟩

namespace Leads

variable {first second : Configuration} {whole : Bool} {position last : Nat}
  {left right : List Word} {text before closing : List UInt8}

theorem after (runs : Runs image none first second)
    (output : second.output = written first.output before)
    (leads : Leads image memory second whole position left text) :
    Leads image memory first whole position left (before ++ text) := by
  cases whole with
  | true =>
      rw [Leads, output, ← written_append] at leads
      exact runs.trans leads
  | false =>
      obtain ⟨handler, rest, marks, faults⟩ := leads
      rw [output, ← written_append] at faults
      exact ⟨handler, rest, marks, runs.trans faults⟩

theorem silent (runs : Runs image none first second) (output : second.output = first.output)
    (leads : Leads image memory second whole position left text) :
    Leads image memory first whole position left text :=
  List.nil_append text ▸ after runs (output.trans (written_nil _).symm) leads

/-- What comes after a value prints only if there is no null pointer in the value. -/
theorem follow {others : Bool} (leads : Leads image memory first whole position left text)
    (next : Leads image memory ⟨position, left, memory, written first.output text⟩ others last
      right closing) :
    Leads image memory first (whole && others) last right
      (text ++ if whole then closing else []) := by
  cases whole with
  | true => exact after leads rfl next
  | false => simpa [Leads] using leads

end Leads

namespace Printing

open Code

/-- The code takes the word off the stack and prints the value. -/
def PrintsValue (image : Image) (memory : Memory) (code : Code) (value : Value) (word : Int32) :
    Prop :=
  ∀ start stack output, image.Holds code start →
    Leads image memory ⟨start, .integer word :: stack, memory, output⟩ value.isWhole
      (start + code.size) stack value.text

section

variable (prepared : Prepared code image size) (texts : Texts image memory)
include prepared

/-- The check of a pointer that is not null does nothing. -/
theorem prints_nullCheck {address : Int32} (nonzero : address ≠ 0) (stack : List Word) :
    Prints image memory Record.nullCheck (.integer address :: stack) (.integer address :: stack)
      [] := by
  intro start output holds
  obtain ⟨handler, marks, _⟩ := prepared.labelled_handler .nullArray
  have parts : image.Holds ([.duplicate] ++ .jumpFalse Fault.nullArray.handler :: []) start := holds
  exact Runs.passesOver prepared.addressable parts rfl rfl marks
    (by simp [Instruction.test, nonzero])

/-- The check of a null pointer comes to its fault. -/
theorem leads_nullCheck {rest : Code} {start : Nat}
    (holds : image.Holds (Record.nullCheck ++ rest) start) (position : Nat)
    (stack left : List Word) (output : ByteArray) :
    Leads image memory ⟨start, .integer 0 :: stack, memory, output⟩ false position left [] := by
  obtain ⟨handler, marks, _⟩ := prepared.labelled_handler .nullArray
  have parts : image.Holds ([.duplicate] ++ .jumpFalse Fault.nullArray.handler :: rest) start :=
    holds
  exact ⟨handler, _, marks, Runs.branches prepared.addressable parts rfl rfl marks rfl⟩

include texts

theorem prints_string {address : Int32} {index : Nat} {bytes : List UInt8}
    (names : Address.Names address index) (positive : 0 < index)
    (spells : memory.Spells (index + 12) bytes) (addressed : memory.size ≤ 2147483647)
    (stack : List Word) :
    Prints image memory string (.integer address :: stack) stack bytes := by
  have inside := spells.inside
  have content : Address.Names (address + 12) (index + 12) := names.add rfl (by omega)
  have offset : Prints image memory (addOffset Record.stringHeaderSize) (.integer address :: stack)
      (.integer (address + 12) :: stack) [] := Prints.silent (by
    rw [← List.append_nil (addOffset _), act_addOffset, act_nil]
    rfl)
  have prints : Prints image memory (printText Cell.stringFormat) (.integer (address + 12) :: stack)
      stack bytes :=
    fun _ output holds => runs_string prepared texts content spells holds stack output
  exact ((prints_nullCheck prepared (Address.ne_zero_of_names names positive) stack).append
    offset).append prints

end

/-! ### Arrays -/

/-- The code from a pointer to the cursor and the number of elements. -/
def openCode : Code :=
  [.duplicate] ++ readWord Record.arrayLengthOffset ++ [.exchange] ++
    addOffset Record.arrayHeaderSize ++ [.exchange]

/-- The code from an element to the next one. -/
def nextCode (elementSize : Int32) : Code :=
  addOffset elementSize ++ [.exchange, .pushI 1, .subtract, .duplicate]

/-- The code after the elements. -/
def closeCode : Code :=
  [.pop, .pop] ++ printText Cell.closeBracketText

/-- The code of the loop over the elements. -/
def roundsCode (labels : LabelGroup) (elementSize : Int32) (load print : Code) : Code :=
  ([.exchange, .duplicate] ++ load) ++ (print ++ (nextCode elementSize ++
    .jumpFalse (labels.label "done") :: (printText Cell.separatorText ++
      .jump (labels.label "body") :: .label (labels.label "done") :: closeCode)))

theorem array_eq (labels : LabelGroup) (elementSize : Int32) (load print : Code) :
    array labels elementSize load print = Record.nullCheck ++ (openCode ++
      (printText Cell.openBracketText ++ ([.duplicate] ++ .jumpFalse (labels.label "done") ::
        .label (labels.label "body") :: roundsCode labels elementSize load print))) := by
  simp [array, openCode, roundsCode, nextCode, closeCode]

/-- The code of an array gets to its first element behind a bracket. -/
theorem prints_open (prepared : Prepared code image size) (texts : Texts image memory)
    {address : Int32} {index : Nat} (names : Address.Names address index) (positive : 0 < index)
    (inside : index + 16 ≤ memory.size) (addressed : memory.size ≤ 2147483647)
    (stack : List Word) :
    Prints image memory (Record.nullCheck ++ (openCode ++ printText Cell.openBracketText))
      (.integer address :: stack)
      (.integer (memory.word (index + 12)) :: .integer (address + 16) :: stack)
      (asciiBytes "[".toList) := by
  have lengthNames : Address.Names (address + Record.arrayLengthOffset) (index + 12) :=
    names.add rfl (by omega)
  have opens : Code.act image.word openCode (.integer address :: stack) memory =
      some (.integer (memory.word (index + 12)) :: .integer (address + 16) :: stack, memory) := by
    rw [openCode, List.append_assoc, List.append_assoc, List.append_assoc, List.cons_append,
      List.nil_append, act_duplicate, act_readWord lengthNames (by omega), List.cons_append,
      List.nil_append, act_exchange, act_addOffset, act_exchange, act_nil]
    rfl
  exact (prints_nullCheck prepared (Address.ne_zero_of_names names positive) stack).append
    ((Prints.silent opens).append
      (prints_fixed prepared texts Cell.openBracketText "[" (by decide) _))

/-- The loop has its end behind its rounds. -/
theorem exists_done {labels : LabelGroup} {elementSize : Int32} {load print : Code} {body : Nat}
    (holds : image.Holds (roundsCode labels elementSize load print) body) :
    ∃ done, image.Marks (labels.label "done") done ∧ image.Holds closeCode done ∧
      done + closeCode.size = body + (roundsCode labels elementSize load print).size := by
  obtain ⟨_, printHolds⟩ := Image.holds_append.mp holds
  obtain ⟨_, nextHolds⟩ := Image.holds_append.mp printHolds
  obtain ⟨_, testHolds⟩ := Image.holds_append.mp nextHolds
  obtain ⟨_, separatorHolds⟩ := (Image.holds_cons rfl _ _).mp testHolds
  obtain ⟨_, jumpHolds⟩ := Image.holds_append.mp separatorHolds
  obtain ⟨_, doneHolds⟩ := (Image.holds_cons rfl _ _).mp jumpHolds
  obtain ⟨doneMarks, closeHolds⟩ := (Image.holds_label _ _ _).mp doneHolds
  refine ⟨_, doneMarks, closeHolds, ?_⟩
  simp [roundsCode, Instruction.isDirective]
  omega

section

variable {labels : LabelGroup} {element : Ty} {print : Code} {values : List Value}
  {words : Nat → Int32} {index body done : Nat} {stack : List Word}

variable (prepared : Prepared code image size) (texts : Texts image memory)
  (addressed : memory.size ≤ 2147483647) (isValue : element.isVoid = false)
  (inside : index + 16 + values.length * element.width ≤ memory.size)
  (loaded : ∀ position < values.length, element.words
    (memory.read (index + 16 + position * element.width) element.width) =
      [.integer (words position)])
  (prints : ∀ (position : Nat) (below : position < values.length),
    PrintsValue image memory print values[position] (words position))
  (holds : image.Holds (roundsCode labels element.size element.loadCode print) body)

theorem act_next (cursor remaining : Int32) :
    Code.act image.word (nextCode element.size) (.integer cursor :: .integer remaining :: stack)
      memory = some (.integer (remaining - 1) :: .integer (remaining - 1) ::
        .integer (cursor + element.size) :: stack, memory) := by
  rw [nextCode, act_addOffset]
  simp

/-- After the last element the loop ends. -/
theorem runs_last (prepared : Prepared code image size) {rest : Code} {pc : Nat}
    (testHolds : image.Holds (nextCode element.size ++ .jumpFalse (labels.label "done") :: rest) pc)
    (doneMarks : image.Marks (labels.label "done") done) (cursor : Int32) (output : ByteArray) :
    Runs image none ⟨pc, .integer cursor :: .integer 1 :: stack, memory, output⟩
      ⟨done, .integer 0 :: .integer (cursor + element.size) :: stack, memory, output⟩ :=
  Runs.branches prepared.addressable testHolds (act_next cursor 1) rfl doneMarks rfl

/-- After another element a separator prints, and the loop goes on. -/
theorem runs_turn (prepared : Prepared code image size) (texts : Texts image memory) {rest : Code}
    {pc : Nat} (testHolds : image.Holds (nextCode element.size ++
      .jumpFalse (labels.label "done") :: (printText Cell.separatorText ++
        .jump (labels.label "body") :: rest)) pc)
    (bodyMarks : image.Marks (labels.label "body") body)
    (doneMarks : image.Marks (labels.label "done") done) (cursor : Int32) {remaining : Int32}
    (more : remaining - 1 ≠ 0) (output : ByteArray) :
    Runs image none ⟨pc, .integer cursor :: .integer remaining :: stack, memory, output⟩
      ⟨body, .integer (remaining - 1) :: .integer (cursor + element.size) :: stack, memory,
        written output separator⟩ := by
  obtain ⟨_, branchHolds⟩ := Image.holds_append.mp testHolds
  obtain ⟨_, separatorHolds⟩ := (Image.holds_cons rfl _ _).mp branchHolds
  obtain ⟨separatorHolds, jumpHolds⟩ := Image.holds_append.mp separatorHolds
  exact (Runs.passesOver prepared.addressable testHolds (act_next cursor remaining) rfl doneMarks
    (by simp [Instruction.test, more])).trans
      ((prints_fixed prepared texts Cell.separatorText ", " (by decide) _ _ _ separatorHolds).trans
        (Runs.jump prepared.addressable jumpHolds bodyMarks))

include addressed isValue inside loaded prints holds

/-- A round prints the element at the cursor. -/
theorem leads_element {position : Nat} (below : position < values.length) {cursor : Int32}
    (names : Address.Names cursor (index + 16 + position * element.width)) (remaining : Int32)
    (output : ByteArray) :
    Leads image memory ⟨body, .integer remaining :: .integer cursor :: stack, memory, output⟩
      values[position].isWhole
      (body + (([.exchange, .duplicate] ++ element.loadCode : Code).size + print.size))
      (.integer cursor :: .integer remaining :: stack) values[position].text := by
  obtain ⟨loadHolds, restHolds⟩ := Image.holds_append.mp holds
  obtain ⟨printHolds, _⟩ := Image.holds_append.mp restHolds
  have room : position * element.width + element.width ≤ values.length * element.width := by
    rw [← Nat.succ_mul]
    exact Nat.mul_le_mul_right _ below
  have loads : Code.act image.word ([.exchange, .duplicate] ++ element.loadCode)
      (.integer remaining :: .integer cursor :: stack) memory =
      some (.integer (words position) :: .integer cursor :: .integer remaining :: stack,
        memory) := by
    rw [List.cons_append, List.cons_append, List.nil_append, act_exchange, act_duplicate,
      ← List.append_nil element.loadCode, Ty.act_loadCode isValue names (by omega) (by omega),
      loaded position below, act_nil]
    rfl
  rw [← Nat.add_assoc]
  exact Leads.silent (Runs.straight loadHolds loads) rfl
    (prints position below _ _ output printHolds)

include prepared texts

/-- Rounds over the elements print them one after the other, with separators between them. -/
theorem leads_rounds (bodyMarks : image.Marks (labels.label "body") body)
    (doneMarks : image.Marks (labels.label "done") done) (count : Nat) :
    ∀ (position : Nat) (cursor remaining : Int32) (output : ByteArray),
      position + (count + 1) = values.length →
      Address.Names cursor (index + 16 + position * element.width) →
      Address.Names remaining (count + 1) →
      ∃ left, Leads image memory
        ⟨body, .integer remaining :: .integer cursor :: stack, memory, output⟩
        (areWhole (values.drop position)) done (.integer 0 :: .integer left :: stack)
        (elementsText (values.drop position)) := by
  obtain ⟨_, printHolds⟩ := Image.holds_append.mp holds
  obtain ⟨_, testHolds⟩ := Image.holds_append.mp printHolds
  rw [Nat.add_assoc] at testHolds
  -- From the last element back to the one at the cursor.
  induction count with
  | zero =>
      intro position cursor remaining output last cursorNames remainingNames
      have below : position < values.length := by omega
      have rest : values.drop (position + 1) = [] := List.drop_eq_nil_of_le (by omega)
      obtain rfl : remaining = 1 := Int32.toInt_inj.mp remainingNames
      rw [List.drop_eq_getElem_cons below, rest]
      have leaves : ∀ output, Leads image memory
          ⟨body + (([.exchange, .duplicate] ++ element.loadCode : Code).size + print.size),
            .integer cursor :: .integer 1 :: stack, memory, output⟩ true done
          (.integer 0 :: .integer (cursor + element.size) :: stack) [] := fun output =>
        runs_last prepared testHolds doneMarks cursor output
      have leads := (leads_element addressed isValue inside loaded prints holds below cursorNames 1
        output).follow (leaves _)
      exact ⟨_, by simpa [areWhole, elementsText] using leads⟩
  | succ count induction =>
      intro position cursor remaining output last cursorNames remainingNames
      have below : position < values.length := by omega
      have more : values.drop (position + 1) ≠ [] := by
        rw [ne_eq, List.drop_eq_nil_iff]
        omega
      have bound := remaining.toInt_lt
      have fewer : Address.Names (remaining - 1) (count + 1) :=
        remainingNames.sub (by simp) (by unfold Address.Names at remainingNames; omega)
      have room : (position + 1) * element.width ≤ values.length * element.width :=
        Nat.mul_le_mul_right _ below
      have nextNames : Address.Names (cursor + element.size)
          (index + 16 + (position + 1) * element.width) :=
        cursorNames.add (by rw [Ty.toInt_size, Nat.succ_mul]; omega) (by omega)
      obtain ⟨left, others⟩ := induction (position + 1) _ _ (written (written output
        values[position].text) separator) (by omega) nextNames fewer
      have goesOn := Leads.after (runs_turn prepared texts testHolds bodyMarks doneMarks cursor
        (Address.ne_zero_of_names fewer (Nat.succ_pos _)) _) rfl others
      have leads := (leads_element addressed isValue inside loaded prints holds below cursorNames
        remaining output).follow goesOn
      rw [List.drop_eq_getElem_cons below, elementsText_cons _ more]
      exact ⟨left, leads⟩

omit holds in
/-- The loop prints the elements of an array of any length. -/
theorem leads_loop {pc : Nat} (holds : image.Holds ([.duplicate] ++ .jumpFalse (labels.label "done") ::
      .label (labels.label "body") :: roundsCode labels element.size element.loadCode print) pc)
    (doneMarks : image.Marks (labels.label "done") done) {cursor remaining : Int32}
    (cursorNames : Address.Names cursor (index + 16))
    (length : Address.Names remaining values.length) (output : ByteArray) :
    ∃ left, Leads image memory
      ⟨pc, .integer remaining :: .integer cursor :: stack, memory, output⟩ (areWhole values) done
      (.integer 0 :: .integer left :: stack) (elementsText values) := by
  obtain ⟨_, branchHolds⟩ := Image.holds_append.mp holds
  obtain ⟨_, labelHolds⟩ := (Image.holds_cons rfl _ _).mp branchHolds
  obtain ⟨bodyMarks, roundsHolds⟩ := (Image.holds_label _ _ _).mp labelHolds
  by_cases none : values.length = 0
  · obtain rfl : values = [] := List.eq_nil_of_length_eq_zero none
    obtain rfl : remaining = 0 := Int32.toInt_inj.mp length
    exact ⟨cursor, Runs.branches prepared.addressable holds rfl rfl doneMarks rfl⟩
  · obtain ⟨count, counted⟩ := Nat.exists_eq_succ_of_ne_zero none
    have some : remaining ≠ 0 := Address.ne_zero_of_names length (by omega)
    obtain ⟨left, leads⟩ := leads_rounds prepared texts addressed isValue inside loaded prints
      roundsHolds bodyMarks doneMarks count 0 cursor remaining output (by omega)
      (by simpa using cursorNames) (by rwa [counted] at length)
    exact ⟨left, Leads.silent (Runs.passesOver prepared.addressable holds rfl rfl doneMarks
      (by simp [Instruction.test, some])) rfl leads⟩

omit holds in
/-- The code of an array prints its elements in brackets. -/
theorem leads_array {address : Int32} (names : Address.Names address index)
    (positive : 0 < index) (length : Address.Names (memory.word (index + 12)) values.length)
    {start : Nat} (holds : image.Holds (array labels element.size element.loadCode print) start)
    (output : ByteArray) :
    Leads image memory ⟨start, .integer address :: stack, memory, output⟩ (areWhole values)
      (start + (array labels element.size element.loadCode print).size) stack
      (Value.array values).text := by
  have parts : array labels element.size element.loadCode print =
      (Record.nullCheck ++ (openCode ++ printText Cell.openBracketText)) ++
        ([.duplicate] ++ .jumpFalse (labels.label "done") :: .label (labels.label "body") ::
          roundsCode labels element.size element.loadCode print) := by
    rw [array_eq]
    simp only [List.append_assoc]
  rw [parts] at holds ⊢
  obtain ⟨openHolds, loopHolds⟩ := Image.holds_append.mp holds
  obtain ⟨_, branchHolds⟩ := Image.holds_append.mp loopHolds
  obtain ⟨_, labelHolds⟩ := (Image.holds_cons rfl _ _).mp branchHolds
  obtain ⟨done, doneMarks, closeHolds, sizes⟩ :=
    exists_done ((Image.holds_label _ _ _).mp labelHolds).2
  have opens := prints_open prepared texts names positive (by omega) addressed stack _ output
    openHolds
  have cursorNames : Address.Names (address + 16) (index + 16) := names.add rfl (by omega)
  obtain ⟨left, loop⟩ := leads_loop prepared texts addressed isValue inside loaded prints loopHolds
    doneMarks cursorNames length (written output (asciiBytes "[".toList))
  have closes : ∀ output, Leads image memory ⟨done, .integer 0 :: .integer left :: stack, memory,
      output⟩ true (done + closeCode.size) stack (asciiBytes "]".toList) := fun output =>
    ((Prints.silent rfl).append (prints_fixed prepared texts Cell.closeBracketText "]" (by decide) _)) _
      output closeHolds
  have leads := Leads.after opens rfl (loop.follow (closes _))
  have total : start + Code.size ((Record.nullCheck ++ (openCode ++
      printText Cell.openBracketText)) ++ ([.duplicate] ++ .jumpFalse (labels.label "done") ::
      .label (labels.label "body") ::
        roundsCode labels element.size element.loadCode print)) = done + closeCode.size := by
    rw [sizes]
    simp [Instruction.isDirective]
    omega
  rw [total, Value.text]
  rwa [Bool.and_true] at leads

end

/-! ### Values -/

/-- Code that prints a whole value. -/
theorem PrintsValue.of_prints {print : Code} {value : Value} {word : Int32}
    (whole : value.isWhole = true)
    (prints : ∀ stack, Prints image memory print (.integer word :: stack) stack value.text) :
    PrintsValue image memory print value word := by
  intro start stack output holds
  rw [whole]
  exact prints stack start output holds

theorem value_array_eq_ok {element : Ty} {last next : Nat} {print : Code}
    (generated : Printing.value (.array element) last = .ok (print, next)) :
    ∃ labels load body between, element.load = .ok load ∧
      Printing.value element between = .ok (body, next) ∧
      print = array labels element.size load body := by
  simp only [Printing.value, Generation.bind_eq_ok, Generation.lift_eq_ok, Generation.pure_eq_ok]
    at generated
  obtain ⟨labels, _, _, load, _, ⟨loaded, rfl⟩, body, _, printed, rfl, rfl⟩ := generated
  exact ⟨labels, load, body, _, loaded, printed, rfl⟩

/-- The code of a type prints the values of the type. -/
theorem prints_value (prepared : Prepared code image size) (texts : Texts image memory)
    (addressed : memory.size ≤ 2147483647) {type : Ty} {word : Int32} {value : Value}
    (means : memory.Means type word value) :
    ∀ {last next : Nat} {print : Code}, Printing.value type last = .ok (print, next) →
      PrintsValue image memory print value word := by
  induction means with
  | boolean word =>
      intro last next print generated
      obtain ⟨labels, _, _, made⟩ := Generation.bind_eq_ok.mp generated
      obtain ⟨rfl, rfl⟩ := Generation.pure_eq_ok.mp made
      refine .of_prints rfl fun stack start output holds => ?_
      have prints := runs_boolean prepared texts holds word stack output
      have size : (boolean labels).size = 6 := rfl
      simpa [Value.text, asWord, size] using prints
  | character word =>
      intro last next print generated
      obtain ⟨rfl, rfl⟩ := Generation.pure_eq_ok.mp generated
      exact .of_prints rfl (prints_character prepared texts word)
  | integer word =>
      intro last next print generated
      obtain ⟨rfl, rfl⟩ := Generation.pure_eq_ok.mp generated
      exact .of_prints rfl (prints_integer prepared texts word)
  | lambda parameters result word =>
      intro last next print generated
      obtain ⟨rfl, rfl⟩ := Generation.pure_eq_ok.mp generated
      have pops : ∀ stack, Prints image memory [.pop] (.integer word :: stack) stack [] :=
        fun stack => Prints.silent rfl
      exact .of_prints rfl fun stack => (pops stack).append
        (prints_fixed prepared texts Cell.lambdaText "<lambda>" (by decide) stack)
  | string names positive spells =>
      intro last next print generated
      obtain ⟨rfl, rfl⟩ := Generation.pure_eq_ok.mp generated
      exact .of_prints rfl (prints_string prepared texts names positive spells addressed)
  | @array element address index values names positive length inside words loaded elements
      induction =>
      intro last next print generated
      obtain ⟨labels, load, body, between, loadMade, bodyMade, rfl⟩ :=
        value_array_eq_ok generated
      obtain ⟨isValue, rfl⟩ := Ty.load_eq_ok.mp loadMade
      exact fun start stack output holds => leads_array prepared texts addressed isValue inside
        loaded (fun position below => induction position below bodyMade) names positive length holds
        output
  | nullString =>
      intro last next print generated
      obtain ⟨rfl, rfl⟩ := Generation.pure_eq_ok.mp generated
      exact fun start stack output holds => leads_nullCheck prepared holds _ _ _ output
  | nullArray element =>
      intro last next print generated
      obtain ⟨labels, load, body, _, _, _, rfl⟩ := value_array_eq_ok generated
      rw [array_eq]
      exact fun start stack output holds => leads_nullCheck prepared holds _ _ _ output

theorem isVoid_of_isStructural : ∀ {type : Ty}, type.isStructural = true → type.isVoid = false
  | .boolean, _ | .character, _ | .integer, _ | .string, _ | .lambda .., _ | .array _, _ => rfl

/-- There is code for every type that prints as its values are built. -/
theorem exists_value : ∀ (type : Ty), type.isStructural = true → ∀ last,
    ∃ print next, Printing.value type last = .ok (print, next)
  | .boolean, _, _ | .character, _, _ | .integer, _, _ | .string, _, _ | .lambda .., _, _ =>
      ⟨_, _, rfl⟩
  | .array element, structural, last => by
      have load : element.load = .ok element.loadCode :=
        Ty.load_eq_ok.mpr ⟨isVoid_of_isStructural structural, rfl⟩
      obtain ⟨print, next, generated⟩ := exists_value element structural (last + 1)
      exact ⟨_, next, by
        simp only [Printing.value, Generation.bind_eq_ok, Generation.lift_eq_ok,
          Generation.pure_eq_ok]
        exact ⟨_, _, rfl, _, _, ⟨load, rfl⟩, print, _, generated, rfl, rfl⟩⟩

end Printing

/-! ## Blocks in memory -/

namespace Memory

/-- The middle of what is read from a place. -/
theorem read_inner (memory : Memory) (start before width after : Nat) :
    memory.read (start + before) width =
      ((memory.read start (before + (width + after))).drop before).take width := by
  rw [read_append, List.drop_left' (length_read memory start before), read_append,
    List.take_left' (length_read memory _ width)]

/-- A word of a block that was written. -/
theorem word_write {memory : Memory} {start position : Nat} {values : List UInt8}
    (inside : start + values.length ≤ memory.size) (below : position + 4 ≤ values.length) :
    (memory.write start values).word (start + position) =
      WordBytes.toInt32 ((values.drop position).take 4) := by
  obtain ⟨rest, whole⟩ := Nat.exists_eq_add_of_le below
  rw [word, read_inner _ start position 4 rest, ← Nat.add_assoc, ← whole,
    read_write memory start values inside]

end Memory

/-- Writing above the data keeps the texts. -/
theorem Texts.write_above (prepared : Prepared code image size) (texts : Texts image memory)
    {index : Nat} (above : image.dataSize ≤ index) (values : List UInt8) :
    Texts image (memory.write index values) := by
  intro cell text member
  have inside := Image.place_add_le prepared.assembled (prepared.lays_text member)
  refine (texts cell text member).congr (Memory.size_write _ _ _) fun other _ upper =>
    Memory.byte_write_of_outside _ _ _ _ ?_
  omega

/-! ## Programs -/

namespace Program

variable {program : Program} {options : CompileOptions} {code : Code} {image : Image}
  {memory : Memory}

/-- Values of types that are built of truth values, characters, integers, strings, functions and
arrays print as they are built, whatever the depth; the stack below a value and the memory stay
as they are. A null pointer ends the program with the report of its fault behind the text up to
there. -/
theorem values_printed (compiled : program.compile options = .ok code)
    (assembled : Image.assemble code = .ok image) (addressable : image.Addressable)
    (fits : image.dataSize ≤ 2147483647) (addressed : memory.size ≤ 2147483647)
    (texts : Texts image memory) {type : Ty} (structural : type.isStructural = true)
    (last : Nat) :
    ∃ piece next, Printing.value type last = .ok (piece, next) ∧
      ∀ {word : Int32} {value : Value} {pc : Nat}, memory.Means type word value →
        image.Holds piece pc → ∀ rest output,
        (value.isWhole = true →
          Runs image none ⟨pc, .integer word :: rest, memory, output⟩
            ⟨pc + piece.size, rest, memory, written output value.text⟩) ∧
        (value.isWhole = false →
          ∃ stop left halted, image.Holds (.halt :: halted) stop ∧
            Runs image none ⟨pc, .integer word :: rest, memory, output⟩ ⟨stop, left, memory,
              written output (value.text ++ (Exit.fault .nullArray).report)⟩) ∧
        ∀ elements, value = .array elements → areWhole elements = true →
          value.text = asciiBytes "[".toList ++
            (separator.intercalate (elements.map Value.text) ++ asciiBytes "]".toList) := by
  obtain ⟨body, composed⟩ := exists_composed compiled
  have prepared := composed.prepared assembled addressable fits
  obtain ⟨piece, next, generated⟩ := Printing.exists_value type structural last
  refine ⟨piece, next, generated, fun {word value pc} means holds rest output => ?_⟩
  have leads := Printing.prints_value prepared texts addressed means generated pc rest output holds
  refine ⟨fun whole => ?_, fun cut => ?_, fun elements same whole => ?_⟩
  · rwa [whole] at leads
  · rw [cut] at leads
    obtain ⟨handler, left, marks, runs⟩ := leads
    obtain ⟨stop, halted, halts, reports⟩ := prepared.reports texts marks left
      (written output value.text)
    refine ⟨stop, left, halted, halts, runs.trans ?_⟩
    rwa [written_append]
  · rw [same, text_of_areWhole whole]

/-- Prints the rows of a global variable. -/
def rows : Program where
  globalSize := 4
  body := [.print [.expression (.typed (.array (.array .integer))
    (.identifier ⟨"rows", .array (.array .integer), .global 0, true⟩))]]

/-- An array of two arrays, the second of which is empty. -/
def rowBytes : List UInt8 :=
  [7, 2, 4, 2, 100024, 100048, 7, 0, 4, 2, 5, -6, 7, 0, 4, 0].flatMap WordBytes.ofInt32

/-- The code that prints rows of integers. -/
def rowsCode : Code :=
  Printing.array ⟨"print-array", 1⟩ 4 [.loadI]
    (Printing.array ⟨"print-array", 2⟩ 4 [.loadI] (Printing.printText Cell.integerFormat))

theorem exists_rows_image :
    ∃ code image pc, rows.compile ⟨true⟩ = .ok code ∧ Image.assemble code = .ok image ∧
      image.Addressable ∧ image.dataSize ≤ 65536 ∧ image.Holds rowsCode pc := by
  have plain : Plain rows.operations := by
    simp [Plain, rows, operations, blockOperations, Statement.operations, printItemsOperations,
      PrintItem.operations, Expr.operations, Form.operations]
  obtain ⟨code, image, body, _, pc, compiled, assembled, addressable, fits, made, holds⟩ :=
    exists_body_image (by decide +kernel) plain (by simp [rows])
  have body_eq : blockCode {} rows.body 0 =
      .ok ([.pushD Cell.globalBlock, .pushI 0, .add, .loadI] ++ rowsCode, 2) := rfl
  cases body_eq.symm.trans made
  exact ⟨code, image, _, compiled, assembled, addressable, fits, (Image.holds_append.mp holds).2⟩

theorem rowBytes_mean {memory : Memory} (inside : 100064 ≤ memory.size) :
    (memory.write 100000 rowBytes).Means (.array (.array .integer)) 100000
      (.array [.array [.integer 5, .integer (-6)], .array []]) := by
  have length : rowBytes.length = 64 := by decide
  have room : ∀ {stop}, stop ≤ 100064 → stop ≤ (memory.write 100000 rowBytes).size :=
    fun below => (Memory.size_write memory 100000 rowBytes).symm ▸ Nat.le_trans below inside
  have word : ∀ position, position + 4 ≤ 64 →
      (memory.write 100000 rowBytes).word (100000 + position) =
        WordBytes.toInt32 ((rowBytes.drop position).take 4) := fun position below =>
    Memory.word_write (by omega) (by omega)
  have first : (memory.write 100000 rowBytes).Means (.array .integer) 100024
      (.array [.integer 5, .integer (-6)]) := by
    have names : Address.Names 100024 100024 := by decide
    refine .array names (by decide) ?_ (room (by decide))
      (fun position => if position = 0 then 5 else -6) ?_ ?_
    · rw [word 36 (by decide)]
      decide
    · rintro (_ | _ | position) below
      · exact congrArg (fun value => [Word.integer value]) ((word 40 (by decide)).trans (by decide))
      · exact congrArg (fun value => [Word.integer value]) ((word 44 (by decide)).trans (by decide))
      · simp only [List.length_cons, List.length_nil] at below
        omega
    · rintro (_ | _ | position) below
      · exact .integer 5
      · exact .integer (-6)
      · simp only [List.length_cons, List.length_nil] at below
        omega
  have second : (memory.write 100000 rowBytes).Means (.array .integer) 100048 (.array []) := by
    have names : Address.Names 100048 100048 := by decide
    refine .array names (by decide) ?_ (room (by decide))
      (fun _ => 0) nofun nofun
    rw [word 60 (by decide)]
    decide
  have names : Address.Names 100000 100000 := by decide
  refine .array names (by decide) ?_ (room (by decide))
    (fun position => if position = 0 then 100024 else 100048) ?_ ?_
  · rw [word 12 (by decide)]
    decide
  · rintro (_ | _ | position) below
    · exact congrArg (fun value => [Word.integer value]) ((word 16 (by decide)).trans (by decide))
    · exact congrArg (fun value => [Word.integer value]) ((word 20 (by decide)).trans (by decide))
    · simp only [List.length_cons, List.length_nil] at below
      omega
  · rintro (_ | _ | position) below
    · exact first
    · exact second
    · simp only [List.length_cons, List.length_nil] at below
      omega

/-- Two rows print in brackets of their own. -/
theorem rows_printed :
    ∃ code image pc memory, rows.compile ⟨true⟩ = .ok code ∧ Image.assemble code = .ok image ∧
      image.Addressable ∧ image.dataSize ≤ 2147483647 ∧ memory.size ≤ 2147483647 ∧
      Texts image memory ∧ image.Holds rowsCode pc ∧
      memory.Means (.array (.array .integer)) 100000
        (.array [.array [.integer 5, .integer (-6)], .array []]) ∧
      Runs image none ⟨pc, [.integer 100000], memory, .empty⟩
        ⟨pc + rowsCode.size, [], memory, written .empty (asciiBytes "[[5, -6], []]".toList)⟩ := by
  obtain ⟨code, image, pc, compiled, assembled, addressable, fits, holds⟩ := exists_rows_image
  obtain ⟨body, composed⟩ := exists_composed compiled
  have prepared := composed.prepared assembled addressable (by omega)
  have size := image.size_initialState 131072
  have initial : Texts image (image.initialState 131072).memory :=
    Texts.initial prepared (by omega)
  have above : image.dataSize ≤ 100000 := by omega
  have texts := initial.write_above prepared above rowBytes
  have room : 100064 ≤ (image.initialState 131072).memory.size := by omega
  have means := rowBytes_mean room
  have addressed : ((image.initialState 131072).memory.write 100000 rowBytes).size ≤
      2147483647 := by
    rw [Memory.size_write]
    omega
  have structural : Ty.isStructural (.array (.array .integer)) = true := rfl
  obtain ⟨piece, next, generated, prints⟩ := values_printed compiled assembled addressable
    (by omega) addressed texts structural 0
  have same : Printing.value (.array (.array .integer)) 0 = .ok (rowsCode, 2) := rfl
  cases same.symm.trans generated
  have runs := (prints means holds [] .empty).1 rfl
  have text : (Value.array [.array [.integer 5, .integer (-6)], .array []]).text =
      asciiBytes "[[5, -6], []]".toList := by decide +kernel
  rw [text] at runs
  exact ⟨code, image, pc, _, compiled, assembled, addressable, by omega, addressed, texts, holds,
    means, runs⟩

end Program

end StackBackend
