import StackBackend.Proofs.Computation

namespace StackBackend

/-! The code of a scalar program does what the program means. Every statement takes a memory
that represents the store before it to one that represents the store after it, prints what
the statement prints, and goes on where the statement leads. -/

open Generation Code

/-! ## Values in memory -/

namespace Ty

variable {type : Ty} {value : Int32}

/-- A byte is a value of the narrow types. -/
theorem admits_of_lt (narrow : type = .boolean ∨ type = .character)
    (small : value.toUInt32.toNat < 256) : type.Admits (asWord value) := by
  have same : WordBytes.toInt32 [value.toUInt32.toUInt8] = value := by
    have byte : value.toUInt32.toUInt8.toNat = value.toUInt32.toNat := by
      rw [UInt32.toNat_toUInt8]
      omega
    simp [WordBytes.toInt32, ofLittleEndian, byte]
  obtain rfl | rfl := narrow
  · exact ⟨_, rfl, by rw [Ty.words, same]; rfl⟩
  · exact ⟨_, rfl, by rw [Ty.words, same]; rfl⟩

theorem admits_integer (value : Int32) : Ty.integer.Admits (asWord value) :=
  ⟨_, rfl, by rw [Ty.words, WordBytes.toInt32_ofInt32]; rfl⟩

theorem admits_truth (condition : Bool) : Ty.boolean.Admits (asWord (truth condition)) :=
  admits_of_lt (.inl rfl) (by cases condition <;> decide)

/-- What memory holds for a scalar is a value of its type. -/
theorem IsScalar.admits_words (scalar : type.IsScalar) {bytes : List UInt8}
    (length : bytes.length = type.width) (found : type.words bytes = asWord value) :
    type.Admits (asWord value) := by
  have narrow : ∀ type : Ty, type = .boolean ∨ type = .character → bytes.length = 1 →
      WordBytes.toInt32 bytes = value → type.Admits (asWord value) := by
    intro type known length same
    obtain ⟨byte, rfl⟩ := List.length_eq_one_iff.mp length
    refine admits_of_lt known ?_
    rw [← same]
    have bound := byte.toNat_lt
    simp [WordBytes.toInt32, ofLittleEndian]
    omega
  obtain rfl | rfl | rfl := scalar.cases
  · exact narrow _ (.inl rfl) length (by simpa [Ty.words, asWord] using found)
  · exact narrow _ (.inr rfl) length (by simpa [Ty.words, asWord] using found)
  · exact admits_integer value

theorem IsScalar.width_pos (scalar : type.IsScalar) : 0 < type.width := by
  obtain rfl | rfl | rfl := scalar.cases <;> decide

end Ty

section

variable {code : Code} {image : Image} {size : Int32} {bindings : List Binding} {store : Store}
  {memory : Memory}

theorem Represents.admits (represents : Represents image bindings store memory)
    (laid : Laid bindings size) {binding : Binding} (known : binding ∈ bindings) :
    binding.type.Admits (asWord (store.get binding)) :=
  (laid.scalar binding known).admits_words (Memory.length_read _ _ _)
    (represents.values binding known)

theorem Signature.HasType.admits {signature : Signature} {types : List Ty} {type : Ty}
    (typed : signature.HasType types type) {values : List Int32} {value : Int32}
    (length : values.length = types.length) (applies : signature.apply values = pure value) :
    type.Admits (asWord value) := by
  cases typed with
  | toCharacter =>
      obtain ⟨operand, rfl⟩ := List.length_eq_one_iff.mp length
      cases applies
      refine Ty.admits_of_lt (.inr rfl) ?_
      rw [Int32.toUInt32_and, UInt32.toNat_and]
      exact Nat.lt_of_le_of_lt Nat.and_le_right (by decide)
  | toBoolean =>
      obtain ⟨operand, rfl⟩ := List.length_eq_one_iff.mp length
      cases applies
      exact Ty.admits_truth _
  | _ => exact Ty.admits_integer value

/-- The value of an expression is one of its type. -/
theorem Expr.IsScalar.admits (laid : Laid bindings size)
    (represents : Represents image bindings store memory) {expression : Expr}
    (scalar : expression.IsScalar bindings) {value : Int32}
    (evaluates : expression.evaluate store = pure value) :
    expression.type.Admits (asWord value) := by
  induction scalar generalizing value with
  | boolean literal =>
      rw [Expr.evaluate, Form.evaluate] at evaluates
      cases evaluates
      exact Ty.admits_truth literal
  | character literal =>
      rw [Expr.evaluate, Form.evaluate] at evaluates
      cases evaluates
      refine Ty.admits_of_lt (.inr rfl) ?_
      have bound := literal.toNat_lt
      simp
      omega
  | integer literal => exact Ty.admits_integer value
  | identifier known =>
      rw [Expr.evaluate, Form.evaluate] at evaluates
      cases evaluates
      exact represents.admits laid known
  | operation typed operandTypes _ _ =>
      rw [typed.evaluate_eq] at evaluates
      obtain ⟨values, evaluated, applies⟩ := Outcome.bind_eq_pure.mp evaluates
      refine typed.admits ?_ applies
      rw [length_evaluateAll evaluated, ← operandTypes, List.length_map]
  | truth isTruth leftType rightType _ _ leftAdmits rightAdmits =>
      rw [leftType] at leftAdmits
      rw [rightType] at rightAdmits
      obtain rfl | rfl := isTruth
      · rw [Expr.evaluate, Form.evaluate] at evaluates
        obtain ⟨first, evaluated, decided⟩ := Outcome.bind_eq_pure.mp evaluates
        split at decided
        · cases decided
          exact leftAdmits evaluated
        · exact rightAdmits decided
      · rw [Expr.evaluate, Form.evaluate] at evaluates
        obtain ⟨first, evaluated, decided⟩ := Outcome.bind_eq_pure.mp evaluates
        split at decided
        · exact rightAdmits decided
        · cases decided
          exact leftAdmits evaluated
  | comparison _ _ _ _ _ =>
      rw [Expr.evaluate, Form.evaluate] at evaluates
      obtain ⟨first, _, evaluates⟩ := Outcome.bind_eq_pure.mp evaluates
      obtain ⟨second, _, same⟩ := Outcome.bind_eq_pure.mp evaluates
      cases same
      exact Ty.admits_truth _

/-! ## Storing -/

theorem Store.get_set_same (store : Store) {binding other : Binding} (value : Int32)
    (same : binding.location.offset = other.location.offset) :
    (store.set binding value).get other = value := by
  simp [Store.set, Store.get, same]

theorem Store.get_set_other (store : Store) {binding other : Binding} (value : Int32)
    (different : binding.location.offset ≠ other.location.offset) :
    (store.set binding value).get other = store.get other := by
  simp [Store.set, Store.get, different.symm]

/-- Writing the bytes of a value to a variable sets it in the store. -/
theorem Represents.write (represents : Represents image bindings store memory)
    (prepared : Prepared code image size) (laid : Laid bindings size) {binding : Binding}
    (known : binding ∈ bindings) {value : Int32} {bytes : List UInt8}
    (encoded : binding.type.bytes? (asWord value) = some bytes)
    (decoded : binding.type.words bytes = asWord value) :
    Represents image bindings (store.set binding value)
      (memory.write (image.place Cell.globalBlock + binding.start) bytes) := by
  have length := Ty.length_bytes? encoded
  obtain ⟨inside, block⟩ := prepared.variable_inside laid known
  have room := represents.room
  refine ⟨?_, ?_, fun other otherKnown => ?_⟩
  · exact represents.texts.write prepared prepared.lays_globals (by decide) (by omega) (by omega)
  · rw [Memory.size_write]
    exact room
  · obtain ⟨sameOffset, sameType⟩ | apart := laid.apart binding known other otherKnown
    · have sameStart : other.start = binding.start := by rw [Binding.start, Binding.start, sameOffset]
      rw [store.get_set_same value sameOffset, ← sameType, sameStart, ← length,
        Memory.read_write _ _ _ (by omega)]
      exact decoded
    · have different : binding.location.offset ≠ other.location.offset := by
        intro same
        have sameStart : other.start = binding.start := by rw [Binding.start, Binding.start, same]
        have wide := (laid.scalar binding known).width_pos
        have otherWide := (laid.scalar other otherKnown).width_pos
        omega
      rw [store.get_set_other value different, Memory.read_write_of_disjoint _ _ _ _ _ (by omega)]
      exact represents.values other otherKnown

theorem Ty.IsScalar.act_storeCode {type : Ty} (scalar : type.IsScalar) {word : String → Int32}
    {stack : List Word} {address value : Int32} {index : Nat} {bytes : List UInt8}
    (encoded : type.bytes? (asWord value) = some bytes) (names : Address.Names address index)
    (inside : index + type.width ≤ memory.size) :
    Code.act word type.storeCode (asWord value ++ .integer address :: stack) memory =
      some (stack, memory.write index bytes) := by
  have length := Ty.length_bytes? encoded
  have stored := Memory.store?_eq names (length ▸ inside : index + bytes.length ≤ memory.size)
  obtain rfl | rfl | rfl := scalar.cases
  · cases encoded
    simp [Ty.storeCode, asWord, act_storeC stored]
  · cases encoded
    simp [Ty.storeCode, asWord, act_storeC stored]
  · cases encoded
    simp [Ty.storeCode, asWord, act_storeI stored]

/-! ## Printing -/

theorem Format.integerText_eq (value : Int32) :
    Format.integerText value = (toString value.toInt).toList := by
  have sign : value < 0 ↔ value.toInt < 0 := Int32.lt_iff_toInt_lt
  rw [Format.integerText]
  cases whole : value.toInt with
  | ofNat number =>
      rw [if_neg (by rw [sign, whole]; exact Int.not_lt.mpr (Int.natCast_nonneg number))]
      exact (Nat.toList_repr).symm
  | negSucc number =>
      rw [if_pos (by rw [sign, whole]; omega)]
      simp [toString, Int.repr, String.toList_append, Nat.toList_repr, decimalDigits]

namespace Printing

/-- Prints through the text in a cell of the environment. -/
theorem runs_printText (prepared : Prepared code image size) (texts : Texts image memory)
    {cell format : String} (member : (cell, format) ∈ Environment.texts) {after : Code}
    {start : Nat} (holds : image.Holds (printText cell ++ after) start) {stack rest : List Word}
    {arguments : List Argument}
    (takes : Effect.Takes memory stack (Format.conversions format.toUTF8.toList) arguments rest)
    (output : ByteArray) :
    Runs image none ⟨start, stack, memory, output⟩ ⟨start + 2, rest, memory,
      written output (Format.render format.toUTF8.toList arguments)⟩ :=
  Runs.printText holds (prepared.names_place (prepared.lays_text member)) (texts _ _ member) takes

/-- Prints a fixed text. -/
theorem runs_fixed (prepared : Prepared code image size) (texts : Texts image memory)
    {cell text : String} (member : (cell, text) ∈ Environment.texts)
    (plain : Format.conversions text.toUTF8.toList = [])
    (same : Format.render text.toUTF8.toList [] = text.toUTF8.toList) {start : Nat}
    (holds : image.Holds (printText cell) start) (stack : List Word) (output : ByteArray) :
    Runs image none ⟨start, stack, memory, output⟩
      ⟨start + 2, stack, memory, written output text.toUTF8.toList⟩ := by
  have takes : Effect.Takes memory stack (Format.conversions text.toUTF8.toList) [] stack :=
    plain ▸ Effect.takes_nothing
  rw [← List.append_nil (printText cell)] at holds
  have prints := runs_printText prepared texts member holds takes output
  rwa [same] at prints

/-- Prints the text whose address is on the stack. -/
theorem runs_string (prepared : Prepared code image size) (texts : Texts image memory)
    {address : Int32} {index : Nat} {text : List UInt8} (names : Address.Names address index)
    (spells : memory.Spells index text) {start : Nat}
    (holds : image.Holds (printText Cell.stringFormat) start) (stack : List Word)
    (output : ByteArray) :
    Runs image none ⟨start, .integer address :: stack, memory, output⟩
      ⟨start + 2, stack, memory, written output text⟩ := by
  have conversions : Format.conversions "%s".toUTF8.toList = [.string] := by decide +kernel
  have takes : Effect.Takes memory (.integer address :: stack)
      (Format.conversions "%s".toUTF8.toList) [.string text] stack := by
    rw [conversions]
    exact Effect.takes_string names spells
  have bytes : "%s".toUTF8.toList = [37, 115] := by decide +kernel
  have render : Format.render "%s".toUTF8.toList [.string text] = text := by
    rw [bytes]
    exact List.append_nil _
  rw [← List.append_nil (printText Cell.stringFormat)] at holds
  have member : (Cell.stringFormat, "%s") ∈ Environment.texts := by
    simp [Environment.texts, Cell.texts]
  have prints := runs_printText prepared texts member holds takes output
  rwa [render] at prints

/-- Prints a number or a character through a format of one conversion. -/
theorem runs_number (prepared : Prepared code image size) (texts : Texts image memory)
    {cell format : String} (member : (cell, format) ∈ Environment.texts) {value : Int32}
    {text : List UInt8}
    (takes : ∀ stack, Effect.Takes memory (asWord value ++ stack)
      (Format.conversions format.toUTF8.toList) [.integer value] stack)
    (render : Format.render format.toUTF8.toList [.integer value] = text) {start : Nat}
    (holds : image.Holds (printText cell) start) (stack : List Word) (output : ByteArray) :
    Runs image none ⟨start, asWord value ++ stack, memory, output⟩
      ⟨start + 2, stack, memory, written output text⟩ := by
  rw [← List.append_nil (printText cell)] at holds
  have prints := runs_printText prepared texts member holds (takes stack) output
  rwa [render] at prints

/-- A truth value chooses the text to print. -/
theorem runs_boolean (prepared : Prepared code image size) (texts : Texts image memory)
    {labels : LabelGroup} {start : Nat} (holds : image.Holds (boolean labels) start)
    (value : Int32) (stack : List Word) (output : ByteArray) :
    Runs image none ⟨start, asWord value ++ stack, memory, output⟩
      ⟨start + 6, stack, memory,
        written output (if value = 0 then "false" else "true").toUTF8.toList⟩ := by
  have parts : image.Holds (.jumpFalse (labels.label "false") :: ([.pushD Cell.trueText] ++
      .jump (labels.label "join") :: .label (labels.label "false") ::
        ([.pushD Cell.falseText] ++ .label (labels.label "join") ::
          printText Cell.stringFormat))) start := holds
  have chosen := ((Image.holds_cons rfl _ _).mp parts).2
  obtain ⟨_, jumped⟩ := Image.holds_append.mp chosen
  obtain ⟨falseMarks, falseHolds⟩ :=
    (Image.holds_label _ _ _).mp ((Image.holds_cons rfl _ _).mp jumped).2
  obtain ⟨_, joined⟩ := Image.holds_append.mp falseHolds
  obtain ⟨joinMarks, prints⟩ := (Image.holds_label _ _ _).mp joined
  have branches : Runs image none ⟨start, asWord value ++ stack, memory, output⟩
      ⟨if value == 0 then start + 3 else start + 1, stack, memory, output⟩ :=
    Runs.branch prepared.addressable parts rfl falseMarks rfl
  have printString : ∀ cell text, (cell, text) ∈ Environment.texts → Runs image none
      ⟨start + 4, .integer (image.word cell) :: stack, memory, output⟩
      ⟨start + 6, stack, memory, written output text.toUTF8.toList⟩ := fun cell text member =>
    runs_string prepared texts (prepared.names_place (prepared.lays_text member)) (texts _ _ member)
      prints stack output
  by_cases zero : value = 0
  · simp only [zero, beq_self_eq_true, if_true] at branches ⊢
    refine branches.trans (Runs.trans ?_ (printString Cell.falseText "false"
      (by simp [Environment.texts, Cell.texts])))
    exact Runs.falls falseHolds (by simp) joinMarks
  · simp only [zero, beq_iff_eq, if_false] at branches ⊢
    refine branches.trans (Runs.trans ?_ (printString Cell.trueText "true"
      (by simp [Environment.texts, Cell.texts])))
    exact Runs.jumps prepared.addressable chosen (by simp) joinMarks

theorem runs_character (prepared : Prepared code image size) (texts : Texts image memory)
    (value : Int32) {start : Nat} (holds : image.Holds (printText Cell.characterFormat) start)
    (stack : List Word) (output : ByteArray) :
    Runs image none ⟨start, asWord value ++ stack, memory, output⟩
      ⟨start + 2, stack, memory, written output [value.toUInt32.toUInt8]⟩ := by
  have bytes : "%c".toUTF8.toList = [37, 99] := by decide +kernel
  have member : (Cell.characterFormat, "%c") ∈ Environment.texts := by
    simp [Environment.texts, Cell.texts]
  refine runs_number prepared texts member (fun stack => ?_) ?_ holds stack output
  · rw [bytes]
    exact Effect.takes_character value
  · rw [bytes]
    rfl

theorem runs_integer (prepared : Prepared code image size) (texts : Texts image memory)
    (value : Int32) {start : Nat} (holds : image.Holds (printText Cell.integerFormat) start)
    (stack : List Word) (output : ByteArray) :
    Runs image none ⟨start, asWord value ++ stack, memory, output⟩
      ⟨start + 2, stack, memory, written output (asciiBytes (Format.integerText value))⟩ := by
  have bytes : "%d".toUTF8.toList = [37, 100] := by decide +kernel
  have member : (Cell.integerFormat, "%d") ∈ Environment.texts := by
    simp [Environment.texts, Cell.texts]
  refine runs_number prepared texts member (fun stack => ?_) ?_ holds stack output
  · rw [bytes]
    exact Effect.takes_integer value
  · rw [bytes]
    exact List.append_nil _

theorem runs_value (prepared : Prepared code image size) (texts : Texts image memory) {type : Ty}
    (scalar : type.IsScalar) {last next start : Nat} {print : Code}
    (generated : Printing.value type last = .ok (print, next)) (holds : image.Holds print start)
    {value : Int32} {text : List UInt8} (printed : type.printed value = some text)
    (stack : List Word) (output : ByteArray) :
    Runs image none ⟨start, asWord value ++ stack, memory, output⟩
      ⟨start + print.size, stack, memory, written output text⟩ := by
  obtain rfl | rfl | rfl := scalar.cases
  · simp only [Printing.value, bind_eq_ok, pure_eq_ok] at generated
    obtain ⟨labels, _, _, rfl, rfl⟩ := generated
    cases printed
    exact runs_boolean prepared texts holds value stack output
  · obtain ⟨rfl, rfl⟩ := pure_eq_ok.mp generated
    cases printed
    exact runs_character prepared texts value holds stack output
  · obtain ⟨rfl, rfl⟩ := pure_eq_ok.mp generated
    cases printed
    have runs := runs_integer prepared texts value holds stack output
    rwa [Format.integerText_eq] at runs

end Printing

theorem Computes.value {start stop : Nat} {outcome : Outcome Int32} {value : Int32}
    (computes : Computes image memory start [] stop asWord outcome)
    (evaluates : outcome = pure value) (stack : List Word) (output : ByteArray) :
    Runs image none ⟨start, stack, memory, output⟩
      ⟨stop, .integer value :: stack, memory, output⟩ := by
  obtain ⟨result, same, runs⟩ := computes
  cases same.symm.trans evaluates
  exact runs stack output

theorem Computes.fault {start stop : Nat} {outcome : Outcome Int32} {fault : Fault}
    (computes : Computes image memory start [] stop asWord outcome)
    (faults : outcome = throw fault) (stack : List Word) (output : ByteArray) :
    ∃ extra position, image.Marks fault.handler position ∧
      Runs image none ⟨start, stack, memory, output⟩
        ⟨position, extra ++ stack, memory, output⟩ := by
  obtain ⟨result, same, runs⟩ := computes
  cases same.symm.trans faults
  exact runs stack output

/-! ## Exits -/

namespace Exit

/-- Where the machine goes on. -/
def Leads (image : Image) (surroundings : Surroundings) (stop : Nat) : Exit → Nat → Prop
  | .next, position => position = stop
  | .break, position => ∃ context, surroundings.innermostLoop = .ok context ∧
      image.Marks context.endLabel position
  | .continue, position => ∃ context, surroundings.innermostLoop = .ok context ∧
      image.Marks context.continueLabel position
  | .fault reason, position => image.Marks reason.handler position

/-- Only a fault leaves words on the stack. -/
def Leaves : Exit → List Word → Prop
  | .fault _, _ => True
  | _, extra => extra = []

end Exit

/-- From a place in the code on, the machine gets to where the exit leads, with the store
in memory and the text printed. -/
def Performs (image : Image) (bindings : List Binding) (surroundings : Surroundings)
    (start stop : Nat) (memory : Memory) (exit : Exit) (after : Store) (text : List UInt8) :
    Prop :=
  ∀ stack output, ∃ position extra memory', exit.Leads image surroundings stop position ∧
    exit.Leaves extra ∧ Represents image bindings after memory' ∧
    Runs image none ⟨start, stack, memory, output⟩
      ⟨position, extra ++ stack, memory', written output text⟩

namespace Performs

variable {surroundings : Surroundings} {start middle stop : Nat} {exit : Exit} {after : Store}
  {text more : List UInt8}

theorem before
    (runs : ∀ stack output, Runs image none ⟨start, stack, memory, output⟩
      ⟨middle, stack, memory, output⟩)
    (performs : Performs image bindings surroundings middle stop memory exit after text) :
    Performs image bindings surroundings start stop memory exit after text := by
  intro stack output
  obtain ⟨position, extra, memory', leads, leaves, represents, later⟩ := performs stack output
  exact ⟨position, extra, memory', leads, leaves, represents, (runs stack output).trans later⟩

/-- What is reached in order is followed by what comes next. -/
theorem next {between : Store}
    (first : Performs image bindings surroundings start middle memory .next between text)
    (later : ∀ memory', Represents image bindings between memory' →
      Performs image bindings surroundings middle stop memory' exit after more) :
    Performs image bindings surroundings start stop memory exit after (text ++ more) := by
  intro stack output
  obtain ⟨_, _, between, rfl, rfl, represents, runs⟩ := first stack output
  obtain ⟨position, extra, memory', leads, leaves, representsAfter, others⟩ :=
    later between represents stack (written output text)
  refine ⟨position, extra, memory', leads, leaves, representsAfter, ?_⟩
  rw [written_append]
  exact runs.trans others

/-- An exit of another kind does not depend on what comes next. -/
theorem left (left : exit ≠ .next)
    (performs : Performs image bindings surroundings start middle memory exit after text)
    (stop : Nat) : Performs image bindings surroundings start stop memory exit after text := by
  cases exit with
  | next => exact absurd rfl left
  | _ => exact performs

/-- The code behind a statement may lead elsewhere before the next one. -/
theorem follow
    (performs : Performs image bindings surroundings start middle memory exit after text)
    (runs : ∀ stack memory output, Runs image none ⟨middle, stack, memory, output⟩
      ⟨stop, stack, memory, output⟩) :
    Performs image bindings surroundings start stop memory exit after text := by
  cases exit with
  | next =>
      intro stack output
      obtain ⟨_, _, memory', rfl, rfl, represents, later⟩ := performs stack output
      exact ⟨stop, [], memory', rfl, rfl, represents, later.trans (runs _ _ _)⟩
  | _ => exact performs

end Performs

section

variable {surroundings : Surroundings} {start : Nat}

theorem performs_next (represents : Represents image bindings store memory) {stop : Nat}
    {text : List UInt8}
    (runs : ∀ stack output, Runs image none ⟨start, stack, memory, output⟩
      ⟨stop, stack, memory, written output text⟩) :
    Performs image bindings surroundings start stop memory .next store text :=
  fun stack output => ⟨stop, [], memory, rfl, rfl, represents, runs stack output⟩

/-- A fault in an expression, with words of the statement below. -/
theorem performs_fault (represents : Represents image bindings store memory) {middle between : Nat}
    {outcome : Outcome Int32} {fault : Fault} {below : List Word}
    (runs : ∀ stack output, Runs image none ⟨start, stack, memory, output⟩
      ⟨middle, below ++ stack, memory, output⟩)
    (computes : Computes image memory middle [] between asWord outcome)
    (faults : outcome = throw fault) (stop : Nat) :
    Performs image bindings surroundings start stop memory (.fault fault) store [] := by
  intro stack output
  obtain ⟨extra, position, marks, later⟩ := computes.fault faults (below ++ stack) output
  refine ⟨position, extra ++ below, memory, marks, trivial, represents, ?_⟩
  rw [List.append_assoc]
  exact (runs stack output).trans later

/-! ## Statements -/

theorem Binding.runs_address {binding : Binding} {rest : Code}
    (holds : image.Holds (binding.globalAddressCode ++ rest) start) (stack : List Word)
    (output : ByteArray) :
    Runs image none ⟨start, stack, memory, output⟩
      ⟨start + 3, [.integer (image.word Cell.globalBlock + binding.location.offset)] ++ stack,
        memory, output⟩ :=
  Runs.straight (Image.holds_append.mp holds).1 (by simp [globalAddressCode])

theorem Laid.code_declaration (laid : Laid bindings size) {binding : Binding}
    (known : binding ∈ bindings) {value : Expr} {last next : Nat} {statement : Code}
    (generated : (Statement.declaration binding value false).code surroundings last =
      .ok (statement, next)) :
    ∃ valueCode, value.valueCode last = .ok (valueCode, next) ∧
      statement = binding.globalAddressCode ++ (valueCode ++ binding.type.storeCode) := by
  obtain ⟨address, valueCode, stored, addressed, made, storing, rfl⟩ :=
    Statement.code_declaration.mp generated
  rw [laid.addressCode known] at addressed
  rw [(laid.scalar binding known).store] at storing
  cases addressed
  cases storing
  exact ⟨valueCode, made, List.append_assoc _ _ _⟩

theorem Laid.code_assignment (laid : Laid bindings size) {binding : Binding}
    (known : binding ∈ bindings) {value : Expr} {last next : Nat} {statement : Code}
    (generated : (Statement.assignment (.typed binding.type (.identifier binding)) value).code
      surroundings last = .ok (statement, next)) :
    ∃ valueCode, value.valueCode last = .ok (valueCode, next) ∧
      statement = binding.globalAddressCode ++ (valueCode ++ binding.type.storeCode) := by
  obtain ⟨target, _, valueCode, stored, targeted, _, made, storing, rfl⟩ :=
    Statement.code_assignment.mp generated
  rw [Expr.fragment_eq] at targeted
  obtain ⟨address, addressed, rfl, rfl⟩ := Form.fragment_identifier.mp targeted
  rw [laid.addressCode known] at addressed
  rw [Expr.type, (laid.scalar binding known).store] at storing
  cases addressed
  cases storing
  exact ⟨valueCode, made, List.append_assoc _ _ _⟩

/-- A condition on the stack decides whether the code goes on or jumps. -/
theorem runs_condition (addressable : image.Addressable) {target : String} {rest : Code}
    {position : Nat} (holds : image.Holds (.jumpFalse target :: rest) start)
    (marks : image.Marks target position) (value : Int32) (stack : List Word)
    (output : ByteArray) :
    Runs image none ⟨start, .integer value :: stack, memory, output⟩
      ⟨if value = 0 then position else start + 1, stack, memory, output⟩ := by
  have branches : Runs image none ⟨start, .integer value :: stack, memory, output⟩
      ⟨if (value == 0) = true then position else start + 1, stack, memory, output⟩ :=
    Runs.branch addressable holds rfl marks rfl
  simpa only [beq_iff_eq] using branches

/-- The loop around a statement is in the image where there has to be one. -/
def Surroundings.Placed (image : Image) (surroundings : Surroundings) : Prop :=
  ∃ context, surroundings.innermostLoop = .ok context ∧
    (∃ position, image.Marks context.continueLabel position) ∧
    ∃ position, image.Marks context.endLabel position

section

variable (prepared : Prepared code image size) (laid : Laid bindings size)
  (represents : Represents image bindings store memory)
include prepared laid represents

theorem performs_storing {binding : Binding} (known : binding ∈ bindings) {value : Expr}
    (scalar : value.IsScalar bindings) (typed : value.type = binding.type) {last next : Nat}
    {valueCode : Code} (generated : value.valueCode last = .ok (valueCode, next))
    (holds : image.Holds (binding.globalAddressCode ++ (valueCode ++ binding.type.storeCode)) start)
    {result : Int32} (evaluates : value.evaluate store = pure result) :
    Performs image bindings surroundings start
      (start + Code.size (binding.globalAddressCode ++ (valueCode ++ binding.type.storeCode)))
      memory .next (store.set binding result) [] := by
  obtain ⟨bytes, encoded, decoded⟩ := scalar.admits laid represents evaluates
  rw [typed] at encoded decoded
  obtain ⟨inside, block⟩ := prepared.variable_inside laid known
  have room := represents.room
  have inMemory : image.place Cell.globalBlock + binding.start + binding.type.width ≤
      memory.size := by omega
  obtain ⟨valueHolds, storeHolds⟩ := Image.holds_append.mp (Image.holds_append.mp holds).2
  have computes := scalar.computes prepared laid represents generated valueHolds
  intro stack output
  have stores : Code.act image.word binding.type.storeCode (asWord result ++
      .integer (image.word Cell.globalBlock + binding.location.offset) :: stack) memory =
      some (stack, memory.write (image.place Cell.globalBlock + binding.start) bytes) :=
    (laid.scalar binding known).act_storeCode encoded (prepared.names_variable laid known) inMemory
  refine ⟨_, [], _, rfl, rfl, represents.write prepared laid known encoded decoded, ?_⟩
  rw [size_append, size_append, ← Nat.add_assoc, ← Nat.add_assoc]
  exact (binding.runs_address holds stack output).trans
    ((computes.value evaluates _ output).trans (Runs.straight storeHolds stores))

theorem performs_storingFault {binding : Binding} {value : Expr}
    (scalar : value.IsScalar bindings) {last next : Nat} {valueCode : Code}
    (generated : value.valueCode last = .ok (valueCode, next))
    (holds : image.Holds (binding.globalAddressCode ++ (valueCode ++ binding.type.storeCode)) start)
    {fault : Fault} (faults : value.evaluate store = throw fault) (stop : Nat) :
    Performs image bindings surroundings start stop memory (.fault fault) store [] := by
  have valueHolds := (Image.holds_append.mp (Image.holds_append.mp holds).2).1
  exact performs_fault represents (binding.runs_address holds)
    (scalar.computes prepared laid represents generated valueHolds) faults stop

theorem PrintItem.performs {item : PrintItem}
    (scalar : ∀ value, .expression value = item → value.IsScalar bindings) {last next : Nat}
    {print : Code} (generated : item.code last = .ok (print, next))
    (holds : image.Holds print start) {text : List UInt8}
    (printed : item.printed store = pure text) :
    Performs image bindings surroundings start (start + print.size) memory .next store text := by
  have fixed : ∀ cell fixedText, (cell, fixedText) ∈ Environment.texts →
      Format.conversions fixedText.toUTF8.toList = [] →
      Format.render fixedText.toUTF8.toList [] = fixedText.toUTF8.toList →
      print = Printing.printText cell → text = fixedText.toUTF8.toList →
      Performs image bindings surroundings start (start + print.size) memory .next store text := by
    rintro cell fixedText member plain same rfl rfl
    exact performs_next represents
      (Printing.runs_fixed prepared represents.texts member plain same holds)
  cases item with
  | expression value =>
      obtain ⟨valueCode, middle, printCode, made, printMade, rfl⟩ :=
        PrintItem.code_expression.mp generated
      have valueScalar := scalar value rfl
      obtain ⟨result, evaluates, lifted⟩ := Outcome.bind_eq_pure.mp printed
      have printed : value.type.printed result = some text := by
        cases found : value.type.printed result with
        | none =>
            rw [found] at lifted
            cases lifted
        | some other =>
            rw [found] at lifted
            cases lifted
            rfl
      obtain ⟨valueHolds, printHolds⟩ := Image.holds_append.mp holds
      have computes := valueScalar.computes prepared laid represents made valueHolds
      rw [size_append, ← Nat.add_assoc]
      exact performs_next represents fun stack output =>
        (computes.value evaluates stack output).trans
          (Printing.runs_value prepared represents.texts (valueScalar.isScalar_type laid) printMade
            printHolds printed stack output)
  | newline =>
      obtain ⟨same, _⟩ := PrintItem.code_newline.mp generated
      cases printed
      exact fixed _ "\n" (by simp [Environment.texts, Cell.texts]) (by decide +kernel)
        (by decide +kernel) same rfl
  | space =>
      obtain ⟨same, _⟩ := PrintItem.code_space.mp generated
      cases printed
      exact fixed _ " " (by simp [Environment.texts, Cell.texts]) (by decide +kernel)
        (by decide +kernel) same rfl
  | tab =>
      obtain ⟨same, _⟩ := PrintItem.code_tab.mp generated
      cases printed
      exact fixed _ "\t" (by simp [Environment.texts, Cell.texts]) (by decide +kernel)
        (by decide +kernel) same rfl

theorem PrintItem.performs_fault {item : PrintItem}
    (scalar : ∀ value, .expression value = item → value.IsScalar bindings) {last next : Nat}
    {print : Code} (generated : item.code last = .ok (print, next))
    (holds : image.Holds print start) {fault : Fault}
    (faults : item.printed store = throw fault) (stop : Nat) :
    Performs image bindings surroundings start stop memory (.fault fault) store [] := by
  cases item with
  | expression value =>
      obtain ⟨valueCode, middle, printCode, made, printMade, rfl⟩ :=
        PrintItem.code_expression.mp generated
      obtain faults | ⟨result, _, lifted⟩ := Outcome.bind_eq_throw.mp faults
      · have computes := (scalar value rfl).computes prepared laid represents made
          (Image.holds_append.mp holds).1
        have starts : ∀ stack output, Runs image none ⟨start, stack, memory, output⟩
            ⟨start, [] ++ stack, memory, output⟩ := fun stack output => Runs.refl _
        exact StackBackend.performs_fault represents starts computes faults stop
      · cases found : value.type.printed result with
        | none =>
            rw [found] at lifted
            cases lifted
        | some text =>
            rw [found] at lifted
            cases lifted
  | _ => cases faults

end

/-! ### Conditionals -/

/-- Where the parts of a conditional are. -/
structure BranchPlaced (image : Image) (labels : LabelGroup) (condition thenCode elseCode : Code)
    (start stop : Nat) : Prop where
  conditionHolds : image.Holds condition start
  decides : ∃ rest, image.Holds (.jumpFalse (labels.label "else") :: rest) (start + condition.size)
  thenHolds : image.Holds thenCode (start + condition.size + 1)
  skips : ∃ rest, image.Holds (.jump (labels.label "join") :: rest)
    (start + condition.size + 1 + thenCode.size)
  elseMarks : image.Marks (labels.label "else") (start + condition.size + 1 + thenCode.size + 1)
  elseHolds : image.Holds elseCode (start + condition.size + 1 + thenCode.size + 1)
  joinMarks : image.Marks (labels.label "join") stop
  stop : stop = start + condition.size + 1 + thenCode.size + 1 + elseCode.size

theorem Statement.elseCode_eq (surroundings : Surroundings) (elseBlock : Option (List Statement)) :
    Statement.elseCode surroundings elseBlock = blockCode surroundings (elseBlock.getD []) := by
  cases elseBlock with
  | none => rw [Statement.elseCode, Option.getD_none, blockCode]
  | some statements => rfl

theorem branchPlaced {labels : LabelGroup} {condition thenCode elseCode : Code}
    (holds : image.Holds (Statement.branchCode labels condition thenCode elseCode) start) :
    BranchPlaced image labels condition thenCode elseCode start
      (start + (Statement.branchCode labels condition thenCode elseCode).size) := by
  have stop : start + (Statement.branchCode labels condition thenCode elseCode).size =
      start + condition.size + 1 + thenCode.size + 1 + elseCode.size := by
    simp only [Statement.branchCode, join_cons, join_nil, size_append, size_cons, size_nil,
      Instruction.isDirective]
    simp
    omega
  have parts : image.Holds (condition ++ (.jumpFalse (labels.label "else") :: (thenCode ++
      (.jump (labels.label "join") :: .label (labels.label "else") :: (elseCode ++
        [.label (labels.label "join")]))))) start := holds
  obtain ⟨conditionHolds, decides⟩ := Image.holds_append.mp parts
  obtain ⟨thenHolds, skips⟩ := Image.holds_append.mp ((Image.holds_cons rfl _ _).mp decides).2
  obtain ⟨elseMarks, elseHolds⟩ :=
    (Image.holds_label _ _ _).mp ((Image.holds_cons rfl _ _).mp skips).2
  obtain ⟨elseHolds, joined⟩ := Image.holds_append.mp elseHolds
  exact ⟨conditionHolds, ⟨_, decides⟩, thenHolds, ⟨_, skips⟩, elseMarks, elseHolds,
    stop ▸ ((Image.holds_label _ _ _).mp joined).1, stop⟩

theorem performs_branch (addressable : image.Addressable) {labels : LabelGroup}
    {condition thenCode elseCode : Code} {stop : Nat} {exit : Exit} {after : Store}
    {text : List UInt8} (placed : BranchPlaced image labels condition thenCode elseCode start stop)
    {outcome : Outcome Int32} {value : Int32}
    (computes : Computes image memory start [] (start + condition.size) asWord outcome)
    (evaluates : outcome = pure value)
    (branch : ∀ first, image.Holds (if value = 0 then elseCode else thenCode) first →
      Performs image bindings surroundings first
        (first + Code.size (if value = 0 then elseCode else thenCode)) memory exit after text) :
    Performs image bindings surroundings start stop memory exit after text := by
  obtain ⟨_, decides⟩ := placed.decides
  have chooses : ∀ stack output, Runs image none ⟨start, stack, memory, output⟩ _ :=
    fun stack output => (computes.value evaluates stack output).trans
      (runs_condition addressable decides placed.elseMarks value stack output)
  by_cases zero : value = 0
  · simp only [zero, if_true] at branch chooses
    rw [placed.stop]
    exact (branch _ placed.elseHolds).before chooses
  · simp only [zero, if_false] at branch chooses
    obtain ⟨_, skips⟩ := placed.skips
    exact ((branch _ placed.thenHolds).before chooses).follow fun stack memory output =>
      Runs.jump addressable skips placed.joinMarks

/-! ### Loops -/

/-- Where the parts of a loop are. -/
structure LoopPlaced (image : Image) (labels : LabelGroup) (condition body : Code)
    (start stop : Nat) : Prop where
  startMarks : image.Marks (labels.label "start") start
  conditionHolds : image.Holds condition start
  decides : ∃ rest, image.Holds (.jumpFalse (labels.label "end") :: rest) (start + condition.size)
  bodyHolds : image.Holds body (start + condition.size + 1)
  returns : ∃ rest, image.Holds (.jump (labels.label "start") :: rest)
    (start + condition.size + 1 + body.size)
  endMarks : image.Marks (labels.label "end") stop

theorem loopPlaced {labels : LabelGroup} {condition body : Code}
    (holds : image.Holds (Statement.loopCode labels condition body) start) :
    LoopPlaced image labels condition body start
      (start + (Statement.loopCode labels condition body).size) := by
  have stop : start + (Statement.loopCode labels condition body).size =
      start + condition.size + 1 + body.size + 1 := by
    simp only [Statement.loopCode, join_cons, join_nil, size_append, size_cons, size_nil,
      Instruction.isDirective]
    simp
    omega
  have parts : image.Holds (.label (labels.label "start") :: (condition ++
      (.jumpFalse (labels.label "end") :: (body ++ (.jump (labels.label "start") ::
        [.label (labels.label "end")]))))) start := holds
  obtain ⟨startMarks, conditionHolds⟩ := (Image.holds_label _ _ _).mp parts
  obtain ⟨conditionHolds, decides⟩ := Image.holds_append.mp conditionHolds
  obtain ⟨bodyHolds, returns⟩ := Image.holds_append.mp ((Image.holds_cons rfl _ _).mp decides).2
  have ended := (Image.holds_label _ _ _).mp ((Image.holds_cons rfl _ _).mp returns).2
  exact ⟨startMarks, conditionHolds, ⟨_, decides⟩, bodyHolds, ⟨_, returns⟩, stop ▸ ended.1⟩

namespace LoopPlaced

variable {labels : LabelGroup} {condition body : Code} {stop : Nat}

/-- The loop as its body sees it. -/
theorem inner (placed : LoopPlaced image labels condition body start stop) :
    (surroundings.enterLoop
      ⟨labels.label "start", labels.label "end", none⟩).Placed image :=
  ⟨_, rfl, ⟨start, placed.startMarks⟩, ⟨stop, placed.endMarks⟩⟩

theorem back (addressable : image.Addressable)
    (placed : LoopPlaced image labels condition body start stop) (stack : List Word)
    (memory : Memory) (output : ByteArray) :
    Runs image none ⟨start + condition.size + 1 + body.size, stack, memory, output⟩
      ⟨start, stack, memory, output⟩ := by
  obtain ⟨_, returns⟩ := placed.returns
  exact Runs.jump addressable returns placed.startMarks

theorem enters (addressable : image.Addressable)
    (placed : LoopPlaced image labels condition body start stop) {outcome : Outcome Int32}
    {value : Int32}
    (computes : Computes image memory start [] (start + condition.size) asWord outcome)
    (evaluates : outcome = pure value) (nonzero : value ≠ 0) (stack : List Word)
    (output : ByteArray) :
    Runs image none ⟨start, stack, memory, output⟩
      ⟨start + condition.size + 1, stack, memory, output⟩ := by
  obtain ⟨_, decides⟩ := placed.decides
  have chooses : Runs image none
      ⟨start + condition.size, .integer value :: stack, memory, output⟩
      ⟨if value = 0 then stop else start + condition.size + 1, stack, memory, output⟩ :=
    runs_condition addressable decides placed.endMarks value stack output
  rw [if_neg nonzero] at chooses
  exact (computes.value evaluates stack output).trans chooses

end LoopPlaced

namespace Performs

variable {context : LoopContext} {first middle stop : Nat} {exit : Exit} {after : Store}
  {text : List UInt8}

/-- At the end of its body and at a `continue` a loop goes on from its start. -/
theorem again
    (performs : Performs image bindings (surroundings.enterLoop context) first middle memory exit
      after text) (goesOn : exit = .next ∨ exit = .continue)
    (back : ∀ stack memory output, Runs image none ⟨middle, stack, memory, output⟩
      ⟨start, stack, memory, output⟩)
    (marks : image.Marks context.continueLabel start) :
    Performs image bindings surroundings first start memory .next after text := by
  intro stack output
  obtain ⟨position, extra, memory', leads, leaves, represents, runs⟩ := performs stack output
  refine ⟨start, [], memory', rfl, rfl, represents, ?_⟩
  obtain rfl | rfl := goesOn
  · cases leads
    cases leaves
    exact runs.trans (back _ _ _)
  · obtain ⟨_, innermost, reached⟩ := leads
    cases innermost
    cases leaves
    exact reached.unique marks ▸ runs

theorem broken
    (performs : Performs image bindings (surroundings.enterLoop context) first middle memory .break
      after text) (marks : image.Marks context.endLabel stop) :
    Performs image bindings surroundings first stop memory .next after text := by
  intro stack output
  obtain ⟨position, extra, memory', ⟨_, innermost, reached⟩, leaves, represents, runs⟩ :=
    performs stack output
  cases innermost
  cases leaves
  exact ⟨stop, [], memory', rfl, rfl, represents, reached.unique marks ▸ runs⟩

end Performs

/-! ### The induction -/

theorem Executes.performs {statement : Statement} {exit : Exit} {after : Store}
    {text : List UInt8} (executes : Executes store statement exit after text)
    (prepared : Prepared code image size) (laid : Laid bindings size) {inLoop : Bool}
    (scalar : statement.IsScalar bindings inLoop)
    (loops : inLoop = true → surroundings.Placed image) {last next : Nat} {statementCode : Code}
    (generated : statement.code surroundings last = .ok (statementCode, next))
    (holds : image.Holds statementCode start)
    (represents : Represents image bindings store memory) :
    Performs image bindings surroundings start (start + statementCode.size) memory exit after
      text := by
  induction executes generalizing inLoop surroundings last next statementCode start memory with
  | fault first faults =>
      have here : ∀ stack output, Runs image none ⟨start, stack, memory, output⟩
          ⟨start, [] ++ stack, memory, output⟩ := fun stack output => Runs.refl _
      cases scalar with
      | declaration known valueScalar typed =>
          cases first
          obtain ⟨valueCode, made, rfl⟩ := laid.code_declaration known generated
          exact performs_storingFault prepared laid represents valueScalar made holds faults _
      | assignment known valueScalar typed =>
          cases first
          obtain ⟨valueCode, made, rfl⟩ := laid.code_assignment known generated
          exact performs_storingFault prepared laid represents valueScalar made holds faults _
      | ifElse conditionScalar _ _ _ =>
          cases first
          obtain ⟨conditionCode, _, _, _, _, made, _, _, rfl⟩ := Statement.code_ifElse.mp generated
          exact performs_fault represents here (conditionScalar.computes prepared laid represents
            made (branchPlaced holds).conditionHolds) faults _
      | «while» conditionScalar _ _ =>
          cases first
          obtain ⟨conditionCode, _, _, made, _, rfl⟩ := Statement.code_while.mp generated
          exact performs_fault represents here (conditionScalar.computes prepared laid represents
            made (loopPlaced holds).conditionHolds) faults _
      | _ => cases first
  | declaration evaluates =>
      cases scalar with
      | declaration known valueScalar typed =>
          obtain ⟨valueCode, made, rfl⟩ := laid.code_declaration known generated
          exact performs_storing prepared laid represents known valueScalar typed made holds evaluates
  | assignment evaluates =>
      cases scalar with
      | assignment known valueScalar typed =>
          obtain ⟨valueCode, made, rfl⟩ := laid.code_assignment known generated
          exact performs_storing prepared laid represents known valueScalar typed made holds evaluates
  | printNothing =>
      obtain ⟨rfl, rfl⟩ := printItemsCode_nil.mp (Statement.code_print.mp generated)
      exact performs_next represents fun stack output => Runs.refl _
  | @printFault _ item rest fault faults =>
      cases scalar with
      | print itemsScalar =>
          obtain ⟨print, middle, others, made, _, rfl⟩ :=
            printItemsCode_cons.mp (Statement.code_print.mp generated)
          exact PrintItem.performs_fault prepared laid represents
            (fun value same => itemsScalar value (by simp [same])) made
            (Image.holds_append.mp holds).1 faults _
  | @print _ item rest exit text output printed _ others =>
      cases scalar with
      | print itemsScalar =>
          obtain ⟨print, middle, othersCode, made, othersMade, rfl⟩ :=
            printItemsCode_cons.mp (Statement.code_print.mp generated)
          obtain ⟨printHolds, othersHold⟩ := Image.holds_append.mp holds
          have first : Performs image bindings surroundings start (start + print.size) memory .next
              _ _ := PrintItem.performs prepared laid represents
            (fun value same => itemsScalar value (by simp [same])) made printHolds printed
          rw [size_append, ← Nat.add_assoc]
          exact first.next fun memory' represents => others
            (.print fun value member => itemsScalar value (by simp [member])) loops
            (Statement.code_print.mpr othersMade) othersHold represents
  | @ifElse _ condition thenBlock elseBlock value exit after output evaluates _ branch =>
      cases scalar with
      | ifElse conditionScalar _ thenScalar elseScalar =>
          obtain ⟨conditionCode, middle, thenCode, middle', elseCode, made, thenMade, elseMade,
            rfl⟩ := Statement.code_ifElse.mp generated
          have placed := branchPlaced holds
          have computes := conditionScalar.computes prepared laid represents made
            placed.conditionHolds
          refine performs_branch prepared.addressable placed computes evaluates
            fun first branchHolds => ?_
          rw [Statement.elseCode_eq] at elseMade
          by_cases zero : value = 0
          · simp only [zero, if_true] at branch branchHolds ⊢
            exact branch (.block elseScalar) loops (Statement.code_block.mpr elseMade) branchHolds
              represents
          · simp only [zero, if_false] at branch branchHolds ⊢
            exact branch (.block thenScalar) loops (Statement.code_block.mpr thenMade) branchHolds
              represents
  | whileDone evaluates =>
      cases scalar with
      | «while» conditionScalar _ _ =>
          obtain ⟨conditionCode, middle, bodyCode, made, bodyMade, rfl⟩ :=
            Statement.code_while.mp generated
          have placed := loopPlaced holds
          have computes := conditionScalar.computes prepared laid represents made
            placed.conditionHolds
          obtain ⟨_, decides⟩ := placed.decides
          exact performs_next represents fun stack output =>
            (computes.value evaluates stack output).trans
              (runs_condition prepared.addressable decides placed.endMarks 0 stack output)
  | whileAgain evaluates nonzero _ goesOn _ once again =>
      have whole := scalar
      cases scalar with
      | «while» conditionScalar _ bodyScalar =>
          obtain ⟨conditionCode, middle, bodyCode, made, bodyMade, rfl⟩ :=
            Statement.code_while.mp generated
          have placed := loopPlaced holds
          have enters := placed.enters prepared.addressable
            (conditionScalar.computes prepared laid represents made placed.conditionHolds)
            evaluates nonzero
          have body := once (.block bodyScalar) (fun _ => placed.inner)
            (Statement.code_block.mpr bodyMade) placed.bodyHolds represents
          have round := (body.again goesOn (placed.back prepared.addressable)
            placed.startMarks).before enters
          exact round.next fun memory' represents =>
            again whole loops generated holds represents
  | whileBreak evaluates nonzero _ once =>
      cases scalar with
      | «while» conditionScalar _ bodyScalar =>
          obtain ⟨conditionCode, middle, bodyCode, made, bodyMade, rfl⟩ :=
            Statement.code_while.mp generated
          have placed := loopPlaced holds
          have enters := placed.enters prepared.addressable
            (conditionScalar.computes prepared laid represents made placed.conditionHolds)
            evaluates nonzero
          have body := once (.block bodyScalar) (fun _ => placed.inner)
            (Statement.code_block.mpr bodyMade) placed.bodyHolds represents
          exact (body.broken placed.endMarks).before enters
  | whileFault evaluates nonzero _ once =>
      cases scalar with
      | «while» conditionScalar _ bodyScalar =>
          obtain ⟨conditionCode, middle, bodyCode, made, bodyMade, rfl⟩ :=
            Statement.code_while.mp generated
          have placed := loopPlaced holds
          have enters := placed.enters prepared.addressable
            (conditionScalar.computes prepared laid represents made placed.conditionHolds)
            evaluates nonzero
          have body := once (.block bodyScalar) (fun _ => placed.inner)
            (Statement.code_block.mpr bodyMade) placed.bodyHolds represents
          exact body.before enters
  | «break» =>
      cases scalar
      obtain ⟨context, innermost, rfl, rfl⟩ := Statement.code_break.mp generated
      obtain ⟨_, same, _, position, marks⟩ := loops rfl
      cases innermost.symm.trans same
      exact fun stack output => ⟨position, [], memory, ⟨context, innermost, marks⟩, rfl, represents,
        Runs.jump prepared.addressable holds marks⟩
  | «continue» =>
      cases scalar
      obtain ⟨context, innermost, rfl, rfl⟩ := Statement.code_continue.mp generated
      obtain ⟨_, same, ⟨position, marks⟩, _⟩ := loops rfl
      cases innermost.symm.trans same
      exact fun stack output => ⟨position, [], memory, ⟨context, innermost, marks⟩, rfl, represents,
        Runs.jump prepared.addressable holds marks⟩
  | blockEnd =>
      obtain ⟨rfl, rfl⟩ := blockCode_nil.mp (Statement.code_block.mp generated)
      exact performs_next represents fun stack output => Runs.refl _
  | blockNext _ _ once others =>
      cases scalar with
      | block each =>
          obtain ⟨first, rest⟩ := List.forall_mem_cons.mp each
          obtain ⟨firstCode, middle, restCode, made, restMade, rfl⟩ :=
            blockCode_cons.mp (Statement.code_block.mp generated)
          obtain ⟨firstHolds, restHolds⟩ := Image.holds_append.mp holds
          rw [size_append, ← Nat.add_assoc]
          exact (once first loops made firstHolds represents).next fun memory' represents =>
            others (.block rest) loops (Statement.code_block.mpr restMade) restHolds represents
  | blockLeft _ left once =>
      cases scalar with
      | block each =>
          obtain ⟨firstCode, middle, restCode, made, restMade, rfl⟩ :=
            blockCode_cons.mp (Statement.code_block.mp generated)
          exact (once (List.forall_mem_cons.mp each).1 loops made (Image.holds_append.mp holds).1
            represents).left left _

end

end

end StackBackend
