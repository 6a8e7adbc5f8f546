import StackBackend.Proofs.Simulation

namespace StackBackend

/-! What formatted output prints. A format is scanned twice, once for the conversions it asks
for and once to put their arguments in. Here its expansion is described without either scan, and
both are shown to follow the description. -/

namespace Format

/-- An argument is of the kind that a conversion asks for. -/
inductive Fits : Conversion → Argument → Prop
  | integer (value : Int32) : Fits .integer (.integer value)
  | floating (value : Binary64) : Fits .floating (.floating value)
  | character (value : Int32) : Fits .character (.integer value)
  | string (bytes : List UInt8) : Fits .string (.string bytes)

/-- The text that a format and its arguments stand for, read from the left. No case takes an
argument that is not there, and none may be left over at the end. -/
inductive Expands : List UInt8 → List Argument → List UInt8 → Prop
  | nothing : Expands [] [] []
  | plain {byte : UInt8} {format arguments text} (ordinary : byte ≠ 37)
      (rest : Expands format arguments text) : Expands (byte :: format) arguments (byte :: text)
  /-- The letter d. -/
  | integer {format arguments text} (value : Int32) (rest : Expands format arguments text) :
      Expands (37 :: 100 :: format) (.integer value :: arguments)
        (asciiBytes (toString value.toInt).toList ++ text)
  /-- The letter g. -/
  | floating {format arguments text} (value : Binary64) (rest : Expands format arguments text) :
      Expands (37 :: 103 :: format) (.floating value :: arguments)
        (asciiBytes value.compactText ++ text)
  /-- The letter c. -/
  | character {format arguments text} (value : Int32) (rest : Expands format arguments text) :
      Expands (37 :: 99 :: format) (.integer value :: arguments)
        (value.toUInt32.toUInt8 :: text)
  /-- The letter s. -/
  | string {format arguments text} (bytes : List UInt8) (rest : Expands format arguments text) :
      Expands (37 :: 115 :: format) (.string bytes :: arguments) (bytes ++ text)
  | doubled {format arguments text} (rest : Expands format arguments text) :
      Expands (37 :: 37 :: format) arguments (37 :: text)
  | unknown {letter : UInt8} {format arguments text} (other : letter ∉ [100, 103, 99, 115, 37])
      (rest : Expands format arguments text) :
      Expands (37 :: letter :: format) arguments (37 :: letter :: text)
  | trailing : Expands [37] [] [37]

/-! ## The two scans -/

theorem conversion?_eq_some {letter : UInt8} {conversion : Conversion} :
    conversion? letter = some conversion ↔
      (letter = 100 ∧ conversion = .integer) ∨ (letter = 103 ∧ conversion = .floating) ∨
        (letter = 99 ∧ conversion = .character) ∨ (letter = 115 ∧ conversion = .string) := by
  unfold conversion?
  grind

theorem conversion?_eq_none {letter : UInt8} :
    conversion? letter = none ↔ letter ∉ [100, 103, 99, 115] := by
  unfold conversion?
  grind

theorem conversions_plain {byte : UInt8} (ordinary : byte ≠ 37) (rest : List UInt8) :
    conversions (byte :: rest) = conversions rest := by
  cases rest <;> simp [conversions, percent, ordinary]

theorem render_plain {byte : UInt8} (ordinary : byte ≠ 37) (rest : List UInt8)
    (arguments : List Argument) :
    render (byte :: rest) arguments = byte :: render rest arguments := by
  cases rest <;> simp [render, percent, ordinary]

/-- A conversion and an argument that fits it. -/
theorem Expands.conversion {letter : UInt8} {conversion : Conversion} {argument : Argument}
    {format text : List UInt8} {arguments : List Argument}
    (asks : conversion? letter = some conversion) (fits : Fits conversion argument)
    (rest : Expands format arguments text) :
    Expands (37 :: letter :: format) (argument :: arguments)
      (expand conversion argument ++ text) := by
  rcases conversion?_eq_some.mp asks with ⟨rfl, rfl⟩ | ⟨rfl, rfl⟩ | ⟨rfl, rfl⟩ | ⟨rfl, rfl⟩
  · cases fits with
    | integer value =>
        rw [expand, integerText_eq]
        · exact .integer value rest
        · intro same
          cases same
  · cases fits with
    | floating value => exact .floating value rest
  · cases fits with
    | character value => exact .character value rest
  · cases fits with
    | string bytes => exact .string bytes rest

/-- Putting in arguments that fit the conversions gives the expansion. -/
theorem expands_render (format : List UInt8) {arguments : List Argument}
    (fits : List.Forall₂ Fits (conversions format) arguments) :
    Expands format arguments (render format arguments) := by
  fun_induction conversions format generalizing arguments with
  | case1 =>
      cases fits
      exact .nothing
  | case2 =>
      cases fits
      exact .trailing
  | case3 letter after conversion asks induction =>
      cases fits with
      | cons first others =>
          simp only [render, if_true, asks]
          exact .conversion asks first (induction others)
  | case4 letter after unasked induction =>
      simp only [render, if_true, unasked]
      split
      · rename_i doubled
        rw [doubled]
        exact .doubled (induction fits)
      · rename_i single
        have others := conversion?_eq_none.mp unasked
        apply Expands.unknown _ (induction fits)
        unfold percent at single
        simp_all
  | case5 byte rest ordinary induction =>
      rw [render_plain ordinary]
      exact .plain ordinary (induction fits)

/-- What is expanded has one fitting argument for each conversion. -/
theorem Expands.fits {format text : List UInt8} {arguments : List Argument}
    (expands : Expands format arguments text) :
    List.Forall₂ Fits (conversions format) arguments := by
  induction expands with
  | nothing | trailing => exact .nil
  | plain ordinary _ induction =>
      rwa [conversions_plain ordinary]
  | integer value _ induction => exact .cons (.integer value) induction
  | floating value _ induction => exact .cons (.floating value) induction
  | character value _ induction => exact .cons (.character value) induction
  | string bytes _ induction => exact .cons (.string bytes) induction
  | doubled _ induction => exact induction
  | @unknown letter _ _ _ other _ induction =>
      have unasked : conversion? letter = none := conversion?_eq_none.mpr (by simp_all)
      simpa only [conversions, percent, if_true, unasked] using induction

/-- The two scans agree: the expansions of a format are what putting in fitting arguments
gives. -/
theorem expands_iff {format text : List UInt8} {arguments : List Argument} :
    Expands format arguments text ↔
      List.Forall₂ Fits (conversions format) arguments ∧ text = render format arguments := by
  constructor
  · intro expands
    refine ⟨expands.fits, ?_⟩
    induction expands with
    | nothing | trailing => rfl
    | plain ordinary _ induction => rw [render_plain ordinary, ← induction]
    | integer value _ induction =>
        rw [← integerText_eq, induction]
        rfl
    | floating value _ induction | character value _ induction | string value _ induction =>
        rw [induction]
        rfl
    | doubled _ induction =>
        rw [induction]
        rfl
    | @unknown letter _ _ _ other _ induction =>
        have unasked : conversion? letter = none := conversion?_eq_none.mpr (by simp_all)
        have single : letter ≠ 37 := fun same => other (by simp [same])
        simp only [render, percent, if_true, unasked, ← induction]
        rw [if_neg single]
  · intro both
    rw [both.2]
    exact expands_render format both.1

end Format

/-! ## Texts and arguments in memory -/

namespace Memory

theorem spells_write {memory : Memory} {index : Nat} {text : List UInt8}
    (inside : index + text.length < memory.size) (noZero : 0 ∉ text) :
    (memory.write index (text ++ [0])).Spells index text where
  content := by
    have room : index + (text ++ [0]).length ≤ memory.size := by
      rw [List.length_append]
      exact inside
    have back := read_write memory index (text ++ [0]) room
    rwa [List.length_append] at back
  noZero := noZero
  inside := by rwa [size_write]

theorem Supplies.fits {memory : Memory} {conversion : Conversion} {word : Word}
    {argument : Argument} (supplies : memory.Supplies conversion word argument) :
    Format.Fits conversion argument := by
  cases supplies with
  | integer value => exact .integer value
  | floating value => exact .floating value
  | character value => exact .character value
  | @string _ _ text => exact .string text

theorem Supplied.fits {memory : Memory} {conversions : List Conversion} {words : List Word}
    {arguments : List Argument} (supplied : memory.Supplied conversions words arguments) :
    List.Forall₂ Format.Fits conversions arguments := by
  induction supplied with
  | nothing => exact .nil
  | more first _ induction => exact .cons first.fits induction

end Memory

namespace Effect

variable {pc : Nat} {memory : Memory} {output : ByteArray} {steps : Nat}

/-- The output takes the text: it stays within the limit. Nothing always does. -/
def Accepts (limit : Option Nat) (output : ByteArray) (text : List UInt8) : Prop :=
  text = [] ∨ ∀ most, limit = some most → output.size + text.length ≤ most

theorem write_of_accepts {limit : Option Nat} {text : List UInt8}
    (accepts : Accepts limit output text) (stack : List Word) :
    write limit text ⟨pc, stack, memory, output, steps⟩ =
      .ok () ⟨pc, stack, memory, written output text, steps⟩ := by
  cases limit with
  | none => rfl
  | some most =>
      have room : ¬ (text ≠ [] ∧ most < output.size + text.length) := by
        rintro ⟨something, past⟩
        rcases accepts with nothing | within
        · exact something nothing
        · exact Nat.not_lt.mpr (within most rfl) past
      simp_all [write, written]

theorem write_of_not_accepts {limit : Option Nat} {text : List UInt8}
    (refuses : ¬ Accepts limit output text) (stack : List Word) :
    write limit text ⟨pc, stack, memory, output, steps⟩ =
      .error .outputRefused ⟨pc, stack, memory, output, steps⟩ := by
  unfold Accepts at refuses
  push Not at refuses
  rcases refuses with ⟨something, most, rfl, past⟩
  simp [write, something, past]

end Effect

/-! ## The instruction -/

/-- Formatted output takes the address of its format and a word for each conversion, and prints
the expansion, the only one there is. When that does not fit into the output, it prints nothing. -/
theorem printf_expands {image : Image} {limit : Option Nat} {pc steps index : Nat}
    {operand address : Int32} {format : List UInt8} {words rest : List Word}
    {arguments : List Argument} {memory : Memory} {output : ByteArray}
    (placed : image.code[pc]? = some ⟨.printf, operand⟩)
    (names : Address.Names address index) (spells : memory.Spells index format)
    (supplied : memory.Supplied (Format.conversions format) words arguments) :
    ∃ text, (∀ other, Format.Expands format arguments other ↔ other = text) ∧
      (Effect.Accepts limit output text →
        State.step image limit
            ⟨pc, .integer address :: (words.reverse ++ rest), memory, output, steps⟩ =
          .running ⟨pc + 1, rest, memory, written output text, steps + 1⟩) ∧
      (¬ Effect.Accepts limit output text →
        State.step image limit
            ⟨pc, .integer address :: (words.reverse ++ rest), memory, output, steps⟩ =
          .trapped pc .outputRefused ⟨pc + 1, rest, memory, output, steps + 1⟩) := by
  have takes : Effect.Takes memory (words.reverse ++ rest) (Format.conversions format) arguments
      rest := Effect.takes_of_supplied supplied
  have prints : Effect.printFormatted limit
      ⟨pc + 1, .integer address :: (words.reverse ++ rest), memory, output, steps + 1⟩ = _ :=
    Effect.printFormatted_write names spells takes
  refine ⟨Format.render format arguments, fun other => ?_, fun accepts => ?_, fun refuses => ?_⟩
  · rw [Format.expands_iff]
    exact ⟨fun both => both.2, fun same => ⟨supplied.fits, same⟩⟩
  · rw [Effect.write_of_accepts accepts] at prints
    simp [State.step, placed, Placed.execute, bind, EStateM.bind, prints, pure, EStateM.pure]
  · rw [Effect.write_of_not_accepts refuses] at prints
    simp [State.step, placed, Placed.execute, bind, EStateM.bind, prints]

/-- The format is `%d%%%g%c %x%s%`: all four conversions, a doubled percent sign, a letter that is
no conversion, and a percent sign at the end. The output is `-7%2! %xab%`. -/
theorem printf_every_conversion :
    let format : List UInt8 := [37, 100, 37, 37, 37, 103, 37, 99, 32, 37, 120, 37, 115, 37]
    let memory := ((Memory.zeros 64).write 8 (format ++ [0])).write 40 [97, 98, 0]
    State.step ⟨#[⟨.printf, 0⟩], [], 0, ∅⟩ none
        ⟨0, [.integer 8, .integer 40, .integer 33, .floating ⟨0x4000000000000000⟩, .integer (-7),
          .integer 5], memory, .empty, 0⟩ =
      .running ⟨1, [.integer 5], memory,
        written .empty [45, 55, 37, 50, 33, 32, 37, 120, 97, 98, 37], 1⟩ := by
  intro format memory
  have stored : ((Memory.zeros 64).write 8 (format ++ [0])).Spells 8 format :=
    @Memory.spells_write (Memory.zeros 64) 8 format (by decide) (by decide)
  have spells : memory.Spells 8 format := by
    apply stored.congr (Memory.size_write _ _ _)
    intro other _ upper
    have short : format.length = 14 := rfl
    exact Memory.byte_write_of_outside _ _ _ _ (.inl (by omega))
  have text : memory.Spells 40 [97, 98] :=
    @Memory.spells_write _ 40 [97, 98] (by rw [Memory.size_write]; decide) (by decide)
  have supplied : memory.Supplied (Format.conversions format)
      [.integer (-7), .floating ⟨0x4000000000000000⟩, .integer 33, .integer 40]
      [.integer (-7), .floating ⟨0x4000000000000000⟩, .integer 33, .string [97, 98]] :=
    .more (.integer _) (.more (.floating _) (.more (.character _)
      (.more (.string (Address.names_ofNat (by decide)) text) .nothing)))
  have expands : Format.Expands format
      [.integer (-7), .floating ⟨0x4000000000000000⟩, .integer 33, .string [97, 98]]
      [45, 55, 37, 50, 33, 32, 37, 120, 97, 98, 37] := by
    have two : asciiBytes (Binary64.compactText ⟨0x4000000000000000⟩) = [50] := by decide +kernel
    have tail : Format.Expands [32, 37, 120, 37, 115, 37] [.string [97, 98]]
        [32, 37, 120, 97, 98, 37] :=
      .plain (by decide) (.unknown (by decide) (.string [97, 98] .trailing))
    have middle := Format.Expands.floating ⟨0x4000000000000000⟩ (.character 33 tail)
    rw [two] at middle
    exact .integer (-7) (.doubled middle)
  have placed : (Image.mk #[⟨.printf, 0⟩] [] 0 ∅).code[0]? = some ⟨.printf, 0⟩ := rfl
  rcases printf_expands placed (Address.names_ofNat (by decide)) spells supplied with
    ⟨text, only, printed, _⟩
  rw [(only _).mp expands]
  exact printed (.inr fun _ same => nomatch same)

end StackBackend
