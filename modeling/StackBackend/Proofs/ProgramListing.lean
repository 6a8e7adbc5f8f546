import StackBackend.Execution
import StackBackend.Proofs.Assembling
import StackBackend.Proofs.Inscription
import StackBackend.Proofs.Legibility

namespace StackBackend

/-! Which programs can be run from their listing. All labels of generated code are plain
words and all its texts are texts of string literals or of the environment, so a listing
spells its program unless a string literal holds a carriage return, which is written as
it is and ends a line. -/

open Code

/-! ## Plain labels -/

/-- Words without characters that mean something in a listing. -/
def PlainLabel (name : String) : Prop :=
  name.toList ≠ [] ∧ isPlainText name.toList = true

instance (name : String) : Decidable (PlainLabel name) :=
  inferInstanceAs (Decidable (_ ∧ _))

theorem not_mem_of_isPlainText {characters : List Char} (plain : isPlainText characters = true)
    {character : Char} (special : character ∈ [' ', '\t', '\n', '\r', '%', '"']) :
    character ∉ characters := by
  intro member
  have absent := List.all_eq_true.mp plain character member
  simp [special] at absent

theorem PlainLabel.legible {name : String} (plain : PlainLabel name) :
    LegibleLabel name.toList where
  nonempty := plain.1
  blankFree := ⟨not_mem_of_isPlainText plain.2 (by simp), not_mem_of_isPlainText plain.2 (by simp)⟩
  lineFree := ⟨not_mem_of_isPlainText plain.2 (by simp), not_mem_of_isPlainText plain.2 (by simp)⟩
  commentFree comment :=
    not_mem_of_isPlainText plain.2 (by simp) (comment.subset List.mem_cons_self)
  unquoted := by
    rintro _ before ⟨content, _, rfl⟩
    exact not_mem_of_isPlainText plain.2 (by simp) (before.subset List.mem_cons_self)

/-- Whether no byte of a name means something in a listing. -/
def isPlainName (name : String) : Bool :=
  0 < name.utf8ByteSize && name.toByteArray.data.toList.all fun byte =>
    !(byte.toNat ≤ 32 || byte.toNat == 34 || byte.toNat == 37)

theorem plainLabel_of_isPlainName {name : String} (plain : isPlainName name = true) :
    PlainLabel name := by
  simp only [isPlainName, Bool.and_eq_true, decide_eq_true_eq] at plain
  constructor
  · intro empty
    rw [String.toList_eq_nil_iff] at empty
    simp [empty] at plain
  · refine List.all_eq_true.mpr fun character member => decide_eq_true fun special => ?_
    have code : character.toNat ≤ 32 ∨ character.toNat = 34 ∨ character.toNat = 37 := by
      simp only [List.mem_cons, List.not_mem_nil, or_false] at special
      rcases special with rfl | rfl | rfl | rfl | rfl | rfl <;> decide
    obtain ⟨byte, inside, same⟩ := LabelGroup.mem_bytes_of_mem_toList member (by omega)
    have ordinary := List.all_eq_true.mp plain.2 byte inside
    simp only [same, Bool.not_eq_true', Bool.or_eq_false_iff, decide_eq_false_iff_not,
      beq_eq_false_iff_ne] at ordinary
    omega

/-- A serial number between plain words makes a plain label. -/
theorem plainLabel_label {stem suffix : String}
    (plain : isPlainText (stem.toList ++ suffix.toList) = true) (serial : Nat) :
    PlainLabel (LabelGroup.label ⟨stem, serial⟩ suffix) := by
  have digits : isPlainText (Nat.toDigits 10 serial) = true := by
    refine List.all_eq_true.mpr fun digit member => ?_
    have isDigit := Nat.isDigit_of_mem_toDigits (by decide) (by decide) member
    refine decide_eq_true fun special => ?_
    simp only [List.mem_cons, List.not_mem_nil, or_false] at special
    rcases special with rfl | rfl | rfl | rfl | rfl | rfl <;> cases isDigit
  rw [PlainLabel, LabelGroup.toList_label]
  refine ⟨List.cons_ne_nil _ _, ?_⟩
  simp only [isPlainText, List.all_append, Bool.and_eq_true] at plain digits
  simp only [isPlainText, List.all_append, List.all_cons, plain, digits]
  decide

/-- The plain labels, whatever they name. -/
def plainLabels : Directory where
  code := PlainLabel
  data := PlainLabel

/-! ## Operands of generated code -/

/-- The operand is a plain label, or text or a number among the literals; or it can be
read back in any case. -/
def Operand.Drawn (literals : List Literal) : Operand → Prop
  | .label name => PlainLabel name
  | .text content => Literal.text content ∈ literals ∨ '\r' ∉ content.toList
  | .floating value => Literal.number value ∈ literals
  | .absent | .integer _ | .byte _ => True

theorem Operand.Drawn.cons {literals : List Literal} {operand : Operand}
    (drawn : operand.Drawn literals) (literal : Literal) :
    operand.Drawn (literal :: literals) := by
  cases operand with
  | text content => exact drawn.imp_left (List.mem_cons_of_mem literal)
  | floating value => exact List.mem_cons_of_mem literal drawn
  | _ => exact drawn

/-- Whether the operand can be read back whatever the literals are. -/
def Operand.isOrdinary : Operand → Bool
  | .label name => isPlainName name
  | .text content => content.toByteArray.data.toList.all fun byte => byte.toNat != 13
  | .floating _ => false
  | .absent | .integer _ | .byte _ => true

theorem Operand.drawn_of_isOrdinary {operand : Operand} (ordinary : operand.isOrdinary = true)
    (literals : List Literal) : operand.Drawn literals := by
  cases operand with
  | label name => exact plainLabel_of_isPlainName ordinary
  | text content =>
      refine .inr fun member => ?_
      obtain ⟨byte, inside, same⟩ := LabelGroup.mem_bytes_of_mem_toList member (by decide)
      have other := List.all_eq_true.mp ordinary byte inside
      simp [same] at other
  | floating value => cases ordinary
  | _ => trivial

/-- An instruction that lays out nothing has a label that is known, or none. -/
theorem Instruction.drawn_of_resolves {instruction : Instruction} {literals : List Literal}
    (executed : instruction.isInscribed = false) (resolves : instruction.Resolves plainLabels) :
    instruction.operand.Drawn literals := by
  cases instruction with
  | pushD name => exact resolves.elim id id
  | jump name | jumpTrue name | jumpFalse name | jumpPos name | jumpNeg name | jumpFPos name
  | jumpFNeg name | jumpFZero name | call name => exact resolves name rfl
  | pushF _ | label _ | dataLabel _ | dataC _ | dataI _ | dataF _ | dataS _ | dataZ _ | dataD _ =>
      cases executed
  | _ => trivial

/-- Labels that are plain are known. -/
theorem Instruction.introduced_of_drawn {instruction : Instruction} {literals : List Literal}
    (drawn : instruction.operand.Drawn literals) : instruction.Introduced plainLabels := by
  cases instruction with
  | label _ | dataLabel _ => exact drawn
  | _ => trivial

namespace Code.Inscribes

variable {literals : List Literal} {code : Code}

theorem drawn (inscribes : Inscribes literals code) :
    ∀ instruction ∈ code, instruction.operand.Drawn literals := by
  induction inscribes with
  | nil => simp
  | @label literals rest stem suffix serial plain _ induction =>
      rw [List.forall_mem_cons]
      exact ⟨plainLabel_label plain serial, induction⟩
  | @text literals rest serial text _ induction =>
      have others : ∀ instruction ∈ rest, instruction.operand.Drawn (.text text :: literals) :=
        fun instruction member => (induction instruction member).cons _
      rw [List.forall_mem_append]
      refine ⟨?_, others⟩
      simp only [Record.literalData, List.forall_mem_cons]
      exact ⟨plainLabel_label (by decide) serial, trivial, trivial, trivial,
        .inl List.mem_cons_self, by simp⟩
  | @number literals rest value _ induction =>
      rw [List.forall_mem_cons]
      exact ⟨List.mem_cons_self, fun instruction member => (induction instruction member).cons _⟩

theorem dataS_mem (inscribes : Inscribes literals code) {text : String}
    (member : .text text ∈ literals) : .dataS text ∈ code := by
  induction inscribes with
  | nil => cases member
  | label _ _ induction => exact List.mem_cons_of_mem _ (induction member)
  | text serial other _ induction =>
      rw [List.mem_append]
      rcases List.mem_cons.mp member with same | member
      · cases same
        exact .inl (by simp [Record.literalData])
      · exact .inr (induction member)
  | number value _ induction =>
      rcases List.mem_cons.mp member with same | member
      · cases same
      · exact List.mem_cons_of_mem _ (induction member)

end Code.Inscribes

/-! ## Programs -/

namespace Program

variable {program : Program} {options : CompileOptions} {code : Code}

theorem mem_texts {text : String} :
    text ∈ program.texts ↔ .text text ∈ blockLiterals program.body := by
  rw [texts, List.mem_filterMap]
  constructor
  · rintro ⟨literal, member, found⟩
    cases literal <;> cases found
    exact member
  · intro member
    exact ⟨_, member, rfl⟩

theorem mem_numbers {value : Binary64} :
    value ∈ program.numbers ↔ .number value ∈ blockLiterals program.body := by
  rw [numbers, List.mem_filterMap]
  constructor
  · rintro ⟨literal, member, found⟩
    cases literal <;> cases found
    exact member
  · intro member
    exact ⟨_, member, rfl⟩

theorem drawn_fixedCode (memoryManager : Bool) (literals : List Literal) :
    ∀ instruction ∈ fixedCode memoryManager, instruction.operand.Drawn literals := by
  have ordinary : (fixedCode true).all (·.operand.isOrdinary) = true := by decide +kernel
  intro instruction member
  have inside := (fixedCode_sublist memoryManager).subset member
  exact Operand.drawn_of_isOrdinary (List.all_eq_true.mp ordinary instruction inside) literals

theorem plainLabels_standard : plainLabels.Standard := by
  have introduced : (fixedCode true).Introduced plainLabels := fun instruction member =>
    Instruction.introduced_of_drawn (drawn_fixedCode true [] instruction member)
  simp only [fixedCode, join_cons, introduced_append, introduced_cons,
    Instruction.introduced_dataLabel] at introduced
  obtain ⟨_, environment, ⟨globals, _⟩, _⟩ := introduced
  have entries : ∀ entry ∈ Environment.heapEntries, isPlainName entry = true := by decide
  exact (Environment.parts environment).standard globals fun entry member =>
    plainLabel_of_isPlainName (entries entry member)

/-- The operands of the code of a program are plain labels and literals of the program,
and all its texts are laid out. -/
theorem drawn_compile (plain : Plain program.operations)
    (compiled : program.compile options = .ok code) :
    (∀ instruction ∈ code, instruction.operand.Drawn (blockLiterals program.body)) ∧
      ∀ text ∈ program.texts, .dataS text ∈ code := by
  obtain ⟨main, mainMade, rfl⟩ := compile_eq_ok.mp compiled
  obtain ⟨body, last, made, rfl⟩ := mainCode_eq_ok.mp mainMade
  have inscribes := inscribes_block program.body (fun operation member => (plain operation member).2)
    made
  have laid : ∀ instruction ∈ body, instruction.isInscribed = true →
      instruction.operand.Drawn (blockLiterals program.body) := fun instruction member laid =>
    inscribes.drawn instruction (List.mem_filter.mpr ⟨member, laid⟩)
  have introduced : body.Introduced plainLabels := by
    intro instruction member
    cases inscribed : instruction.isInscribed with
    | true => exact Instruction.introduced_of_drawn (laid instruction member inscribed)
    | false => cases instruction <;> trivial
  have resolves : body.Resolves plainLabels :=
    linked_block plainLabels_standard program.body ⟨by simp, by simp, by simp⟩ plain made introduced
  constructor
  · intro instruction member
    have parts : instruction ∈ fixedCode options.memoryManager ∨ instruction ∈ body ∨
        instruction = .dataZ program.globalSize ∨ instruction = .halt := by
      simp only [fixedCode, join_cons, join_nil, List.mem_append, List.mem_cons] at member ⊢
      grind
    rcases parts with member | member | rfl | rfl
    · exact drawn_fixedCode _ _ instruction member
    · cases inscribed : instruction.isInscribed with
      | true => exact laid instruction member inscribed
      | false => exact Instruction.drawn_of_resolves inscribed (resolves instruction member)
    · trivial
    · trivial
  · intro text member
    have inscribed := inscribes.dataS_mem (mem_texts.mp member)
    have inBody : .dataS text ∈ body := (List.mem_filter.mp inscribed).1
    simp [inBody]

/-- The code of a program is legible unless a string literal holds a carriage return. -/
theorem legible_compile_iff (plain : Plain program.operations)
    (compiled : program.compile options = .ok code) :
    (∀ instruction ∈ code, instruction.Legible) ↔ ∀ text ∈ program.texts, '\r' ∉ text.toList := by
  obtain ⟨drawn, laid⟩ := drawn_compile plain compiled
  constructor
  · intro legible text member
    exact legible _ (laid text member)
  · intro absent instruction member
    have operand := drawn instruction member
    unfold Instruction.Legible
    split
    · rename_i name same
      rw [same] at operand
      exact operand.legible
    · rename_i text same
      rw [same] at operand
      rcases operand with literal | ordinary
      · exact absent text (mem_texts.mpr literal)
      · exact ordinary
    · trivial

/-- A program whose numbers can be read back is what its listing spells exactly if no
string literal holds a carriage return, and then it runs from its listing as it does from
its code. -/
theorem listing_spells_iff (plain : Plain program.operations)
    (numbers : ∀ value ∈ program.numbers, readBinary64? value.exactText = some value)
    (compiled : program.compile options = .ok code) :
    (Code.ofListing code.listing = .ok code ↔ ∀ text ∈ program.texts, '\r' ∉ text.toList) ∧
      ((∀ text ∈ program.texts, '\r' ∉ text.toList) →
        ∀ machine, executeListing code.listing machine = code.execute machine) := by
  have floats : ∀ instruction ∈ code, ∀ value, instruction.operand = .floating value →
      readBinary64? value.exactText = some value := by
    intro instruction member value same
    have operand := (drawn_compile plain compiled).1 instruction member
    rw [same] at operand
    exact numbers value (mem_numbers.mpr operand)
  have reads : (∀ text ∈ program.texts, '\r' ∉ text.toList) →
      Code.ofListing code.listing = .ok code := fun absent =>
    ofLines_listing ((legible_compile_iff plain compiled).mpr absent) floats 0
  refine ⟨⟨fun read => ?_, reads⟩, fun absent machine => ?_⟩
  · exact (legible_compile_iff plain compiled).mp (legible_of_ofListing read)
  · rw [executeListing, reads absent]
    rfl

/-- The number 1.5. -/
def threeHalves : Binary64 :=
  .ofMagnitude false 0x3FF8000000000000

/-- Prints a text and a number. -/
def printing (text : String) : Program where
  globalSize := 0
  body := [.print [.expression (.typed .string (.string text)),
    .expression (.typed .floating (.floating threeHalves))]]

theorem plain_printing (text : String) : Plain (printing text).operations := by
  simp [Plain, printing, operations, blockOperations, Statement.operations, Expr.operations,
    Form.operations, printItemsOperations, PrintItem.operations]

theorem exists_code_printing (text : String) : ∃ code, (printing text).compile ⟨true⟩ = .ok code :=
  ⟨_, rfl⟩

theorem readBinary64?_threeHalves : readBinary64? threeHalves.exactText = some threeHalves := by
  decide +kernel

/-- Tabs, line feeds, quotes and comments in a text do no harm. -/
theorem listing_spells_escapes :
    ∃ code, Plain (printing "\t\n\"%%é\\").operations ∧
      (printing "\t\n\"%%é\\").numbers = [threeHalves] ∧
      readBinary64? threeHalves.exactText = some threeHalves ∧
      (printing "\t\n\"%%é\\").compile ⟨true⟩ = .ok code ∧
      Code.ofListing code.listing = .ok code := by
  have plain := plain_printing "\t\n\"%%é\\"
  obtain ⟨code, compiled⟩ := exists_code_printing "\t\n\"%%é\\"
  have numbers : (printing "\t\n\"%%é\\").numbers = [threeHalves] := rfl
  have absent : ∀ text ∈ (printing "\t\n\"%%é\\").texts, '\r' ∉ text.toList := by decide
  have spelled := (listing_spells_iff plain
    (by simp [numbers, readBinary64?_threeHalves]) compiled).1.mpr absent
  exact ⟨code, plain, numbers, readBinary64?_threeHalves, compiled, spelled⟩

/-- A carriage return in a text does. -/
theorem listing_misspells_return :
    ∃ code, Plain (printing "a\rb").operations ∧ (printing "a\rb").numbers = [threeHalves] ∧
      readBinary64? threeHalves.exactText = some threeHalves ∧
      (printing "a\rb").compile ⟨true⟩ = .ok code ∧ Code.ofListing code.listing ≠ .ok code := by
  have plain := plain_printing "a\rb"
  obtain ⟨code, compiled⟩ := exists_code_printing "a\rb"
  refine ⟨code, plain, rfl, readBinary64?_threeHalves, compiled, fun spelled => ?_⟩
  have absent := (legible_compile_iff plain compiled).mp (legible_of_ofListing spelled)
  have present : '\r' ∈ "a\rb".toList := by decide
  exact absent "a\rb" List.mem_cons_self present

end Program

end StackBackend
