import StackBackend.Listing.Printer
import StackBackend.Listing.Reader
import StackBackend.Proofs.Checked

namespace StackBackend

/-! Which code can be read back from its listing. What a line spells is always legible:
its label is a word, and its text holds no carriage return. And legible code is spelled
by its own listing. -/

/-- No character ends a line. -/
def LineFree (characters : List Char) : Prop :=
  '\n' ∉ characters ∧ '\r' ∉ characters

theorem lineFree_append {first second : List Char} :
    LineFree (first ++ second) ↔ LineFree first ∧ LineFree second := by
  simp only [LineFree, List.mem_append, not_or]
  exact and_and_and_comm

theorem lineFree_cons {character : Char} {rest : List Char} :
    LineFree (character :: rest) ↔
      (character ≠ '\n' ∧ character ≠ '\r') ∧ LineFree rest := by
  simp only [LineFree, List.mem_cons, not_or, eq_comm]
  exact and_and_and_comm

/-! ## Quoted text -/

namespace Quoted

/-- What may stand between quotes: the five escapes, and all characters but quotes,
backslashes and line ends. -/
inductive Content : List Char → Prop where
  | nil : Content []
  | plain {character : Char} {rest : List Char}
      (plain : character ∉ ['"', '\\', '\n', '\r']) (content : Content rest) :
      Content (character :: rest)
  | escape {letter : Char} {rest : List Char}
      (known : letter ∈ ['"', '\\', 'n', 't', '0']) (content : Content rest) :
      Content ('\\' :: letter :: rest)

/-- Text in its quotes. -/
def Complete (characters : List Char) : Prop :=
  ∃ content, Content content ∧ characters = '"' :: (content ++ ['"'])

theorem decode_content {content : List Char} (holds : Content content) (after : List Char) :
    ∃ text, decode (content ++ '"' :: after) = some (text, after) := by
  induction holds with
  | nil => exact ⟨[], rfl⟩
  | @plain character rest plain _ induction =>
      obtain ⟨text, decoded⟩ := induction
      simp only [List.mem_cons, not_or] at plain
      refine ⟨character :: text, ?_⟩
      rw [List.cons_append, decode, decoded]
      · rfl
      · exact plain.1
      · exact fun same => absurd same plain.2.1
      · exact fun _ _ same => absurd same plain.2.1
  | @escape letter rest known _ induction =>
      obtain ⟨text, decoded⟩ := induction
      have unescaped : ∃ character, unescape? letter = some character := by
        simp only [List.mem_cons, List.not_mem_nil, or_false] at known
        obtain rfl | rfl | rfl | rfl | rfl := known <;> exact ⟨_, rfl⟩
      obtain ⟨character, unescaped⟩ := unescaped
      exact ⟨character :: text, by simp [decode, unescaped, decoded]⟩

/-- What is read up to a quote is the content of quoted text, and no escape stands for a
carriage return. -/
theorem content_of_decode {characters text after : List Char} (free : LineFree characters)
    (decoded : decode characters = some (text, after)) :
    '\r' ∉ text ∧ ∃ content, Content content ∧ characters = content ++ '"' :: after := by
  fun_induction decode characters generalizing text after with
  | case1 => cases decoded
  | case2 rest =>
      cases decoded
      exact ⟨List.not_mem_nil, [], .nil, rfl⟩
  | case3 => cases decoded
  | case4 letter rest _ => cases decoded
  | case5 letter rest character unescaped induction =>
      obtain ⟨⟨text, after⟩, decoded, rfl, rfl⟩ := Option.map_eq_some_iff.mp decoded
      rw [lineFree_cons, lineFree_cons] at free
      obtain ⟨absent, content, holds, rfl⟩ := induction free.2.2 decoded
      have known : letter ∈ ['"', '\\', 'n', 't', '0'] ∧ character ≠ '\r' := by
        unfold unescape? at unescaped
        split at unescaped <;> cases unescaped <;> decide
      refine ⟨?_, '\\' :: letter :: content, .escape known.1 holds, rfl⟩
      exact List.not_mem_cons_of_ne_of_not_mem known.2.symm absent
  | case6 character rest notQuote notLast notEscape induction =>
      obtain ⟨⟨text, after⟩, decoded, rfl, rfl⟩ := Option.map_eq_some_iff.mp decoded
      rw [lineFree_cons] at free
      obtain ⟨absent, content, holds, rfl⟩ := induction free.2 decoded
      refine ⟨List.not_mem_cons_of_ne_of_not_mem free.1.2.symm absent,
        character :: content, .plain ?_ holds, rfl⟩
      have notBackslash : character ≠ '\\' := by
        intro same
        cases shape : content ++ '"' :: after with
        | nil => exact absurd shape (by simp)
        | cons letter others => exact notEscape letter others same shape
      simp only [List.mem_cons, List.not_mem_nil, not_or]
      exact ⟨notQuote, notBackslash, free.1.1, free.1.2, not_false⟩

theorem lineFree_encode {text : List Char} (absent : '\r' ∉ text) : LineFree (encode text) := by
  fun_induction encode text with
  | case1 => exact ⟨List.not_mem_nil, List.not_mem_nil⟩
  | case2 rest induction | case3 rest induction | case4 rest induction | case5 rest induction
  | case6 rest induction =>
      rw [lineFree_cons, lineFree_cons]
      exact ⟨by decide, by decide, induction (List.not_mem_of_not_mem_cons absent)⟩
  | case7 character rest notFeed _ _ _ _ induction =>
      rw [lineFree_cons]
      exact ⟨⟨notFeed, fun same => absent (same ▸ List.mem_cons_self)⟩,
        induction (List.not_mem_of_not_mem_cons absent)⟩

end Quoted

/-! ## Words -/

/-- Labels that stand in a listing as they are. -/
structure LegibleLabel (name : List Char) : Prop where
  nonempty : name ≠ []
  blankFree : ' ' ∉ name ∧ '\t' ∉ name
  lineFree : LineFree name
  commentFree : ¬ ['%', '%'] <:+: name
  unquoted : ∀ start, start <+: name → ¬ Quoted.Complete start

theorem isBlank_eq_true {character : Char} :
    isBlank character = true ↔ character = ' ' ∨ character = '\t' := by
  simp [isBlank]

theorem startsComment_eq_true {characters : List Char} :
    startsComment characters = true ↔ ['%', '%'] <+: characters := by
  unfold startsComment
  split
  · simp
  · rename_i different
    simp only [Bool.false_eq_true, false_iff]
    rintro ⟨rest, rfl⟩
    exact different rest rfl

/-- A word ends before the first blank or comment. -/
theorem takeWord_sound (characters : List Char) :
    (takeWord characters).1 <+: characters ∧
      (∀ character ∈ (takeWord characters).1, isBlank character = false) ∧
      ¬ ['%', '%'] <:+: (takeWord characters).1 := by
  fun_induction takeWord characters with
  | case1 => simp
  | case2 character rest _ => simp
  | case3 character rest goes word after taken induction =>
      rw [taken] at induction
      obtain ⟨start, blankFree, commentFree⟩ := induction
      rw [Bool.or_eq_true, not_or, Bool.not_eq_true] at goes
      refine ⟨?_, ?_, ?_⟩
      · exact List.cons_prefix_cons.mpr ⟨rfl, start⟩
      · simp only [List.mem_cons, forall_eq_or_imp]
        exact ⟨goes.1, blankFree⟩
      · rw [List.infix_cons_iff, not_or]
        refine ⟨fun comment => goes.2 (startsComment_eq_true.mpr ?_), commentFree⟩
        exact comment.trans (List.cons_prefix_cons.mpr ⟨rfl, start⟩)

/-- A word without blanks and comments is taken as a whole. -/
theorem takeWord_eq {word : List Char} (blankFree : ∀ character ∈ word, isBlank character = false)
    (commentFree : ¬ ['%', '%'] <:+: word) : takeWord word = (word, []) := by
  induction word with
  | nil => rfl
  | cons character rest induction =>
      rw [List.infix_cons_iff, not_or] at commentFree
      simp only [List.mem_cons, forall_eq_or_imp] at blankFree
      have noComment : startsComment (character :: rest) = false := by
        rw [Bool.eq_false_iff]
        exact fun comment => commentFree.1 (startsComment_eq_true.mp comment)
      rw [takeWord, blankFree.1, noComment, induction blankFree.2 commentFree.2]
      rfl

/-- Where neither a blank nor a comment starts, nothing is skipped. -/
theorem skipBlanks_of_visible {character : Char} {rest : List Char}
    (visible : isBlank character = false) (noComment : startsComment (character :: rest) = false) :
    skipBlanks (character :: rest) = character :: rest := by
  simp [skipBlanks, visible, noComment]

theorem skipBlanks_of_alpha {first : Char} (alpha : first.isAlpha = true) (rest : List Char) :
    skipBlanks (first :: rest) = first :: rest := by
  refine skipBlanks_of_visible ?_ ?_
  · rw [Bool.eq_false_iff]
    intro blank
    obtain rfl | rfl := isBlank_eq_true.mp blank <;> cases alpha
  · rw [Bool.eq_false_iff]
    intro comment
    obtain ⟨_, same⟩ := startsComment_eq_true.mp comment
    rw [← (List.cons.inj same).1] at alpha
    cases alpha

theorem skipBlanks_append {blanks characters : List Char}
    (blank : ∀ character ∈ blanks, isBlank character = true) :
    skipBlanks (blanks ++ characters) = skipBlanks characters := by
  rw [skipBlanks, skipBlanks, List.dropWhile_append_of_pos blank]

/-- After blanks are skipped, a character that is none follows. -/
theorem visible_of_skipBlanks {characters rest : List Char} {character : Char}
    (skipped : skipBlanks characters = character :: rest) :
    isBlank character = false ∧ startsComment (character :: rest) = false := by
  rw [skipBlanks] at skipped
  split at skipped
  · cases skipped
  · rename_i noComment
    rw [skipped] at noComment
    refine ⟨?_, Bool.eq_false_iff.mpr noComment⟩
    have first := List.head?_dropWhile_not isBlank characters
    rw [skipped] at first
    simpa using first

theorem skipBlanks_suffix (characters : List Char) : skipBlanks characters <:+ characters := by
  rw [skipBlanks]
  split
  · exact List.nil_suffix
  · exact List.dropWhile_suffix isBlank

theorem LineFree.of_suffix {characters rest : List Char} (free : LineFree characters)
    (suffix : rest <:+ characters) : LineFree rest :=
  ⟨fun member => free.1 (suffix.mem member), fun member => free.2 (suffix.mem member)⟩

namespace RawOperand

theorem read_eq_word {characters after word : List Char}
    (taken : read characters = (some (.word word), after)) :
    takeWord characters = (word, after) ∧ ∀ rest, characters = '"' :: rest →
      Quoted.decode rest = none := by
  unfold read readWord at taken
  split at taken
  · cases taken
  · rename_i rest
    split at taken
    · cases taken
    · rename_i incomplete
      simp only [Prod.mk.injEq, Option.some.injEq, RawOperand.word.injEq] at taken
      refine ⟨Prod.ext taken.1 taken.2, fun other same => ?_⟩
      cases same
      exact incomplete
  · rename_i notQuote
    simp only [Prod.mk.injEq, Option.some.injEq, RawOperand.word.injEq] at taken
    exact ⟨Prod.ext taken.1 taken.2, fun rest same => absurd same (notQuote rest)⟩

theorem read_eq_quoted {characters after text : List Char}
    (taken : read characters = (some (.quoted text), after)) :
    ∃ rest, characters = '"' :: rest ∧ Quoted.decode rest = some (text, after) := by
  unfold read readWord at taken
  split at taken
  · cases taken
  · split at taken
    · cases taken
      exact ⟨_, rfl, ‹_›⟩
    · cases taken
  · cases taken

/-- What is read as a word could stand for a label. -/
theorem legible_of_read {characters after word : List Char} (free : LineFree characters)
    (taken : read (skipBlanks characters) = (some (.word word), after)) : LegibleLabel word := by
  obtain ⟨split, incomplete⟩ := read_eq_word taken
  obtain ⟨start, blankFree, commentFree⟩ := takeWord_sound (skipBlanks characters)
  rw [split] at start blankFree commentFree
  have free := free.of_suffix (skipBlanks_suffix characters)
  refine ⟨?_, ⟨fun member => ?_, fun member => ?_⟩, ?_, commentFree, ?_⟩
  · rintro rfl
    cases shape : skipBlanks characters with
    | nil =>
        rw [shape] at taken
        cases taken
    | cons character rest =>
        obtain ⟨visible, noComment⟩ := visible_of_skipBlanks shape
        rw [shape, takeWord, visible, noComment] at split
        simp at split
  · exact absurd (blankFree _ member) (by decide)
  · exact absurd (blankFree _ member) (by decide)
  · exact ⟨fun member => free.1 (start.mem member), fun member => free.2 (start.mem member)⟩
  · rintro _ ⟨others, rfl⟩ ⟨content, holds, rfl⟩
    obtain ⟨rest, whole⟩ := start
    obtain ⟨text, decoded⟩ := Quoted.decode_content holds (others ++ rest)
    have none := incomplete (content ++ '"' :: (others ++ rest)) (by simp [← whole])
    rw [none] at decoded
    cases decoded

theorem carriageFree_of_read {characters after text : List Char} (free : LineFree characters)
    (taken : read characters = (some (.quoted text), after)) : '\r' ∉ text := by
  obtain ⟨rest, rfl, decoded⟩ := read_eq_quoted taken
  exact (Quoted.content_of_decode (lineFree_cons.mp free).2 decoded).1

/-- A legible label is read as a word. -/
theorem read_word {word : List Char} (legible : LegibleLabel word) :
    read word = (some (.word word), []) := by
  have taken : takeWord word = (word, []) := by
    refine takeWord_eq (fun character member => ?_) legible.commentFree
    rw [Bool.eq_false_iff]
    intro blank
    obtain rfl | rfl := isBlank_eq_true.mp blank
    · exact legible.blankFree.1 member
    · exact legible.blankFree.2 member
  unfold read readWord
  split
  · exact absurd rfl legible.nonempty
  · rename_i rest
    split
    · rename_i text after decoded
      obtain ⟨_, content, holds, rfl⟩ :=
        Quoted.content_of_decode (lineFree_cons.mp legible.lineFree).2 decoded
      exact absurd ⟨content, holds, rfl⟩
        (legible.unquoted ('"' :: (content ++ ['"'])) ⟨after, by simp⟩)
    · rw [taken]
  · rw [taken]

/-- Written text is read as quoted. -/
theorem read_quoted (text : List Char) :
    read ('"' :: (Quoted.encode text ++ ['"'])) = (some (.quoted text), []) := by
  simp only [read, Quoted.decode_encode]

end RawOperand

/-! ## Lines -/

namespace Instruction

/-- The operand can be read back from a listing. -/
def Legible (instruction : Instruction) : Prop :=
  match instruction.operand with
  | .label name => LegibleLabel name.toList
  | .text value => '\r' ∉ value.toList
  | _ => True

end Instruction

theorem RawInstruction.interpret_eq_ok {raw : RawInstruction} {instruction : Instruction} :
    raw.interpret = .ok instruction ↔
      ∃ shape, opcodeShape? raw.opcode = some shape ∧ shape.read? raw.operand = some instruction := by
  unfold interpret
  split
  · simp_all
  · split <;> simp_all

namespace SourceLine

/-- The instruction of a line is its opcode and the operand after blanks. -/
theorem operand_of_scan {line : SourceLine} {raw : RawInstruction}
    (scanned : line.scan = .ok (some raw)) :
    ∃ rest after, rest <:+ line.characters ∧
      RawOperand.read (skipBlanks rest) = (raw.operand, after) := by
  unfold scan at scanned
  dsimp only at scanned
  split at scanned
  · cases scanned
  · rename_i first others shape
    split at scanned
    · cases scanned
    · split at scanned
      · simp only [Except.ok.injEq, Option.some.injEq] at scanned
        subst scanned
        exact ⟨_, _, (List.dropWhile_suffix _).trans (shape ▸ skipBlanks_suffix _), rfl⟩
      · cases scanned

/-- No line of a text holds a line end. -/
theorem lineFree_of_split {start position : Nat} {reversed text : List Char}
    (free : LineFree reversed) : ∀ line ∈ split start position reversed text,
      LineFree line.characters := by
  have empty : LineFree [] := ⟨List.not_mem_nil, List.not_mem_nil⟩
  have line : ∀ (start : Nat) {reversed : List Char}, LineFree reversed →
      LineFree (SourceLine.characters ⟨start, reversed.reverse⟩) :=
    fun _ _ free => ⟨fun member => free.1 (List.mem_reverse.mp member),
      fun member => free.2 (List.mem_reverse.mp member)⟩
  fun_induction split start position reversed text with
  | case1 start position reversed =>
      exact List.forall_mem_singleton.mpr (line start free)
  | case2 start position reversed rest induction
  | case3 start position reversed rest _ induction
  | case4 start position reversed rest induction =>
      exact List.forall_mem_cons.mpr ⟨line start free, induction empty⟩
  | case5 start position reversed character rest _ notReturn notFeed induction =>
      exact induction (lineFree_cons.mpr ⟨⟨notFeed, notReturn⟩, free⟩)

/-- A line ends at the first line feed. -/
theorem split_line {start position : Nat} {reversed line : List Char} (free : LineFree line)
    (rest : List Char) :
    ∃ next, split start position reversed (line ++ '\n' :: rest) =
      ⟨start, reversed.reverse ++ line⟩ :: split next next [] rest := by
  induction line generalizing position reversed with
  | nil => exact ⟨position + 1, by simp [split]⟩
  | cons character others induction =>
      obtain ⟨⟨notFeed, notReturn⟩, free⟩ := lineFree_cons.mp free
      obtain ⟨next, lines⟩ :=
        @induction (position + character.utf8Size) (character :: reversed) free
      refine ⟨next, ?_⟩
      rw [List.cons_append, split, lines]
      · simp
      · exact fun _ same => absurd same notReturn
      · exact notReturn
      · exact notFeed

end SourceLine

namespace OpcodeShape

/-- The instructions of a shape have operands of its kind. -/
def Regular : OpcodeShape → Prop
  | .plain instruction => instruction.operand = .absent
  | .integer make => ∀ value, (make value).operand = .integer value
  | .byte make => ∀ value, (make value).operand = .byte value
  | .floating make => ∀ value, (make value).operand = .floating value
  | .label make => ∀ name, (make name).operand = .label name
  | .text make => ∀ value, (make value).operand = .text value

theorem regular_of_opcodeShape? {opcode : String} {shape : OpcodeShape}
    (found : opcodeShape? opcode = some shape) : shape.Regular := by
  unfold opcodeShape? at found
  split at found <;> cases found <;> first | rfl | exact fun _ => rfl

end OpcodeShape

/-- Whatever a line spells is legible. -/
theorem SourceLine.legible_of_interpret {line : SourceLine} {raw : RawInstruction}
    {instruction : Instruction} (free : LineFree line.characters)
    (scanned : line.scan = .ok (some raw)) (interpreted : raw.interpret = .ok instruction) :
    instruction.Legible := by
  obtain ⟨rest, after, suffix, taken⟩ := operand_of_scan scanned
  obtain ⟨shape, found, made⟩ := RawInstruction.interpret_eq_ok.mp interpreted
  have regular := OpcodeShape.regular_of_opcodeShape? found
  have free := free.of_suffix suffix
  generalize raw.operand = operand at made taken
  unfold OpcodeShape.read? at made
  unfold Instruction.Legible
  split at made
  · cases made
    rw [show instruction.operand = .absent from regular]
    trivial
  · obtain ⟨value, _, rfl⟩ := Option.map_eq_some_iff.mp made
    rw [regular value]
    trivial
  · obtain ⟨value, _, rfl⟩ := Option.map_eq_some_iff.mp made
    rw [regular value]
    trivial
  · obtain ⟨value, _, rfl⟩ := Option.map_eq_some_iff.mp made
    rw [regular value]
    trivial
  · cases made
    rw [regular]
    dsimp only
    rw [String.toList_ofList]
    exact RawOperand.legible_of_read free taken
  · cases made
    rw [regular]
    dsimp only
    rw [String.toList_ofList]
    exact RawOperand.carriageFree_of_read (free.of_suffix (skipBlanks_suffix _)) taken
  · cases made

/-! ## Rendered operands -/

/-- The characters of numerals. -/
def isNumeral (character : Char) : Bool :=
  character.isDigit || ['-', '.', 'e', 'i', 'n', 'f', 'N', 'a'].contains character

theorem isNumeral_of_isDigit {digit : Char} (isDigit : digit.isDigit = true) :
    isNumeral digit = true := by
  simp [isNumeral, isDigit]

/-- A numeral is a word. -/
theorem legible_of_isNumeral {word : List Char} (nonempty : word ≠ [])
    (numeral : ∀ character ∈ word, isNumeral character = true) : LegibleLabel word := by
  have absent : ∀ character, isNumeral character = false → character ∉ word := by
    intro character other member
    rw [numeral character member] at other
    cases other
  refine ⟨nonempty, ⟨absent _ (by decide), absent _ (by decide)⟩,
    ⟨absent _ (by decide), absent _ (by decide)⟩, fun comment => ?_, fun start before quoted => ?_⟩
  · exact absent '%' (by decide) (comment.subset List.mem_cons_self)
  · obtain ⟨content, _, rfl⟩ := quoted
    exact absent '"' (by decide) (before.mem List.mem_cons_self)

theorem isNumeral_of_mem_decimalDigits {value : Nat} :
    ∀ digit ∈ decimalDigits value, isNumeral digit = true := fun _ member =>
  isNumeral_of_isDigit (Nat.isDigit_of_mem_toDigits (by decide) (by decide) member)

theorem naturalOfDigits_decimalDigits (value : Nat) :
    naturalOfDigits (decimalDigits value) = value :=
  Nat.ofDigitChars_toDigits (by decide) (by decide)

theorem readNatural?_decimalDigits (value : Nat) :
    readNatural? (decimalDigits value) = some value := by
  have nonempty : decimalDigits value ≠ [] := Nat.toDigits_ne_nil
  have digits : (decimalDigits value).all Char.isDigit = true :=
    List.all_eq_true.mpr fun _ member =>
      Nat.isDigit_of_mem_toDigits (by decide) (by decide) member
  simp [readNatural?, nonempty, digits, naturalOfDigits_decimalDigits]

/-- Digits have no sign in front. -/
theorem decimalDigits_ne_cons {value : Nat} {sign : Char} (notDigit : sign.isDigit = false)
    (rest : List Char) : decimalDigits value ≠ sign :: rest := by
  intro same
  have member : sign ∈ Nat.toDigits 10 value := by
    rw [show Nat.toDigits 10 value = sign :: rest from same]
    exact List.mem_cons_self
  rw [Nat.isDigit_of_mem_toDigits (by decide) (by decide) member] at notDigit
  cases notDigit

theorem readInteger?_repr (value : Int) : readInteger? (toString value).toList = some value := by
  rw [Int.toString_eq_repr]
  cases value with
  | ofNat value =>
      have digits : (Int.repr (.ofNat value)).toList = decimalDigits value := Nat.toList_repr
      rw [digits]
      unfold readInteger?
      split
      · exact absurd ‹_› (decimalDigits_ne_cons (by decide) _)
      · exact absurd ‹_› (decimalDigits_ne_cons (by decide) _)
      · rw [readNatural?_decimalDigits]
        rfl
  | negSucc value =>
      have digits : (Int.repr (.negSucc value)).toList = '-' :: decimalDigits (value + 1) := by
        simp [Int.repr, String.toList_append, Nat.toList_repr, decimalDigits]
      rw [digits, readInteger?, readNatural?_decimalDigits]
      rfl

theorem readInt32?_repr (value : Int32) :
    readInt32? (toString value.toInt).toList = some value := by
  have lower := Int32.le_toInt value
  have upper := Int32.toInt_lt value
  have range : -2147483648 ≤ value.toInt ∧ value.toInt ≤ 2147483647 := by omega
  rw [readInt32?, readInteger?_repr]
  simp [range]

theorem readByte?_repr (value : UInt8) : readByte? (toString value.toNat).toList = some value := by
  have bound := value.toNat_lt
  have digits : (toString value.toNat).toList = decimalDigits value.toNat := Nat.toList_repr
  rw [digits, readByte?, readBounded?]
  · simp [readNatural?_decimalDigits, bound]
  · exact decimalDigits_ne_cons (by decide)

theorem isNumeral_of_mem_toString {value : Int} :
    ∀ character ∈ (toString value).toList, isNumeral character = true := by
  intro character member
  rw [Int.toString_eq_repr] at member
  cases value with
  | ofNat value => exact isNumeral_of_mem_decimalDigits character (Nat.toList_repr ▸ member)
  | negSucc value =>
      rw [Int.repr, String.toList_append, Nat.toList_repr] at member
      obtain sign | digit := List.mem_append.mp member
      · obtain rfl : character = '-' := by simpa using sign
        decide
      · exact isNumeral_of_mem_decimalDigits character digit

/-! The exact text of a floating number. -/

namespace NumeralStyle

theorem isNumeral_of_mem_zeros {count : Nat} :
    ∀ digit ∈ zeros count, isNumeral digit = true := by
  intro digit member
  rw [List.eq_of_mem_replicate member]
  decide

variable {style : NumeralStyle} {digits : List Char} {leading : Int}

theorem isNumeral_of_mem_positional (numeral : ∀ digit ∈ digits, isNumeral digit = true) :
    ∀ character ∈ style.positional digits leading, isNumeral character = true := by
  unfold positional
  split
  · rw [List.forall_mem_cons, List.forall_mem_cons, List.forall_mem_append]
    exact ⟨by decide, by decide, isNumeral_of_mem_zeros, numeral⟩
  · dsimp only
    split
    · rw [List.forall_mem_append, List.forall_mem_append]
      refine ⟨⟨numeral, isNumeral_of_mem_zeros⟩, ?_⟩
      split <;> exact List.all_eq_true.mp (by decide)
    · rw [List.forall_mem_append, List.forall_mem_cons]
      exact ⟨fun digit member => numeral digit (List.mem_of_mem_take member), by decide,
        fun digit member => numeral digit (List.mem_of_mem_drop member)⟩

theorem isNumeral_of_mem_scientific (unsigned : style.signedExponent = false)
    (numeral : ∀ digit ∈ digits, isNumeral digit = true) :
    ∀ character ∈ style.scientific digits leading, isNumeral character = true := by
  unfold scientific
  dsimp only
  rw [List.forall_mem_append, List.forall_mem_cons, List.forall_mem_append,
    List.forall_mem_append, unsigned]
  refine ⟨?_, by decide, ⟨?_, isNumeral_of_mem_zeros⟩, isNumeral_of_mem_decimalDigits⟩
  · split
    · exact numeral
    · exact numeral
    · rw [List.forall_mem_cons] at numeral
      rw [List.forall_mem_cons, List.forall_mem_cons]
      exact ⟨numeral.1, by decide, numeral.2⟩
  · split <;> exact List.all_eq_true.mp (by decide)

end NumeralStyle

theorem Binary64.isNumeral_of_mem_exactText (value : Binary64) :
    ∀ character ∈ value.exactText, isNumeral character = true := by
  have sign : ∀ negative, ∀ character ∈ signText negative, isNumeral character = true := by
    intro negative
    cases negative <;> exact List.all_eq_true.mp (by decide)
  unfold exactText
  split
  · exact List.all_eq_true.mp (by decide)
  · exact List.forall_mem_append.mpr ⟨sign _, List.all_eq_true.mp (by decide)⟩
  · split
    · exact List.forall_mem_append.mpr ⟨sign _, List.all_eq_true.mp (by decide)⟩
    · refine List.forall_mem_append.mpr ⟨sign _, ?_⟩
      unfold NumeralStyle.spell
      dsimp only
      split
      · exact NumeralStyle.isNumeral_of_mem_positional isNumeral_of_mem_decimalDigits
      · exact NumeralStyle.isNumeral_of_mem_scientific rfl isNumeral_of_mem_decimalDigits

/-! ## Rendered lines -/

theorem LegibleLabel.skipBlanks_eq {word : List Char} (legible : LegibleLabel word) :
    skipBlanks word = word := by
  cases word with
  | nil => exact absurd rfl legible.nonempty
  | cons character rest =>
      refine skipBlanks_of_visible ?_ ?_
      · rw [Bool.eq_false_iff]
        intro blank
        obtain rfl | rfl := isBlank_eq_true.mp blank
        · exact legible.blankFree.1 List.mem_cons_self
        · exact legible.blankFree.2 List.mem_cons_self
      · rw [Bool.eq_false_iff]
        exact fun comment => legible.commentFree (startsComment_eq_true.mp comment).isInfix

/-- How the operand of an instruction stands in a listing, and what is made of it. -/
structure Operand.Written (operand : Operand) (text : List Char) (raw : RawOperand) : Prop where
  lineFree : LineFree text
  visible : skipBlanks text = text
  taken : RawOperand.read text = (some raw, [])
  reads : ∀ (shape : OpcodeShape) (instruction : Instruction),
    shape.make? operand = some instruction → shape.read? (some raw) = some instruction

namespace Operand

theorem written_word {operand : Operand} {word : List Char} (legible : LegibleLabel word)
    (reads : ∀ (shape : OpcodeShape) (instruction : Instruction),
      shape.make? operand = some instruction →
        shape.read? (some (.word word)) = some instruction) :
    operand.Written word (.word word) :=
  ⟨legible.lineFree, legible.skipBlanks_eq, RawOperand.read_word legible, reads⟩

theorem written_integer (value : Int32) :
    ∃ raw, (integer value).Written (toString value.toInt).toList raw := by
  have read := readInt32?_repr value
  have nonempty : (toString value.toInt).toList ≠ [] := by
    intro empty
    rw [empty] at read
    cases read
  refine ⟨_, written_word (legible_of_isNumeral nonempty isNumeral_of_mem_toString) ?_⟩
  intro shape instruction made
  cases shape <;> cases made
  simp only [OpcodeShape.read?, read, Option.map_some]

theorem written_byte (value : UInt8) :
    ∃ raw, (byte value).Written (toString value.toNat).toList raw := by
  have read := readByte?_repr value
  have nonempty : (toString value.toNat).toList ≠ [] := by
    intro empty
    rw [empty] at read
    cases read
  have numeral : ∀ digit ∈ (toString value.toNat).toList, isNumeral digit = true :=
    fun digit member => isNumeral_of_mem_decimalDigits digit (Nat.toList_repr ▸ member)
  refine ⟨_, written_word (legible_of_isNumeral nonempty numeral) ?_⟩
  intro shape instruction made
  cases shape <;> cases made
  simp only [OpcodeShape.read?, read, Option.map_some]

theorem written_floating {value : Binary64} (read : readBinary64? value.exactText = some value) :
    ∃ raw, (floating value).Written value.exactText raw := by
  have nonempty : value.exactText ≠ [] := by
    intro empty
    rw [empty] at read
    revert read
    simp [readBinary64?, readUnsigned?, readMantissa?]
  refine ⟨_, written_word (legible_of_isNumeral nonempty value.isNumeral_of_mem_exactText) ?_⟩
  intro shape instruction made
  cases shape <;> cases made
  simp only [OpcodeShape.read?, read, Option.map_some]

theorem written_label {name : String} (legible : LegibleLabel name.toList) :
    ∃ raw, (label name).Written name.toList raw := by
  refine ⟨_, written_word legible ?_⟩
  intro shape instruction made
  cases shape <;> cases made
  simp only [OpcodeShape.read?, String.ofList_toList]

theorem written_text {value : String} (absent : '\r' ∉ value.toList) :
    ∃ raw, (text value).Written ('"' :: (Quoted.encode value.toList ++ ['"'])) raw := by
  refine ⟨.quoted value.toList, ?_, ?_, RawOperand.read_quoted _, ?_⟩
  · rw [lineFree_cons, lineFree_append]
    exact ⟨by decide, Quoted.lineFree_encode absent, by decide, by decide⟩
  · exact skipBlanks_of_visible (by decide) rfl
  · intro shape instruction made
    cases shape <;> cases made
    simp only [OpcodeShape.read?, String.ofList_toList]

/-- The operand of a legible instruction is written so that it reads back. -/
theorem exists_written {instruction : Instruction} (legible : instruction.Legible)
    (floats : ∀ value, instruction.operand = .floating value →
      readBinary64? value.exactText = some value)
    {text : String} (rendered : instruction.operand.text? = some text) :
    ∃ raw, instruction.operand.Written text.toList raw := by
  unfold Instruction.Legible at legible
  generalize instruction.operand = operand at legible floats rendered
  cases operand with
  | absent => cases rendered
  | integer value =>
      cases rendered
      exact written_integer value
  | byte value =>
      cases rendered
      exact written_byte value
  | floating value =>
      cases rendered
      rw [String.toList_ofList]
      exact written_floating (floats value rfl)
  | label name =>
      cases rendered
      exact written_label legible
  | text value =>
      cases rendered
      simp only [String.toList_append, String.toList_ofList]
      exact written_text legible

end Operand

/-- A line of blanks, an opcode and what reads as an operand is an instruction. -/
theorem SourceLine.scan_parts {blanks rest tail : List Char} {first : Char}
    {operand : Option RawOperand} (blank : ∀ character ∈ blanks, isBlank character = true)
    (alpha : first.isAlpha = true)
    (alphanumeric : ∀ character ∈ first :: rest, character.isAlphanum = true)
    (ends : ∀ character ∈ tail.head?, character.isAlphanum = false)
    (taken : RawOperand.read (skipBlanks tail) = (operand, [])) (start : Nat) :
    ∃ raw, scan ⟨start, blanks ++ (first :: rest ++ tail)⟩ = .ok (some raw) ∧
      raw.opcode = String.ofList (first :: rest) ∧ raw.operand = operand := by
  have body : skipBlanks (blanks ++ (first :: rest ++ tail)) = first :: (rest ++ tail) := by
    rw [skipBlanks_append blank, List.cons_append, skipBlanks_of_alpha alpha]
  have takes : (first :: (rest ++ tail)).takeWhile Char.isAlphanum = first :: rest := by
    rw [← List.cons_append, List.takeWhile_append_of_pos alphanumeric]
    cases tail with
    | nil => simp
    | cons next others =>
        rw [List.takeWhile_cons_of_neg (by simp [ends next rfl]), List.append_nil]
  have drops : (first :: (rest ++ tail)).dropWhile Char.isAlphanum = tail := by
    rw [← List.cons_append, List.dropWhile_append_of_pos alphanumeric]
    cases tail with
    | nil => rfl
    | cons next others => rw [List.dropWhile_cons_of_neg (by simp [ends next rfl])]
  have nothing : skipBlanks [] = [] := rfl
  unfold scan
  simp only [body, alpha, takes, drops, taken, nothing, Bool.not_true, Bool.false_eq_true, if_false]
  exact ⟨_, rfl, rfl, rfl⟩

namespace Instruction

/-- Opcodes are words of letters and digits that leave room before the operand. -/
def plainOpcode (opcode : String) : Bool :=
  match opcode.toList with
  | [] => false
  | first :: rest =>
      first.isAlpha && (first :: rest).all Char.isAlphanum && (first :: rest).length < 13

theorem plainOpcode_opcode (instruction : Instruction) :
    plainOpcode instruction.opcode = true := by
  cases instruction <;> simp [plainOpcode, opcode]

theorem exists_opcode (instruction : Instruction) :
    ∃ first rest, instruction.opcode.toList = first :: rest ∧ first.isAlpha = true ∧
      (∀ character ∈ first :: rest, character.isAlphanum = true) ∧
      instruction.opcode.length < 13 := by
  have plain := instruction.plainOpcode_opcode
  rw [plainOpcode] at plain
  cases shape : instruction.opcode.toList with
  | nil =>
      rw [shape] at plain
      cases plain
  | cons first rest =>
      rw [shape] at plain
      simp only [Bool.and_eq_true, List.all_eq_true, decide_eq_true_eq] at plain
      refine ⟨first, rest, rfl, plain.1.1, plain.1.2, ?_⟩
      rw [← String.length_toList, shape]
      exact plain.2

/-- A word of letters and digits ends no line. -/
theorem lineFree_of_isAlphanum {word : List Char}
    (alphanumeric : ∀ character ∈ word, character.isAlphanum = true) : LineFree word :=
  ⟨fun member => absurd (alphanumeric _ member) (by decide),
    fun member => absurd (alphanumeric _ member) (by decide)⟩

theorem lineFree_replicate (count : Nat) : LineFree (List.replicate count ' ') :=
  ⟨fun member => absurd (List.eq_of_mem_replicate member) (by decide),
    fun member => absurd (List.eq_of_mem_replicate member) (by decide)⟩

/-- What follows the opcode on the line of a legible instruction reads as its operand. -/
theorem exists_tail {instruction : Instruction} (legible : instruction.Legible)
    (floats : ∀ value, instruction.operand = .floating value →
      readBinary64? value.exactText = some value) :
    ∃ tail operand,
      instruction.line.toList = List.replicate 8 ' ' ++ (instruction.opcode.toList ++ tail) ∧
      LineFree tail ∧ (∀ character ∈ tail.head?, character.isAlphanum = false) ∧
      RawOperand.read (skipBlanks tail) = (operand, []) ∧
      ∀ shape : OpcodeShape, shape.make? instruction.operand = some instruction →
        shape.read? operand = some instruction := by
  cases rendered : instruction.operand.text? with
  | none =>
      refine ⟨[], none, ?_, ⟨by simp, by simp⟩, by simp, rfl, fun shape made => ?_⟩
      · rw [line, rendered, List.append_nil]
        exact String.toList_append
      · cases operand : instruction.operand <;> rw [operand] at rendered <;> cases rendered
        rw [operand] at made
        cases shape <;> cases made
        rfl
  | some text =>
      obtain ⟨raw, written⟩ := Operand.exists_written legible floats rendered
      obtain ⟨_, _, _, _, _, short⟩ := instruction.exists_opcode
      obtain ⟨count, room⟩ : ∃ count, 13 - instruction.opcode.length = count + 1 :=
        ⟨12 - instruction.opcode.length, by omega⟩
      have blank : ∀ character ∈ List.replicate (count + 1) ' ', isBlank character = true :=
        fun _ member => List.eq_of_mem_replicate member ▸ rfl
      refine ⟨List.replicate (count + 1) ' ' ++ text.toList, some raw, ?_,
        lineFree_append.mpr ⟨lineFree_replicate _, written.lineFree⟩, by simp [List.replicate_succ], ?_,
        fun shape made => written.reads shape instruction made⟩
      · rw [line, rendered, opcodeColumn, room]
        simp only [String.toList_append, String.toList_ofList, List.append_assoc]
        rfl
      · rw [skipBlanks_append blank, written.visible, written.taken]

/-- The line of a legible instruction spells the instruction. -/
theorem scan_line {instruction : Instruction} (legible : instruction.Legible)
    (floats : ∀ value, instruction.operand = .floating value →
      readBinary64? value.exactText = some value) (start : Nat) :
    LineFree instruction.line.toList ∧
      ∃ raw, SourceLine.scan ⟨start, instruction.line.toList⟩ = .ok (some raw) ∧
        raw.interpret = .ok instruction := by
  obtain ⟨first, rest, opcode, alpha, alphanumeric, _⟩ := instruction.exists_opcode
  obtain ⟨shape, found, made⟩ := Option.bind_eq_some_iff.mp (opcodeShape?_opcode instruction)
  obtain ⟨tail, operand, line, tailFree, ends, taken, reads⟩ := exists_tail legible floats
  have blank : ∀ character ∈ List.replicate 8 ' ', isBlank character = true :=
    List.all_eq_true.mp (by decide)
  rw [line, opcode]
  refine ⟨lineFree_append.mpr ⟨lineFree_replicate 8,
    lineFree_append.mpr ⟨lineFree_of_isAlphanum alphanumeric, tailFree⟩⟩, ?_⟩
  obtain ⟨raw, scanned, rawOpcode, rawOperand⟩ :=
    SourceLine.scan_parts blank alpha alphanumeric ends taken start
  refine ⟨raw, scanned, RawInstruction.interpret_eq_ok.mpr ⟨shape, ?_, ?_⟩⟩
  · rw [rawOpcode, ← opcode, String.ofList_toList, found]
  · rw [rawOperand, reads shape made]

end Instruction

/-! ## Listings -/

namespace Code

/-- Reads the lines of a text, wherever in a listing they stand. -/
def ofLines (lines : List SourceLine) : Except ListingError Code := do
  let raws ← lines.mapM fun line => line.scan.mapError ListingError.ofLineFault
  (raws.filterMap id).mapM RawInstruction.interpret

theorem ofListing_eq (text : String) :
    ofListing text = ofLines (SourceLine.ofText text.toList) :=
  rfl

theorem listing_cons (instruction : Instruction) (rest : Code) :
    (listing (instruction :: rest)).toList =
      instruction.line.toList ++ '\n' :: (listing rest).toList := by
  simp [listing]

/-- Whatever a listing spells is legible. -/
theorem legible_of_ofListing {text : String} {code : Code} (read : ofListing text = .ok code) :
    ∀ instruction ∈ code, instruction.Legible := by
  intro instruction member
  rw [ofListing_eq, ofLines, Except.bind_eq_ok] at read
  obtain ⟨raws, scanned, interpreted⟩ := read
  obtain ⟨raw, rawMember, interpreted⟩ := Except.exists_of_mem_mapM interpreted member
  obtain ⟨_, someMember, rfl⟩ := List.mem_filterMap.mp rawMember
  obtain ⟨line, lineMember, scanned⟩ := Except.exists_of_mem_mapM scanned someMember
  have free : LineFree line.characters :=
    SourceLine.lineFree_of_split ⟨List.not_mem_nil, List.not_mem_nil⟩ line lineMember
  have scanned : line.scan = .ok (some raw) := by
    cases result : line.scan <;> rw [result] at scanned <;> cases scanned
    rfl
  exact SourceLine.legible_of_interpret free scanned interpreted

/-- Legible code is what its listing spells. -/
theorem ofLines_listing {code : Code} (legible : ∀ instruction ∈ code, instruction.Legible)
    (floats : ∀ instruction ∈ code, ∀ value, instruction.operand = .floating value →
      readBinary64? value.exactText = some value) (start : Nat) :
    ofLines (SourceLine.split start start [] (listing code).toList) = .ok code := by
  induction code generalizing start with
  | nil => rfl
  | cons instruction rest induction =>
      rw [List.forall_mem_cons] at legible floats
      obtain ⟨free, raw, scanned, interpreted⟩ :=
        Instruction.scan_line legible.1 floats.1 start
      obtain ⟨next, lines⟩ := SourceLine.split_line free (listing rest).toList
      have others := induction legible.2 floats.2 next
      rw [ofLines, Except.bind_eq_ok] at others
      obtain ⟨raws, othersScanned, others⟩ := others
      rw [listing_cons, lines, ofLines, List.reverse_nil, List.nil_append, List.mapM_cons,
        othersScanned, scanned]
      show ((some raw :: raws).filterMap id).mapM RawInstruction.interpret = _
      rw [List.filterMap_cons_some (by rfl), List.mapM_cons, interpreted, others]
      rfl

/-- Code can be read back from its listing exactly if all its labels are words that no
quoted text starts, and its texts hold no carriage return. -/
theorem ofListing_listing_iff {code : Code}
    (floats : ∀ instruction ∈ code, ∀ value, instruction.operand = .floating value →
      readBinary64? value.exactText = some value) :
    ofListing code.listing = .ok code ↔ ∀ instruction ∈ code, instruction.Legible :=
  ⟨legible_of_ofListing, fun legible => ofLines_listing legible floats 0⟩

/-- The number 1.5, a text of escapes, quotes and a comment, and a label that starts like
quoted text but has no closing quote. -/
def oddities : Code :=
  [.pushF (.ofMagnitude false 0x3FF8000000000000), .dataS "\t\"%%\\\x00\né", .jump "\"half%"]

theorem ofListing_oddities :
    (∀ instruction ∈ oddities, ∀ value, instruction.operand = .floating value →
      readBinary64? value.exactText = some value) ∧
    ofListing oddities.listing = .ok oddities := by
  have floats : ∀ instruction ∈ oddities, ∀ value, instruction.operand = .floating value →
      readBinary64? value.exactText = some value := by
    simp only [oddities, List.forall_mem_cons]
    refine ⟨fun value same => ?_, fun value same => ?_, fun value same => ?_, by simp⟩
    · cases same
      decide +kernel
    · cases same
    · cases same
  refine ⟨floats, (ofListing_listing_iff floats).mpr ?_⟩
  simp only [oddities, List.forall_mem_cons]
  have text : '\r' ∉ "\t\"%%\\\x00\né".toList := by decide
  refine ⟨trivial, text, ?_, by simp⟩
  refine ⟨by decide, by decide, ⟨by decide, by decide⟩,
    by decide, ?_⟩
  -- Quoted text has two quotes, the label has one.
  rintro _ before ⟨content, _, rfl⟩
  have quotes := before.sublist.count_le '"'
  have one : List.count '"' "\"half%".toList = 1 := by decide
  rw [one, List.count_cons_self, List.count_append, List.count_singleton_self] at quotes
  omega

end Code

end StackBackend
