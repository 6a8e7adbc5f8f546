import StackBackend.Listing.Grammar
import StackBackend.Proofs.Legibility

namespace StackBackend

/-! Lines and the grammar. No rule of the grammar takes a newline, so what a rule does on a
line does not depend on what follows the line, and reading a listing line by line comes to
the same as reading the whole text. -/

/-! ## Texts and their lines -/

@[simp] theorem utf8Length_nil : utf8Length [] = 0 := rfl

theorem utf8Length_append (first second : List Char) :
    utf8Length (first ++ second) = utf8Length first + utf8Length second := by
  have shift : ∀ (characters : List Char) (length : Nat),
      characters.foldl (fun length character => length + character.utf8Size) length =
        length + utf8Length characters := by
    intro characters
    induction characters with
    | nil => exact fun length => rfl
    | cons character rest induction =>
        intro length
        rw [utf8Length, List.foldl_cons, List.foldl_cons, induction, induction (0 + _)]
        omega
  rw [utf8Length, List.foldl_append, shift]
  rfl

theorem utf8Length_cons (character : Char) (rest : List Char) :
    utf8Length (character :: rest) = character.utf8Size + utf8Length rest := by
  rw [← List.singleton_append, utf8Length_append]
  simp [utf8Length]

/-- What ends a line that is followed by the rest. A carriage return in front of a line feed
ends no line by itself. -/
inductive Terminates : List Char → List Char → Prop
  | feed (rest : List Char) : Terminates ['\n'] rest
  | returnFeed (rest : List Char) : Terminates ['\r', '\n'] rest
  | «return» {rest : List Char} (alone : ∀ others, rest ≠ '\n' :: others) :
      Terminates ['\r'] rest

/-- The lines of a text that starts at the given byte. -/
inductive Lines : Nat → List Char → List SourceLine → Prop
  | last {start : Nat} {line : List Char} (free : LineFree line) :
      Lines start line [⟨start, line⟩]
  | next {start : Nat} {line terminator rest : List Char} {lines : List SourceLine}
      (free : LineFree line) (ends : Terminates terminator rest)
      (others : Lines (start + utf8Length (line ++ terminator)) rest lines) :
      Lines start (line ++ (terminator ++ rest)) (⟨start, line⟩ :: lines)

theorem LineFree.reverse {characters : List Char} (free : LineFree characters) :
    LineFree characters.reverse :=
  ⟨fun member => free.1 (List.mem_reverse.mp member),
    fun member => free.2 (List.mem_reverse.mp member)⟩

theorem lineFree_nil : LineFree [] :=
  ⟨List.not_mem_nil, List.not_mem_nil⟩

namespace SourceLine

theorem lines_split {start position : Nat} {reversed text : List Char} (free : LineFree reversed)
    (reached : position = start + utf8Length reversed.reverse) :
    Lines start (reversed.reverse ++ text) (split start position reversed text) := by
  have next {start position : Nat} {line : List Char} (reached : position = start + utf8Length line)
      (terminator : List Char) :
      start + utf8Length (line ++ terminator) = position + utf8Length terminator := by
    rw [utf8Length_append, reached, Nat.add_assoc]
  fun_induction split start position reversed text with
  | case1 start position reversed =>
      rw [List.append_nil]
      exact .last free.reverse
  | case2 start position reversed rest induction =>
      refine .next free.reverse (.returnFeed rest) ?_
      rw [next reached]
      exact induction lineFree_nil rfl
  | case3 start position reversed rest alone induction =>
      refine .next free.reverse (.return alone) ?_
      rw [next reached]
      exact induction lineFree_nil rfl
  | case4 start position reversed rest induction =>
      refine .next free.reverse (.feed rest) ?_
      rw [next reached]
      exact induction lineFree_nil rfl
  | case5 start position reversed character rest _ notReturn notFeed induction =>
      have longer := induction (lineFree_cons.mpr ⟨⟨notFeed, notReturn⟩, free⟩) (by
        rw [List.reverse_cons, next reached, utf8Length_cons]
        rfl)
      rwa [List.reverse_cons, List.append_assoc] at longer

/-- The lines of a text are what stands between its terminators. -/
theorem lines_ofText (text : List Char) : Lines 0 text (ofText text) :=
  lines_split lineFree_nil rfl

end SourceLine

/-! ## Rules on a line -/

/-- Nothing, or text from the end of a line on. -/
def Behind (tail : List Char) : Prop :=
  ∀ character ∈ tail.head?, character = '\n' ∨ character = '\r'

theorem behind_nil : Behind [] := by
  simp [Behind]

theorem Terminates.behind {terminator rest : List Char} (ends : Terminates terminator rest) :
    Behind (terminator ++ rest) := by
  cases ends <;> simp [Behind]

/-- What follows a run of characters does not change where the run stops. -/
theorem dropWhile_append_of_stops {test : Char → Bool} {tail : List Char}
    (stops : ∀ character ∈ tail.head?, test character = false) (line : List Char) :
    (line ++ tail).dropWhile test = line.dropWhile test ++ tail := by
  rw [List.dropWhile_append]
  split
  · rename_i empty
    rw [List.isEmpty_iff.mp empty, List.nil_append]
    cases tail with
    | nil => rfl
    | cons character rest => exact List.dropWhile_cons_of_neg (by simp [stops character rfl])
  · rfl

theorem takeWhile_append_of_stops {test : Char → Bool} {tail : List Char}
    (stops : ∀ character ∈ tail.head?, test character = false) (line : List Char) :
    (line ++ tail).takeWhile test = line.takeWhile test := by
  rw [List.takeWhile_append]
  split
  · rename_i whole
    have nothing : tail.takeWhile test = [] := by
      cases tail with
      | nil => rfl
      | cons character rest => exact List.takeWhile_cons_of_neg (by simp [stops character rfl])
    rw [nothing, List.append_nil]
    exact ((List.takeWhile_prefix test).eq_of_length whole).symm
  · rfl

/-- Whether a comment starts does not depend on what is added, unless that goes on with a
percent sign. -/
theorem startsComment_append {tail : List Char} (notPercent : ∀ rest, tail ≠ '%' :: rest)
    (line : List Char) : startsComment (line ++ tail) = startsComment line := by
  match line with
  | [] =>
      rw [Bool.eq_iff_iff, startsComment_eq_true, startsComment_eq_true]
      refine iff_of_false ?_ (by simp)
      rintro ⟨rest, same⟩
      exact notPercent _ same.symm
  | [character] =>
      rw [Bool.eq_iff_iff, startsComment_eq_true, startsComment_eq_true]
      refine iff_of_false ?_ (by simp)
      rintro ⟨rest, same⟩
      exact notPercent _ (List.cons.inj same).2.symm
  | first :: second :: rest =>
      rw [Bool.eq_iff_iff, startsComment_eq_true, startsComment_eq_true]
      simp only [List.cons_append, List.cons_prefix_cons, List.nil_prefix]

theorem skipBlanks_skipBlanks (characters : List Char) :
    skipBlanks (skipBlanks characters) = skipBlanks characters := by
  cases skipped : skipBlanks characters with
  | nil => rfl
  | cons character rest =>
      obtain ⟨notBlank, noComment⟩ := visible_of_skipBlanks skipped
      exact skipBlanks_of_visible notBlank noComment

theorem takeWord_suffix (characters : List Char) : (takeWord characters).2 <:+ characters := by
  fun_induction takeWord characters with
  | case1 => exact List.suffix_refl _
  | case2 => exact List.suffix_refl _
  | case3 character rest _ word after taken induction =>
      rw [taken] at induction
      exact induction.trans (List.suffix_cons _ _)

/-- What follows an operand is the rest of its line, and no operand is found only at the end
of a line. -/
theorem RawOperand.read_cons {character : Char} {rest : List Char}
    (free : LineFree (character :: rest)) :
    ∃ operand after, RawOperand.read (character :: rest) = (some operand, after) ∧
      after <:+ character :: rest := by
  unfold RawOperand.read RawOperand.readWord
  split
  · contradiction
  · rename_i others same
    cases same
    split
    · rename_i text after decoded
      obtain ⟨_, content, _, whole⟩ :=
        Quoted.content_of_decode (lineFree_cons.mp free).2 decoded
      refine ⟨_, _, rfl, ['"'] ++ content ++ ['"'], ?_⟩
      simp [whole]
    · exact ⟨_, _, rfl, takeWord_suffix ('"' :: rest)⟩
  · exact ⟨_, _, rfl, takeWord_suffix (character :: rest)⟩

theorem RawOperand.read_suffix {characters : List Char} (free : LineFree characters) :
    (RawOperand.read characters).2 <:+ characters := by
  cases characters with
  | nil => exact List.suffix_refl _
  | cons character rest =>
      obtain ⟨operand, after, found, suffix⟩ := RawOperand.read_cons free
      rwa [found]

/-- A character that starts no escape and is not the last backslash is no backslash. -/
theorem Quoted.ne_backslash {character : Char} {rest : List Char}
    (notLast : character = '\\' → rest ≠ [])
    (notEscape : ∀ letter others, character = '\\' → rest ≠ letter :: others) :
    character ≠ '\\' := by
  intro same
  cases shape : rest with
  | nil => exact notLast same shape
  | cons letter others => exact notEscape letter others same shape

namespace Grammar

theorem newline?_of_terminates {terminator rest : List Char} (ends : Terminates terminator rest) :
    newline? (terminator ++ rest) = some rest := by
  cases ends with
  | feed | returnFeed => rfl
  | «return» alone =>
      rw [List.singleton_append, newline?]
      exact alone

theorem endsLine_cons {character : Char} {rest : List Char} :
    endsLine (character :: rest) = true ↔ character = '\n' ∨ character = '\r' := by
  unfold endsLine newline?
  split <;> simp_all

section

variable {line tail : List Char} (behind : Behind tail)
include behind

theorem stops_of_behind (test : Char → Bool) (feed : test '\n' = false)
    (return_ : test '\r' = false) : ∀ character ∈ tail.head?, test character = false := by
  intro character member
  obtain rfl | rfl := behind character member
  · exact feed
  · exact return_

theorem notPercent_of_behind : ∀ rest, tail ≠ '%' :: rest := by
  rintro rest rfl
  obtain same | same := behind '%' rfl <;> cases same

theorem upTo_endsLine (free : LineFree line) : upTo endsLine (line ++ tail) = (line, tail) := by
  induction line with
  | nil =>
      cases tail with
      | nil => rfl
      | cons character rest => exact if_pos (endsLine_cons.mpr (behind character rfl))
  | cons character rest induction =>
      obtain ⟨⟨notFeed, notReturn⟩, free⟩ := lineFree_cons.mp free
      rw [List.cons_append, upTo, if_neg (by simp [endsLine_cons, notFeed, notReturn]),
        induction free]

theorem comment?_append (free : LineFree line) :
    comment? (line ++ tail) = if startsComment line then some tail else none := by
  rw [← startsComment_append (notPercent_of_behind behind) line]
  cases commented : startsComment (line ++ tail) with
  | false =>
      unfold comment?
      split
      · rename_i same
        rw [same] at commented
        cases commented
      · rfl
  | true =>
      rw [startsComment_append (notPercent_of_behind behind), startsComment_eq_true] at commented
      obtain ⟨rest, rfl⟩ := commented
      have rest := upTo_endsLine behind (free.of_suffix (List.suffix_append _ _))
      rw [if_pos rfl, List.append_assoc]
      exact congrArg (fun taken => some taken.2) rest

theorem skip_append (free : LineFree line) : skip (line ++ tail) = skipBlanks line ++ tail := by
  have blanks : ∀ line : List Char,
      (line ++ tail).dropWhile isBlank = line.dropWhile isBlank ++ tail :=
    dropWhile_append_of_stops (stops_of_behind behind isBlank rfl rfl)
  have nothing : skip tail = tail := by
    have alone := blanks []
    rw [List.nil_append] at alone
    rw [skip]
    split
    · rename_i after commented
      rw [alone] at commented
      cases (comment?_append behind lineFree_nil).symm.trans commented
    · exact alone
  have commented := comment?_append behind (free.of_suffix (List.dropWhile_suffix isBlank))
  rw [← blanks] at commented
  rw [skip, skipBlanks]
  split
  · rename_i after found
    rw [found] at commented
    split at commented
    · cases commented
      rename_i isComment
      rw [if_pos isComment, nothing, List.nil_append]
    · cases commented
  · rename_i found
    rw [found] at commented
    split at commented
    · cases commented
    · rename_i noComment
      rw [if_neg noComment, blanks]

theorem upTo_endsWord (free : LineFree line) :
    upTo endsWord (line ++ tail) = ((takeWord line).1, (takeWord line).2 ++ tail) := by
  induction line with
  | nil =>
      cases tail with
      | nil => rfl
      | cons character rest =>
          refine if_pos ?_
          simp [endsWord, endsLine_cons, behind character rfl]
  | cons character rest induction =>
      obtain ⟨⟨notFeed, notReturn⟩, freeRest⟩ := lineFree_cons.mp free
      have same : endsWord (character :: (rest ++ tail)) =
          (isBlank character || startsComment (character :: rest)) := by
        have inLine : endsLine (character :: (rest ++ tail)) = false := by
          simp [Bool.eq_false_iff, endsLine_cons, notFeed, notReturn]
        rw [endsWord, inLine, ← List.cons_append,
          startsComment_append (notPercent_of_behind behind)]
        simp
      rw [List.cons_append, upTo, same, takeWord, induction freeRest]
      split <;> rfl

end

/-! ### Quoted text -/

/-- A piece of the text in front is kept for the end. -/
theorem closed?_of_characters {text rest : List Char} {character : Char} (written : List Char)
    (taken : characters text = (written ++ (characters rest).1, (characters rest).2))
    (means : ∀ content, unescape (written ++ content) = character :: unescape content) :
    closed? text = (closed? rest).map fun (text, after) => (character :: text, after) := by
  simp only [closed?, taken, means, Option.map_map]
  rfl

theorem closed?_plain {character : Char} {rest : List Char}
    (plain : character ∉ ['"', '\\', '\n', '\r']) :
    closed? (character :: rest) =
      (closed? rest).map fun (text, after) => (character :: text, after) := by
  simp only [List.mem_cons, List.not_mem_nil, or_false, not_or] at plain
  obtain ⟨notQuote, notBackslash, notFeed, notReturn⟩ := plain
  have inLine : endsLine (character :: rest) = false := by
    simp [Bool.eq_false_iff, endsLine_cons, notFeed, notReturn]
  refine closed?_of_characters [character] ?_ fun content => ?_
  · rw [characters]
    · simp [notQuote, notBackslash, inLine]
    · exact fun _ _ same => absurd same notBackslash
  · rw [List.singleton_append, unescape]
    all_goals
      intros
      exact notBackslash ‹_›

theorem closed?_escape {letter character : Char} {rest : List Char}
    (known : Quoted.unescape? letter = some character) :
    closed? ('\\' :: letter :: rest) =
      (closed? rest).map fun (text, after) => (character :: text, after) := by
  have escapes : letter ∈ ['"', '\\', 'n', 't', '0'] ∧
      ∀ content, unescape ('\\' :: letter :: content) = character :: unescape content := by
    unfold Quoted.unescape? at known
    split at known <;> cases known <;> exact ⟨by decide, fun _ => rfl⟩
  refine closed?_of_characters ['\\', letter] ?_ escapes.2
  rw [characters, if_pos escapes.1]
  rfl

theorem closed?_unknown {letter : Char} {rest : List Char}
    (unknown : Quoted.unescape? letter = none) : closed? ('\\' :: letter :: rest) = none := by
  have notEscape : letter ∉ ['"', '\\', 'n', 't', '0'] := by
    intro member
    simp only [List.mem_cons, List.not_mem_nil, or_false] at member
    obtain rfl | rfl | rfl | rfl | rfl := member <;> cases unknown
  rw [closed?, characters, if_neg notEscape]
  rfl

theorem closed?_of_behind {tail : List Char} (behind : Behind tail) : closed? tail = none := by
  cases tail with
  | nil => rfl
  | cons character rest =>
      have notQuote : quote? (character :: rest) = none := by
        obtain rfl | rfl := behind character rfl <;> rfl
      have stops : characters (character :: rest) = ([], character :: rest) := by
        rw [characters]
        · simp [endsLine_cons.mpr (behind character rfl)]
        · rintro letter others rfl
          obtain same | same := behind '\\' rfl <;> cases same
      rw [closed?, stops]
      exact congrArg (Option.map _) notQuote

/-- What stands between quotes is decoded while it is read, or read and unescaped then. -/
theorem closed?_append {line tail : List Char} (behind : Behind tail) (free : LineFree line) :
    closed? (line ++ tail) =
      (Quoted.decode line).map fun (text, after) => (text, after ++ tail) := by
  fun_induction Quoted.decode line with
  | case1 => exact closed?_of_behind behind
  | case2 rest => rfl
  | case3 =>
      cases tail with
      | nil => rfl
      | cons character rest =>
          refine closed?_unknown ?_
          obtain rfl | rfl := behind character rfl <;> rfl
  | case4 letter rest unknown => exact closed?_unknown unknown
  | case5 letter rest character known induction =>
      rw [List.cons_append, List.cons_append, closed?_escape known,
        induction (lineFree_cons.mp (lineFree_cons.mp free).2).2, Option.map_map, Option.map_map]
      rfl
  | case6 character rest notQuote notLast notEscape induction =>
      obtain ⟨⟨notFeed, notReturn⟩, freeRest⟩ := lineFree_cons.mp free
      have notBackslash := Quoted.ne_backslash notLast notEscape
      have plain : character ∉ ['"', '\\', '\n', '\r'] := by
        simp only [List.mem_cons, List.not_mem_nil, or_false, not_or]
        exact ⟨notQuote, notBackslash, notFeed, notReturn⟩
      rw [List.cons_append, closed?_plain plain, induction freeRest, Option.map_map, Option.map_map]
      rfl

/-! ### Operands and instructions -/

/-- Where a line does not go on with blanks or a comment, both readings find the same operand. -/
theorem operand?_append {line tail : List Char} (behind : Behind tail) (free : LineFree line)
    (visible : skipBlanks line = line) :
    operand? (line ++ tail) =
      (RawOperand.read line).1.map fun operand => (operand, (RawOperand.read line).2 ++ tail) := by
  have words := upTo_endsWord behind free
  cases line with
  | nil =>
      have noString : string? tail = none := by
        cases tail with
        | nil => rfl
        | cons character rest => obtain rfl | rfl := behind character rfl <;> rfl
      have noWord : word? ([] ++ tail) = none := by
        rw [word?, words]
        rfl
      rw [operand?, List.nil_append, noString]
      exact noWord
  | cons character rest =>
      obtain ⟨notBlank, noComment⟩ := visible_of_skipBlanks visible
      have word : word? (character :: rest ++ tail) =
          some (.word (takeWord (character :: rest)).1,
            (takeWord (character :: rest)).2 ++ tail) := by
        rw [word?, words, takeWord, notBlank, noComment]
        rfl
      by_cases quote : character = '"'
      · subst quote
        have string : string? ('"' :: rest ++ tail) =
            (Quoted.decode rest).map fun (text, after) => (.quoted text, after ++ tail) := by
          show (closed? (rest ++ tail)).map _ = _
          rw [closed?_append behind (lineFree_cons.mp free).2, Option.map_map]
          rfl
        rw [operand?, string, word, RawOperand.read]
        cases Quoted.decode rest <;> rfl
      · have noQuote : quote? (character :: rest ++ tail) = none := by
          unfold quote?
          split
          · rename_i same
            exact absurd (List.cons.inj same).1 quote
          · rfl
        rw [operand?, word, string?, noQuote, RawOperand.read]
        · rfl
        · exact List.cons_ne_nil _ _
        · exact fun rest same => quote (List.cons.inj same).1

theorem instruction?_append {first : Char} {rest tail : List Char} (behind : Behind tail)
    (free : LineFree (first :: rest)) (alpha : first.isAlpha = true) :
    instruction? (first :: rest ++ tail) = some {
      opcode := (first :: rest).takeWhile Char.isAlphanum
      operand := (RawOperand.read (skipBlanks ((first :: rest).dropWhile Char.isAlphanum))).1
      start := first :: rest ++ tail
      stop := (RawOperand.read (skipBlanks ((first :: rest).dropWhile Char.isAlphanum))).2 ++ tail
      } := by
  have alphanumeric : first.isAlphanum = true := by
    rw [Char.isAlphanum, alpha, Bool.true_or]
  have stops := stops_of_behind behind Char.isAlphanum rfl rfl
  have opcode : opcode? (first :: rest ++ tail) =
      some (first :: rest.takeWhile Char.isAlphanum, rest.dropWhile Char.isAlphanum ++ tail) := by
    rw [List.cons_append, opcode?, if_pos alpha, takeWhile_append_of_stops stops,
      dropWhile_append_of_stops stops]
  have freeAfter : LineFree (rest.dropWhile Char.isAlphanum) :=
    (lineFree_cons.mp free).2.of_suffix (List.dropWhile_suffix _)
  rw [instruction?, opcode, List.takeWhile_cons_of_pos alphanumeric,
    List.dropWhile_cons_of_pos alphanumeric, Option.map_some]
  dsimp only
  rw [skip_append behind freeAfter, operand?_append behind
    (freeAfter.of_suffix (skipBlanks_suffix _)) (skipBlanks_skipBlanks _)]
  have freeOperand := freeAfter.of_suffix (skipBlanks_suffix (rest.dropWhile Char.isAlphanum))
  generalize skipBlanks (rest.dropWhile Char.isAlphanum) = operand at freeOperand
  cases operand with
  | nil => rfl
  | cons character others =>
      obtain ⟨operand, after, found, _⟩ := RawOperand.read_cons freeOperand
      rw [found]
      rfl

/-- What an optional instruction with blanks around it comes to on a line. -/
theorem scan_optional {line tail : List Char} (behind : Behind tail) (free : LineFree line)
    (start : Nat) :
    ∃ unread, LineFree unread ∧ (optional (line ++ tail)).2 = unread ++ tail ∧
      SourceLine.scan ⟨start, line⟩ = match unread with
        | [] => .ok ((optional (line ++ tail)).1.map
            (Match.located (start + utf8Length (line ++ tail))))
        | _ => .error (if (optional (line ++ tail)).1.isSome then .afterInstruction else .noOpcode,
            start + utf8Length (line ++ tail) - utf8Length (unread ++ tail)) := by
  have freeBody : LineFree (skipBlanks line) := free.of_suffix (skipBlanks_suffix line)
  have again := skipBlanks_skipBlanks line
  have offset (rest : List Char) : SourceLine.offsetOf ⟨start, line⟩ rest =
      start + utf8Length (line ++ tail) - utf8Length (rest ++ tail) := by
    simp only [SourceLine.offsetOf, SourceLine.stop, utf8Length_append]
    omega
  unfold optional
  rw [skip_append behind free]
  unfold SourceLine.scan
  dsimp only
  split
  · rename_i empty
    have none : instruction? ([] ++ tail) = none := by
      cases tail with
      | nil => rfl
      | cons character rest => obtain rfl | rfl := behind character rfl <;> rfl
    refine ⟨[], lineFree_nil, ?_, ?_⟩
    · rw [empty, afterInstruction, none]
      exact skip_append behind lineFree_nil
    · rw [empty, none]
      rfl
  · rename_i first rest body
    rw [body] at freeBody again ⊢
    by_cases alpha : first.isAlpha
    · have found := instruction?_append behind freeBody alpha
      have freeOperand : LineFree (skipBlanks ((first :: rest).dropWhile Char.isAlphanum)) :=
        (freeBody.of_suffix (List.dropWhile_suffix _)).of_suffix (skipBlanks_suffix _)
      have freeAfter := freeOperand.of_suffix (RawOperand.read_suffix freeOperand)
      obtain ⟨unread, left⟩ : ∃ unread, skipBlanks (RawOperand.read (skipBlanks
          ((first :: rest).dropWhile Char.isAlphanum))).2 = unread := ⟨_, rfl⟩
      refine ⟨unread, left ▸ freeAfter.of_suffix (skipBlanks_suffix _), ?_, ?_⟩
      · rw [afterInstruction, found, ← left]
        exact skip_append behind freeAfter
      · rw [found, alpha, if_neg (by simp), offset, offset, left]
        cases unread with
        | nil => rfl
        | cons character others =>
            exact congrArg (fun place => Except.error (LineFault.afterInstruction, place))
              (offset _)
    · have none : instruction? (first :: rest ++ tail) = none := by
        rw [instruction?, List.cons_append, opcode?, if_neg alpha, Option.map_none]
      refine ⟨first :: rest, freeBody, ?_, ?_⟩
      · rw [afterInstruction, none]
        exact (skip_append behind freeBody).trans (congrArg (· ++ tail) again)
      · rw [none, ← offset]
        simp [alpha]

/-! ### Programs -/

theorem newline?_cons_of_free {character : Char} {rest tail : List Char}
    (free : LineFree (character :: rest)) : newline? (character :: rest ++ tail) = none := by
  obtain ⟨⟨notFeed, notReturn⟩, _⟩ := lineFree_cons.mp free
  unfold newline?
  split
  · exact absurd (List.cons.inj ‹_›).1 notFeed
  · exact absurd (List.cons.inj ‹_›).1 notReturn
  · exact absurd (List.cons.inj ‹_›).1 notReturn
  · rfl

theorem ended_of_newline {text next : List Char} (ends : newline? (optional text).2 = some next) :
    ended text = ((optional text).1.toList ++ (ended next).1, (ended next).2) := by
  rw [ended]
  split
  · rename_i other same
    cases ends.symm.trans same
    rfl
  · rename_i none
    cases ends.symm.trans none

theorem ended_of_no_newline {text : List Char} (goes : newline? (optional text).2 = none) :
    ended text = ([], text) := by
  rw [ended]
  split
  · rename_i same
    cases goes.symm.trans same
  · rfl

/-- Behind a line that fits, the rest of the text is read on its own. -/
theorem program_next {text next : List Char} (ends : newline? (optional text).2 = some next) :
    program text = (program next).map ((optional text).1.toList ++ ·) := by
  unfold program
  rw [ended_of_newline ends]
  dsimp only
  split
  · exact congrArg Except.ok (List.append_assoc ..)
  · rfl

/-- A text that is not read any further than its first line. -/
theorem program_stop {text : List Char} (goes : newline? (optional text).2 = none) :
    program text = match (optional text).2 with
      | [] => .ok (optional text).1.toList
      | unread => .error ⟨(optional text).1.isSome, unread⟩ := by
  rw [program, ended_of_no_newline goes]
  dsimp only
  generalize optional text = reading
  obtain ⟨last, unread⟩ := reading
  cases unread <;> rfl

/-- Scans lines one after the other, up to a fault. -/
def scanned (lines : List SourceLine) : Except ListingError (List (Option RawInstruction)) :=
  lines.mapM fun line => line.scan.mapError .ofLineFault

/-- The instructions that the lines of a text spell are those that the grammar finds in it,
and where there are none, it is for the same fault. -/
theorem scans_program {start bytes : Nat} {text : List Char} {lines : List SourceLine}
    (split : Lines start text lines) (whole : start + utf8Length text = bytes) :
    (scanned lines).map (·.filterMap id) =
      ((program text).map (·.map (Match.located bytes))).mapError (Refusal.located bytes) := by
  induction split with
  | @last start line free =>
      obtain ⟨unread, freeUnread, left, scan⟩ := scan_optional behind_nil free start
      rw [List.append_nil, List.append_nil] at left
      rw [List.append_nil, List.append_nil, whole] at scan
      rw [scanned, List.mapM_cons, List.mapM_nil, scan]
      cases unread with
      | nil =>
          rw [program_stop (by rw [left]; rfl), left]
          cases (optional line).1 <;> rfl
      | cons character others =>
          have stops : newline? (optional line).2 = none := by
            rw [left, ← List.append_nil (character :: others)]
            exact newline?_cons_of_free freeUnread
          rw [program_stop stops, left]
          rfl
  | @next start line terminator rest lines free ends _ induction =>
      obtain ⟨unread, freeUnread, left, scan⟩ := scan_optional ends.behind free start
      rw [whole] at scan
      rw [scanned, List.mapM_cons, scan, ← scanned]
      cases unread with
      | nil =>
          have goes : newline? (optional (line ++ (terminator ++ rest))).2 = some rest := by
            rw [left]
            exact newline?_of_terminates ends
          have others := induction (by
            rw [← whole]
            simp only [utf8Length_append]
            omega)
          rw [program_next goes]
          revert others
          cases program rest <;> cases scanned lines <;> intro others
          · cases others
            rfl
          · cases others
          · cases others
          · have same := Except.ok.inj others
            cases (optional (line ++ (terminator ++ rest))).1 with
            | none => exact congrArg Except.ok same
            | some found =>
                exact congrArg (fun code => Except.ok (found.located bytes :: code)) same
      | cons character others =>
          have stops : newline? (optional (line ++ (terminator ++ rest))).2 = none := by
            rw [left]
            exact newline?_cons_of_free freeUnread
          rw [program_stop stops, left]
          rfl

end Grammar

/-- Reading a listing line by line comes to reading the whole text by its grammar. -/
theorem Code.ofCharacters_eq_code (text : List Char) : ofCharacters text = Grammar.code text := by
  have scans := Grammar.scans_program (SourceLine.lines_ofText text) (Nat.zero_add _)
  rw [ofCharacters, Grammar.code, ← Grammar.scanned]
  revert scans
  cases Grammar.program text <;> cases Grammar.scanned (SourceLine.ofText text) <;> intro scans
  · cases scans
    rfl
  · cases scans
  · cases scans
  · rename_i found scanned
    have same : scanned.filterMap id = found.map _ := Except.ok.inj scans
    show (scanned.filterMap id).mapM RawInstruction.interpret = _
    rw [same, List.mapM_map]
    rfl

end StackBackend
