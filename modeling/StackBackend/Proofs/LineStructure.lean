import Mathlib.Data.List.Forall2
import Mathlib.Data.List.TakeWhile
import StackBackend.Proofs.ListingGrammar

namespace StackBackend

/-! A text spells what its lines spell one by one, and a line spells the same when blanks and
comments around its parts change. Only a comment that closes a quote is no comment. -/

namespace SourceLine

/-- What the opcode of a line could be. -/
def opcodeOf (line : List Char) : List Char :=
  (skipBlanks line).takeWhile Char.isAlphanum

/-- What stands behind the opcode and blanks. -/
def operandOf (line : List Char) : List Char :=
  skipBlanks ((skipBlanks line).dropWhile Char.isAlphanum)

/-- The opcode and the operand of a line that has the form of lines, and nothing if it holds no
instruction. They do not depend on where the line stands. -/
def parts? (line : List Char) : Option (Option (String × Option RawOperand)) :=
  match skipBlanks line with
  | [] => some none
  | first :: _ =>
      let (operand, after) := RawOperand.read (operandOf line)
      if first.isAlpha ∧ skipBlanks after = [] then
        some (some (String.ofList (opcodeOf line), operand))
      else
        none

/-- The instruction that an opcode and an operand make. -/
def instruction? (opcode : String) (operand : Option RawOperand) : Option Instruction :=
  (opcodeShape? opcode).bind (·.read? operand)

/-- The code of a line. -/
def code? (line : List Char) : Option Code :=
  (parts? line).bind fun
    | none => some []
    | some (opcode, operand) => (instruction? opcode operand).map ([·])

theorem parts?_eq (line : SourceLine) :
    parts? line.characters =
      line.scan.toOption.map (Option.map fun raw => (raw.opcode, raw.operand)) := by
  unfold parts? scan opcodeOf operandOf
  dsimp only
  cases skipBlanks line.characters with
  | nil => rfl
  | cons first rest =>
      dsimp only
      cases first.isAlpha with
      | false => rfl
      | true =>
          cases skipBlanks
            (RawOperand.read (skipBlanks ((first :: rest).dropWhile Char.isAlphanum))).2 <;> rfl

theorem length_code?_le {line : List Char} {code : Code} (spells : code? line = some code) :
    code.length ≤ 1 := by
  obtain ⟨parts, _, made⟩ := Option.bind_eq_some_iff.mp spells
  cases parts with
  | none =>
      cases made
      exact Nat.zero_le 1
  | some parts =>
      obtain ⟨instruction, _, rfl⟩ := Option.map_eq_some_iff.mp made
      exact Nat.le_refl 1

end SourceLine

theorem RawInstruction.interpret_eq_ok_iff {raw : RawInstruction} {instruction : Instruction} :
    raw.interpret = .ok instruction ↔
      SourceLine.instruction? raw.opcode raw.operand = some instruction :=
  interpret_eq_ok.trans Option.bind_eq_some_iff.symm

/-! ## The lines of a text -/

namespace SourceLine

theorem split_append (start position : Nat) (reversed : List Char) {line : List Char}
    (free : LineFree line) (rest : List Char) :
    split start position reversed (line ++ rest) =
      split start (position + utf8Length line) (line.reverse ++ reversed) rest := by
  induction line generalizing position reversed with
  | nil => rfl
  | cons character others induction =>
      obtain ⟨⟨notFeed, notReturn⟩, free⟩ := lineFree_cons.mp free
      rw [List.cons_append, split, induction _ _ free, utf8Length_cons, List.reverse_cons,
        List.append_assoc, Nat.add_assoc]
      · rfl
      · exact fun _ same => absurd same notReturn
      · exact notReturn
      · exact notFeed

theorem split_of_terminates {start position : Nat} {reversed terminator rest : List Char}
    (ends : Terminates terminator rest) :
    split start position reversed (terminator ++ rest) =
      ⟨start, reversed.reverse⟩ ::
        split (position + utf8Length terminator) (position + utf8Length terminator) [] rest := by
  cases ends with
  | feed => rfl
  | returnFeed => rfl
  | «return» alone =>
      rw [List.singleton_append, split]
      · rfl
      · exact alone

/-- Where a text starts does not change what its lines hold. -/
theorem characters_split (start position other place : Nat) (reversed text : List Char) :
    (split start position reversed text).map characters =
      (split other place reversed text).map characters := by
  fun_induction split start position reversed text generalizing other place with
  | case1 => rfl
  | case2 start position reversed rest induction =>
      rw [split, List.map_cons, List.map_cons, induction]
  | case3 start position reversed rest alone induction =>
      rw [split, List.map_cons, List.map_cons, induction]
      exact alone
  | case4 start position reversed rest induction =>
      rw [split, List.map_cons, List.map_cons, induction]
  | case5 start position reversed character rest notPair notReturn notFeed induction =>
      rw [split, induction]
      · exact notPair
      · exact notReturn
      · exact notFeed

end SourceLine

/-- A text has one sequence of lines. -/
theorem Lines.eq_split {start : Nat} {text : List Char} {lines : List SourceLine}
    (split : Lines start text lines) : lines = SourceLine.split start start [] text := by
  induction split with
  | @last start line free =>
      have whole := SourceLine.split_append start start [] free []
      rw [List.append_nil, List.append_nil] at whole
      rw [whole, SourceLine.split, List.reverse_reverse]
  | @next start line terminator rest lines free ends _ induction =>
      rw [SourceLine.split_append _ _ _ free, List.append_nil, SourceLine.split_of_terminates ends,
        List.reverse_reverse, induction, utf8Length_append, Nat.add_assoc]

theorem Lines.free {start : Nat} {text : List Char} {lines : List SourceLine}
    (split : Lines start text lines) : ∀ line ∈ lines, LineFree line.characters := by
  induction split with
  | last free => exact List.forall_mem_singleton.mpr free
  | next free _ _ induction => exact List.forall_mem_cons.mpr ⟨free, induction⟩

namespace Code

theorem ofLines_cons_eq_ok {line : SourceLine} {lines : List SourceLine} {code : Code} :
    ofLines (line :: lines) = .ok code ↔ ∃ first others,
      SourceLine.code? line.characters = some first ∧ ofLines lines = .ok others ∧
        code = first ++ others := by
  rw [SourceLine.code?, SourceLine.parts?_eq, ofLines, ofLines, List.mapM_cons]
  generalize lines.mapM (fun line => line.scan.mapError ListingError.ofLineFault) = scanned
  cases line.scan with
  | error fault => exact iff_of_false (by rintro ⟨⟩) (by rintro ⟨_, _, ⟨⟩, _⟩)
  | ok found =>
      cases scanned with
      | error error => exact iff_of_false (by rintro ⟨⟩) (by rintro ⟨_, _, _, ⟨⟩, _⟩)
      | ok raws =>
          cases found with
          | none => simp [Except.toOption, Except.mapError, bind, Except.bind, pure, Except.pure]
          | some raw =>
              show (raw :: raws.filterMap id).mapM RawInstruction.interpret = _ ↔ ∃ first others,
                (SourceLine.instruction? raw.opcode raw.operand).map ([·]) = some first ∧
                  (raws.filterMap id).mapM RawInstruction.interpret = .ok others ∧ _
              simp only [List.mapM_cons, Except.bind_eq_ok, Except.pure_eq_ok,
                RawInstruction.interpret_eq_ok_iff, Option.map_eq_some_iff]
              constructor
              · rintro ⟨instruction, made, others, spelled, rfl⟩
                exact ⟨_, others, ⟨instruction, made, rfl⟩, spelled, rfl⟩
              · rintro ⟨_, others, ⟨instruction, made, rfl⟩, spelled, rfl⟩
                exact ⟨instruction, made, others, spelled, rfl⟩

/-- Lines spell what each of them spells, one after the other. -/
theorem ofLines_eq_ok {lines : List SourceLine} {code : Code} :
    ofLines lines = .ok code ↔ ∃ parts,
      List.Forall₂ (fun line part => SourceLine.code? line.characters = some part) lines parts ∧
        code = parts.flatten := by
  induction lines generalizing code with
  | nil =>
      simp only [List.forall₂_nil_left_iff, exists_eq_left, List.flatten_nil]
      exact Except.pure_eq_ok
  | cons line lines induction =>
      simp only [ofLines_cons_eq_ok, induction, List.forall₂_cons_left_iff]
      constructor
      · rintro ⟨first, _, spells, ⟨parts, all, rfl⟩, rfl⟩
        exact ⟨_, ⟨first, parts, spells, all, rfl⟩, rfl⟩
      · rintro ⟨_, ⟨first, parts, spells, all, rfl⟩, rfl⟩
        exact ⟨first, _, spells, ⟨parts, all, rfl⟩, rfl⟩

/-- A text spells what its lines spell, one after the other. -/
theorem ofCharacters_eq_ok {text : List Char} {lines : List SourceLine} (split : Lines 0 text lines)
    {code : Code} : ofCharacters text = .ok code ↔ ∃ parts,
      List.Forall₂ (fun line part => SourceLine.code? line.characters = some part) lines parts ∧
        code = parts.flatten :=
  split.eq_split ▸ ofLines_eq_ok

theorem ofCharacters_line {line : List Char} (free : LineFree line) {code : Code} :
    ofCharacters line = .ok code ↔ SourceLine.code? line = some code := by
  rw [ofCharacters_eq_ok (.last free)]
  simp only [List.forall₂_cons_left_iff, List.forall₂_nil_left_iff]
  constructor
  · rintro ⟨_, ⟨part, _, spells, rfl, rfl⟩, rfl⟩
    simpa using spells
  · intro spells
    exact ⟨_, ⟨code, [], spells, rfl, rfl⟩, by simp⟩

/-- Where lines stand does not change what they spell. -/
theorem ofLines_congr {lines others : List SourceLine}
    (same : lines.map SourceLine.characters = others.map SourceLine.characters) (code : Code) :
    ofLines lines = .ok code ↔ ofLines others = .ok code := by
  simp only [ofLines_eq_ok, ← List.forall₂_map_left_iff (f := SourceLine.characters)
    (R := fun line part => SourceLine.code? line = some part), same]

theorem ofLines_split (start : Nat) (text : List Char) (code : Code) :
    ofLines (SourceLine.split start start [] text) = .ok code ↔ ofCharacters text = .ok code :=
  ofLines_congr (SourceLine.characters_split start start 0 0 [] text) code

/-- What is behind a line is read on its own. -/
theorem ofCharacters_next {line terminator rest : List Char} (free : LineFree line)
    (ends : Terminates terminator rest) {code : Code} :
    ofCharacters (line ++ (terminator ++ rest)) = .ok code ↔ ∃ first others,
      ofCharacters line = .ok first ∧ ofCharacters rest = .ok others ∧ code = first ++ others := by
  have text := SourceLine.split_append 0 0 [] free (terminator ++ rest)
  rw [SourceLine.split_of_terminates ends, List.append_nil, List.reverse_reverse] at text
  simp only [ofCharacters_line free]
  show ofLines (SourceLine.split 0 0 [] _) = _ ↔ _
  simp only [text, ofLines_cons_eq_ok, ofLines_split]

theorem ofCharacters_nil : ofCharacters [] = .ok [] :=
  rfl

/-- Two texts with a line feed between them spell what they spell, one after the other. -/
theorem ofCharacters_join {first second : List Char} {firstCode secondCode : Code}
    (spells : ofCharacters first = .ok firstCode) (follows : ofCharacters second = .ok secondCode) :
    ofCharacters (first ++ '\n' :: second) = .ok (firstCode ++ secondCode) := by
  have split := SourceLine.lines_ofText first
  generalize 0 = start at split
  generalize SourceLine.ofText first = lines at split
  induction split generalizing firstCode with
  | last free =>
      exact (ofCharacters_next free (.feed second)).mpr
        ⟨firstCode, secondCode, spells, follows, rfl⟩
  | @next start line terminator rest lines free ends _ induction =>
      obtain ⟨part, others, partSpells, othersSpell, rfl⟩ := (ofCharacters_next free ends).mp spells
      rw [List.append_assoc, List.append_assoc]
      -- A carriage return at the very end ends its line together with the line feed.
      by_cases atEnd : terminator = ['\r'] ∧ rest = []
      · obtain ⟨rfl, rfl⟩ := atEnd
        cases ofCharacters_nil.symm.trans othersSpell
        exact (ofCharacters_next free (.returnFeed second)).mpr
          ⟨part, secondCode, partSpells, follows, by simp⟩
      · have still : Terminates terminator (rest ++ '\n' :: second) := by
          cases ends with
          | feed => exact .feed _
          | returnFeed => exact .returnFeed _
          | «return» alone =>
              refine .return fun others same => ?_
              cases rest with
              | nil => exact atEnd ⟨rfl, rfl⟩
              | cons character rest => exact alone rest (by rw [(List.cons.inj same).1])
        exact (ofCharacters_next free still).mpr
          ⟨part, others ++ secondCode, partSpells, induction othersSpell, List.append_assoc ..⟩

end Code

/-! ## Blanks and comments -/

/-- Blanks, and perhaps a comment behind them. -/
structure Quiet (tail : List Char) : Prop where
  skipped : skipBlanks tail = []
  blank : ∀ character ∈ tail.head?, isBlank character = true

section

variable {line tail : List Char} (quiet : Quiet tail)
include quiet

theorem Quiet.stops (test : Char → Bool) (space : test ' ' = false) (tab : test '\t' = false) :
    ∀ character ∈ tail.head?, test character = false := by
  intro character member
  obtain rfl | rfl := isBlank_eq_true.mp (quiet.blank character member)
  · exact space
  · exact tab

theorem Quiet.notPercent : ∀ rest, tail ≠ '%' :: rest := by
  rintro rest rfl
  cases quiet.blank '%' rfl

/-- Nothing is skipped in front of what is added, or all of it is. -/
theorem skipBlanks_append_quiet (line : List Char) :
    skipBlanks (line ++ tail) = if skipBlanks line = [] then [] else skipBlanks line ++ tail := by
  have comment := startsComment_append quiet.notPercent (line.dropWhile isBlank)
  rw [skipBlanks, skipBlanks, List.dropWhile_append]
  by_cases blank : line.dropWhile isBlank = []
  · have skipped := quiet.skipped
    rw [skipBlanks] at skipped
    simp [blank, skipped]
  · cases commented : startsComment (line.dropWhile isBlank) with
    | false => simp [blank, comment, commented]
    | true => simp [blank, comment, commented]

theorem takeWord_append_quiet (line : List Char) :
    takeWord (line ++ tail) = ((takeWord line).1, (takeWord line).2 ++ tail) := by
  induction line with
  | nil =>
      cases tail with
      | nil => rfl
      | cons character rest => exact if_pos (by simp [quiet.blank character rfl])
  | cons character rest induction =>
      have comment := startsComment_append quiet.notPercent (character :: rest)
      rw [List.cons_append] at comment
      rw [List.cons_append, takeWord, takeWord, comment, induction]
      split <;> rfl

end

namespace Quoted

theorem decode_plain {character : Char} (notQuote : character ≠ '"')
    (notBackslash : character ≠ '\\') (rest : List Char) : decode (character :: rest) =
      (decode rest).map fun (text, after) => (character :: text, after) := by
  rw [decode]
  · exact notQuote
  · exact fun same => absurd same notBackslash
  · exact fun _ _ same => absurd same notBackslash

theorem decode_escape {letter character : Char} (known : unescape? letter = some character)
    (rest : List Char) : decode ('\\' :: letter :: rest) =
      (decode rest).map fun (text, after) => (character :: text, after) := by
  rw [decode, known]

/-- A quote that is closed stays so. -/
theorem decode_append {characters text after : List Char}
    (closed : decode characters = some (text, after)) (tail : List Char) :
    decode (characters ++ tail) = some (text, after ++ tail) := by
  fun_induction decode characters generalizing text with
  | case1 => cases closed
  | case2 rest =>
      cases closed
      rfl
  | case3 => cases closed
  | case4 => cases closed
  | case5 letter rest character known induction =>
      obtain ⟨⟨others, _⟩, found, same⟩ := Option.map_eq_some_iff.mp closed
      cases same
      rw [List.cons_append, List.cons_append, decode_escape known, induction found]
      rfl
  | case6 character rest notQuote notLast notEscape induction =>
      obtain ⟨⟨others, _⟩, found, same⟩ := Option.map_eq_some_iff.mp closed
      cases same
      rw [List.cons_append, decode_plain notQuote (ne_backslash notLast notEscape), induction found]
      rfl

/-- Without a quote no text is closed. -/
theorem decode_eq_none {tail : List Char} (absent : '"' ∉ tail) : decode tail = none := by
  fun_induction decode tail with
  | case1 => rfl
  | case2 rest => exact absurd List.mem_cons_self absent
  | case3 => rfl
  | case4 => rfl
  | case5 letter rest character known induction =>
      rw [induction fun member => absent (by simp [member])]
      rfl
  | case6 character rest _ _ _ induction =>
      rw [induction fun member => absent (by simp [member])]
      rfl

/-- A quote that is left open stays so when no other quote is added. -/
theorem decode_append_eq_none {characters tail : List Char} (left : decode characters = none)
    (absent : '"' ∉ tail) : decode (characters ++ tail) = none := by
  fun_induction decode characters with
  | case1 => exact decode_eq_none absent
  | case2 rest => cases left
  | case3 =>
      cases tail with
      | nil => rfl
      | cons letter rest =>
          rw [List.singleton_append, decode]
          split
          · rfl
          · rw [decode_eq_none fun member => absent (by simp [member])]
            rfl
  | case4 letter rest unknown =>
      rw [List.cons_append, List.cons_append, decode, unknown]
  | case5 letter rest character known induction =>
      rw [List.cons_append, List.cons_append, decode_escape known,
        induction (Option.map_eq_none_iff.mp left)]
      rfl
  | case6 character rest notQuote notLast notEscape induction =>
      rw [List.cons_append, decode_plain notQuote (ne_backslash notLast notEscape),
        induction (Option.map_eq_none_iff.mp left)]
      rfl

end Quoted

/-- What is added closes a quote that the operand of the line opens and that nothing on the
line closes. -/
def Closes (line added : List Char) : Prop :=
  ∃ rest, SourceLine.operandOf line = '"' :: rest ∧ Quoted.decode rest = none ∧
    Quoted.decode (rest ++ added) ≠ none

section

variable {line tail : List Char} (quiet : Quiet tail)
include quiet

/-- The operand stays the same, and what is added stays behind it. -/
theorem RawOperand.read_append_quiet (visible : line ≠ [])
    (stays : ∀ rest, line = '"' :: rest → Quoted.decode rest = none →
      Quoted.decode (rest ++ tail) = none) :
    read (line ++ tail) = ((read line).1, (read line).2 ++ tail) := by
  cases line with
  | nil => contradiction
  | cons character rest =>
      have word : readWord (character :: rest ++ tail) =
          ((readWord (character :: rest)).1, (readWord (character :: rest)).2 ++ tail) := by
        rw [readWord, takeWord_append_quiet quiet]
        rfl
      by_cases quote : character = '"'
      · subst quote
        cases closed : Quoted.decode rest with
        | none =>
            rw [List.cons_append] at word
            simp only [List.cons_append, read, closed, stays rest rfl closed, word]
        | some pair =>
            simp only [List.cons_append, read, closed, Quoted.decode_append closed]
      · have plain (rest : List Char) : read (character :: rest) =
            (some (readWord (character :: rest)).1, (readWord (character :: rest)).2) := by
          rw [read]
          · exact List.cons_ne_nil _ _
          · exact fun _ same => quote (List.cons.inj same).1
        rw [List.cons_append, plain, plain, ← List.cons_append, word]

namespace SourceLine

theorem opcodeOf_append (line : List Char) : opcodeOf (line ++ tail) = opcodeOf line := by
  unfold opcodeOf
  rw [skipBlanks_append_quiet quiet]
  split
  · rename_i empty
    rw [empty]
  · exact takeWhile_append_of_stops (quiet.stops Char.isAlphanum rfl rfl) _

theorem operandOf_append (line : List Char) : operandOf (line ++ tail) =
    if operandOf line = [] then [] else operandOf line ++ tail := by
  unfold operandOf
  rw [skipBlanks_append_quiet quiet]
  by_cases empty : skipBlanks line = []
  · rw [if_pos empty, empty]
    rfl
  · rw [if_neg empty, dropWhile_append_of_stops (quiet.stops Char.isAlphanum rfl rfl),
      skipBlanks_append_quiet quiet]

/-- Blanks and a comment at the end of a line are skipped, unless they close a quote. -/
theorem parts?_append (stays : ¬ Closes line tail) : parts? (line ++ tail) = parts? line := by
  unfold parts?
  rw [skipBlanks_append_quiet quiet, opcodeOf_append quiet, operandOf_append quiet]
  cases skipBlanks line with
  | nil => rfl
  | cons first rest =>
      rw [if_neg (List.cons_ne_nil _ _), List.cons_append]
      by_cases absent : operandOf line = []
      · rw [if_pos absent, absent]
      · have taken := RawOperand.read_append_quiet quiet absent fun rest same left =>
          by_contra fun closed => stays ⟨rest, same, left, closed⟩
        rw [if_neg absent, taken]
        dsimp only
        rw [skipBlanks_append_quiet quiet]
        cases skipBlanks (RawOperand.read (operandOf line)).2 <;> simp

end SourceLine

end

namespace SourceLine

theorem exists_instruction {line : List Char} {code : Code} (spells : code? line = some code)
    (present : operandOf line ≠ []) :
    ∃ instruction, instruction? (String.ofList (opcodeOf line))
      (RawOperand.read (operandOf line)).1 = some instruction := by
  obtain ⟨parts, found, made⟩ := Option.bind_eq_some_iff.mp spells
  unfold parts? at found
  split at found
  · rename_i empty
    rw [operandOf, empty] at present
    exact absurd rfl present
  · dsimp only at found
    split at found
    · cases found
      obtain ⟨instruction, made, _⟩ := Option.map_eq_some_iff.mp made
      exact ⟨instruction, made⟩
    · cases found

/-- What closes the quote of a line that spells code breaks the line: the operand was a word,
and becomes quoted text. -/
theorem code?_append_of_closes {line tail : List Char} (quiet : Quiet tail)
    (closes : Closes line tail) {code : Code} (spells : code? line = some code) :
    code? (line ++ tail) = none := by
  obtain ⟨rest, shape, left, closed⟩ := closes
  obtain ⟨⟨text, after⟩, closed⟩ := Option.ne_none_iff_exists'.mp closed
  have longer := operandOf_append quiet line
  rw [shape, if_neg (List.cons_ne_nil _ _)] at longer
  by_contra still
  obtain ⟨other, still⟩ := Option.ne_none_iff_exists'.mp still
  obtain ⟨first, word⟩ := exists_instruction spells (by simp [shape])
  obtain ⟨second, quoted⟩ := exists_instruction still (by simp [longer])
  rw [shape] at word
  rw [opcodeOf_append quiet, longer, List.cons_append] at quoted
  obtain ⟨form, known, word⟩ := Option.bind_eq_some_iff.mp word
  obtain ⟨_, same, quoted⟩ := Option.bind_eq_some_iff.mp quoted
  cases known.symm.trans same
  simp only [RawOperand.read, RawOperand.readWord, left, closed] at word quoted
  -- No shape takes a word as well as quoted text.
  cases form with
  | text => cases word
  | plain | integer | byte | floating | label => cases quoted

end SourceLine

theorem quiet_of_blank {blanks : List Char}
    (blank : ∀ character ∈ blanks, isBlank character = true) : Quiet blanks where
  skipped := by
    rw [← List.append_nil blanks, skipBlanks_append blank]
    rfl
  blank character member := blank character (List.mem_of_mem_head? member)

theorem quiet_comment {blank : Char} (isBlank : isBlank blank = true) (comment : List Char) :
    Quiet (blank :: '%' :: '%' :: comment) where
  skipped := by
    rw [← List.singleton_append, skipBlanks_append (List.forall_mem_singleton.mpr isBlank)]
    rfl
  blank _ member := Option.some.inj member ▸ isBlank

/-- Ways to respell a line: with blanks in front of it, at its end, or between its opcode and
what follows, where the opcode still ends, as it does in front of a blank; or with a comment at
its end that closes no quote. -/
inductive Respells : List Char → List Char → Prop
  | front {blanks : List Char} (blank : ∀ character ∈ blanks, isBlank character = true)
      (line : List Char) : Respells line (blanks ++ line)
  | back {blanks : List Char} (blank : ∀ character ∈ blanks, isBlank character = true)
      (line : List Char) : Respells line (line ++ blanks)
  | between {front opcode gap other rest : List Char} {first : Char}
      (frontBlank : ∀ character ∈ front, isBlank character = true)
      (alpha : first.isAlpha = true)
      (alphanumeric : ∀ character ∈ opcode, character.isAlphanum = true)
      (gapBlank : ∀ character ∈ gap, isBlank character = true)
      (ends : ∀ character ∈ (gap ++ rest).head?, character.isAlphanum = false)
      (otherBlank : ∀ character ∈ other, isBlank character = true)
      (otherEnds : ∀ character ∈ (other ++ rest).head?, character.isAlphanum = false) :
      Respells (front ++ (first :: opcode ++ (gap ++ rest)))
        (front ++ (first :: opcode ++ (other ++ rest)))
  | comment {line comment : List Char} {blank : Char} (isBlank : isBlank blank = true)
      (free : LineFree comment) (stays : ¬ Closes line (blank :: '%' :: '%' :: comment)) :
      Respells line (line ++ blank :: '%' :: '%' :: comment)

theorem lineFree_of_blank {blanks : List Char}
    (blank : ∀ character ∈ blanks, isBlank character = true) : LineFree blanks :=
  ⟨fun member => absurd (blank _ member) (by decide),
    fun member => absurd (blank _ member) (by decide)⟩

theorem lineFree_comment {blank : Char} {comment : List Char} (blank_ : isBlank blank = true)
    (free : LineFree comment) : LineFree (blank :: '%' :: '%' :: comment) := by
  have front := lineFree_cons.mp (lineFree_of_blank (List.forall_mem_singleton.mpr blank_))
  exact lineFree_cons.mpr ⟨front.1, lineFree_cons.mpr ⟨by decide, lineFree_cons.mpr
    ⟨by decide, free⟩⟩⟩

theorem Respells.lineFree {line other : List Char} (respells : Respells line other)
    (free : LineFree line) : LineFree other := by
  cases respells with
  | front blank => exact lineFree_append.mpr ⟨lineFree_of_blank blank, free⟩
  | back blank => exact lineFree_append.mpr ⟨free, lineFree_of_blank blank⟩
  | between _ _ _ _ _ otherBlank _ =>
      simp only [lineFree_append] at free ⊢
      exact ⟨free.1, free.2.1, lineFree_of_blank otherBlank, free.2.2.2⟩
  | comment isBlank freeComment =>
      exact lineFree_append.mpr ⟨free, lineFree_comment isBlank freeComment⟩

namespace SourceLine

/-- The parts of a line, with or without blanks behind its opcode. -/
theorem parts?_spaced {front opcode gap rest : List Char} {first : Char}
    (frontBlank : ∀ character ∈ front, isBlank character = true) (alpha : first.isAlpha = true)
    (alphanumeric : ∀ character ∈ opcode, character.isAlphanum = true)
    (gapBlank : ∀ character ∈ gap, isBlank character = true)
    (ends : ∀ character ∈ (gap ++ rest).head?, character.isAlphanum = false) :
    parts? (front ++ (first :: opcode ++ (gap ++ rest))) =
      if skipBlanks (RawOperand.read (skipBlanks rest)).2 = [] then
        some (some (String.ofList (first :: opcode), (RawOperand.read (skipBlanks rest)).1))
      else
        none := by
  have whole : ∀ character ∈ first :: opcode, character.isAlphanum = true :=
    List.forall_mem_cons.mpr ⟨by rw [Char.isAlphanum, alpha, Bool.true_or], alphanumeric⟩
  have body : skipBlanks (front ++ (first :: opcode ++ (gap ++ rest))) =
      first :: opcode ++ (gap ++ rest) := by
    rw [skipBlanks_append frontBlank, List.cons_append, skipBlanks_of_alpha alpha]
  have opcodeIs : opcodeOf (front ++ (first :: opcode ++ (gap ++ rest))) = first :: opcode := by
    rw [opcodeOf, body, takeWhile_append_of_stops ends, List.takeWhile_eq_self_iff.mpr whole]
  have operandIs : operandOf (front ++ (first :: opcode ++ (gap ++ rest))) = skipBlanks rest := by
    rw [operandOf, body, dropWhile_append_of_stops ends, List.dropWhile_eq_nil_iff.mpr whole,
      List.nil_append, skipBlanks_append gapBlank]
  rw [parts?, body, opcodeIs, operandIs]
  simp [alpha]

theorem parts?_of_respells {line other : List Char} (respells : Respells line other) :
    parts? other = parts? line := by
  cases respells with
  | front blank =>
      rw [parts?, parts?, opcodeOf, operandOf, skipBlanks_append blank]
      rfl
  | back blank =>
      refine parts?_append (quiet_of_blank blank) ?_
      rintro ⟨rest, _, left, closed⟩
      refine closed (Quoted.decode_append_eq_none left fun member => ?_)
      cases blank _ member
  | between frontBlank alpha alphanumeric gapBlank ends otherBlank otherEnds =>
      rw [parts?_spaced frontBlank alpha alphanumeric gapBlank ends,
        parts?_spaced frontBlank alpha alphanumeric otherBlank otherEnds]
  | comment isBlank _ stays => exact parts?_append (quiet_comment isBlank _) stays

end SourceLine

/-! ## Reading by lines -/

/-- What it means for texts to be read line by line. -/
structure LineStructured (read : List Char → Except ListingError Code) : Prop where
  /-- A text spells code if every line does by itself, and only then: that of its lines, one after
  the other. -/
  lines : ∀ text, ∃ lines, Lines 0 text lines ∧ ∀ code, read text = .ok code ↔
    ∃ parts, List.Forall₂ (fun line part => read line.characters = .ok part) lines parts ∧
      code = parts.flatten
  single : ∀ line code, LineFree line → read line = .ok code → code.length ≤ 1
  respelled : ∀ line other, LineFree line → Respells line other →
    ∀ code, read line = .ok code ↔ read other = .ok code
  /-- A comment that closes the quote in front of it is taken for text, where none can stand. -/
  closed : ∀ line blank comment, LineFree line → isBlank blank = true → LineFree comment →
    Closes line (blank :: '%' :: '%' :: comment) → ∀ code, read line = .ok code →
      ∃ error, read (line ++ blank :: '%' :: '%' :: comment) = .error error
  joined : ∀ first second firstCode secondCode, read first = .ok firstCode →
    read second = .ok secondCode →
      read (first ++ '\n' :: second) = .ok (firstCode ++ secondCode)

namespace Code

theorem ofCharacters_lineStructured : LineStructured ofCharacters where
  lines text := by
    have split := SourceLine.lines_ofText text
    refine ⟨_, split, fun code => ?_⟩
    have each (parts : List Code) : List.Forall₂
        (fun line part => ofCharacters line.characters = .ok part) (SourceLine.ofText text) parts ↔
          List.Forall₂ (fun line part => SourceLine.code? line.characters = some part)
            (SourceLine.ofText text) parts :=
      ⟨fun all => ((List.forall₂_and_left _ _).mpr ⟨split.free, all⟩).imp
          fun _ _ part => (ofCharacters_line part.1).mp part.2,
        fun all => ((List.forall₂_and_left _ _).mpr ⟨split.free, all⟩).imp
          fun _ _ part => (ofCharacters_line part.1).mpr part.2⟩
    simp only [ofCharacters_eq_ok split, each]
  single line code free spells := SourceLine.length_code?_le ((ofCharacters_line free).mp spells)
  respelled line other free respells code := by
    rw [ofCharacters_line free, ofCharacters_line (respells.lineFree free), SourceLine.code?,
      SourceLine.code?, SourceLine.parts?_of_respells respells]
  closed line blank comment free isBlank freeComment closes code spells := by
    have longer : LineFree (line ++ blank :: '%' :: '%' :: comment) :=
      lineFree_append.mpr ⟨free, lineFree_comment isBlank freeComment⟩
    have broken := SourceLine.code?_append_of_closes (quiet_comment isBlank comment) closes
      ((ofCharacters_line free).mp spells)
    cases read : ofCharacters (line ++ blank :: '%' :: '%' :: comment) with
    | error error => exact ⟨error, rfl⟩
    | ok other => cases broken.symm.trans ((ofCharacters_line longer).mp read)
  joined first second firstCode secondCode := ofCharacters_join

/-- The whole text is read by the grammar, and this comes to reading it line by line. -/
theorem listing_lineStructured :
    LineStructured Grammar.code ∧ ∀ text : String, ofListing text = Grammar.code text.toList :=
  ⟨funext ofCharacters_eq_code ▸ ofCharacters_lineStructured,
    fun text => ofCharacters_eq_code text.toList⟩

/-- A comment can change a line: it closes a quote that the label before it starts with. -/
theorem comment_closes_quote :
    ofListing "Jump \"a" = .ok [.jump "\"a"] ∧
      ofListing "Jump \"a %% \"" = .error ⟨.operandMismatch "Jump" .label, 0, 12⟩ :=
  ⟨rfl, rfl⟩

end Code

end StackBackend
