import StackBackend.Proofs.LineStructure

namespace StackBackend

/-! Where an error of a listing points. A line that does not fit the grammar comes first, wherever
it stands; without one it is the first line whose opcode or operand does not fit. Either way the
error lies on its line. -/

/-! ## Places in a text -/

/-- Every line of a text stands where it says. -/
theorem Lines.placed {start : Nat} {text : List Char} {lines : List SourceLine}
    (split : Lines start text lines) : ∀ line ∈ lines, ∃ before after,
      text = before ++ (line.characters ++ after) ∧ line.start = start + utf8Length before := by
  induction split with
  | @last start line free =>
      exact List.forall_mem_singleton.mpr ⟨[], [], by simp, rfl⟩
  | @next start line terminator rest lines free ends _ induction =>
      refine List.forall_mem_cons.mpr ⟨⟨[], terminator ++ rest, rfl, rfl⟩, fun other member => ?_⟩
      obtain ⟨before, after, rfl, placed⟩ := induction other member
      refine ⟨line ++ (terminator ++ before), after, by simp, ?_⟩
      rw [placed, ← List.append_assoc, utf8Length_append (line ++ terminator), Nat.add_assoc]

namespace ListingError

/-- The error points at a run of whole characters of a text that starts at the given byte. -/
def Spans (error : ListingError) (start : Nat) (text : List Char) : Prop :=
  ∃ before span after, text = before ++ (span ++ after) ∧
    error.start = start + utf8Length before ∧ error.stop = start + utf8Length (before ++ span)

theorem Spans.ordered {error : ListingError} {start : Nat} {text : List Char}
    (spans : error.Spans start text) : error.start ≤ error.stop := by
  obtain ⟨before, span, after, _, starts, stops⟩ := spans
  rw [starts, stops, utf8Length_append]
  omega

/-- What lies on a line lies in its text. -/
theorem Spans.of_line {error : ListingError} {start : Nat} {text : List Char}
    {lines : List SourceLine} {line : SourceLine} (split : Lines start text lines)
    (member : line ∈ lines) (spans : error.Spans line.start line.characters) :
    error.Spans start text := by
  obtain ⟨front, back, rfl, placed⟩ := split.placed line member
  obtain ⟨before, span, after, parts, starts, stops⟩ := spans
  refine ⟨front ++ before, span, after ++ back, by simp [parts], ?_, ?_⟩
  · rw [starts, placed, utf8Length_append, Nat.add_assoc]
  · rw [stops, placed, List.append_assoc, utf8Length_append front, Nat.add_assoc]

end ListingError

namespace SourceLine

theorem offsetOf_append {line : SourceLine} {front rest : List Char}
    (parts : line.characters = front ++ rest) :
    line.offsetOf rest = line.start + utf8Length front := by
  rw [offsetOf, stop, parts, utf8Length_append]
  omega

/-- Blanks stand in front of what is left after blanks and comments are skipped. -/
theorem exists_blanks {characters rest : List Char} {first : Char}
    (skipped : skipBlanks characters = first :: rest) :
    ∃ blanks, (∀ character ∈ blanks, isBlank character = true) ∧
      characters = blanks ++ first :: rest := by
  rw [skipBlanks] at skipped
  split at skipped
  · cases skipped
  · refine ⟨characters.takeWhile isBlank, fun character member => ?_, ?_⟩
    · exact List.all_eq_true.mp List.all_takeWhile character member
    · rw [← skipped, List.takeWhile_append_dropWhile]

theorem operandOf_suffix (characters : List Char) : operandOf characters <:+ characters :=
  (skipBlanks_suffix _).trans ((List.dropWhile_suffix _).trans (skipBlanks_suffix _))

/-- What is behind the operand of a line is the end of the line. -/
theorem behind_operand_suffix {characters : List Char} (free : LineFree characters) :
    (RawOperand.read (operandOf characters)).2 <:+ characters :=
  (RawOperand.read_suffix (free.of_suffix (operandOf_suffix characters))).trans
    (operandOf_suffix characters)

/-- A line that does not fit is refused at one of its characters. -/
theorem refused_inside {line : SourceLine} (free : LineFree line.characters) {fault : LineFault}
    {offset : Nat} (refused : line.scan = .error (fault, offset)) :
    ∃ read unread, line.characters = read ++ unread ∧ unread ≠ [] ∧
      offset = line.start + utf8Length read := by
  have behind := behind_operand_suffix free
  rw [operandOf] at behind
  unfold scan at refused
  dsimp only at refused
  split at refused
  · cases refused
  · rename_i first rest body
    rw [body] at refused behind
    split at refused
    · cases refused
      obtain ⟨blanks, _, whole⟩ := exists_blanks body
      exact ⟨blanks, first :: rest, whole, List.cons_ne_nil _ _, offsetOf_append whole⟩
    · split at refused
      · cases refused
      · rename_i unread remains
        cases refused
        obtain ⟨read, whole⟩ := (skipBlanks_suffix _).trans behind
        exact ⟨read, _, whole.symm, remains, offsetOf_append whole.symm⟩

/-- The instruction of a line starts at its opcode and ends on the line. -/
theorem range_of_scan {line : SourceLine} (free : LineFree line.characters) {raw : RawInstruction}
    (scanned : line.scan = .ok (some raw)) :
    ∃ front opcode rest middle after, line.characters = front ++ (opcode ++ rest) ∧
      (∀ character ∈ front, isBlank character = true) ∧
      Grammar.opcode? (opcode ++ rest) = some (opcode, rest) ∧ middle ++ after = rest ∧
      raw = { opcode := String.ofList opcode
              operand := (RawOperand.read (skipBlanks rest)).1
              start := line.start + utf8Length front
              stop := line.start + utf8Length (front ++ (opcode ++ middle)) } := by
  unfold scan at scanned
  dsimp only at scanned
  split at scanned
  · cases scanned
  · rename_i first rest body
    split at scanned
    · cases scanned
    · rename_i alpha
      rw [Bool.not_eq_true, Bool.not_eq_false'] at alpha
      have alphanumeric : first.isAlphanum = true := by rw [Char.isAlphanum, alpha, Bool.true_or]
      obtain ⟨front, blank, whole⟩ := exists_blanks body
      have word := List.takeWhile_append_dropWhile (p := Char.isAlphanum) (l := first :: rest)
      have freeBehind : LineFree ((first :: rest).dropWhile Char.isAlphanum) :=
        free.of_suffix ((List.dropWhile_suffix _).trans (body ▸ skipBlanks_suffix _))
      have isOpcode : Grammar.opcode? (first :: rest) =
          some ((first :: rest).takeWhile Char.isAlphanum,
            (first :: rest).dropWhile Char.isAlphanum) := by
        rw [Grammar.opcode?, if_pos alpha, List.takeWhile_cons_of_pos alphanumeric,
          List.dropWhile_cons_of_pos alphanumeric]
      rw [body] at scanned
      generalize (first :: rest).takeWhile Char.isAlphanum = opcode at *
      generalize (first :: rest).dropWhile Char.isAlphanum = behind at *
      obtain ⟨middle, parts⟩ := (RawOperand.read_suffix
        (freeBehind.of_suffix (skipBlanks_suffix _))).trans (skipBlanks_suffix _)
      have ends : line.characters =
          front ++ (opcode ++ middle) ++ (RawOperand.read (skipBlanks behind)).2 := by
        rw [List.append_assoc, List.append_assoc, parts, word, whole]
      split at scanned
      · cases scanned
        refine ⟨front, opcode, behind, middle, _, by rw [word, whole], blank,
          by rw [word, isOpcode], parts, ?_⟩
        rw [offsetOf_append whole, offsetOf_append ends]
      · cases scanned

end SourceLine

/-! ## The first fault -/

/-- The line has the form of lines: blanks, an instruction or none, and blanks or a comment. -/
def Grammar.Fits (line : List Char) : Prop :=
  ∃ found, program line = .ok found

/-- Why an opcode and an operand make no instruction. -/
inductive Unfit (opcode : String) (operand : Option RawOperand) : ListingError.Cause → Prop
  | unknown (absent : opcodeShape? opcode = none) : Unfit opcode operand (.unknownOpcode opcode)
  | mismatch {shape : OpcodeShape} (known : opcodeShape? opcode = some shape)
      (unfit : shape.read? operand = none) :
      Unfit opcode operand (.operandMismatch opcode shape.kind)

namespace ListingError

/-- The error points at a place on the line where the grammar does not go on. -/
structure RefusesLine (error : ListingError) (line : SourceLine) : Prop where
  cause : error.cause ∈ [.noProgram, .noOpcode, .afterInstruction]
  empty : error.stop = error.start
  starts : line.start ≤ error.start
  inside : error.start < line.stop

/-- The error covers the instruction of the line, from its opcode on. -/
inductive RefusesInstruction (error : ListingError) (line : SourceLine) : Prop
  | intro {front opcode rest : List Char}
      (parts : line.characters = front ++ (opcode ++ rest))
      (blank : ∀ character ∈ front, isBlank character = true)
      (isOpcode : Grammar.opcode? (opcode ++ rest) = some (opcode, rest))
      (unfit : Unfit (String.ofList opcode) (RawOperand.read (skipBlanks rest)).1 error.cause)
      (starts : error.start = line.start + utf8Length front) (inside : error.stop ≤ line.stop)

end ListingError

/-- An instruction that cannot be interpreted is blamed for its opcode or its operand. -/
theorem RawInstruction.unfit_of_interpret {raw : RawInstruction} {error : ListingError}
    (fails : raw.interpret = .error error) :
    Unfit raw.opcode raw.operand error.cause ∧ error.start = raw.start ∧ error.stop = raw.stop := by
  unfold interpret at fails
  split at fails
  · rename_i absent
    cases fails
    exact ⟨.unknown absent, rfl, rfl⟩
  · rename_i shape known
    split at fails
    · cases fails
    · rename_i unfit
      cases fails
      exact ⟨.mismatch known unfit, rfl, rfl⟩

namespace SourceLine

/-- The grammar takes a line exactly if a scan does. -/
theorem scan_eq_ok_iff {line : SourceLine} (free : LineFree line.characters) :
    (∃ found, line.scan = .ok found) ↔ Grammar.Fits line.characters := by
  have scans := Grammar.scans_program (@Lines.last line.start _ free) rfl
  rw [Grammar.scanned, List.mapM_cons, List.mapM_nil] at scans
  unfold Grammar.Fits
  revert scans
  cases line.scan <;> cases Grammar.program line.characters <;> intro scans
  · simp
  · cases scans
  · cases scans
  · simp

/-- The fault of a line whose form is refused. -/
def formFault? (line : SourceLine) : Option ListingError :=
  Except.error? (line.scan.mapError ListingError.ofLineFault)

/-- The fault of a line of the right form. -/
def instructionFault? (line : SourceLine) : Option ListingError :=
  match line.scan with
  | .ok (some raw) => Except.error? raw.interpret
  | _ => none

end SourceLine

theorem SourceLine.findSome?_instructionFault? {lines : List SourceLine}
    {raws : List (Option RawInstruction)}
    (scanned : lines.mapM (fun line => line.scan.mapError ListingError.ofLineFault) = .ok raws) :
    lines.findSome? instructionFault? =
      raws.findSome? fun raw => raw.bind fun raw => Except.error? raw.interpret := by
  induction lines generalizing raws with
  | nil =>
      cases scanned
      rfl
  | cons line rest induction =>
      simp only [List.mapM_cons, Except.bind_eq_ok, Except.pure_eq_ok] at scanned
      obtain ⟨raw, found, others, scanned, rfl⟩ := scanned
      rw [List.findSome?_cons, List.findSome?_cons, induction scanned, instructionFault?]
      cases scan : line.scan with
      | error fault =>
          rw [scan] at found
          cases found
      | ok result =>
          rw [scan] at found
          cases found
          cases raw <;> rfl

/-- The first line of the wrong form is blamed, and without one the first line whose instruction
does not fit. -/
theorem Code.error?_ofLines (lines : List SourceLine) :
    Except.error? (ofLines lines) = (lines.findSome? SourceLine.formFault?).or
      (lines.findSome? SourceLine.instructionFault?) := by
  have form := Except.error?_mapM
    (fun line : SourceLine => line.scan.mapError ListingError.ofLineFault) lines
  rw [List.head?_filterMap] at form
  unfold SourceLine.formFault?
  rw [ofLines, Except.error?_bind, ← form]
  split
  · rename_i raws scanned
    rw [scanned, Except.error?_mapM, List.filterMap_filterMap, List.head?_filterMap,
      SourceLine.findSome?_instructionFault? scanned]
    rfl
  · rename_i error refused
    rw [refused]
    rfl

theorem utf8Length_pos {characters : List Char} (present : characters ≠ []) :
    0 < utf8Length characters := by
  obtain ⟨character, rest, rfl⟩ := List.exists_cons_of_ne_nil present
  rw [utf8Length_cons]
  have positive := character.utf8Size_pos
  omega

namespace SourceLine

variable {line : SourceLine} {error : ListingError} (free : LineFree line.characters)
include free

theorem formFault?_eq_none_iff : formFault? line = none ↔ Grammar.Fits line.characters := by
  rw [← scan_eq_ok_iff free, formFault?]
  cases line.scan <;> simp [Except.mapError, Except.error?]

theorem valid_iff : (∃ code, Code.ofCharacters line.characters = .ok code) ↔
    formFault? line = none ∧ instructionFault? line = none := by
  have text : ofText line.characters = [⟨0, line.characters⟩] := (Lines.last free).eq_split.symm
  have same (code : Code) : Code.ofCharacters line.characters = .ok code ↔
      Code.ofLines [line] = .ok code := by
    show Code.ofLines (ofText line.characters) = _ ↔ _
    have placed : [⟨0, line.characters⟩].map characters = [line].map characters := rfl
    rw [text]
    exact Code.ofLines_congr placed code
  simp only [same, ← Except.error?_eq_none, Code.error?_ofLines, Option.or_eq_none_iff,
    List.findSome?_singleton]

theorem refused_of_formFault? (fault : formFault? line = some error) :
    error.RefusesLine line ∧ error.Spans line.start line.characters := by
  unfold formFault? at fault
  cases scanned : line.scan with
  | ok found =>
      rw [scanned] at fault
      cases fault
  | error refusal =>
      rw [scanned] at fault
      obtain ⟨kind, offset⟩ := refusal
      obtain ⟨read, unread, whole, remains, placed⟩ := refused_inside free scanned
      have remain := utf8Length_pos remains
      have point : error.start = offset ∧ error.stop = offset ∧
          error.cause ∈ [.noProgram, .noOpcode, .afterInstruction] := by
        cases fault
        cases kind with
        | afterInstruction => exact ⟨rfl, rfl, by simp [ListingError.ofLineFault]⟩
        | noOpcode =>
            refine ⟨rfl, rfl, ?_⟩
            dsimp only [ListingError.ofLineFault]
            split <;> simp
      obtain ⟨starts, stops, cause⟩ := point
      refine ⟨⟨cause, stops.trans starts.symm, ?_, ?_⟩, read, [], unread, whole, ?_, ?_⟩
      · rw [starts, placed]
        exact Nat.le_add_right _ _
      · rw [starts, placed, stop, whole, utf8Length_append]
        omega
      · rw [starts, placed]
      · rw [stops, placed, List.append_nil]

theorem refused_of_instructionFault? (fault : instructionFault? line = some error) :
    error.RefusesInstruction line ∧ error.Spans line.start line.characters := by
  unfold instructionFault? at fault
  split at fault
  · rename_i raw scanned
    obtain ⟨unfit, starts, stops⟩ :=
      RawInstruction.unfit_of_interpret (Except.error?_eq_some.mp fault)
    obtain ⟨front, opcode, rest, middle, after, whole, blank, isOpcode, rfl, rfl⟩ :=
      range_of_scan free scanned
    refine ⟨.intro whole blank isOpcode unfit starts ?_, front, opcode ++ middle, after, ?_, starts,
      stops⟩
    · rw [stops, stop, whole]
      simp only [utf8Length_append]
      omega
    · rw [whole, List.append_assoc]
  · cases fault

end SourceLine

/-- The error covers whole characters of the text. It is on the first line that does not have the
form of lines; or, if all have, on the first one whose opcode or operand is wrong. -/
structure ListingError.AtFirstFault (error : ListingError) (text : List Char) : Prop where
  ordered : error.start ≤ error.stop
  spans : error.Spans 0 text
  first : ∃ earlier line later, Lines 0 text (earlier ++ line :: later) ∧
    ((∀ other ∈ earlier, Grammar.Fits other.characters) ∧
        ¬ Grammar.Fits line.characters ∧ error.RefusesLine line ∨
      (∀ other ∈ earlier ++ line :: later, Grammar.Fits other.characters) ∧
        (∀ other ∈ earlier, ∃ code, Code.ofCharacters other.characters = .ok code) ∧
        error.RefusesInstruction line)

namespace Code

theorem error_atFirstFault {text : String} {error : ListingError}
    (fails : ofListing text = .error error) : error.AtFirstFault text.toList := by
  have split := SourceLine.lines_ofText text.toList
  have faults := Code.error?_ofLines (SourceLine.ofText text.toList)
  rw [← ofListing_eq, fails] at faults
  generalize SourceLine.ofText text.toList = lines at split faults
  obtain form | ⟨fit, instruction⟩ := Option.or_eq_some_iff.mp faults.symm
  · obtain ⟨earlier, line, later, rfl, fault, fitting⟩ := List.findSome?_eq_some_iff.mp form
    have free := split.free
    have member : line ∈ earlier ++ line :: later := by simp
    obtain ⟨refuses, spans⟩ := SourceLine.refused_of_formFault? (free line member) fault
    have within := spans.of_line split member
    refine ⟨within.ordered, within, earlier, line, later, split, .inl ⟨fun other inside => ?_,
      fun fits => ?_, refuses⟩⟩
    · exact (SourceLine.formFault?_eq_none_iff (free other (by simp [inside]))).mp
        (fitting other inside)
    · rw [(SourceLine.formFault?_eq_none_iff (free line member)).mpr fits] at fault
      cases fault
  · obtain ⟨earlier, line, later, rfl, fault, fitting⟩ :=
      List.findSome?_eq_some_iff.mp instruction
    have free := split.free
    have fit := List.findSome?_eq_none_iff.mp fit
    have member : line ∈ earlier ++ line :: later := by simp
    obtain ⟨refuses, spans⟩ := SourceLine.refused_of_instructionFault? (free line member) fault
    have within := spans.of_line split member
    refine ⟨within.ordered, within, earlier, line, later, split, .inr ⟨fun other inside => ?_,
      fun other inside => ?_, refuses⟩⟩
    · exact (SourceLine.formFault?_eq_none_iff (free other inside)).mp (fit other inside)
    · have member : other ∈ earlier ++ line :: later := by simp [inside]
      exact (SourceLine.valid_iff (free other member)).mpr
        ⟨fit other member, fitting other inside⟩

/-- The opcode of the first line is unknown, but the second line does not have the form of
lines. -/
theorem mixture_atFirstFault :
    ofListing "Oops é\r\nAdd é y\nHalt 1" = .error ⟨.afterInstruction, 16, 16⟩ ∧
      ListingError.AtFirstFault ⟨.afterInstruction, 16, 16⟩ "Oops é\r\nAdd é y\nHalt 1".toList :=
  ⟨rfl, error_atFirstFault rfl⟩

end Code

end StackBackend
