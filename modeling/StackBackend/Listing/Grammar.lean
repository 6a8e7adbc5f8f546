import StackBackend.Listing.Reader

namespace StackBackend

/-! The grammar of listings, read over a whole text at once.

    program     = (instruction? newline)* instruction? end
    instruction = opcode operand?
    opcode      = letter (letter | digit)*
    operand     = string | word
    string      = quote (escape | not quote, backslash or newline)* quote
    escape      = backslash (quote | backslash | n | t | 0)
    word        = (not blank, newline or comment)+
    comment     = %% (not newline)*
    newline     = feed | return feed | return

Between two parts of `program` and `instruction`, blanks and comments are skipped. Of two
alternatives the first that fits is taken for good, and a repetition goes on for as long as it
can. A rule gets what is left of the text and gives back what is left after it, so the rest of
a text stands for a place in it. -/

namespace Grammar

/-! ## Characters -/

def newline? : List Char → Option (List Char)
  | '\n' :: rest => some rest
  | '\r' :: '\n' :: rest => some rest
  | '\r' :: rest => some rest
  | _ => none

def endsLine (text : List Char) : Bool :=
  (newline? text).isSome

/-- The characters before the first place where the test holds, and the rest from there on. -/
def upTo (stops : List Char → Bool) : List Char → List Char × List Char
  | [] => ([], [])
  | character :: rest =>
      if stops (character :: rest) then
        ([], character :: rest)
      else
        let (taken, after) := upTo stops rest
        (character :: taken, after)

def comment? : List Char → Option (List Char)
  | '%' :: '%' :: rest => some (upTo endsLine rest).2
  | _ => none

theorem length_newline?_lt {text after : List Char} (ends : newline? text = some after) :
    after.length < text.length := by
  unfold newline? at ends
  split at ends <;> cases ends <;> simp only [List.length_cons] <;> omega

theorem length_upTo_le (stops : List Char → Bool) (text : List Char) :
    (upTo stops text).2.length ≤ text.length := by
  fun_induction upTo stops text with
  | case1 => exact Nat.le_refl _
  | case2 => exact Nat.le_refl _
  | case3 character rest _ taken after same induction =>
      rw [same] at induction
      exact Nat.le_succ_of_le induction

theorem length_comment?_lt {text after : List Char} (commented : comment? text = some after) :
    after.length < text.length := by
  unfold comment? at commented
  split at commented
  · rename_i rest
    cases commented
    have shorter := length_upTo_le endsLine rest
    simp only [List.length_cons]
    omega
  · cases commented

/-- Skips blanks and comments, as many as there are. -/
def skip (text : List Char) : List Char :=
  match _commented : comment? (text.dropWhile isBlank) with
  | some after => skip after
  | none => text.dropWhile isBlank
termination_by text.length
decreasing_by
  exact Nat.lt_of_lt_of_le (length_comment?_lt _commented) (List.dropWhile_suffix isBlank).length_le

/-! ## Operands -/

/-- What stands between quotes, escapes as they are written. -/
def characters : List Char → List Char × List Char
  | [] => ([], [])
  | '\\' :: letter :: rest =>
      if letter ∈ ['"', '\\', 'n', 't', '0'] then
        let (taken, after) := characters rest
        ('\\' :: letter :: taken, after)
      else
        ([], '\\' :: letter :: rest)
  | character :: rest =>
      if character ∈ ['"', '\\'] || endsLine (character :: rest) then
        ([], character :: rest)
      else
        let (taken, after) := characters rest
        (character :: taken, after)

/-- The text that characters with escapes stand for. -/
def unescape : List Char → List Char
  | '\\' :: 'n' :: rest => '\n' :: unescape rest
  | '\\' :: 't' :: rest => '\t' :: unescape rest
  | '\\' :: '0' :: rest => '\x00' :: unescape rest
  | '\\' :: other :: rest => other :: unescape rest
  | character :: rest => character :: unescape rest
  | [] => []

def quote? : List Char → Option (List Char)
  | '"' :: rest => some rest
  | _ => none

/-- Characters up to a quote, and what follows the quote. -/
def closed? (text : List Char) : Option (List Char × List Char) :=
  let (content, rest) := characters text
  (quote? rest).map fun after => (unescape content, after)

def string? (text : List Char) : Option (RawOperand × List Char) :=
  (quote? text).bind fun rest => (closed? rest).map fun (text, after) => (.quoted text, after)

def endsWord (text : List Char) : Bool :=
  text.head?.any isBlank || endsLine text || startsComment text

def word? (text : List Char) : Option (RawOperand × List Char) :=
  match upTo endsWord text with
  | ([], _) => none
  | (word, after) => some (.word word, after)

def operand? (text : List Char) : Option (RawOperand × List Char) :=
  (string? text).or (word? text)

/-! ## Instructions -/

def opcode? : List Char → Option (List Char × List Char)
  | [] => none
  | first :: rest =>
      if first.isAlpha then
        some (first :: rest.takeWhile Char.isAlphanum, rest.dropWhile Char.isAlphanum)
      else
        none

/-- An instruction with the places where it starts and where it ends. -/
structure Match where
  opcode : List Char
  operand : Option RawOperand
  start : List Char
  stop : List Char

/-- Without an operand, what is skipped behind the opcode belongs to the instruction. -/
def instruction? (text : List Char) : Option Match :=
  (opcode? text).map fun (opcode, after) =>
    match operand? (skip after) with
    | some (operand, stop) => ⟨opcode, some operand, text, stop⟩
    | none => ⟨opcode, none, text, skip after⟩

/-- What is left after an instruction, or all of the text when it does not start with one. -/
def afterInstruction (text : List Char) : List Char :=
  ((instruction? text).map Match.stop).getD text

/-- An instruction or none, with what is skipped on both sides. -/
def optional (text : List Char) : Option Match × List Char :=
  (instruction? (skip text), skip (afterInstruction (skip text)))

/-! ## Programs -/

theorem length_skip_le (text : List Char) : (skip text).length ≤ text.length := by
  fun_induction skip text with
  | case1 text after commented induction =>
      have shorter := length_comment?_lt commented
      have blanks := (List.dropWhile_suffix (l := text) isBlank).length_le
      omega
  | case2 text _ => exact (List.dropWhile_suffix isBlank).length_le

theorem length_characters_le (text : List Char) :
    (characters text).2.length ≤ text.length := by
  fun_induction characters text <;> simp_all <;> omega

theorem length_quote?_lt {text after : List Char} (quoted : quote? text = some after) :
    after.length < text.length := by
  unfold quote? at quoted
  split at quoted <;> cases quoted
  exact Nat.lt_succ_self _

theorem length_string?_le {text after : List Char} {operand : RawOperand}
    (taken : string? text = some (operand, after)) : after.length ≤ text.length := by
  obtain ⟨rest, opened, found⟩ := Option.bind_eq_some_iff.mp taken
  obtain ⟨⟨content, _⟩, closed, same⟩ := Option.map_eq_some_iff.mp found
  cases same
  obtain ⟨_, quoted, same⟩ := Option.map_eq_some_iff.mp closed
  cases same
  have first := length_quote?_lt opened
  have second := length_characters_le rest
  have last := length_quote?_lt quoted
  omega

theorem length_operand?_le {text after : List Char} {operand : RawOperand}
    (taken : operand? text = some (operand, after)) : after.length ≤ text.length := by
  obtain quoted | ⟨_, word⟩ := Option.or_eq_some_iff.mp taken
  · exact length_string?_le quoted
  · have shorter := length_upTo_le endsWord text
    unfold word? at word
    split at word
    · cases word
    · rename_i same
      cases word
      rwa [same] at shorter

theorem length_afterInstruction_le (text : List Char) :
    (afterInstruction text).length ≤ text.length := by
  unfold afterInstruction instruction?
  cases text with
  | nil => exact Nat.le_refl _
  | cons first rest =>
      by_cases alpha : first.isAlpha
      · have opcode := (List.dropWhile_suffix (l := rest) Char.isAlphanum).length_le
        have skipped := length_skip_le (rest.dropWhile Char.isAlphanum)
        simp only [opcode?, alpha, if_true, Option.map_some, Option.getD_some, List.length_cons]
        split
        · rename_i taken
          have operand := length_operand?_le taken
          dsimp only
          omega
        · dsimp only
          omega
      · simp [opcode?, alpha]

theorem length_optional_le (text : List Char) : (optional text).2.length ≤ text.length :=
  calc (skip (afterInstruction (skip text))).length
    _ ≤ (afterInstruction (skip text)).length := length_skip_le _
    _ ≤ (skip text).length := length_afterInstruction_le _
    _ ≤ text.length := length_skip_le _

/-- The instructions of all lines that end with a newline, and the rest of the text. -/
def ended (text : List Char) : List Match × List Char :=
  match _ended : newline? (optional text).2 with
  | some next =>
      let (others, rest) := ended next
      ((optional text).1.toList ++ others, rest)
  | none => ([], text)
termination_by text.length
decreasing_by
  exact Nat.lt_of_lt_of_le (length_newline?_lt _ended) (length_optional_le text)

/-- A place where the end of the text is expected and something else stands, after an
instruction or where one could start. -/
structure Refusal where
  afterInstruction : Bool
  rest : List Char

def program (text : List Char) : Except Refusal (List Match) :=
  let (found, rest) := ended text
  match optional rest with
  | (last, []) => .ok (found ++ last.toList)
  | (last, unread) => .error ⟨last.isSome, unread⟩

/-! ## Code -/

/-- The instruction in a text of the given bytes. -/
def Match.located (bytes : Nat) (found : Match) : RawInstruction where
  opcode := String.ofList found.opcode
  operand := found.operand
  start := bytes - utf8Length found.start
  stop := bytes - utf8Length found.stop

def Refusal.located (bytes : Nat) (refusal : Refusal) : ListingError :=
  .ofLineFault (if refusal.afterInstruction then .afterInstruction else .noOpcode,
    bytes - utf8Length refusal.rest)

/-- The code that a text spells: first the whole text has to follow the grammar, then its
instructions are interpreted in order. -/
def code (text : List Char) : Except ListingError Code := do
  let found ← (program text).mapError (Refusal.located (utf8Length text))
  found.mapM fun found => (found.located (utf8Length text)).interpret

end Grammar

end StackBackend
