import StackBackend.Listing.Quoted

namespace StackBackend

/-! Listings are read line by line. A line ends at a line feed, at a carriage
return, or at both in that order, and a line holds at most one instruction:
blanks, an opcode, blanks, an operand and blanks, where a comment counts as
blank and reaches to the end of the line. -/

/-- The bytes of a run of characters in UTF-8. -/
def utf8Length (characters : List Char) : Nat :=
  characters.foldl (fun length character => length + character.utf8Size) 0

structure SourceLine where
  /-- Byte offset of the first character in the listing. -/
  start : Nat
  characters : List Char
deriving DecidableEq

namespace SourceLine

/-- Splits off lines from `position` on; the characters of the line under way
are `reversed`, and the line began at `start`. -/
def split (start position : Nat) (reversed : List Char) : List Char → List SourceLine
  | [] => [⟨start, reversed.reverse⟩]
  | '\r' :: '\n' :: rest =>
      ⟨start, reversed.reverse⟩ :: split (position + 2) (position + 2) [] rest
  | '\r' :: rest => ⟨start, reversed.reverse⟩ :: split (position + 1) (position + 1) [] rest
  | '\n' :: rest => ⟨start, reversed.reverse⟩ :: split (position + 1) (position + 1) [] rest
  | character :: rest =>
      split start (position + character.utf8Size) (character :: reversed) rest

def ofText (text : List Char) : List SourceLine :=
  split 0 0 [] text

end SourceLine

/-! ## The parts of a line -/

def isBlank (character : Char) : Bool :=
  character = ' ' || character = '\t'

/-- Whether a comment starts here. -/
def startsComment : List Char → Bool
  | '%' :: '%' :: _ => true
  | _ => false

/-- What is left of a line after blanks and a comment. -/
def skipBlanks (characters : List Char) : List Char :=
  let rest := characters.dropWhile isBlank
  if startsComment rest then [] else rest

/-- The characters up to a blank or a comment, and the rest. -/
def takeWord : List Char → List Char × List Char
  | [] => ([], [])
  | character :: rest =>
      if isBlank character || startsComment (character :: rest) then
        ([], character :: rest)
      else
        let (word, after) := takeWord rest
        (character :: word, after)

/-! An operand is quoted text if it starts like one and is complete; in every
other case it is a word. -/

inductive RawOperand where
  | quoted (text : List Char)
  | word (text : List Char)
deriving DecidableEq

namespace RawOperand

def readWord (characters : List Char) : RawOperand × List Char :=
  let (taken, after) := takeWord characters
  (.word taken, after)

/-- Reads an operand off a line that does not start with a blank. -/
def read : List Char → Option RawOperand × List Char
  | [] => (none, [])
  | '"' :: rest =>
      match Quoted.decode rest with
      | some (text, after) => (some (.quoted text), after)
      | none =>
          let (operand, after) := readWord ('"' :: rest)
          (some operand, after)
  | characters =>
      let (operand, after) := readWord characters
      (some operand, after)

end RawOperand

/-- An instruction of a listing before its opcode and operand are interpreted,
with the byte range it takes. Without an operand the range includes the blanks
and the comment that follow. -/
structure RawInstruction where
  opcode : String
  operand : Option RawOperand
  start : Nat
  stop : Nat
deriving DecidableEq

/-! A line that is not of this form is refused at the first character that does
not fit. -/

inductive LineFault where
  | noOpcode
  | afterInstruction
deriving DecidableEq

namespace SourceLine

/-- The byte offset of the end of the line. -/
def stop (line : SourceLine) : Nat :=
  line.start + utf8Length line.characters

/-- The byte offset at which `rest`, a tail of the line, starts. -/
def offsetOf (line : SourceLine) (rest : List Char) : Nat :=
  line.stop - utf8Length rest

def scan (line : SourceLine) : Except (LineFault × Nat) (Option RawInstruction) :=
  let body := skipBlanks line.characters
  match body with
  | [] => .ok none
  | first :: _ =>
      if !first.isAlpha then
        .error (.noOpcode, line.offsetOf body)
      else
        let opcode := body.takeWhile Char.isAlphanum
        let (operand, after) := RawOperand.read (skipBlanks (body.dropWhile Char.isAlphanum))
        match skipBlanks after with
        | [] =>
            .ok (some {
              opcode := String.ofList opcode
              operand
              start := line.offsetOf body
              stop := line.offsetOf after })
        | rest => .error (.afterInstruction, line.offsetOf rest)

end SourceLine

end StackBackend
