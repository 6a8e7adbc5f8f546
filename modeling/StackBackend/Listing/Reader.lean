import StackBackend.Decimal.Reader
import StackBackend.Instruction
import StackBackend.Listing.Line

namespace StackBackend

/-! Reading a listing. First every line has to have the form of a line; only
then are opcodes and operands interpreted, in order. So an error of form wins
over an unknown opcode wherever the two stand. -/

inductive OperandKind where
  | absent
  | integer
  | byte
  | floating
  | label
  | text
deriving DecidableEq

namespace OperandKind

def description : OperandKind → String
  | .absent => "no operand"
  | .integer => "an integer operand"
  | .byte => "a byte operand"
  | .floating => "a floating operand"
  | .label => "a label operand"
  | .text => "a quoted string operand"

end OperandKind

namespace ListingError

inductive Cause where
  /-- The listing starts with something that is no opcode. -/
  | noProgram
  /-- A later line does. -/
  | noOpcode
  /-- Something follows a complete instruction on its line. -/
  | afterInstruction
  | unknownOpcode (opcode : String)
  | operandMismatch (opcode : String) (expected : OperandKind)
deriving DecidableEq

end ListingError

/-- A fault in a listing and the byte range it concerns. -/
structure ListingError where
  cause : ListingError.Cause
  start : Nat
  stop : Nat
deriving DecidableEq

namespace ListingError

def message (error : ListingError) : String :=
  match error.cause with
  | .noProgram => "expected program"
  | .noOpcode => "expected EOI or opcode"
  | .afterInstruction => "expected EOI"
  | .unknownOpcode opcode => s!"unknown opcode `{opcode}`"
  | .operandMismatch opcode expected => s!"`{opcode}` expects {expected.description}"

def ofLineFault : LineFault × Nat → ListingError
  | (.noOpcode, offset) =>
      ⟨if offset = 0 then .noProgram else .noOpcode, offset, offset⟩
  | (.afterInstruction, offset) => ⟨.afterInstruction, offset, offset⟩

end ListingError

namespace OpcodeShape

def kind : OpcodeShape → OperandKind
  | .plain _ => .absent
  | .integer _ => .integer
  | .byte _ => .byte
  | .floating _ => .floating
  | .label _ => .label
  | .text _ => .text

/-- The instruction of this shape with an operand as it stands in a listing. -/
def read? : OpcodeShape → Option RawOperand → Option Instruction
  | .plain instruction, none => some instruction
  | .integer make, some (.word word) => (readInt32? word).map make
  | .byte make, some (.word word) => (readByte? word).map make
  | .floating make, some (.word word) => (readBinary64? word).map make
  | .label make, some (.word word) => some (make (String.ofList word))
  | .text make, some (.quoted content) => some (make (String.ofList content))
  | _, _ => none

end OpcodeShape

namespace RawInstruction

def interpret (raw : RawInstruction) : Except ListingError Instruction :=
  match opcodeShape? raw.opcode with
  | none => .error ⟨.unknownOpcode raw.opcode, raw.start, raw.stop⟩
  | some shape =>
      match shape.read? raw.operand with
      | some instruction => .ok instruction
      | none => .error ⟨.operandMismatch raw.opcode shape.kind, raw.start, raw.stop⟩

end RawInstruction

namespace Code

def ofCharacters (text : List Char) : Except ListingError Code := do
  let lines ← (SourceLine.ofText text).mapM fun line =>
    line.scan.mapError ListingError.ofLineFault
  (lines.filterMap id).mapM RawInstruction.interpret

/-- The code that a listing spells. -/
def ofListing (text : String) : Except ListingError Code :=
  ofCharacters text.toList

end Code

end StackBackend
