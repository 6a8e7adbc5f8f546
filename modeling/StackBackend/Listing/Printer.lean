import StackBackend.Decimal.Numeral
import StackBackend.Instruction
import StackBackend.Listing.Quoted

namespace StackBackend

/-! Assembly listings: one instruction a line, indented by eight columns, with
the operand in a column of its own. -/

namespace Operand

/-- The operand as it is written, if there is one. -/
def text? : Operand → Option String
  | .absent => none
  | .integer value => some (toString value.toInt)
  | .byte value => some (toString value.toNat)
  | .floating value => some (String.ofList value.exactText)
  | .label name => some name
  | .text value => some ("\"" ++ String.ofList (Quoted.encode value.toList) ++ "\"")

end Operand

namespace Instruction

/-- The opcode filled up with blanks to the operand column. -/
def opcodeColumn (instruction : Instruction) : String :=
  instruction.opcode ++ String.ofList (List.replicate (13 - instruction.opcode.length) ' ')

/-- The line of an instruction, without a line end. -/
def line (instruction : Instruction) : String :=
  match instruction.operand.text? with
  | none => "        " ++ instruction.opcode
  | some operand => "        " ++ instruction.opcodeColumn ++ operand

end Instruction

namespace Code

/-- The listing of a piece of code; every line is ended. -/
def listing (code : Code) : String :=
  String.join (code.map fun instruction => instruction.line ++ "\n")

end Code

end StackBackend
