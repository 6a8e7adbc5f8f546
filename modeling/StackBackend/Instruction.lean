import StackBackend.Binary64

namespace StackBackend

/-! The instructions of the target machine, in the order of its manual.

A stack effect is written `[before] -> [after]` with the top of the stack on
the right. Integer arithmetic is on 32-bit words and wraps; a store takes its
address from beneath the value. Label operands name code (`label`) or data
(`dataLabel`), and both kinds share one name space. The last group are
directives: they lay out code and data and are never executed. -/

inductive Instruction where
  -- stack
  | pushI (value : Int32)
  | pushF (value : Binary64)
  /-- Pushes what the label resolves to: a data address or a code index. -/
  | pushD (label : String)
  | pop
  | duplicate
  | exchange
  -- integers
  | add
  | subtract
  | multiply
  | divide
  | remainder
  | negate
  -- floating numbers
  | fAdd
  | fSubtract
  | fMultiply
  | fDivide
  | fNegate
  -- conversions
  /-- Integer to floating. -/
  | convertF
  /-- Floating to integer, truncating. -/
  | convertI
  -- truth values (zero is false) and bits
  | and
  | or
  | bNegate
  | btAnd
  | btOr
  | btXor
  | btNot
  -- control
  | jump (label : String)
  | jumpTrue (label : String)
  | jumpFalse (label : String)
  | jumpPos (label : String)
  | jumpNeg (label : String)
  | jumpFPos (label : String)
  | jumpFNeg (label : String)
  | jumpFZero (label : String)
  /-- Pushes the return address and jumps. -/
  | call (label : String)
  /-- `[target] -> [return address]`, jumping to the target. -/
  | callV
  /-- `[return address] -> []`, jumping to it. -/
  | return
  | popPC
  | pushPC
  -- memory
  /-- Pushes the first address past the end of memory. -/
  | memtop
  | loadC
  | loadI
  | loadF
  | storeC
  | storeI
  | storeF
  -- output and termination
  /-- `[arguments .. format] -> []`; the first conversion takes the deepest
  argument. -/
  | printf
  | pStack
  | halt
  | nop
  -- directives
  | label (name : String)
  | dataLabel (name : String)
  | dataC (byte : UInt8)
  | dataI (value : Int32)
  | dataF (value : Binary64)
  /-- The bytes of the text and a zero byte. -/
  | dataS (text : String)
  /-- A run of zero bytes. -/
  | dataZ (size : Int32)
  /-- The four-byte resolution of a label. -/
  | dataD (label : String)
deriving DecidableEq, Inhabited

/-! Code is a list of instructions and directives in order. -/

abbrev Code := List Instruction

namespace Code

/-- Pieces of code one after the other. -/
def join (pieces : List Code) : Code :=
  pieces.flatten

@[simp] theorem join_nil : join [] = [] := rfl

@[simp] theorem join_cons (piece : Code) (pieces : List Code) :
    join (piece :: pieces) = piece ++ join pieces := rfl

end Code

/-! Written down, an instruction is an opcode and an operand. -/

inductive Operand where
  | absent
  | integer (value : Int32)
  | byte (value : UInt8)
  | floating (value : Binary64)
  | label (name : String)
  | text (value : String)
deriving DecidableEq

namespace Instruction

def opcode : Instruction → String
  | .pushI _ => "PushI"
  | .pushF _ => "PushF"
  | .pushD _ => "PushD"
  | .pop => "Pop"
  | .duplicate => "Duplicate"
  | .exchange => "Exchange"
  | .add => "Add"
  | .subtract => "Subtract"
  | .multiply => "Multiply"
  | .divide => "Divide"
  | .remainder => "Remainder"
  | .negate => "Negate"
  | .fAdd => "FAdd"
  | .fSubtract => "FSubtract"
  | .fMultiply => "FMultiply"
  | .fDivide => "FDivide"
  | .fNegate => "FNegate"
  | .convertF => "ConvertF"
  | .convertI => "ConvertI"
  | .and => "And"
  | .or => "Or"
  | .bNegate => "BNegate"
  | .btAnd => "BTAnd"
  | .btOr => "BTOr"
  | .btXor => "BTXor"
  | .btNot => "BTNot"
  | .jump _ => "Jump"
  | .jumpTrue _ => "JumpTrue"
  | .jumpFalse _ => "JumpFalse"
  | .jumpPos _ => "JumpPos"
  | .jumpNeg _ => "JumpNeg"
  | .jumpFPos _ => "JumpFPos"
  | .jumpFNeg _ => "JumpFNeg"
  | .jumpFZero _ => "JumpFZero"
  | .call _ => "Call"
  | .callV => "CallV"
  | .return => "Return"
  | .popPC => "PopPC"
  | .pushPC => "PushPC"
  | .memtop => "Memtop"
  | .loadC => "LoadC"
  | .loadI => "LoadI"
  | .loadF => "LoadF"
  | .storeC => "StoreC"
  | .storeI => "StoreI"
  | .storeF => "StoreF"
  | .printf => "Printf"
  | .pStack => "PStack"
  | .halt => "Halt"
  | .nop => "Nop"
  | .label _ => "Label"
  | .dataLabel _ => "DLabel"
  | .dataC _ => "DataC"
  | .dataI _ => "DataI"
  | .dataF _ => "DataF"
  | .dataS _ => "DataS"
  | .dataZ _ => "DataZ"
  | .dataD _ => "DataD"

def operand : Instruction → Operand
  | .pushI value | .dataI value | .dataZ value => .integer value
  | .dataC value => .byte value
  | .pushF value | .dataF value => .floating value
  | .dataS text => .text text
  | .pushD name | .jump name | .jumpTrue name | .jumpFalse name | .jumpPos name
  | .jumpNeg name | .jumpFPos name | .jumpFNeg name | .jumpFZero name | .call name
  | .label name | .dataLabel name | .dataD name => .label name
  | _ => .absent

/-- The label operand, if there is one. -/
def labelOperand? (instruction : Instruction) : Option String :=
  match instruction.operand with
  | .label name => some name
  | _ => none

/-- Whether this lays out code or data instead of being executed. -/
def isDirective : Instruction → Bool
  | .label _ | .dataLabel _ | .dataC _ | .dataI _ | .dataF _ | .dataS _ | .dataZ _
  | .dataD _ => true
  | _ => false

end Instruction

/-! The kind of operand an opcode takes, together with the instruction it then
makes. -/

inductive OpcodeShape where
  | plain (instruction : Instruction)
  | integer (make : Int32 → Instruction)
  | byte (make : UInt8 → Instruction)
  | floating (make : Binary64 → Instruction)
  | label (make : String → Instruction)
  | text (make : String → Instruction)

def opcodeShape? : String → Option OpcodeShape
  | "PushI" => some (.integer .pushI)
  | "PushF" => some (.floating .pushF)
  | "PushD" => some (.label .pushD)
  | "Pop" => some (.plain .pop)
  | "Duplicate" => some (.plain .duplicate)
  | "Exchange" => some (.plain .exchange)
  | "Add" => some (.plain .add)
  | "Subtract" => some (.plain .subtract)
  | "Multiply" => some (.plain .multiply)
  | "Divide" => some (.plain .divide)
  | "Remainder" => some (.plain .remainder)
  | "Negate" => some (.plain .negate)
  | "FAdd" => some (.plain .fAdd)
  | "FSubtract" => some (.plain .fSubtract)
  | "FMultiply" => some (.plain .fMultiply)
  | "FDivide" => some (.plain .fDivide)
  | "FNegate" => some (.plain .fNegate)
  | "ConvertF" => some (.plain .convertF)
  | "ConvertI" => some (.plain .convertI)
  | "And" => some (.plain .and)
  | "Or" => some (.plain .or)
  | "BNegate" => some (.plain .bNegate)
  | "BTAnd" => some (.plain .btAnd)
  | "BTOr" => some (.plain .btOr)
  | "BTXor" => some (.plain .btXor)
  | "BTNot" => some (.plain .btNot)
  | "Jump" => some (.label .jump)
  | "JumpTrue" => some (.label .jumpTrue)
  | "JumpFalse" => some (.label .jumpFalse)
  | "JumpPos" => some (.label .jumpPos)
  | "JumpNeg" => some (.label .jumpNeg)
  | "JumpFPos" => some (.label .jumpFPos)
  | "JumpFNeg" => some (.label .jumpFNeg)
  | "JumpFZero" => some (.label .jumpFZero)
  | "Call" => some (.label .call)
  | "CallV" => some (.plain .callV)
  | "Return" => some (.plain .return)
  | "PopPC" => some (.plain .popPC)
  | "PushPC" => some (.plain .pushPC)
  | "Memtop" => some (.plain .memtop)
  | "LoadC" => some (.plain .loadC)
  | "LoadI" => some (.plain .loadI)
  | "LoadF" => some (.plain .loadF)
  | "StoreC" => some (.plain .storeC)
  | "StoreI" => some (.plain .storeI)
  | "StoreF" => some (.plain .storeF)
  | "Printf" => some (.plain .printf)
  | "PStack" => some (.plain .pStack)
  | "Halt" => some (.plain .halt)
  | "Nop" => some (.plain .nop)
  | "Label" => some (.label .label)
  | "DLabel" => some (.label .dataLabel)
  | "DataC" => some (.byte .dataC)
  | "DataI" => some (.integer .dataI)
  | "DataF" => some (.floating .dataF)
  | "DataS" => some (.text .dataS)
  | "DataZ" => some (.integer .dataZ)
  | "DataD" => some (.label .dataD)
  | _ => none

namespace OpcodeShape

/-- The instruction of this shape with the given operand, if the kinds agree. -/
def make? : OpcodeShape → Operand → Option Instruction
  | .plain instruction, .absent => some instruction
  | .integer make, .integer value => some (make value)
  | .byte make, .byte value => some (make value)
  | .floating make, .floating value => some (make value)
  | .label make, .label name => some (make name)
  | .text make, .text value => some (make value)
  | _, _ => none

end OpcodeShape

/-- Opcode and operand determine the instruction. -/
theorem opcodeShape?_opcode (instruction : Instruction) :
    (opcodeShape? instruction.opcode).bind (·.make? instruction.operand) = some instruction := by
  cases instruction <;> rfl

end StackBackend
