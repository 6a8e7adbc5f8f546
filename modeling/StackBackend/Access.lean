import StackBackend.Cell
import StackBackend.Defect
import StackBackend.Instruction

namespace StackBackend

/-! Short sequences of code that read and write cells, offsets and typed
values. All larger pieces are put together from them. -/

namespace Code

/-! ## Cells -/

/-- `[] -> [word at the label]` -/
def loadWord (label : String) : Code :=
  [.pushD label, .loadI]

/-- `[value] -> []`, storing the word at the label. -/
def storeWord (label : String) : Code :=
  [.pushD label, .exchange, .storeI]

/-- `[] -> [byte at the label]` -/
def loadByte (label : String) : Code :=
  [.pushD label, .loadC]

/-- `[value] -> []`, storing the byte at the label. -/
def storeByte (label : String) : Code :=
  [.pushD label, .exchange, .storeC]

/-- `[] -> []`, adding one to the word at the label. -/
def increment (label : String) : Code :=
  [.pushD label, .duplicate, .loadI, .pushI 1, .add, .storeI]

/-- `[] -> []`, subtracting one from the word at the label. -/
def decrement (label : String) : Code :=
  [.pushD label, .duplicate, .loadI, .pushI 1, .subtract, .storeI]

/-! ## Offsets -/

/-- `[base] -> [base + offset]` -/
def addOffset (offset : Int32) : Code :=
  if offset = 0 then [] else [.pushI offset, .add]

/-- `[base] -> [word at base + offset]` -/
def readWord (offset : Int32) : Code :=
  addOffset offset ++ [.loadI]

/-- `[base value] -> []`, storing the word at `base + offset`. -/
def writeWord (offset : Int32) : Code :=
  if offset = 0 then [.storeI] else [.exchange, .pushI offset, .add, .exchange, .storeI]

end Code

/-! ## Typed values

A rational is two words with the numerator beneath the denominator. Its store
parks the denominator and the address in cells of their own. -/

namespace Ty

open Code

/-- `[address] -> [value]`; there is nothing to load for void. -/
def loadCode : Ty → Code
  | .boolean | .character => [.loadC]
  | .integer | .string | .array _ | .lambda .. => [.loadI]
  | .floating => [.loadF]
  | .rational => [.duplicate, .loadI, .exchange, .pushI 4, .add, .loadI]
  | .void => []

/-- `[address value] -> []`; there is nothing to store for void. -/
def storeCode : Ty → Code
  | .boolean | .character => [.storeC]
  | .integer | .string | .array _ | .lambda .. => [.storeI]
  | .floating => [.storeF]
  | .rational =>
      Code.join [storeWord Cell.rationalStoreDenominator, [.exchange, .duplicate],
        storeWord Cell.rationalStoreAddress, [.exchange, .storeI],
        loadWord Cell.rationalStoreAddress, addOffset 4,
        loadWord Cell.rationalStoreDenominator, [.storeI]]
  | .void => []

/-- `loadCode` where a value is required. -/
def load (type : Ty) : Except Defect Code :=
  if type.isVoid then .error .voidLoad else .ok type.loadCode

/-- `storeCode` where a value is required. -/
def store (type : Ty) : Except Defect Code :=
  if type.isVoid then .error .voidStore else .ok type.storeCode

/-- `[value] -> []`, parking the value in the cell at the label, which has to be
large enough for it. -/
def stash (type : Ty) (label : String) : Code :=
  match type with
  | .void => []
  | .rational => [.pushD label, .pushI 4, .add, .exchange, .storeI] ++ storeWord label
  | _ => [.pushD label, .exchange] ++ type.storeCode

/-- `[] -> [value]`, fetching a parked value. -/
def unstash (type : Ty) (label : String) : Code :=
  match type with
  | .void => []
  | _ => .pushD label :: type.loadCode

/-- `[value] -> []` -/
def discard (type : Ty) : Code :=
  List.replicate type.stackWords .pop

end Ty

end StackBackend
