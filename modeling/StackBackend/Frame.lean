import StackBackend.Scope

namespace StackBackend

/-! The calling convention. Arguments are written below the stack pointer of the
caller, first argument highest. The frame pointer of the callee is the stack
pointer it was entered with: below it are the saved frame pointer, the return
address and the locals. On return the stack pointer of the caller is restored
and the result is in the bytes just below it. -/

namespace Frame

open Code

def savedFrameOffset : Int32 := -4
def returnAddressOffset : Int32 := -8

def moveStackPointer (delta : Int32) : Code :=
  loadWord Cell.stackPointer ++ addOffset delta ++ storeWord Cell.stackPointer

/-- Entry of a function, with the return address on the operand stack. -/
def enter (localSize : Int32) : Except Defect Code := do
  let frameSize ← Checked.add frameOverhead localSize
  return Code.join [loadWord Cell.stackPointer, addOffset savedFrameOffset,
    loadWord Cell.framePointer, [.storeI],
    loadWord Cell.stackPointer, addOffset returnAddressOffset, [.exchange, .storeI],
    loadWord Cell.stackPointer, storeWord Cell.framePointer,
    moveStackPointer (-frameSize)]

/-- `[] -> [slot]`: where the result of the current function goes. -/
def returnSlot (parameterSize : Int32) (result : Ty) : Except Defect Code := do
  return loadWord Cell.framePointer ++
    addOffset (← Checked.subtract parameterSize result.size)

/-- Exit of a function, with `[slot value]` on the operand stack, or nothing
when it has no result. The two saved words are read before the result is
written, since a result wider than the parameters overlaps them. -/
def leave (parameterSize : Int32) (result : Ty) : Code :=
  Code.join [loadWord Cell.framePointer, readWord returnAddressOffset, storeWord Cell.returnAddress,
    loadWord Cell.framePointer, readWord savedFrameOffset, storeWord Cell.returnFrame,
    loadWord Cell.framePointer, addOffset parameterSize, storeWord Cell.stackPointer,
    result.storeCode,
    loadWord Cell.returnFrame, storeWord Cell.framePointer,
    loadWord Cell.returnAddress, [.return]]

/-- `[] -> []`: makes room for an argument and stores it there. The stack
pointer moves before the argument is evaluated, so calls inside it build their
frames below the slot. -/
def passArgument (argument : Code) (type : Ty) : Except Defect Code := do
  return Code.join [loadWord Cell.stackPointer, [.pushI type.size, .subtract, .duplicate],
    storeWord Cell.stackPointer, argument, (← type.store)]

/-- `[] -> [result]`: reads back what a call returned. -/
def result (type : Ty) : Code :=
  if type.isVoid then
    []
  else
    loadWord Cell.stackPointer ++ [.pushI type.size, .subtract] ++ type.loadCode

/-- `[] -> [result]`: calls a function with the given argument values. -/
def invoke (callee : Code) (arguments : List (Code × Ty)) (resultType : Ty) :
    Except Defect Code := do
  let passed ← arguments.mapM fun (argument, type) => passArgument argument type
  return Code.join [passed.flatten, callee, [.callV], result resultType]

end Frame

end StackBackend
