import StackBackend.Fragment

namespace StackBackend

/-! Where a name lives. Offsets are in bytes: those of globals from the start of
the global block, those of locals and parameters from the frame pointer, locals
below it and parameters above. -/

inductive Location where
  | global (offset : Int32)
  | frameLocal (offset : Int32)
  | parameter (offset : Int32)
deriving DecidableEq

namespace Location

def offset : Location → Int32
  | .global offset | .frameLocal offset | .parameter offset => offset

/-- Code that pushes the address `delta` bytes into the location. -/
def addressCode (location : Location) (delta : Int32) : Except Defect Code := do
  let offset ← Checked.add location.offset delta
  match location with
  | .global _ => return [.pushD Cell.globalBlock, .pushI offset, .add]
  | .frameLocal _ | .parameter _ =>
      return [.pushD Cell.framePointer, .loadI, .pushI offset, .add]

end Location

/-- What a name of the source resolves to. -/
structure Binding where
  name : String
  type : Ty
  location : Location
  mutable : Bool

namespace Binding

/-- Code that pushes the address of the binding. -/
def addressCode (binding : Binding) : Except Defect Code :=
  binding.location.addressCode 0

/-- Code that pushes the address of the flag of a static binding, one byte right
after its value, which says whether it has been initialized. -/
def flagAddressCode (binding : Binding) : Except Defect Code :=
  binding.location.addressCode binding.type.size

end Binding

end StackBackend
