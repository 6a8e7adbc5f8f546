import StackBackend.Access

namespace StackBackend

/-! A fragment is the code of one node of a tree together with what it leaves on
the operand stack: nothing, a value, or the address of a value. -/

inductive FragmentKind where
  | void
  | value
  | address
deriving DecidableEq

structure Fragment where
  kind : FragmentKind
  code : Code
deriving DecidableEq

namespace Fragment

def void (code : Code) : Fragment := ⟨.void, code⟩

def value (code : Code) : Fragment := ⟨.value, code⟩

def address (code : Code) : Fragment := ⟨.address, code⟩

def isAddress (fragment : Fragment) : Bool :=
  fragment.kind = .address

def append (fragment : Fragment) (code : Code) : Fragment :=
  { fragment with code := fragment.code ++ code }

/-- The code of the fragment as a value of the type, loading through an
address. This is the only place where addresses become values. -/
def valueCode (fragment : Fragment) (type : Ty) : Except Defect Code :=
  match fragment.kind with
  | .value => .ok fragment.code
  | .address => do return fragment.code ++ (← type.load)
  | .void => .error (.voidUsedAs type)

def toValue (fragment : Fragment) (type : Ty) : Except Defect Fragment := do
  return .value (← fragment.valueCode type)

end Fragment

end StackBackend
