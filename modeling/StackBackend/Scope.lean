import StackBackend.Location

namespace StackBackend

/-! Storage for bindings. The scope of a program grows upward through the global
block; the scope of a procedure grows downward, below the two words that every
frame starts with. A subscope gives its space back when it is left, so a scope
is as large as the most that was in use at once. -/

/-- The bytes at the base of every frame: saved frame pointer and return
address. -/
def frameOverhead : Int32 := 8

inductive ScopeKind where
  | program
  | procedure
deriving DecidableEq

structure Scope where
  kind : ScopeKind
  /-- Bytes in use now. -/
  current : Int32 := 0
  /-- The most bytes that were in use at once. -/
  size : Int32 := 0
  /-- Bytes that were in use when the open subscopes were entered, innermost
  first. -/
  marks : List Int32 := []
deriving DecidableEq

namespace Scope

/-! A step on a scope may fail, and the scope it leaves then still counts. -/

abbrev Action := EStateM Defect Scope

def allocateBytes (bytes : Int32) : Action Location := fun scope =>
  match Checked.add scope.current bytes with
  | .error defect => .error defect scope
  | .ok current =>
      let next := { scope with current, size := max scope.size current }
      match scope.kind with
      | .program => .ok (.global scope.current) next
      | .procedure =>
          match Checked.subtract (-frameOverhead) current with
          | .ok offset => .ok (.frameLocal offset) next
          | .error defect => .error defect next

def allocate (type : Ty) : Action Location :=
  allocateBytes type.size

/-- Space for a static binding: the value and its flag. -/
def allocateStatic (type : Ty) : Action Location :=
  allocateBytes (type.size + 1)

def enter : Action Unit := fun scope =>
  .ok () { scope with marks := scope.current :: scope.marks }

def leave : Action Unit := fun scope =>
  match scope.marks with
  | [] => .error .unmatchedLeave scope
  | mark :: marks => .ok () { scope with current := mark, marks }

end Scope

/-! Parameters. Arguments are written below the stack pointer of the caller in
the order of declaration, so the last parameter is at the frame pointer and
every other one above all that follow it. -/

namespace Parameters

/-- The bytes of a parameter list. -/
def size (types : List Ty) : Int32 :=
  (types.map Ty.size).sum

def locations : List Ty → List Location
  | [] => []
  | _ :: rest => .parameter (size rest) :: locations rest

end Parameters

end StackBackend
