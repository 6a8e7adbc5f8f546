import StackBackend.Cell
import StackBackend.Generator
import StackBackend.Listing.Reader
import StackBackend.Machine
import StackBackend.Utf8

namespace StackBackend

/-! Running code: assembly, loading and the run itself, with the errors of all
stages in one type. -/

inductive RunError where
  /-- The text is kept for a report that points into it. -/
  | listing (error : ListingError) (text : String)
  | assembly (error : AssemblyError)
  | machine (error : MachineError)
  /-- More memory was asked for than there can be. -/
  | memoryTooLarge
  /-- The input could not be read or decoded. -/
  | input (description : String)

namespace RunError

def message : RunError → String
  | .listing error _ => "syntax error: " ++ error.message
  | .assembly error => "assembly failed: " ++ error.message
  | .machine error => "machine error: " ++ error.message
  | .memoryTooLarge => "capacity overflow"
  | .input description => description

end RunError

/-- An image that was loaded, and how its run went. -/
structure Session where
  image : Image
  run : Run

namespace Session

/-! What can be seen when a run is over, whether it failed or not. -/

def failure? (session : Session) : Option MachineError :=
  match session.run.ending with
  | .failed error => some error
  | _ => none

def steps (session : Session) : Nat :=
  session.run.state.steps

def output (session : Session) : List UInt8 :=
  session.run.state.output.toList

/-- The operand stack, bottom first. -/
def stack (session : Session) : List Word :=
  session.run.state.stack.reverse

/-- The bytes from one address up to another, if they are all in memory. -/
def range? (session : Session) (start stop : Int) : Option (List UInt8) :=
  let memory := session.run.state.memory
  if 0 ≤ start ∧ start ≤ stop ∧ stop ≤ memory.size then
    some ((List.range (stop - start).toNat).map fun offset => memory.byte (start.toNat + offset))
  else
    none

/-- The bytes at an offset from a data label. -/
def dump? (session : Session) (label : String) (offset length : Int) : Option (List UInt8) := do
  let address ← session.image.dataAddress? label
  session.range? (address + offset) (address + offset + length)

/-- The word at a data label. -/
def wordAt? (session : Session) (label : String) : Option Int32 :=
  (session.dump? label 0 4).map WordBytes.toInt32

def stackPointer? (session : Session) : Option Int32 :=
  session.wordAt? Cell.stackPointer

/-- The first address of the heap and the first one that was never reserved. -/
def heapBounds? (session : Session) : Option (Int × Int) := do
  let start ← session.image.dataAddress? Cell.heap
  let stop ← session.wordAt? Cell.bumpPointer
  return (start, stop.toInt)

end Session

/-- A memory has fewer bytes than this. -/
def memoryBound : Nat := 0x8000000000000000

namespace Code

/-- Assembles code, loads it and runs it to its end. -/
def execute (code : Code) (options : MachineOptions) : Except RunError Session := do
  let image ← (Image.assemble code).mapError .assembly
  if memoryBound ≤ options.memorySize then throw .memoryTooLarge
  let run ← (image.run options).mapError .machine
  return ⟨image, run⟩

end Code

/-- Reads a listing and runs its code. -/
def executeListing (text : String) (options : MachineOptions) : Except RunError Session := do
  let code ← (Code.ofListing text).mapError (.listing · text)
  code.execute options

/-- The result of a run that has to succeed. -/
structure Execution where
  output : String
  steps : Nat
deriving DecidableEq

namespace Session

/-- What a run that ended well printed, and how long it took. -/
def toExecution (session : Session) : Except RunError Execution :=
  match session.failure? with
  | some error => .error (.machine error)
  | none => .ok ⟨Utf8.lossyText session.output, session.steps⟩

end Session

end StackBackend
