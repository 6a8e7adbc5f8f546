import StackBackend.Scope
import StackBackend.Tree

namespace StackBackend

/-! Short forms for building trees by hand. They work out the types and the
signatures that follow from the operands. -/

namespace Binding

/-- A mutable binding. -/
def ofMutable (name : String) (type : Ty) (location : Location) : Binding :=
  ⟨name, type, location, true⟩

end Binding

namespace Expr

/-! Literals. -/

def boolean (value : Bool) : Expr :=
  .typed .boolean (.boolean value)

/-- Only the low eight bits of the character count. -/
def character (value : Char) : Expr :=
  .typed .character (.character (UInt8.ofNat value.toNat))

def int (value : Int32) : Expr :=
  .typed .integer (.integer value)

def float (value : Binary64) : Expr :=
  .typed .floating (.floating value)

def string (value : String) : Expr :=
  .typed .string (.string value)

def identifier (binding : Binding) : Expr :=
  .typed binding.type (.identifier binding)

/-! Operators. -/

def instruction (instruction : Instruction) (type : Ty) (operands : List Expr) : Expr :=
  .typed type (.operation (.instruction instruction) operands)

def snippet (snippet : Snippet) (type : Ty) (operands : List Expr) : Expr :=
  .typed type (.operation (.snippet snippet) operands)

def full (composer : Composer) (type : Ty) (operands : List Expr) : Expr :=
  .typed type (.operation (.full composer) operands)

/-- The quotient of two integers as a rational, reduced when it runs. -/
def rational (numerator denominator : Int32) : Expr :=
  snippet .formRational .rational [int numerator, int denominator]

/-- An operation on two numbers of one type, which the left one decides. -/
def arithmetic (integer floating : Instruction) (rational : Snippet) (left right : Expr) :
    Except Defect Expr :=
  match left.type with
  | .integer => .ok (instruction integer .integer [left, right])
  | .floating => .ok (instruction floating .floating [left, right])
  | .rational => .ok (snippet rational .rational [left, right])
  | other => .error (.noArithmetic other)

def add : Expr → Expr → Except Defect Expr :=
  arithmetic .add .fAdd .rationalAdd

def subtract : Expr → Expr → Except Defect Expr :=
  arithmetic .subtract .fSubtract .rationalSubtract

def multiply : Expr → Expr → Except Defect Expr :=
  arithmetic .multiply .fMultiply .rationalMultiply

def divide (left right : Expr) : Except Defect Expr :=
  match left.type with
  | .integer => .ok (snippet .integerDivide .integer [left, right])
  | .floating => .ok (snippet .floatingDivide .floating [left, right])
  | .rational => .ok (snippet .rationalDivide .rational [left, right])
  | other => .error (.cannotDivide other)

def compare (relation : Relation) (left right : Expr) : Expr :=
  .typed .boolean (.comparison relation left right)

def and (left right : Expr) : Expr :=
  full .shortCircuitAnd .boolean [left, right]

def or (left right : Expr) : Expr :=
  full .shortCircuitOr .boolean [left, right]

/-! Arrays and strings. -/

def array (element : Ty) (elements : List Expr) : Expr :=
  .typed (.array element) (.populatedArray elements)

/-- An array of zero values. -/
def allocate (element : Ty) (length : Expr) : Expr :=
  snippet .arrayAllocate (.array element) [length]

def index (sequence position : Expr) : Except Defect Expr :=
  match sequence.type with
  | .string => .ok (full .stringIndex .character [sequence, position])
  | type => do return full .arrayIndex (← type.element) [sequence, position]

def length (sequence : Expr) : Expr :=
  match sequence.type with
  | .string => snippet .stringLength .integer [sequence]
  | _ => snippet .arrayLength .integer [sequence]

def substring (text start stop : Expr) : Expr :=
  snippet .substring .string [text, start, stop]

/-! Functions. -/

/-- The bindings of a parameter list. -/
def parameterBindings (parameters : List (String × Ty)) : List Binding :=
  (parameters.zip (Parameters.locations (parameters.map Prod.snd))).map
    fun ((name, type), location) => Binding.ofMutable name type location

/-- A function whose body may refer to the bindings of its parameters. -/
def lambda (parameters : List (String × Ty)) (result : Ty) (localSize : Int32)
    (body : List Statement) : Expr :=
  let types := parameters.map Prod.snd
  .typed (.lambda types result)
    (.lambda (parameterBindings parameters) body (Parameters.size types) localSize)

def invoke (callee : Expr) (arguments : List Expr) : Except Defect Expr := do
  return .typed (← callee.type.result) (.invocation callee arguments)

def map (array function : Expr) : Except Defect Expr := do
  return .typed (.array (← function.type.result)) (.map array function)

def reduce (array function : Expr) : Expr :=
  .typed array.type (.reduce array function)

def fold (array : Expr) (base : Option Expr) (function : Expr) : Except Defect Expr := do
  return .typed (← function.type.result) (.fold array base function)

def zip (first second function : Expr) : Except Defect Expr := do
  return .typed (.array (← function.type.result)) (.zip first second function)

end Expr

end StackBackend
