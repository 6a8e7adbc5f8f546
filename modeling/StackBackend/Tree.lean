import StackBackend.Location
import StackBackend.Operator.Comparison

namespace StackBackend

/-! Typed program trees, the input of code generation. Names are resolved to
bindings, types are resolved, and every operator application says how its code
is made. -/

/-- Code that follows the operand values of an operator. -/
inductive Snippet where
  | integerDivide
  | floatingDivide
  | rationalAdd
  | rationalSubtract
  | rationalMultiply
  | rationalDivide
  | rationalNegate
  /-- A rational from two integers. -/
  | formRational
  /-- A rational or floating value restated over a denominator. -/
  | rationalize
  /-- The numerator of a value restated over a denominator. -/
  | expressOver
  | integerToRational
  | characterToRational
  | floatingToRational
  | rationalToInteger
  | rationalToFloating
  | integerToCharacter
  | integerToBoolean
  | arrayAllocate
  | arrayClone
  | arrayLength
  | arrayReverse
  | stringLength
  | stringReverse
  | substring
  | stringConcatenate
  | stringCharacterConcatenate
  | characterStringConcatenate
deriving DecidableEq

/-- Operators that decide themselves when, and whether, an operand is
evaluated. -/
inductive Composer where
  | shortCircuitAnd
  | shortCircuitOr
  | arrayIndex
  | stringIndex
deriving DecidableEq

/-- How the code of an operator application is made. -/
inductive Signature where
  | instruction (instruction : Instruction)
  | snippet (snippet : Snippet)
  | full (composer : Composer)
deriving DecidableEq

inductive ForKind where
  /-- The variable takes the positions from zero on. -/
  | index
  /-- The variable takes the elements in turn. -/
  | element
deriving DecidableEq

mutual

/-- An expression is a form and the type of its value. -/
inductive Expr where
  | typed (type : Ty) (form : Form)

inductive Form where
  | boolean (value : Bool)
  | character (value : UInt8)
  | integer (value : Int32)
  | floating (value : Binary64)
  | string (value : String)
  | identifier (binding : Binding)
  | operation (signature : Signature) (operands : List Expr)
  | comparison (relation : Relation) (left right : Expr)
  | populatedArray (elements : List Expr)
  /-- A function whose scopes are laid out already; both sizes are in bytes. -/
  | lambda (parameters : List Binding) (body : List Statement) (parameterSize localSize : Int32)
  | invocation (callee : Expr) (arguments : List Expr)
  | map (array function : Expr)
  | reduce (array function : Expr)
  | fold (array : Expr) (base : Option Expr) (function : Expr)
  | zip (first second function : Expr)

inductive PrintItem where
  | expression (expression : Expr)
  | newline
  | space
  | tab

inductive Statement where
  | declaration (binding : Binding) (value : Expr) (isStatic : Bool)
  | assignment (target value : Expr)
  | print (items : List PrintItem)
  | ifElse (condition : Expr) (thenBlock : List Statement) (elseBlock : Option (List Statement))
  | while (condition : Expr) (body : List Statement)
  | for (kind : ForKind) (loopVariable : Binding) (sequence : Expr) (body : List Statement)
  | break
  | continue
  | return (value : Option Expr)
  /-- Evaluates an expression and drops its value. -/
  | call (invocation : Expr)
  /-- Releases a record and what it holds. -/
  | release (value : Expr)
  | block (statements : List Statement)

end

namespace Expr

def type : Expr → Ty
  | .typed type _ => type

def form : Expr → Form
  | .typed _ form => form

end Expr

structure Program where
  /-- The bytes of the global block. -/
  globalSize : Int32
  body : List Statement

end StackBackend
