import StackBackend.Ty

namespace StackBackend

/-! Code generation trusts its tree. A tree that breaks a rule the type checker
should have enforced stops generation with a defect, which says which rule was
broken. The word arithmetic of the generator and of the storage allocators is
checked, and leaving the 32-bit range is a defect as well. -/

inductive Defect where
  | noElementType (type : Ty)
  | notCallable (type : Ty)
  | notSequence (type : Ty)
  | voidUsedAs (type : Ty)
  | voidLoad
  | voidStore
  | voidPrint
  | voidComparison
  | cannotRationalize (type : Ty)
  | cannotExpressOver (type : Ty)
  | noArithmetic (type : Ty)
  | cannotDivide (type : Ty)
  | missingOperand
  | operandOutOfRange (count index : Nat)
  | assignmentToValue
  | outsideLoop
  | outsideFunction
  | unmatchedLeave
  | resultCellIsSaved
  | additionOverflow
  | subtractionOverflow

namespace Defect

def message : Defect → String
  | .noElementType type => s!"{type.text} has no element type (type checker bug)"
  | .notCallable type => s!"{type.text} is not callable (type checker bug)"
  | .notSequence type => s!"{type.text} is not a sequence (type checker bug)"
  | .voidUsedAs type => s!"void fragment used as a {type.text} value (type checker bug)"
  | .voidLoad => "load of a void value (type checker bug)"
  | .voidStore => "store of a void value (type checker bug)"
  | .voidPrint => "print of a void value (type checker bug)"
  | .voidComparison => "comparison of void values (type checker bug)"
  | .cannotRationalize type => s!"cannot rationalize {type.text} (type checker bug)"
  | .cannotExpressOver type =>
      s!"cannot express {type.text} over an integer (type checker bug)"
  | .noArithmetic type => s!"no arithmetic on {type.text}"
  | .cannotDivide type => s!"cannot divide {type.text}"
  | .missingOperand => "missing operand (type checker bug)"
  | .operandOutOfRange count index =>
      s!"index out of bounds: the len is {count} but the index is {index}"
  | .assignmentToValue => "assignment to a non-location (type checker bug)"
  | .outsideLoop => "break or continue outside a loop (type checker bug)"
  | .outsideFunction => "return outside a function (type checker bug)"
  | .unmatchedLeave => "leave() without matching enter() (scope bug)"
  | .resultCellIsSaved => "assertion failed: !self.words.iter().any(|word| *word == cell)"
  | .additionOverflow => "attempt to add with overflow"
  | .subtractionOverflow => "attempt to subtract with overflow"

end Defect

/-! Checked arithmetic on 32-bit sizes and offsets. -/

namespace Checked

/-- The 32-bit word with the given value, if there is one. -/
def word? (value : Int) : Option Int32 :=
  if -2147483648 ≤ value ∧ value ≤ 2147483647 then some (Int32.ofInt value) else none

def add (left right : Int32) : Except Defect Int32 :=
  match word? (left.toInt + right.toInt) with
  | some sum => .ok sum
  | none => .error .additionOverflow

def subtract (left right : Int32) : Except Defect Int32 :=
  match word? (left.toInt - right.toInt) with
  | some difference => .ok difference
  | none => .error .subtractionOverflow

end Checked

namespace Ty

/-! Questions that only some types answer. -/

def element : Ty → Except Defect Ty
  | .array element => .ok element
  | other => .error (.noElementType other)

/-- The parameter types and the result type of a function type. -/
def signature : Ty → Except Defect (List Ty × Ty)
  | .lambda parameters result => .ok (parameters, result)
  | other => .error (.notCallable other)

def result (type : Ty) : Except Defect Ty := do
  return (← type.signature).2

end Ty

end StackBackend
