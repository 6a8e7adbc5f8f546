import StackBackend.Access
import StackBackend.Label

namespace StackBackend

/-! Relational operators. A comparison subtracts its operands and branches on
the sign of the difference. Rationals are cross-multiplied first; their
denominators are positive, so the sign is that of the difference. -/

inductive Relation where
  | greater
  | greaterEqual
  | less
  | lessEqual
  | equal
  | notEqual
deriving DecidableEq

namespace Comparison

open Code

/-- `[n1 d1 n2 d2] -> [n1 * d2 - n2 * d1]` -/
def rationalDifference : Code :=
  Code.join [storeWord Cell.secondDenominator, storeWord Cell.secondNumerator,
    storeWord Cell.firstDenominator, loadWord Cell.secondDenominator, [.multiply],
    loadWord Cell.secondNumerator, loadWord Cell.firstDenominator, [.multiply, .subtract]]

/-- `[left right] -> [difference]` -/
def difference : Ty → Except Defect Code
  | .floating => .ok [.fSubtract]
  | .rational => .ok rationalDifference
  | .void => .error .voidComparison
  | _ => .ok [.subtract]

def isFloating : Ty → Bool
  | .floating => true
  | _ => false

def jumpIfPositive (floating : Bool) (target : String) : Instruction :=
  if floating then .jumpFPos target else .jumpPos target

def jumpIfNegative (floating : Bool) (target : String) : Instruction :=
  if floating then .jumpFNeg target else .jumpNeg target

def jumpIfZero (floating : Bool) (target : String) : Instruction :=
  if floating then .jumpFZero target else .jumpFalse target

/-- `[difference] -> []`, going to one of the two targets. -/
def branch (relation : Relation) (floating : Bool) (onTrue onFalse : String) : Code :=
  match relation with
  | .greater => [jumpIfPositive floating onTrue, .jump onFalse]
  | .greaterEqual => [jumpIfNegative floating onFalse, .jump onTrue]
  | .less => [jumpIfNegative floating onTrue, .jump onFalse]
  | .lessEqual => [jumpIfPositive floating onFalse, .jump onTrue]
  | .equal => [jumpIfZero floating onTrue, .jump onFalse]
  | .notEqual => [jumpIfZero floating onFalse, .jump onTrue]

/-- `[] -> [truth value]` for two operand values of the type. -/
def code (relation : Relation) (type : Ty) (left right : Code) : Generation Code := do
  let labels ← freshLabels "compare"
  let difference ← difference type
  return Code.join [[.label (labels.label "arg1")], left, [.label (labels.label "arg2")], right,
    [.label (labels.label "sub")], difference,
    branch relation (isFloating type) (labels.label "true") (labels.label "false"),
    [.label (labels.label "true"), .pushI 1, .jump (labels.label "join"),
      .label (labels.label "false"), .pushI 0, .label (labels.label "join")]]

end Comparison

end StackBackend
