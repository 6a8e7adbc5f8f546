import StackBackend.Access

namespace StackBackend

/-! Checked division, rational arithmetic and numeric conversions. Rational
operands are `[n1 d1 n2 d2]` in lowest terms, and every rational result is
reduced again. -/

namespace Arithmetic

open Code

/-- The denominator of a rational made from a floating number: the product of
the first nine primes. -/
def floatingDenominator : Int32 := 223092870

def integerDivide : Code :=
  [.duplicate, .jumpFalse Fault.integerDivideByZero.handler, .divide]

def floatingDivide : Code :=
  [.duplicate, .jumpFZero Fault.floatingDivideByZero.handler, .fDivide]

/-- `[n d] -> [n' d']` -/
def lowestTerms : Code :=
  [.call Entry.lowestTerms]

/-- `[n1 d1 n2 d2] -> []` -/
def stashOperands : Code :=
  Code.join [storeWord Cell.secondDenominator, storeWord Cell.secondNumerator,
    storeWord Cell.firstDenominator, storeWord Cell.firstNumerator]

/-- `[] -> [left * right]` for the words at two labels. -/
def product (left right : String) : Code :=
  loadWord left ++ loadWord right ++ [.multiply]

/-- The sum or difference of two fractions over the product of their
denominators. -/
def crossSum (operation : Instruction) : Code :=
  Code.join [stashOperands, product Cell.firstNumerator Cell.secondDenominator,
    product Cell.secondNumerator Cell.firstDenominator, [operation],
    product Cell.firstDenominator Cell.secondDenominator, lowestTerms]

def rationalAdd : Code := crossSum .add

def rationalSubtract : Code := crossSum .subtract

def rationalMultiply : Code :=
  Code.join [stashOperands, product Cell.firstNumerator Cell.secondNumerator,
    product Cell.firstDenominator Cell.secondDenominator, lowestTerms]

/-- A zero divisor is found when the result is reduced. -/
def rationalDivide : Code :=
  Code.join [stashOperands, product Cell.firstNumerator Cell.secondDenominator,
    product Cell.firstDenominator Cell.secondNumerator, lowestTerms]

def rationalNegate : Code :=
  [.exchange, .negate, .exchange]

/-- `[n d] -> [n * over / d]` for the word at the over cell. -/
def restateRational : Code :=
  Code.join [storeWord Cell.firstDenominator, loadWord Cell.rationalOver, [.multiply],
    loadWord Cell.firstDenominator, [.divide]]

/-- `[x over] -> [rational]`: the value rounded towards zero to a multiple of
`1 / over`. -/
def rationalize (operand : Ty) : Except Defect Code := do
  let restated ←
    match operand with
    | .rational => pure restateRational
    | .floating => pure (loadWord Cell.rationalOver ++ [.convertF, .fMultiply, .convertI])
    | other => throw (.cannotRationalize other)
  return Code.join [[.duplicate, .jumpFalse Fault.rationalZeroDenominator.handler],
    storeWord Cell.rationalOver, restated, loadWord Cell.rationalOver, lowestTerms]

/-- `[x over] -> [integer]`: the numerator that the value has over `over`. -/
def expressOver : Ty → Except Defect Code
  | .rational => .ok (storeWord Cell.rationalOver ++ restateRational)
  | .floating => .ok [.convertF, .fMultiply, .convertI]
  | other => .error (.cannotExpressOver other)

def floatingToRational : Except Defect Code := do
  return .pushI floatingDenominator :: (← rationalize .floating)

/-- `[n d] -> [n / d as a floating number]` -/
def rationalToFloating : Code :=
  Code.join [storeWord Cell.firstDenominator, [.convertF], loadWord Cell.firstDenominator,
    [.convertF, .fDivide]]

end Arithmetic

end StackBackend
