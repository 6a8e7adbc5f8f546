import StackBackend.Label
import StackBackend.Record

namespace StackBackend

/-! Print statements, by type. -/

namespace Printing

open Code

/-- `[] -> []`, printing a fixed text; `[value] -> []` when the text is a format
with one conversion. -/
def printText (label : String) : Code :=
  [.pushD label, .printf]

/-- `[boolean] -> []` -/
def boolean (labels : LabelGroup) : Code :=
  [.jumpFalse (labels.label "false"), .pushD Cell.trueText, .jump (labels.label "join"),
    .label (labels.label "false"), .pushD Cell.falseText, .label (labels.label "join")] ++
    printText Cell.stringFormat

/-- `[string] -> []` -/
def string : Code :=
  Record.nullCheck ++ addOffset Record.stringHeaderSize ++ printText Cell.stringFormat

/-! A rational prints as a mixed number: `0`, or an optional minus sign, the
integral part unless it is zero, an underscore between two parts, and the
fraction. -/

/-- `[] -> [integral part]` -/
def integralPart : Code :=
  loadWord Cell.printNumerator ++ loadWord Cell.printDenominator ++ [.divide]

/-- `[] -> [numerator of the fractional part]` -/
def fractionalPart : Code :=
  loadWord Cell.printNumerator ++ loadWord Cell.printDenominator ++ [.remainder]

/-- `[numerator denominator] -> []` -/
def rational (labels : LabelGroup) : Code :=
  Code.join [storeWord Cell.printDenominator, storeWord Cell.printNumerator,
    loadWord Cell.printNumerator, [.jumpTrue (labels.label "nonzero"), .pushI 0],
    printText Cell.integerFormat, [.jump (labels.label "end")],
    [.label (labels.label "nonzero")], loadWord Cell.printNumerator,
    [.jumpPos (labels.label "positive")], printText Cell.minusText,
    loadWord Cell.printNumerator, [.negate], storeWord Cell.printNumerator,
    [.label (labels.label "positive")], integralPart,
    [.jumpFalse (labels.label "fraction")], integralPart, printText Cell.integerFormat,
    fractionalPart, [.jumpFalse (labels.label "end")], printText Cell.underscoreText,
    [.label (labels.label "fraction")], fractionalPart, printText Cell.integerFormat,
    printText Cell.slashText, loadWord Cell.printDenominator, printText Cell.integerFormat,
    [.label (labels.label "end")]]

/-! An array prints its elements in brackets. The cursor and the number of
elements left stay on the operand stack, so nested arrays share no state. -/

/-- `[array] -> []`, from the code that loads an element and the code that
prints one. -/
def array (labels : LabelGroup) (elementSize : Int32) (load print : Code) : Code :=
  Code.join [Record.nullCheck, [.duplicate], readWord Record.arrayLengthOffset, [.exchange],
    addOffset Record.arrayHeaderSize, [.exchange], printText Cell.openBracketText,
    -- [cursor remaining]
    [.duplicate, .jumpFalse (labels.label "done"), .label (labels.label "body"), .exchange,
      .duplicate],
    load, print, addOffset elementSize,
    [.exchange, .pushI 1, .subtract, .duplicate, .jumpFalse (labels.label "done")],
    printText Cell.separatorText, [.jump (labels.label "body")],
    [.label (labels.label "done"), .pop, .pop], printText Cell.closeBracketText]

/-- `[value] -> []`, printing a value of the type. -/
def value : Ty → Generation Code
  | .integer => return printText Cell.integerFormat
  | .character => return printText Cell.characterFormat
  | .floating => return printText Cell.floatingFormat
  | .boolean => return boolean (← freshLabels "print-boolean")
  | .string => return string
  | .lambda .. => return .pop :: printText Cell.lambdaText
  | .rational => return rational (← freshLabels "print-rational")
  | .array element => do
      let labels ← freshLabels "print-array"
      let load ← element.load
      let print ← value element
      return array labels element.size load print
  | .void => throw .voidPrint

end Printing

end StackBackend
