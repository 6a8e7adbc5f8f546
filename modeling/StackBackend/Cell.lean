namespace StackBackend

/-! The fixed labels of every generated program. Those of data cells start with
a dollar sign, those of code entered by jumps with two; labels made up during
generation start with a hyphen. -/

namespace Cell

def locationZero : String := "$eat-location-zero"
def framePointer : String := "$frame-pointer"
def stackPointer : String := "$stack-pointer"
def globalBlock : String := "$global-memory-block"

/-! Formats and fixed texts of print statements. -/

def integerFormat : String := "$print-format-integer"
def floatingFormat : String := "$print-format-floating"
def characterFormat : String := "$print-format-character"
def stringFormat : String := "$print-format-string"
def newlineText : String := "$print-newline"
def spaceText : String := "$print-space"
def tabText : String := "$print-tab"
def trueText : String := "$print-true"
def falseText : String := "$print-false"
def minusText : String := "$print-minus"
def underscoreText : String := "$print-underscore"
def slashText : String := "$print-slash"
def openBracketText : String := "$print-open-bracket"
def closeBracketText : String := "$print-close-bracket"
def separatorText : String := "$print-separator"
def lambdaText : String := "$print-lambda"

/-- The printed texts in the order in which they are laid out. -/
def texts : List (String × String) :=
  [(integerFormat, "%d"), (floatingFormat, "%g"), (characterFormat, "%c"), (stringFormat, "%s"),
    (newlineText, "\n"), (spaceText, " "), (tabText, "\t"), (trueText, "true"),
    (falseText, "false"), (minusText, "-"), (underscoreText, "_"), (slashText, "/"),
    (openBracketText, "["), (closeBracketText, "]"), (separatorText, ", "),
    (lambdaText, "<lambda>")]

/-! Scratch words. Generated code keeps short-lived values in them where the
operand stack would be awkward. -/

def rationalStoreAddress : String := "$rational-store-address"
def rationalStoreDenominator : String := "$rational-store-denominator"
def firstNumerator : String := "$rational-first-numerator"
def firstDenominator : String := "$rational-first-denominator"
def secondNumerator : String := "$rational-second-numerator"
def secondDenominator : String := "$rational-second-denominator"
def rationalOver : String := "$rational-over"

def arrayLength : String := "$array-length-temporary"
def arrayDataSize : String := "$array-datasize-temporary"
def stringLength : String := "$string-length-temporary"
def sequenceSource : String := "$sequence-source"
def sequenceIndex : String := "$sequence-index"
def indexedArray : String := "$a-indexing-array"
def indexedIndex : String := "$a-indexing-index"
def stringFirst : String := "$string-first"
def stringSecond : String := "$string-second"
def stringStart : String := "$string-start"
def stringEnd : String := "$string-end"
def stringCharacter : String := "$string-character"

def forIdentifier : String := "$for-identifier"
def forSequence : String := "$for-sequence"
def forLength : String := "$for-length"
def forIndex : String := "$for-index"

def operatorLambda : String := "$operator-lambda"
def operatorArray : String := "$operator-array"
def operatorOtherArray : String := "$operator-other-array"
def operatorIndex : String := "$operator-index"
def operatorLength : String := "$operator-length"
def operatorResult : String := "$operator-result"
def operatorCount : String := "$operator-count"

/-- Eight bytes that hand a value across a rearrangement of the stack. -/
def operatorTransfer : String := "$operator-transfer"

/-- Eight bytes that carry the result of an operator past the restoring of its
scratch words. -/
def operatorReturn : String := "$operator-return"

def returnAddress : String := "$return-address-temporary"
def returnFrame : String := "$return-frame-temporary"

def printNumerator : String := "$print-numerator"
def printDenominator : String := "$print-denominator"

def discardCursor : String := "$discard-cursor"
def discardRemaining : String := "$discard-remaining"
def discardPointer : String := "$discard-pointer"

/-- The scratch words and their sizes in the order in which they are laid out. -/
def scratch : List (String × Int32) :=
  [(rationalStoreAddress, 4), (rationalStoreDenominator, 4), (firstNumerator, 4),
    (firstDenominator, 4), (secondNumerator, 4), (secondDenominator, 4), (rationalOver, 4),
    (arrayLength, 4), (arrayDataSize, 4), (stringLength, 4), (sequenceSource, 4),
    (sequenceIndex, 4), (indexedArray, 4), (indexedIndex, 4), (stringFirst, 4),
    (stringSecond, 4), (stringStart, 4), (stringEnd, 4), (stringCharacter, 4),
    (forIdentifier, 4), (forSequence, 4), (forLength, 4), (forIndex, 4), (operatorLambda, 4),
    (operatorArray, 4), (operatorOtherArray, 4), (operatorIndex, 4), (operatorLength, 4),
    (operatorResult, 4), (operatorCount, 4), (operatorTransfer, 8), (operatorReturn, 8),
    (returnAddress, 4), (returnFrame, 4), (printNumerator, 4), (printDenominator, 4),
    (discardCursor, 4), (discardRemaining, 4), (discardPointer, 4)]

/-! The heap. -/

def heap : String := "$heap-memory"
def freeList : String := "$mmgr-free-list"
def bumpPointer : String := "$mmgr-bump-pointer"

end Cell

/-! Code reached by a jump or a call from anywhere. -/

namespace Entry

def main : String := "$$main"

/-- `[base count] -> []` -/
def clearBytes : String := "$clear-n-bytes"

/-- `[destination source count] -> []` -/
def copyBytes : String := "$clone-array"

/-- `[numerator denominator] -> [numerator denominator]`, reduced. -/
def lowestTerms : String := "$lowest-terms"

/-- `[record] -> []` -/
def discardRecord : String := "$discard-record"

/-- `[size] -> [pointer]` -/
def allocate : String := "-mem-manager-allocate"

/-- `[pointer] -> []` -/
def deallocate : String := "-mem-manager-deallocate"

end Entry

/-! Fatal conditions that generated code detects. Each has a handler that prints
its message and halts. -/

inductive Fault where
  | integerDivideByZero
  | floatingDivideByZero
  | rationalZeroDenominator
  | nullArray
  | indexOutOfBounds
  | substringIndices
  | negativeArrayLength
  | missingReturn
  | zipLengthMismatch
  | foldEmptyArray
deriving DecidableEq

namespace Fault

def all : List Fault :=
  [.integerDivideByZero, .floatingDivideByZero, .rationalZeroDenominator, .nullArray,
    .indexOutOfBounds, .substringIndices, .negativeArrayLength, .missingReturn,
    .zipLengthMismatch, .foldEmptyArray]

/-- The stem of the labels that belong to the fault. -/
def name : Fault → String
  | .integerDivideByZero => "i-divide-by-zero"
  | .floatingDivideByZero => "f-divide-by-zero"
  | .rationalZeroDenominator => "r-zero-denominator"
  | .nullArray => "null-array"
  | .indexOutOfBounds => "index-out-of-bounds"
  | .substringIndices => "substring-indices"
  | .negativeArrayLength => "negative-array-length"
  | .missingReturn => "missing-return"
  | .zipLengthMismatch => "zip-length-mismatch"
  | .foldEmptyArray => "fold-empty-array"

/-- The handler to jump to. -/
def handler (fault : Fault) : String :=
  "$$" ++ fault.name

/-- Where the message is laid out. -/
def messageCell (fault : Fault) : String :=
  "$errors-" ++ fault.name

def message : Fault → String
  | .integerDivideByZero => "integer divide by zero"
  | .floatingDivideByZero => "floating divide by zero"
  | .rationalZeroDenominator => "rational number given 0 as denominator"
  | .nullArray => "Null array indexed"
  | .indexOutOfBounds => "Index out of bounds"
  | .substringIndices => "Second index smaller or equal to first one in substring"
  | .negativeArrayLength => "Array provided with negative length"
  | .missingReturn => "Reached end of function without return statement"
  | .zipLengthMismatch => "Both arrays given different lengths in zip operator"
  | .foldEmptyArray => "Trying to apply fold operation on empty array"

end Fault

end StackBackend
