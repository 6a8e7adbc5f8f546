import StackBackend.Label
import StackBackend.Record

namespace StackBackend

/-! String builders. Every result is a fresh string record. -/

namespace Text

open Code Record

/-- `[] -> [length of the string at the label]` -/
def lengthOf (label : String) : Code :=
  loadWord label ++ readWord stringLengthOffset

/-- `[] -> [address of the first character of the string at the label]` -/
def charactersOf (label : String) : Code :=
  loadWord label ++ addOffset stringHeaderSize

/-- `[] -> [end - start]` -/
def span : Code :=
  loadWord Cell.stringEnd ++ loadWord Cell.stringStart ++ [.subtract]

/-- `[result destination] -> [result]`, copying the characters of the string at
the label. -/
def copyFrom (label : String) : Code :=
  charactersOf label ++ lengthOf label ++ [.call Entry.copyBytes]

/-- `[result] -> [result]`, copying the characters of the string at the label
into the result, `skip` characters in. -/
def copyCharacters (label : String) (skip : Int32) : Code :=
  [.duplicate] ++ addOffset (stringHeaderSize + skip) ++ copyFrom label

/-- `[string start end] -> [string]`: the characters from `start` up to `end`. -/
def substring : Generation Code := do
  let labels ← freshLabels "substring"
  let outOfBounds := Fault.indexOutOfBounds.handler
  return Code.join [storeWord Cell.stringEnd, storeWord Cell.stringStart, nullCheck,
    storeWord Cell.stringFirst,
    loadWord Cell.stringStart, [.jumpNeg outOfBounds],
    loadWord Cell.stringStart, lengthOf Cell.stringFirst,
    [.subtract, .jumpNeg (labels.label "start-ok"), .jump outOfBounds,
      .label (labels.label "start-ok")],
    lengthOf Cell.stringFirst, loadWord Cell.stringEnd, [.subtract, .jumpNeg outOfBounds],
    span,
    [.jumpPos (labels.label "indices-ok"), .jump Fault.substringIndices.handler,
      .label (labels.label "indices-ok")],
    span, allocateString dynamicStringStatus,
    [.duplicate], addOffset stringHeaderSize, charactersOf Cell.stringFirst,
    loadWord Cell.stringStart, [.add], span, [.call Entry.copyBytes]]

/-- `[first second] -> [first ++ second]` -/
def concatenate : Code :=
  Code.join [nullCheck, storeWord Cell.stringSecond, nullCheck, storeWord Cell.stringFirst,
    lengthOf Cell.stringFirst, lengthOf Cell.stringSecond, [.add],
    allocateString dynamicStringStatus, copyCharacters Cell.stringFirst 0,
    [.duplicate], addOffset stringHeaderSize, lengthOf Cell.stringFirst, [.add],
    copyFrom Cell.stringSecond]

/-- `[string character] -> [string ++ character]` -/
def appendCharacter : Code :=
  Code.join [storeWord Cell.stringCharacter, nullCheck, storeWord Cell.stringFirst,
    lengthOf Cell.stringFirst, addOffset 1, allocateString dynamicStringStatus,
    copyCharacters Cell.stringFirst 0,
    [.duplicate], addOffset stringHeaderSize, lengthOf Cell.stringFirst, [.add],
    loadWord Cell.stringCharacter, [.storeC]]

/-- `[character string] -> [character ++ string]` -/
def prependCharacter : Code :=
  Code.join [nullCheck, storeWord Cell.stringFirst, storeWord Cell.stringCharacter,
    lengthOf Cell.stringFirst, addOffset 1, allocateString dynamicStringStatus,
    [.duplicate], addOffset stringHeaderSize, loadWord Cell.stringCharacter, [.storeC],
    copyCharacters Cell.stringFirst 1]

end Text

end StackBackend
