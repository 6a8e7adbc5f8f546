import StackBackend.Access

namespace StackBackend

/-! Loops and operators keep their state in scratch words that all code shares.
A construct that uses such words while a call may run brackets its code: it
pushes their values first and pops them back, in reverse order, when it is
done. -/

structure Bracket where
  words : List String
deriving DecidableEq

namespace Bracket

/-- The words that the saved values take on the operand stack. -/
def depth (bracket : Bracket) : Nat :=
  bracket.words.length

/-- `[] -> [w1 .. wn]` -/
def save (bracket : Bracket) : Code :=
  bracket.words.flatMap Code.loadWord

/-- `[w1 .. wn] -> []` -/
def restore (bracket : Bracket) : Code :=
  bracket.words.reverse.flatMap Code.storeWord

/-- `[w1 .. wn value] -> [value]`. The value passes through `cell`. -/
def restoreUnder (bracket : Bracket) (type : Ty) (cell : String) : Code :=
  type.stash cell ++ bracket.restore ++ type.unstash cell

/-- `restoreUnder`, refused when the cell is one of the saved words. -/
def restoreUnderChecked (bracket : Bracket) (type : Ty) (cell : String) : Except Defect Code :=
  if cell ∈ bracket.words then
    .error .resultCellIsSaved
  else
    .ok (bracket.restoreUnder type cell)

end Bracket

end StackBackend
