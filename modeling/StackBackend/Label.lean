import StackBackend.Defect

namespace StackBackend

/-! Labels made up during generation. Every construct draws a serial number of
its own, which all its labels carry, so labels of different constructs never
meet. -/

structure LabelGroup where
  stem : String
  serial : Nat
deriving DecidableEq

namespace LabelGroup

def label (group : LabelGroup) (suffix : String) : String :=
  "-" ++ group.stem ++ "-" ++ toString group.serial ++ "-" ++ suffix

end LabelGroup

/-! Generation threads the last serial number drawn, and may stop with a
defect. -/

abbrev Generation := StateT Nat (Except Defect)

/-- The labels of a new construct. -/
def freshLabels (stem : String) : Generation LabelGroup := fun last =>
  .ok (⟨stem, last + 1⟩, last + 1)

end StackBackend
