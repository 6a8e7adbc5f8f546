import StackBackend.Proofs.PureFunctions

namespace StackBackend

/-! Map and zip are the pointwise image: they fill a fresh array with what a function answers to
the elements of an array, or to the pairs of elements of two. -/

namespace HigherOrder

open Callback (Terms Serves Obliges)

/-! ## Map -/

section

variable {image : Image} {limit : Option Nat} {terms : Terms} {ledger : Heap.Ledger}
  {count next later : Nat} {start held ready : Configuration} {code array function : Code}
  {functionType element : Ty} {pointer : Int32} {block : Heap.Block}
  {arrayCalls functionCalls : List Excursion}

variable (installed : Installed image)
  (generated : map array (.array element) function functionType next = .ok (code, later))
  (holds : image.Holds code start.pc) (inside : image.dataSize ≤ start.memory.size)
  (evaluates : Evaluates image limit arrayCalls array [.integer pointer]
    (mapBracket.entered image start) held)
include installed generated holds inside evaluates

end

/-! ## Zip -/

section

variable {image : Image} {limit : Option Nat} {terms : Terms} {ledger : Heap.Ledger}
  {memory : Memory} {count otherCount next later : Nat} {start held kept ready : Configuration}
  {stack : List Word} {code first second function : Code}
  {functionType element otherElement : Ty} {pointer otherPointer : Int32}
  {block other : Heap.Block} {firstCalls secondCalls functionCalls : List Excursion}

variable (installed : Installed image)
  (generated : zip first (.array element) second (.array otherElement) function functionType next =
    .ok (code, later))
  (holds : image.Holds code start.pc) (inside : image.dataSize ≤ start.memory.size)
  (evaluates : Evaluates image limit firstCalls first [.integer pointer]
    (zipBracket.entered image start) held)
include installed generated holds inside evaluates

variable (present : pointer ≠ 0)
  (continues : Evaluates image limit secondCalls second [.integer otherPointer]
    (held.parked image Cell.operatorArray pointer) kept)
include present continues

variable (otherPresent : otherPointer ≠ 0)
  (called : Evaluates image limit functionCalls function [.integer terms.function]
    (kept.parked image Cell.operatorOtherArray otherPointer) ready)
include otherPresent called

end

end HigherOrder

namespace Program

open Callback (Terms Obliges)
open HigherOrder

end Program

end StackBackend
