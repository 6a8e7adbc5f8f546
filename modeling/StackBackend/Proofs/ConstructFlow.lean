import StackBackend.Proofs.OperatorFlow

namespace StackBackend

/-! How calls, literals, printing and the operators that call functions change the
shape of the operand stack. -/

open Code Generation Labels

section

variable {labels : Labels} {slots : List Slot} {promised : List WordKind} {rest : Code}
  {next : Shape → Prop}

/-! ## Brackets -/

namespace Bracket

/-- The words that a bracket has saved, topmost first. -/
def contents (bracket : Bracket) : List Slot :=
  bracket.words.reverse.map .content

/-- The bracket saves shared words only. -/
def OfShared (bracket : Bracket) : Prop :=
  ∀ word ∈ bracket.words, word ∈ Cell.shared

theorem flow_save {bracket : Bracket} (ofShared : bracket.OfShared) :
    flow labels (bracket.save ++ rest) ⟨slots, promised⟩ next ↔
      flow labels rest ⟨bracket.contents ++ slots, promised⟩ next := by
  obtain ⟨words⟩ := bracket
  unfold save contents OfShared at *
  induction words generalizing slots with
  | nil => simp
  | cons word words induction =>
      have member : word ∈ Cell.shared := ofShared word (by simp)
      simp [member, induction fun word member => ofShared word (by simp [member]),
        -List.mem_cons]

theorem flow_restore {bracket : Bracket} (ofShared : bracket.OfShared) :
    flow labels (bracket.restore ++ rest) ⟨bracket.contents ++ slots, promised⟩ next ↔
      flow labels rest ⟨slots, promised⟩ next := by
  have reversed : ∀ word ∈ bracket.words.reverse, word ∈ Cell.shared := by
    simpa [OfShared, -List.mem_cons] using ofShared
  unfold restore contents
  generalize bracket.words.reverse = words at reversed ⊢
  induction words with
  | nil => simp
  | cons word words induction =>
      have member : word ∈ Cell.shared := reversed word (by simp)
      simpa [member, -List.mem_cons] using
        induction fun word member => reversed word (by simp [member])

theorem content_mem {bracket : Bracket} {word : String} (member : word ∈ bracket.words)
    (slots : List Slot) : .content word ∈ bracket.contents ++ slots := by
  simp [contents, member]

end Bracket

/-! ## Calls -/

namespace Frame

theorem flow_passCodes {arguments : List (Code × Ty)}
    (values : ∀ argument ∈ arguments, argument.2.isVoid = false)
    (flows : ∀ argument ∈ arguments, Flows labels ⟨.integer :: slots, promised⟩ argument.1
      ⟨argument.2.slots ++ .integer :: slots, promised⟩)
    (goesOn : flow labels rest ⟨slots, promised⟩ next) :
    flow labels (passCodes arguments ++ rest) ⟨slots, promised⟩ next := by
  induction arguments with
  | nil => exact goesOn
  | cons argument others induction =>
      simp only [passCodes_cons, passCode, List.append_assoc, flow_reserve]
      refine (flows argument (by simp)).flow ?_
      rw [flow_storeCode (values argument (by simp)) (by simp)]
      exact ⟨by simp, induction (fun other member => values other (by simp [member]))
        fun other member => flows other (by simp [member])⟩

/-- Arguments may rely on an address beneath them. -/
theorem flow_invoke {callee code : Code} {arguments : List (Code × Ty)} {result : Ty}
    (generated : invoke callee arguments result = .ok code)
    (flows : ∀ argument ∈ arguments, Flows labels ⟨.integer :: slots, promised⟩ argument.1
      ⟨argument.2.slots ++ .integer :: slots, promised⟩)
    (calleeFlows : ∀ rest next, flow labels rest ⟨slots, promised⟩ next →
      flow labels (callee ++ ([.callV] ++ rest)) ⟨slots, promised⟩ next)
    (goesOn : flow labels rest ⟨result.slots ++ slots, promised⟩ next) :
    flow labels (code ++ rest) ⟨slots, promised⟩ next := by
  obtain ⟨values, rfl⟩ := invoke_eq_ok.mp generated
  simp only [join_cons, join_nil, List.append_assoc, List.nil_append]
  refine flow_passCodes values flows (calleeFlows _ _ ?_)
  rwa [flow_result]

end Frame

/-! ## Higher-order operators -/

namespace HigherOrder

open Record

variable {group : LabelGroup} {element : Ty} {code : Code}

theorem flow_operand {array : Code} {cell : String} (member : cell ∈ Cell.shared)
    (held : .content cell ∈ slots)
    (arrayFlows : Flows labels ⟨slots, promised⟩ array ⟨.integer :: slots, promised⟩)
    (goesOn : flow labels rest ⟨slots, promised⟩ next) :
    flow labels (operand array cell ++ rest) ⟨slots, promised⟩ next := by
  simp only [operand, List.append_assoc]
  refine arrayFlows.flow ?_
  simpa [member, held, -List.mem_cons] using goesOn

theorem flow_operandLength {cell : String} (member : cell ∈ Cell.shared)
    (held : .content cell ∈ slots) (lengthHeld : .content Cell.operatorLength ∈ slots) :
    flow labels (operandLength cell ++ rest) ⟨slots, promised⟩ next ↔
      flow labels rest ⟨slots, promised⟩ next := by
  simp [operandLength, flow_loadWord_shared member, held, lengthHeld]

theorem flow_callee (held : .content Cell.operatorLambda ∈ slots)
    (goesOn : flow labels rest ⟨slots, promised⟩ next) :
    flow labels (callee ++ ([.callV] ++ rest)) ⟨slots, promised⟩ next := by
  simpa [callee, held] using goesOn

theorem flows_currentElement {cell : String} (member : cell ∈ Cell.shared)
    (held : .content cell ∈ slots) (indexHeld : .content Cell.operatorIndex ∈ slots)
    (generated : currentElement cell element = .ok code) :
    Flows labels ⟨slots, promised⟩ code ⟨element.slots ++ slots, promised⟩ := by
  obtain ⟨isValue, rfl⟩ := currentElement_eq_ok.mp generated
  refine flows_of_flow fun rest next goesOn => ?_
  simpa [flow_loadWord_shared member, held, indexHeld, flow_loadCode isValue] using goesOn

theorem flows_firstElement {cell : String} (member : cell ∈ Cell.shared)
    (held : .content cell ∈ slots) (generated : firstElement cell element = .ok code) :
    Flows labels ⟨slots, promised⟩ code ⟨element.slots ++ slots, promised⟩ := by
  obtain ⟨isValue, rfl⟩ := firstElement_eq_ok.mp generated
  refine flows_of_flow fun rest next goesOn => ?_
  simpa [flow_loadWord_shared member, held, flow_addOffset_of_ne, arrayHeaderSize,
    flow_loadCode isValue] using goesOn

theorem flow_resultSlot {size : Int32} (resultHeld : .content Cell.operatorResult ∈ slots)
    (indexHeld : .content Cell.operatorIndex ∈ slots) :
    flow labels (resultSlot size ++ rest) ⟨slots, promised⟩ next ↔
      flow labels rest ⟨.integer :: slots, promised⟩ next := by
  simp [resultSlot, resultHeld, indexHeld]

theorem flow_loopTest {done : String} (lengthHeld : .content Cell.operatorLength ∈ slots)
    (indexHeld : .content Cell.operatorIndex ∈ slots) :
    flow labels (loopTest done ++ rest) ⟨slots, promised⟩ next ↔
      Shape.Enters labels done ⟨slots, promised⟩ ∧
        flow labels rest ⟨slots, promised⟩ next := by
  simp [loopTest, lengthHeld, indexHeld]

/-- The body of the loop keeps the shape, which both labels have. -/
theorem flow_loop (first : Int32) {body : Code}
    (lengthHeld : .content Cell.operatorLength ∈ slots)
    (indexHeld : .content Cell.operatorIndex ∈ slots)
    (loopKnown : labels (group.label "loop") = some ⟨slots, promised⟩)
    (doneKnown : labels (group.label "done") = some ⟨slots, promised⟩)
    (bodyFlows : Flows labels ⟨slots, promised⟩ body ⟨slots, promised⟩)
    (goesOn : flow labels rest ⟨slots, promised⟩ next) :
    flow labels (loop group first body ++ rest) ⟨slots, promised⟩ next := by
  have around : flow labels (body ++ (increment Cell.operatorIndex ++
      ([.jump (group.label "loop"), .label (group.label "done")] ++ rest)))
      ⟨slots, promised⟩ next :=
    bodyFlows.flow (by simpa [loopKnown, doneKnown, indexHeld] using goesOn)
  simpa [loop, indexHeld, loopKnown, flow_loopTest lengthHeld indexHeld, doneKnown] using around

theorem flow_allocateResult (lengthHeld : .content Cell.operatorLength ∈ slots)
    (resultHeld : .content Cell.operatorResult ∈ slots) :
    flow labels (allocateResult element ++ rest) ⟨slots, promised⟩ next ↔
      flow labels rest ⟨slots, promised⟩ next := by
  simp [allocateResult, lengthHeld, resultHeld]

theorem flow_function {function : Code} (held : .content Cell.operatorLambda ∈ slots)
    (functionFlows : Flows labels ⟨slots, promised⟩ function ⟨.integer :: slots, promised⟩)
    (goesOn : flow labels rest ⟨slots, promised⟩ next) :
    flow labels (function ++ (storeWord Cell.operatorLambda ++ rest)) ⟨slots, promised⟩ next := by
  refine functionFlows.flow ?_
  simpa [held] using goesOn

/-- Calling the function for one element and storing what it returns. -/
theorem flows_produce {arguments : List (Code × Ty)} {result : Ty} {call : Code}
    (lambdaHeld : .content Cell.operatorLambda ∈ slots)
    (resultHeld : .content Cell.operatorResult ∈ slots)
    (indexHeld : .content Cell.operatorIndex ∈ slots)
    (called : Frame.invoke callee arguments result = .ok call) (isValue : result.isVoid = false)
    (flows : ∀ argument ∈ arguments,
      Flows labels ⟨.integer :: .integer :: slots, promised⟩ argument.1
        ⟨argument.2.slots ++ .integer :: .integer :: slots, promised⟩) :
    Flows labels ⟨slots, promised⟩ (resultSlot result.size ++ call ++ result.storeCode)
      ⟨slots, promised⟩ := by
  refine flows_of_flow fun rest next goesOn => ?_
  simp only [List.append_assoc]
  rw [flow_resultSlot resultHeld indexHeld]
  refine Frame.flow_invoke called flows (fun _ _ => flow_callee (by simp [lambdaHeld])) ?_
  rw [flow_storeCode isValue (by simp)]
  exact ⟨by simp, goesOn⟩

/-- The verdict of the predicate is kept in the mask and counted. -/
theorem flows_judge {current call : Code} (arrayHeld : .content Cell.operatorArray ∈ slots)
    (lambdaHeld : .content Cell.operatorLambda ∈ slots)
    (lengthHeld : .content Cell.operatorLength ∈ slots)
    (indexHeld : .content Cell.operatorIndex ∈ slots)
    (resultHeld : .content Cell.operatorResult ∈ slots)
    (countHeld : .content Cell.operatorCount ∈ slots)
    (loopKnown : labels (group.label "loop") = some ⟨slots, promised⟩)
    (doneKnown : labels (group.label "done") = some ⟨slots, promised⟩)
    (skipKnown : labels (group.label "skip") = some ⟨.integer :: .integer :: slots, promised⟩)
    (found : currentElement Cell.operatorArray element = .ok current)
    (called : Frame.invoke callee [(current, element)] .boolean = .ok call) :
    Flows labels ⟨slots, promised⟩ (judge group call) ⟨slots, promised⟩ := by
  have body : Flows labels ⟨slots, promised⟩
      (Code.join [resultSlot 1, call, [.duplicate, .jumpFalse (group.label "skip")],
        increment Cell.operatorCount, [.label (group.label "skip"), .storeC]])
      ⟨slots, promised⟩ := by
    refine flows_of_flow fun rest next goesOn => ?_
    simp only [join_cons, join_nil, List.append_assoc, List.nil_append]
    rw [flow_resultSlot resultHeld indexHeld]
    refine Frame.flow_invoke called ?_ (fun _ _ => flow_callee (by simp [lambdaHeld])) ?_
    · simpa using flows_currentElement (by simp) (by simp [arrayHeld]) (by simp [indexHeld]) found
    · simpa [Ty.slots, skipKnown, countHeld] using goesOn
  refine flows_of_flow fun rest next goesOn => ?_
  have looped := flow_loop 0 lengthHeld indexHeld loopKnown doneKnown body goesOn
  simpa [judge, lengthHeld, resultHeld, countHeld] using looped

/-- The array of the kept elements stays on the stack. -/
theorem flows_copyKept {size : Int32} (arrayHeld : .content Cell.operatorArray ∈ slots)
    (lengthHeld : .content Cell.operatorLength ∈ slots)
    (indexHeld : .content Cell.operatorIndex ∈ slots)
    (resultHeld : .content Cell.operatorResult ∈ slots)
    (countHeld : .content Cell.operatorCount ∈ slots)
    (copyKnown : labels (group.label "copy") = some ⟨.integer :: slots, promised⟩)
    (doneKnown : labels (group.label "copy-done") = some ⟨.integer :: slots, promised⟩)
    (nextKnown : labels (group.label "copy-next") = some ⟨.integer :: slots, promised⟩) :
    Flows labels ⟨.integer :: slots, promised⟩ (copyKept group size)
      ⟨.integer :: slots, promised⟩ := by
  refine flows_of_flow fun rest next goesOn => ?_
  simpa [copyKept, flow_loopTest, flow_resultSlot, arrayHeld, lengthHeld, indexHeld, resultHeld,
    countHeld, copyKnown, doneKnown, nextKnown] using goesOn

/-- What the code of an operator leaves has to be fit to be parked. -/
theorem flows_bracketed (left : List Slot) {bracket : Bracket} {result : Ty}
    (ofShared : bracket.OfShared)
    (flows : Flows labels ⟨bracket.contents ++ slots, promised⟩ code
      ⟨left ++ (bracket.contents ++ slots), promised⟩)
    (parks : ∀ rest next, flow labels rest ⟨bracket.contents ++ slots, promised⟩ next →
      flow labels (result.stash Cell.operatorReturn ++ rest)
        ⟨left ++ (bracket.contents ++ slots), promised⟩ next) :
    Flows labels ⟨slots, promised⟩ (bracketed bracket code result)
      ⟨result.slots ++ slots, promised⟩ := by
  refine flows_of_flow fun rest next goesOn => ?_
  simp only [bracketed, Bracket.restoreUnder, List.append_assoc]
  rw [Bracket.flow_save ofShared]
  refine flows.flow (parks _ _ ?_)
  rwa [Bracket.flow_restore ofShared, flow_unstash (by simp)]

/-- The array at the result cell can be parked while that word is saved. -/
theorem flow_park_result {element : Ty} (held : .content Cell.operatorResult ∈ slots)
    (goesOn : flow labels rest ⟨slots, promised⟩ next) :
    flow labels ((Ty.array element).stash Cell.operatorReturn ++ rest)
      ⟨.content Cell.operatorResult :: slots, promised⟩ next := by
  simpa [Ty.stash, Ty.storeCode, held] using goesOn

end HigherOrder

end

namespace HigherOrder

open Record

variable {last next : Nat} {code array function : Code}

theorem provides_map (slots : List Slot) (promised : List WordKind) {arrayType functionType : Ty}
    (generated : map array arrayType function functionType last = .ok (code, next)) :
    Provides last next fun labels =>
      Flows labels ⟨mapBracket.contents ++ slots, promised⟩ array
        ⟨.integer :: (mapBracket.contents ++ slots), promised⟩ →
      Flows labels ⟨mapBracket.contents ++ slots, promised⟩ function
        ⟨.integer :: (mapBracket.contents ++ slots), promised⟩ →
      Flows labels ⟨slots, promised⟩ code ⟨.integer :: slots, promised⟩ := by
  simp only [map, bind_eq_ok, pure_eq_ok, lift_eq_ok, freshLabels_eq_ok, Ty.store_eq_ok]
    at generated
  obtain ⟨element, _, ⟨_, rfl⟩, result, _, ⟨_, rfl⟩, labels, _, ⟨rfl, rfl⟩, current, _,
    ⟨found, rfl⟩, call, _, ⟨called, rfl⟩, store, _, ⟨⟨isValue, rfl⟩, rfl⟩, rfl, rfl⟩ := generated
  refine (provides_group "map" [("loop", ⟨mapBracket.contents ++ slots, promised⟩),
    ("done", ⟨mapBracket.contents ++ slots, promised⟩)] (by decide) (by simp)).mono
    fun labels known arrayFlows functionFlows => ?_
  simp only [List.forall_mem_cons, List.not_mem_nil, false_implies, implies_true,
    and_true] at known
  have held {word : String} (member : word ∈ mapBracket.words) :=
    Bracket.content_mem member slots
  have lambdaHeld := held (show Cell.operatorLambda ∈ _ by simp [mapBracket])
  have arrayHeld := held (show Cell.operatorArray ∈ _ by simp [mapBracket])
  have indexHeld := held (show Cell.operatorIndex ∈ _ by simp [mapBracket])
  have lengthHeld := held (show Cell.operatorLength ∈ _ by simp [mapBracket])
  have resultHeld := held (show Cell.operatorResult ∈ _ by simp [mapBracket])
  refine flows_bracketed [.content Cell.operatorResult] (by simp [Bracket.OfShared, mapBracket])
    (flows_of_flow fun rest next goesOn => ?_) fun _ _ => flow_park_result resultHeld
  simp only [join_cons, join_nil, List.append_assoc, List.nil_append]
  refine flow_operand (by simp) arrayHeld arrayFlows (flow_function lambdaHeld functionFlows ?_)
  rw [flow_operandLength (by simp) arrayHeld lengthHeld,
    flow_allocateResult lengthHeld resultHeld]
  refine flow_loop _ lengthHeld indexHeld known.1 known.2 ?_ (by simpa using goesOn)
  rw [← List.append_assoc]
  refine flows_produce lambdaHeld resultHeld indexHeld called isValue ?_
  simpa using flows_currentElement (by simp) (by simp [arrayHeld]) (by simp [indexHeld]) found

theorem provides_zip (slots : List Slot) (promised : List WordKind) {first second : Code}
    {firstType secondType functionType : Ty}
    (generated : zip first firstType second secondType function functionType last =
      .ok (code, next)) :
    Provides last next fun labels =>
      Flows labels ⟨zipBracket.contents ++ slots, promised⟩ first
        ⟨.integer :: (zipBracket.contents ++ slots), promised⟩ →
      Flows labels ⟨zipBracket.contents ++ slots, promised⟩ second
        ⟨.integer :: (zipBracket.contents ++ slots), promised⟩ →
      Flows labels ⟨zipBracket.contents ++ slots, promised⟩ function
        ⟨.integer :: (zipBracket.contents ++ slots), promised⟩ →
      Flows labels ⟨slots, promised⟩ code ⟨.integer :: slots, promised⟩ := by
  simp only [zip, bind_eq_ok, pure_eq_ok, lift_eq_ok, freshLabels_eq_ok, Ty.store_eq_ok]
    at generated
  obtain ⟨_, _, ⟨_, rfl⟩, _, _, ⟨_, rfl⟩, result, _, ⟨_, rfl⟩, labels, _, ⟨rfl, rfl⟩, current, _,
    ⟨found, rfl⟩, other, _, ⟨otherFound, rfl⟩, call, _, ⟨called, rfl⟩, store, _,
    ⟨⟨isValue, rfl⟩, rfl⟩, rfl, rfl⟩ := generated
  refine (provides_group "zip" [("loop", ⟨zipBracket.contents ++ slots, promised⟩),
    ("done", ⟨zipBracket.contents ++ slots, promised⟩)] (by decide) (by simp)).mono
    fun labels known firstFlows secondFlows functionFlows => ?_
  simp only [List.forall_mem_cons, List.not_mem_nil, false_implies, implies_true,
    and_true] at known
  have held {word : String} (member : word ∈ zipBracket.words) :=
    Bracket.content_mem member slots
  have lambdaHeld := held (show Cell.operatorLambda ∈ _ by simp [zipBracket])
  have arrayHeld := held (show Cell.operatorArray ∈ _ by simp [zipBracket])
  have otherHeld := held (show Cell.operatorOtherArray ∈ _ by simp [zipBracket])
  have indexHeld := held (show Cell.operatorIndex ∈ _ by simp [zipBracket])
  have lengthHeld := held (show Cell.operatorLength ∈ _ by simp [zipBracket])
  have resultHeld := held (show Cell.operatorResult ∈ _ by simp [zipBracket])
  refine flows_bracketed [.content Cell.operatorResult] (by simp [Bracket.OfShared, zipBracket])
    (flows_of_flow fun rest next goesOn => ?_) fun _ _ => flow_park_result resultHeld
  simp only [join_cons, join_nil, List.append_assoc, List.nil_append]
  refine flow_operand (by simp) arrayHeld firstFlows (flow_operand (by simp) otherHeld secondFlows
    (flow_function lambdaHeld functionFlows ?_))
  have sameLength (rest : Code) (next : Shape → Prop) :
      flow labels (loadWord Cell.operatorArray ++ (readWord arrayLengthOffset ++
        (loadWord Cell.operatorOtherArray ++ (readWord arrayLengthOffset ++
          ([.subtract, .jumpTrue Fault.zipLengthMismatch.handler] ++ rest)))))
        ⟨zipBracket.contents ++ slots, promised⟩ next ↔
          flow labels rest ⟨zipBracket.contents ++ slots, promised⟩ next := by
    simp [arrayHeld, otherHeld]
  rw [sameLength, flow_operandLength (by simp) arrayHeld lengthHeld,
    flow_allocateResult lengthHeld resultHeld]
  refine flow_loop _ lengthHeld indexHeld known.1 known.2 ?_ (by simpa using goesOn)
  rw [← List.append_assoc]
  refine flows_produce lambdaHeld resultHeld indexHeld called isValue ?_
  simp only [List.forall_mem_cons, List.not_mem_nil, false_implies, implies_true, and_true]
  exact ⟨flows_currentElement (by simp) (by simp [arrayHeld]) (by simp [indexHeld]) found,
    flows_currentElement (by simp) (by simp [otherHeld]) (by simp [indexHeld]) otherFound⟩

/-- The accumulator waits in the transfer cell while its slot is made. -/
theorem flows_accumulate {cell : String} {element accumulator : Ty} {current call : Code}
    {labels : Labels} {slots : List Slot} (member : cell ∈ Cell.shared)
    (lambdaHeld : .content Cell.operatorLambda ∈ slots) (held : .content cell ∈ slots)
    (indexHeld : .content Cell.operatorIndex ∈ slots)
    (found : currentElement cell element = .ok current)
    (called : Frame.invoke callee
      [(accumulator.unstash Cell.operatorTransfer, accumulator), (current, element)] accumulator =
        .ok call) :
    Flows labels ⟨accumulator.slots ++ slots, promised⟩
      (accumulator.stash Cell.operatorTransfer ++ call) ⟨accumulator.slots ++ slots, promised⟩ := by
  refine flows_of_flow fun rest next goesOn => ?_
  rw [List.append_assoc, flow_stash (by simp)]
  refine Frame.flow_invoke called ?_ (fun _ _ => flow_callee lambdaHeld) goesOn
  simp only [List.forall_mem_cons, List.not_mem_nil, false_implies, implies_true, and_true]
  refine ⟨flows_of_flow fun rest next goesOn => ?_,
    flows_currentElement member (by simp [held]) (by simp [indexHeld]) found⟩
  rwa [flow_unstash (by simp)]

theorem provides_fold (slots : List Slot) (promised : List WordKind) {element accumulator : Ty}
    {parameters : List Ty} {base : Option Code}
    (unbased : base = none → element = accumulator)
    (generated : fold array (.array element) base function (.lambda parameters accumulator) last =
      .ok (code, next)) :
    Provides last next fun labels =>
      Flows labels ⟨foldBracket.contents ++ slots, promised⟩ array
        ⟨.integer :: (foldBracket.contents ++ slots), promised⟩ →
      (∀ start, base = some start →
        Flows labels ⟨foldBracket.contents ++ slots, promised⟩ start
          ⟨accumulator.slots ++ (foldBracket.contents ++ slots), promised⟩) →
      Flows labels ⟨accumulator.slots ++ (foldBracket.contents ++ slots), promised⟩ function
        ⟨.integer :: (accumulator.slots ++ (foldBracket.contents ++ slots)), promised⟩ →
      Flows labels ⟨slots, promised⟩ code ⟨accumulator.slots ++ slots, promised⟩ := by
  obtain ⟨_, _, start, first, current, call, ⟨⟩, ⟨⟩, started, found, called, rfl, rfl⟩ :=
    fold_eq_ok.mp generated
  refine (provides_group "fold" [
    ("loop", ⟨accumulator.slots ++ (foldBracket.contents ++ slots), promised⟩),
    ("done", ⟨accumulator.slots ++ (foldBracket.contents ++ slots), promised⟩)] (by decide)
    (by simp)).mono fun labels known arrayFlows startFlows functionFlows => ?_
  simp only [List.forall_mem_cons, List.not_mem_nil, false_implies, implies_true,
    and_true] at known
  have held {word : String} (member : word ∈ foldBracket.words) :=
    Bracket.content_mem member slots
  have lambdaHeld := held (show Cell.operatorLambda ∈ _ by simp [foldBracket])
  have arrayHeld := held (show Cell.operatorArray ∈ _ by simp [foldBracket])
  have indexHeld := held (show Cell.operatorIndex ∈ _ by simp [foldBracket])
  have lengthHeld := held (show Cell.operatorLength ∈ _ by simp [foldBracket])
  have starts : Flows labels ⟨foldBracket.contents ++ slots, promised⟩ start
      ⟨accumulator.slots ++ (foldBracket.contents ++ slots), promised⟩ := by
    cases base with
    | some base =>
        cases started
        exact startFlows _ rfl
    | none =>
        obtain ⟨code, first, built⟩ := Except.bind_eq_ok.mp started
        cases built
        rw [← unbased rfl]
        exact flows_firstElement (by simp) arrayHeld first
  refine flows_bracketed accumulator.slots (by simp [Bracket.OfShared, foldBracket])
    (flows_of_flow fun rest next goesOn => ?_) fun rest next goesOn => ?_
  · simp only [join_cons, join_nil, List.append_assoc, List.nil_append]
    refine flow_operand (by simp) arrayHeld arrayFlows ?_
    simp only [flow_operandLength (show Cell.operatorArray ∈ Cell.shared by simp) arrayHeld
      lengthHeld, flow_loadWord_shared (show Cell.operatorLength ∈ Cell.shared by simp),
      List.cons_append, List.nil_append, flow_jumpFalse, Slot.fits_content, lengthHeld,
      Shape.enters_handler, true_and]
    refine starts.flow (flow_function (by simp [lambdaHeld]) functionFlows ?_)
    refine flow_loop _ (by simp [lengthHeld]) (by simp [indexHeld]) known.1 known.2 ?_ goesOn
    exact flows_accumulate (by simp) lambdaHeld arrayHeld indexHeld found called
  · rwa [flow_stash (by simp)]

theorem provides_reduce (slots : List Slot) (promised : List WordKind) {arrayType : Ty}
    (generated : reduce array arrayType function last = .ok (code, next)) :
    Provides last next fun labels =>
      Flows labels ⟨reduceBracket.contents ++ slots, promised⟩ array
        ⟨.integer :: (reduceBracket.contents ++ slots), promised⟩ →
      Flows labels ⟨reduceBracket.contents ++ slots, promised⟩ function
        ⟨.integer :: (reduceBracket.contents ++ slots), promised⟩ →
      Flows labels ⟨slots, promised⟩ code ⟨arrayType.slots ++ slots, promised⟩ := by
  simp only [reduce, bind_eq_ok, pure_eq_ok, lift_eq_ok, freshLabels_eq_ok] at generated
  obtain ⟨element, _, ⟨elements, rfl⟩, labels, _, ⟨rfl, rfl⟩, current, _, ⟨found, rfl⟩, call, _,
    ⟨called, rfl⟩, rfl, rfl⟩ := generated
  obtain rfl : arrayType = .array element := by
    cases arrayType <;> cases elements
    rfl
  refine (provides_group "reduce" [
    ("loop", ⟨reduceBracket.contents ++ slots, promised⟩),
    ("done", ⟨reduceBracket.contents ++ slots, promised⟩),
    ("skip", ⟨.integer :: .integer :: (reduceBracket.contents ++ slots), promised⟩),
    ("copy", ⟨.integer :: (reduceBracket.contents ++ slots), promised⟩),
    ("copy-done", ⟨.integer :: (reduceBracket.contents ++ slots), promised⟩),
    ("copy-next", ⟨.integer :: (reduceBracket.contents ++ slots), promised⟩)] (by decide)
    (by simp)).mono fun labels known arrayFlows functionFlows => ?_
  simp only [List.forall_mem_cons, List.not_mem_nil, false_implies, implies_true,
    and_true] at known
  obtain ⟨loopKnown, doneKnown, known⟩ := known
  have held {word : String} (member : word ∈ reduceBracket.words) :=
    Bracket.content_mem member slots
  have lambdaHeld := held (show Cell.operatorLambda ∈ _ by simp [reduceBracket])
  have arrayHeld := held (show Cell.operatorArray ∈ _ by simp [reduceBracket])
  have indexHeld := held (show Cell.operatorIndex ∈ _ by simp [reduceBracket])
  have lengthHeld := held (show Cell.operatorLength ∈ _ by simp [reduceBracket])
  have resultHeld := held (show Cell.operatorResult ∈ _ by simp [reduceBracket])
  have countHeld := held (show Cell.operatorCount ∈ _ by simp [reduceBracket])
  refine flows_bracketed [.integer] (by simp [Bracket.OfShared, reduceBracket])
    (flows_of_flow fun rest next goesOn => ?_) fun rest next goesOn => ?_
  · simp only [join_cons, join_nil, List.append_assoc, List.nil_append]
    refine flow_operand (by simp) arrayHeld arrayFlows (flow_function lambdaHeld functionFlows ?_)
    rw [flow_operandLength (by simp) arrayHeld lengthHeld]
    refine (flows_judge arrayHeld lambdaHeld lengthHeld indexHeld resultHeld countHeld loopKnown
      doneKnown known.1 found called).flow ?_
    simp only [flow_loadWord_shared (show Cell.operatorCount ∈ Cell.shared by simp),
      flow_allocateEmptyArray, Slot.fits_content, countHeld, true_and]
    refine (flows_copyKept arrayHeld lengthHeld indexHeld resultHeld countHeld known.2.1
      known.2.2.1 known.2.2.2).flow ?_
    simpa [resultHeld] using goesOn
  · simpa [Ty.stash, Ty.storeCode] using goesOn

end HigherOrder

/-! ## Literals -/

section

variable {labels : Labels} {slots : List Slot} {promised : List WordKind}

theorem Record.flow_arrayLiteralSlots {element : Ty} {rest : Code} {next : Shape → Prop}
    (values : List Code) (index : Nat) (isValue : values ≠ [] → element.isVoid = false)
    (flows : ∀ value ∈ values, Flows labels ⟨.integer :: .integer :: slots, promised⟩ value
      ⟨element.slots ++ .integer :: .integer :: slots, promised⟩)
    (goesOn : flow labels rest ⟨.integer :: slots, promised⟩ next) :
    flow labels (arrayLiteralSlots element index values ++ rest) ⟨.integer :: slots, promised⟩
      next := by
  induction values generalizing index with
  | nil => exact goesOn
  | cons value others induction =>
      simp only [arrayLiteralSlots, arrayLiteralSlot, List.append_assoc, List.cons_append,
        flow_duplicate, flow_addOffset]
      refine (flows value (by simp)).flow ?_
      rw [flow_storeCode (isValue (by simp)) (by simp)]
      exact ⟨by simp, induction (index + 1) (fun _ => isValue (by simp)) fun other member =>
        flows other (by simp [member])⟩

theorem Record.flows_arrayLiteral {element : Ty} {values : List Code} {code : Code}
    (flows : ∀ value ∈ values, Flows labels ⟨.integer :: .integer :: slots, promised⟩ value
      ⟨element.slots ++ .integer :: .integer :: slots, promised⟩)
    (generated : arrayLiteral element values = .ok code) :
    Flows labels ⟨slots, promised⟩ code ⟨.integer :: slots, promised⟩ := by
  unfold arrayLiteral at generated
  split at generated
  · cases generated
  · rename_i fits
    cases generated
    refine flows_of_flow fun rest next goesOn => ?_
    have isValue : values ≠ [] → element.isVoid = false := fun filled => by
      simpa [filled] using fits
    have filled := flow_arrayLiteralSlots values 0 isValue flows goesOn
    simpa [arrayLiteralHeader] using filled

end

/-! ## Labels on the stack -/

namespace Slot

/-- The cell and the texts that are never named as places. -/
theorem pushed_unnamed : ∀ label ∈ [Cell.globalBlock, Cell.trueText, Cell.falseText],
    pushed label = .integer := by
  decide +kernel

@[simp] theorem pushed_globalBlock : pushed Cell.globalBlock = .integer :=
  pushed_unnamed _ (by simp)

@[simp] theorem pushed_trueText : pushed Cell.trueText = .integer :=
  pushed_unnamed _ (by simp)

@[simp] theorem pushed_falseText : pushed Cell.falseText = .integer :=
  pushed_unnamed _ (by simp)

/-- The labels of constructs carry serial numbers, those of cells do not. -/
theorem pushed_label {stem : String} {last : Nat} (suffix : String)
    (plain : stem.toList.all (!·.isDigit) = true) :
    pushed (LabelGroup.label ⟨stem, last + 1⟩ suffix) = .integer := by
  have cells : ∀ cell ∈ Cell.shared ++ Cell.unshared ++ Cell.formats.map Prod.fst,
      LabelGroup.digitFree cell = true := by decide +kernel
  rw [pushed, if_neg]
  intro member
  have zero := LabelGroup.serialOf_of_digitFree
    (cells _ (by simpa only [List.mem_append, or_assoc] using member))
  rw [LabelGroup.serialOf_label plain] at zero
  exact absurd zero (Nat.succ_ne_zero last)

end Slot

/-! ## Printing -/

namespace Printing

theorem provides_value (slots : List Slot) (promised : List WordKind) {last next : Nat}
    {code : Code} :
    (type : Ty) → value type last = .ok (code, next) →
      Provides last next fun labels =>
        Flows labels ⟨type.slots ++ slots, promised⟩ code ⟨slots, promised⟩
  | .boolean, generated => by
      simp only [value, bind_eq_ok, pure_eq_ok, freshLabels_eq_ok] at generated
      obtain ⟨labels, _, ⟨rfl, rfl⟩, rfl, rfl⟩ := generated
      refine (provides_group "print-boolean" [("false", ⟨slots, promised⟩),
        ("join", ⟨.integer :: slots, promised⟩)] (by decide) (by simp)).mono
        fun labels known => ?_
      simp only [List.forall_mem_cons, List.not_mem_nil, false_implies, implies_true,
        and_true] at known
      refine flows_of_flow fun rest next goesOn => ?_
      simpa [boolean, Ty.slots, known] using goesOn
  | .rational, generated => by
      simp only [value, bind_eq_ok, pure_eq_ok, freshLabels_eq_ok] at generated
      obtain ⟨labels, _, ⟨rfl, rfl⟩, rfl, rfl⟩ := generated
      refine (provides_group "print-rational" [("nonzero", ⟨slots, promised⟩),
        ("positive", ⟨slots, promised⟩), ("fraction", ⟨slots, promised⟩),
        ("end", ⟨slots, promised⟩)] (by decide) (by simp)).mono fun labels known => ?_
      simp only [List.forall_mem_cons, List.not_mem_nil, false_implies, implies_true,
        and_true] at known
      refine flows_of_flow fun rest next goesOn => ?_
      simpa [rational, integralPart, fractionalPart, Ty.slots, known] using goesOn
  | .array element, generated => by
      simp only [value, bind_eq_ok, pure_eq_ok, lift_eq_ok, freshLabels_eq_ok, Ty.load_eq_ok]
        at generated
      obtain ⟨labels, _, ⟨rfl, rfl⟩, load, _, ⟨⟨isValue, rfl⟩, rfl⟩, print, _, printed, rfl,
        rfl⟩ := generated
      -- The cursor is beneath the element while it is printed.
      refine ((provides_group "print-array" [("body", ⟨.integer :: .integer :: slots, promised⟩),
        ("done", ⟨.integer :: .integer :: slots, promised⟩)] (by decide) (by simp)).and
        (provides_value (.integer :: .integer :: slots) promised element printed)).mono
        fun labels known => ?_
      obtain ⟨known, printFlows⟩ := known
      simp only [List.forall_mem_cons, List.not_mem_nil, false_implies, implies_true,
        and_true] at known
      refine flows_of_flow fun rest next goesOn => ?_
      let group : LabelGroup := ⟨"print-array", last + 1⟩
      have around : flow labels (print ++ (addOffset element.size ++
          ([.exchange, .pushI 1, .subtract, .duplicate, .jumpFalse (group.label "done")] ++
          (printText Cell.separatorText ++ ([.jump (group.label "body")] ++
          ([.label (group.label "done"), .pop, .pop] ++
          (printText Cell.closeBracketText ++ rest)))))))
          ⟨element.slots ++ .integer :: .integer :: slots, promised⟩ next :=
        printFlows.flow (by simpa [group, known] using goesOn)
      simpa [array, Ty.slots, known, flow_loadCode isValue] using around
  | .void, generated => by simp [value, throw_eq_ok] at generated
  | .integer, generated | .character, generated | .floating, generated | .string, generated
  | .lambda _ _, generated => by
      simp only [value, pure_eq_ok] at generated
      obtain ⟨rfl, rfl⟩ := generated
      refine provides_of_forall fun labels => flows_of_flow fun rest next goesOn => ?_
      simpa [string, Ty.slots] using goesOn

end Printing

end StackBackend
