import StackBackend.Proofs.ConstructFlow
import StackBackend.Proofs.Typing

namespace StackBackend

/-! How the constructs of a tree change the shape of the operand stack when the code
of their parts keeps to the shapes. -/

open Code Generation Labels

section

variable {labels : Labels} {slots : List Slot} {promised : List WordKind} {rest : Code}
  {next : Shape → Prop} {code : Code}

/-! ## Operators that are instructions -/

theorem Ty.map_kind_slots (type : Ty) : (type.slots.map Slot.kind).map Slot.ofKind = type.slots := by
  cases type <;> rfl

theorem Ty.map_kind_operandSlots (operands : List Ty) :
    ((operandSlots operands).map Slot.kind).map Slot.ofKind = operandSlots operands := by
  induction operands with
  | nil => rfl
  | cons operand operands induction =>
      rw [operandSlots_cons, List.map_append, List.map_append, induction, map_kind_slots]

/-- An operator finds its operands. -/
theorem Instruction.flow_of_applies {instruction : Instruction} {operands : List Ty} {result : Ty}
    (applies : instruction.Applies operands result)
    (goesOn : flow labels rest ⟨result.slots ++ slots, promised⟩ next) :
    flow labels (instruction :: rest) ⟨Ty.operandSlots operands ++ slots, promised⟩ next := by
  rw [← Ty.map_kind_slots] at goesOn
  rw [← Ty.map_kind_operandSlots]
  generalize takesEq : (Ty.operandSlots operands).map Slot.kind = takes
  generalize givesEq : result.slots.map Slot.kind = gives at goesOn
  simp only [Applies, takesEq, givesEq] at applies
  cases instruction <;> simp only [kinds?, Option.some.injEq, Prod.mk.injEq, reduceCtorEq] at applies
  case pop =>
    obtain ⟨kind, rfl, rfl⟩ := applies
    cases kind <;> simpa using goesOn
  case duplicate =>
    obtain ⟨kind, rfl, rfl⟩ := applies
    simpa using goesOn
  case exchange =>
    obtain ⟨top, below, rfl, rfl⟩ := applies
    simpa using goesOn
  case halt => simpa using ⟨_, goesOn⟩
  case loadI | storeC | storeI | storeF =>
    obtain ⟨rfl, rfl⟩ := applies
    simpa using goesOn
  all_goals
    obtain ⟨rfl, rfl⟩ := applies
    exact ⟨_, ⟨_, _, rfl, Slot.take_ofKind.mpr rfl⟩, goesOn⟩

/-! ## Addresses -/

theorem Location.flow_addressCode {location : Location} {delta : Int32}
    (generated : location.addressCode delta = .ok code) :
    flow labels (code ++ rest) ⟨slots, promised⟩ next ↔
      flow labels rest ⟨.integer :: slots, promised⟩ next := by
  obtain ⟨offset, _, built⟩ := Except.bind_eq_ok.mp generated
  cases location <;> cases built <;> simp

namespace Fragment

/-- What the code of a fragment leaves for a node of the type. -/
def leaves (fragment : Fragment) (type : Ty) : List Slot :=
  match fragment.kind with
  | .value => type.slots
  | .address => [.integer]
  | .void => []

@[simp] theorem code_value (code : Code) : (value code).code = code := rfl

@[simp] theorem code_address (code : Code) : (address code).code = code := rfl

@[simp] theorem leaves_value (code : Code) (type : Ty) : (value code).leaves type = type.slots :=
  rfl

@[simp] theorem leaves_address (code : Code) (type : Ty) :
    (address code).leaves type = [.integer] :=
  rfl

/-- Addresses become values. -/
theorem flows_valueCode {fragment : Fragment} {type : Ty}
    (flows : Flows labels ⟨slots, promised⟩ fragment.code
      ⟨fragment.leaves type ++ slots, promised⟩)
    (generated : fragment.valueCode type = .ok code) :
    Flows labels ⟨slots, promised⟩ code ⟨type.slots ++ slots, promised⟩ := by
  unfold leaves at flows
  obtain ⟨isValue, rfl⟩ | ⟨isAddress, isValue, rfl⟩ := Fragment.valueCode_eq_ok.mp generated
  · rwa [isValue] at flows
  · rw [isAddress] at flows
    refine flows_of_flow fun rest next goesOn => ?_
    rw [List.append_assoc]
    exact flows.flow ((flow_loadCode isValue).mpr goesOn)

end Fragment

/-! ## Loops -/

namespace ForLoop

theorem ofShared_bracket : bracket.OfShared := by
  simp [Bracket.OfShared, bracket]

theorem flow_setUp {address sequence : Code} {layout : SequenceLayout}
    (addressFlows : ∀ rest next,
      flow labels rest ⟨.integer :: (bracket.contents ++ slots), promised⟩ next →
        flow labels (address ++ rest) ⟨bracket.contents ++ slots, promised⟩ next)
    (sequenceFlows : Flows labels ⟨bracket.contents ++ slots, promised⟩ sequence
      ⟨.integer :: (bracket.contents ++ slots), promised⟩)
    (goesOn : flow labels rest ⟨bracket.contents ++ slots, promised⟩ next) :
    flow labels (setUp address sequence layout ++ rest) ⟨slots, promised⟩ next := by
  have held {word : String} (member : word ∈ bracket.words) := Bracket.content_mem member slots
  have identifierHeld := held (show Cell.forIdentifier ∈ _ by simp [bracket])
  have sequenceHeld := held (show Cell.forSequence ∈ _ by simp [bracket])
  have lengthHeld := held (show Cell.forLength ∈ _ by simp [bracket])
  have indexHeld := held (show Cell.forIndex ∈ _ by simp [bracket])
  simp only [setUp, join_cons, join_nil, List.append_assoc, List.nil_append]
  rw [Bracket.flow_save ofShared_bracket]
  refine addressFlows _ _ ?_
  simp only [flow_storeWord_shared (show Cell.forIdentifier ∈ Cell.shared by simp),
    Slot.fits_integer, identifierHeld, and_self, or_true, true_and]
  refine sequenceFlows.flow ?_
  simpa [sequenceHeld, lengthHeld, indexHeld] using goesOn

/-- The variable is set to the position or the element. -/
theorem flow_advance {kind : ForKind} {layout : SequenceLayout} {sequence type : Ty}
    {group : LabelGroup} {currentCode : Code} (applies : kind.Applies type sequence)
    (isValue : type.isVoid = false)
    (startKnown : labels (group.label "start") = some ⟨bracket.contents ++ slots, promised⟩)
    (endKnown : labels (group.label "end") = some ⟨bracket.contents ++ slots, promised⟩)
    (found : current kind layout type = .ok currentCode)
    (goesOn : flow labels rest ⟨bracket.contents ++ slots, promised⟩ next) :
    flow labels (advance group currentCode type.storeCode ++ rest)
      ⟨bracket.contents ++ slots, promised⟩ next := by
  have held {word : String} (member : word ∈ bracket.words) := Bracket.content_mem member slots
  have identifierHeld := held (show Cell.forIdentifier ∈ _ by simp [bracket])
  have sequenceHeld := held (show Cell.forSequence ∈ _ by simp [bracket])
  have lengthHeld := held (show Cell.forLength ∈ _ by simp [bracket])
  have indexHeld := held (show Cell.forIndex ∈ _ by simp [bracket])
  cases kind with
  | index =>
      obtain ⟨rfl, _⟩ := applies
      cases found
      simpa [advance, Ty.storeCode, startKnown, endKnown, identifierHeld, lengthHeld, indexHeld]
        using goesOn
  | element =>
      obtain ⟨load, loaded, built⟩ := Except.bind_eq_ok.mp found
      obtain ⟨_, rfl⟩ := Ty.load_eq_ok.mp loaded
      cases built
      have stored : flow labels (type.storeCode ++ rest) ⟨type.slots ++
          .content Cell.forIdentifier :: (bracket.contents ++ slots), promised⟩ next :=
        (flow_storeCode isValue (by simp)).mpr ⟨by simpa using identifierHeld, goesOn⟩
      simpa [advance, startKnown, endKnown, identifierHeld, lengthHeld, indexHeld, sequenceHeld,
        flow_loadCode isValue] using stored

theorem flow_finish {group : LabelGroup}
    (continueKnown : labels (group.label "continue") = some ⟨bracket.contents ++ slots, promised⟩)
    (startKnown : labels (group.label "start") = some ⟨bracket.contents ++ slots, promised⟩)
    (endKnown : labels (group.label "end") = some ⟨bracket.contents ++ slots, promised⟩)
    (goesOn : flow labels rest ⟨slots, promised⟩ next) :
    flow labels (finish group ++ rest) ⟨bracket.contents ++ slots, promised⟩ next := by
  have indexHeld := Bracket.content_mem (show Cell.forIndex ∈ bracket.words by simp [bracket]) slots
  have restored := (Bracket.flow_restore ofShared_bracket).mpr goesOn
  simpa [finish, continueKnown, startKnown, endKnown, indexHeld] using restored

end ForLoop

/-! ## Functions -/

/-- A function is entered with the return address and leaves nothing: its result
goes through memory. -/
theorem Form.flows_lambdaCode {group : LabelGroup} {enter body : Code}
    {localSize parameterSize : Int32} {result : Ty}
    (entered : Frame.enter localSize = .ok enter)
    (address : Slot.pushed (group.label "start") = .integer)
    (startKnown : labels (group.label "start") = some ⟨[.integer], []⟩)
    (exitKnown : labels (group.label "return") = some ⟨returned result, []⟩)
    (endKnown : labels (group.label "end") = some ⟨slots, promised⟩)
    (bodyFlows : Flows labels ⟨[], []⟩ body ⟨[], []⟩) :
    Flows labels ⟨slots, promised⟩ (lambdaCode group enter body parameterSize result)
      ⟨.integer :: slots, promised⟩ := by
  refine flows_of_flow fun rest next goesOn => ?_
  have left : flow labels (Frame.leave parameterSize result ++
      ([.label (group.label "end"), .pushD (group.label "start")] ++ rest))
      ⟨returned result, []⟩ next :=
    flow_leave.mpr ⟨⟨slots, promised⟩, by simpa [endKnown, address] using goesOn⟩
  have exits : flow labels ((if result.isVoid then [] else [.jump Fault.missingReturn.handler]) ++
      ([.label (group.label "return")] ++ (Frame.leave parameterSize result ++
        ([.label (group.label "end"), .pushD (group.label "start")] ++ rest)))) ⟨[], []⟩ next := by
    cases isVoid : result.isVoid with
    | true =>
        rw [returned, isVoid] at left exitKnown
        simpa [exitKnown] using left
    | false => simpa [exitKnown] using left
  simp only [lambdaCode, join_cons, join_nil, List.append_assoc, List.cons_append, List.nil_append,
    flow_jump, Shape.enters_of_eq endKnown, flow_label, startKnown, Option.some.injEq, true_and]
  refine ⟨_, rfl, (flow_enter entered).mpr (bodyFlows.flow ?_)⟩
  simpa using exits

end

/-! ## Branches and loops -/

namespace Statement

variable {labels : Labels} {slots : List Slot} {promised : List WordKind} {group : LabelGroup}
  {condition body thenCode otherCode : Code}

theorem flows_branchCode
    (elseKnown : labels (group.label "else") = some ⟨slots, promised⟩)
    (joinKnown : labels (group.label "join") = some ⟨slots, promised⟩)
    (conditionFlows : Flows labels ⟨slots, promised⟩ condition ⟨.integer :: slots, promised⟩)
    (thenFlows : Flows labels ⟨slots, promised⟩ thenCode ⟨slots, promised⟩)
    (otherFlows : Flows labels ⟨slots, promised⟩ otherCode ⟨slots, promised⟩) :
    Flows labels ⟨slots, promised⟩ (branchCode group condition thenCode otherCode)
      ⟨slots, promised⟩ := by
  refine flows_of_flow fun rest next goesOn => ?_
  have joined : flow labels (otherCode ++ ([.label (group.label "join")] ++ rest))
      ⟨slots, promised⟩ next :=
    otherFlows.flow (by simpa [joinKnown] using goesOn)
  simp only [branchCode, join_cons, join_nil, List.append_assoc, List.nil_append]
  refine conditionFlows.flow ?_
  simp only [List.cons_append, List.nil_append, flow_jumpFalse, Slot.fits_integer,
    Shape.enters_of_eq elseKnown, true_and]
  refine thenFlows.flow ?_
  simpa [elseKnown, joinKnown] using joined

theorem flows_loopCode
    (startKnown : labels (group.label "start") = some ⟨slots, promised⟩)
    (endKnown : labels (group.label "end") = some ⟨slots, promised⟩)
    (conditionFlows : Flows labels ⟨slots, promised⟩ condition ⟨.integer :: slots, promised⟩)
    (bodyFlows : Flows labels ⟨slots, promised⟩ body ⟨slots, promised⟩) :
    Flows labels ⟨slots, promised⟩ (loopCode group condition body) ⟨slots, promised⟩ := by
  refine flows_of_flow fun rest next goesOn => ?_
  simp only [loopCode, join_cons, join_nil, List.append_assoc, List.cons_append, List.nil_append,
    flow_label, startKnown, true_and]
  refine conditionFlows.flow ?_
  simp only [flow_jumpFalse, Slot.fits_integer, Shape.enters_of_eq endKnown, true_and]
  refine bodyFlows.flow ?_
  simpa [startKnown, endKnown] using goesOn

end Statement

theorem ForKind.Applies.slots_sequence {kind : ForKind} {loopVariable sequence : Ty}
    (applies : kind.Applies loopVariable sequence) : sequence.slots = [.integer] := by
  cases kind with
  | index => obtain ⟨_, rfl | ⟨element, rfl⟩⟩ := applies <;> rfl
  | element => obtain rfl | ⟨rfl, _⟩ := applies <;> rfl

/-! ## Truth operators and indexing -/

namespace Composer

/-- What of the left operand is still on the stack when the right one runs. -/
def pending : Composer → List Slot
  | .shortCircuitAnd | .shortCircuitOr => []
  | .arrayIndex | .stringIndex => [.integer]

variable {last next : Nat} {slots : List Slot} {promised : List WordKind}
  {left right fragment : Fragment}

theorem provides_shortCircuit (stem : String) (decides : String → Instruction)
    (plain : (stem.toList.all (!·.isDigit) && stem != "lambda") = true)
    (branches : ∀ target, decides target ∈ Code.branches target)
    (generated : shortCircuit stem decides left right last = .ok (fragment, next)) :
    Provides last next fun labels =>
      Flows labels ⟨slots, promised⟩ left.code ⟨left.leaves .boolean ++ slots, promised⟩ →
      Flows labels ⟨slots, promised⟩ right.code ⟨right.leaves .boolean ++ slots, promised⟩ →
      Flows labels ⟨slots, promised⟩ fragment.code
        ⟨fragment.leaves .boolean ++ slots, promised⟩ := by
  simp only [shortCircuit, bind_eq_ok, pure_eq_ok, lift_eq_ok, freshLabels_eq_ok] at generated
  obtain ⟨labels, _, ⟨rfl, rfl⟩, leftCode, _, ⟨leftValue, rfl⟩, rightCode, _, ⟨rightValue, rfl⟩,
    rfl, rfl⟩ := generated
  refine (provides_group stem [("join", ⟨.integer :: slots, promised⟩)] plain (by simp)).mono
    fun labels known leftFlows rightFlows => ?_
  simp only [List.forall_mem_cons, List.not_mem_nil, false_implies, implies_true,
    and_true] at known
  refine flows_of_flow fun rest next goesOn => ?_
  simp only [Fragment.value, join_cons, join_nil, List.append_assoc]
  refine (Fragment.flows_valueCode leftFlows leftValue).flow ?_
  simp only [Ty.slots, List.cons_append, List.nil_append, flow_duplicate,
    flow_branch (branches _), Slot.fits_integer, Shape.enters_of_eq known, flow_pop,
    Slot.spare_integer, true_and]
  refine (Fragment.flows_valueCode rightFlows rightValue).flow ?_
  simpa [Ty.slots, known] using goesOn

theorem provides_fragment (slots : List Slot) (promised : List WordKind) {composer : Composer}
    {leftType rightType result : Ty}
    (applies : composer.Applies [leftType, rightType] result)
    (generated : composer.fragment [left, right] [leftType, rightType] last =
      .ok (fragment, next)) :
    Provides last next fun labels =>
      Flows labels ⟨slots, promised⟩ left.code ⟨left.leaves leftType ++ slots, promised⟩ →
      Flows labels ⟨composer.pending ++ slots, promised⟩ right.code
        ⟨right.leaves rightType ++ (composer.pending ++ slots), promised⟩ →
      Flows labels ⟨slots, promised⟩ fragment.code
        ⟨fragment.leaves result ++ slots, promised⟩ := by
  simp only [Composer.fragment, lastTwo, bind_eq_ok, lift_eq_ok, List.reverse_cons,
    List.reverse_nil, List.nil_append, List.cons_append, Except.ok.injEq] at generated
  obtain ⟨_, _, ⟨rfl, rfl⟩, generated⟩ := generated
  cases composer with
  | shortCircuitAnd =>
      obtain ⟨⟨⟩, rfl⟩ := applies
      exact provides_shortCircuit "and" .jumpFalse (by decide) (by simp) generated
  | shortCircuitOr =>
      obtain ⟨⟨⟩, rfl⟩ := applies
      exact provides_shortCircuit "or" .jumpTrue (by decide) (by simp) generated
  | arrayIndex | stringIndex =>
      simp only [operandType, bind_eq_ok, pure_eq_ok, lift_eq_ok] at generated
      obtain ⟨_, _, ⟨⟨⟩, rfl⟩, sequence, _, ⟨sequenceValue, rfl⟩, _, _, ⟨⟨⟩, rfl⟩, index, _,
        ⟨indexValue, rfl⟩, code, _, indexed, rfl, rfl⟩ := generated
      refine (Sequence.provides_index slots promised indexed).mono
        fun labels flows leftFlows rightFlows => ?_
      have sequenceFlows := Fragment.flows_valueCode leftFlows sequenceValue
      have indexFlows := Fragment.flows_valueCode rightFlows indexValue
      simp only [Applies, List.cons.injEq, and_true] at applies
      simp only [applies, Ty.slots, pending] at sequenceFlows indexFlows
      exact flows sequenceFlows indexFlows

end Composer

/-! ## Surroundings -/

namespace Surroundings

/-- The words that a loop has saved, topmost first. -/
def loopContents (context : LoopContext) : List Slot :=
  match context.bracket with
  | some bracket => bracket.contents
  | none => []

/-- The words that the loops around a statement have saved: the shape that the
statement starts and ends with. -/
def saved (surroundings : Surroundings) : List Slot :=
  surroundings.loops.flatMap loopContents

/-- Where a statement may go: to the ends of the innermost loop with what the loops
have saved, and to the exit of the function with the slot and the value that it
returns. -/
structure Known (surroundings : Surroundings) (labels : Labels) : Prop where
  loop : ∀ context ∈ surroundings.loops.head?,
    labels context.continueLabel = some ⟨surroundings.saved, []⟩ ∧
      labels context.endLabel = some ⟨surroundings.saved, []⟩
  exit : ∀ exit ∈ surroundings.returnLabel,
    labels exit = some ⟨returned surroundings.result, []⟩

/-- All brackets of the loops save shared words. -/
def OfShared (surroundings : Surroundings) : Prop :=
  ∀ context ∈ surroundings.loops, ∀ bracket ∈ context.bracket, bracket.OfShared

variable {labels : Labels} {surroundings : Surroundings} {context : LoopContext}

theorem Known.enterLoop (known : surroundings.Known labels)
    (continueKnown : labels context.continueLabel =
      some ⟨(surroundings.enterLoop context).saved, []⟩)
    (endKnown : labels context.endLabel = some ⟨(surroundings.enterLoop context).saved, []⟩) :
    (surroundings.enterLoop context).Known labels where
  loop := by
    intro found member
    cases member
    exact ⟨continueKnown, endKnown⟩
  exit := known.exit

theorem OfShared.enterLoop (ofShared : surroundings.OfShared)
    (own : ∀ bracket ∈ context.bracket, bracket.OfShared) :
    (surroundings.enterLoop context).OfShared :=
  List.forall_mem_cons.mpr ⟨own, ofShared⟩

theorem head?_of_innermostLoop (found : surroundings.innermostLoop = .ok context) :
    context ∈ surroundings.loops.head? := by
  unfold innermostLoop at found
  split at found
  · rename_i known
    cases found
    simp [known]
  · cases found

theorem flow_unwind {rest : Code} {next : Shape → Prop} {promised : List WordKind}
    (ofShared : surroundings.OfShared) :
    flow labels (surroundings.unwind ++ rest) ⟨surroundings.saved, promised⟩ next ↔
      flow labels rest ⟨[], promised⟩ next := by
  obtain ⟨exit, parameterSize, result, loops⟩ := surroundings
  simp only [unwind, saved, OfShared] at *
  induction loops with
  | nil => simp
  | cons context loops induction =>
      have inner := induction fun other member => ofShared other (by simp [member])
      have own := ofShared context (by simp)
      simp only [List.flatMap_cons, List.append_assoc]
      cases known : context.bracket with
      | none => simpa [loopContents, known] using inner
      | some bracket =>
          simp only [loopContents, known]
          rw [Bracket.flow_restore (own bracket (by simp [known]))]
          exact inner

/-- A return statement gives up what the loops have saved. -/
theorem flows_return {exit : String} {result : Code} {last : Shape}
    (ofShared : surroundings.OfShared)
    (exitKnown : labels exit = some ⟨returned surroundings.result, []⟩)
    (resultFlows : Flows labels ⟨[], []⟩ result ⟨returned surroundings.result, []⟩) :
    Flows labels ⟨surroundings.saved, []⟩ (surroundings.unwind ++ result ++ [.jump exit]) last := by
  refine flows_of_flow fun rest next goesOn => ?_
  rw [List.append_assoc, List.append_assoc, flow_unwind ofShared]
  exact resultFlows.flow (by simpa [exitKnown] using ⟨last, goesOn⟩)

end Surroundings

end StackBackend
