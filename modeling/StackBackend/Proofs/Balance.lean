import StackBackend.Proofs.TreeFlow
import StackBackend.Proofs.Typing

namespace StackBackend

/-! Balanced trees. The code of an expression adds the words of its type to whatever is on
the stack; the code of a statement starts and ends with the words that the loops around it
have saved. Well-typed trees whose return statements carry values are balanced, with all
their parts. -/

open Code Generation Labels

/-! ## Fragments, statements and the places they leave for -/

/-- The code of a fragment adds what a node of the type leaves, an address or a value, and
the code that makes a value of it adds the words of the type. -/
structure Fragment.Adds (labels : Labels) (promised : List WordKind) (slots : List Slot)
    (type : Ty) (fragment : Fragment) : Prop where
  code : Flows labels ⟨slots, promised⟩ fragment.code ⟨fragment.leaves type ++ slots, promised⟩
  value : ∀ code, fragment.valueCode type = .ok code →
    Flows labels ⟨slots, promised⟩ code ⟨type.slots ++ slots, promised⟩

theorem Fragment.Adds.of_flows {labels : Labels} {promised : List WordKind} {slots : List Slot}
    {type : Ty} {fragment : Fragment}
    (flows : Flows labels ⟨slots, promised⟩ fragment.code
      ⟨fragment.leaves type ++ slots, promised⟩) : fragment.Adds labels promised slots type :=
  ⟨flows, fun _ => flows_valueCode flows⟩

/-- Code that is generated with the serial numbers after `last` up to `next` starts and ends
with the slots. -/
def Generation.Keeps (labels : Labels) (promised : List WordKind) (slots : List Slot)
    (last next : Nat) (generation : Generation Code) : Prop :=
  ∃ code, generation last = .ok (code, next) ∧
    Flows labels ⟨slots, promised⟩ code ⟨slots, promised⟩

/-- A `while` loop. -/
def LoopContext.ofWhile (group : LabelGroup) : LoopContext :=
  ⟨group.label "start", group.label "end", none⟩

/-- A `for` loop, which saves its words. -/
def LoopContext.ofFor (group : LabelGroup) : LoopContext :=
  ⟨group.label "continue", group.label "end", some ForLoop.bracket⟩

/-- What surrounds the body of a function. -/
def Surroundings.ofFunction (group : LabelGroup) (parameterSize : Int32) (result : Ty) :
    Surroundings :=
  { returnLabel := some (group.label "return"), parameterSize, result }

/-! ## Trees -/

mutual

/-- The code of the expression adds a value of its type to the slots, and so do its parts to
what is on the stack when they run. -/
def Expr.Balanced (labels : Labels) (promised : List WordKind) (slots : List Slot)
    (last next : Nat) : Expr → Prop
  | .typed type form =>
      (∃ fragment, form.fragment type last = .ok (fragment, next) ∧
        fragment.Adds labels promised slots type) ∧
      form.Balanced labels promised slots last next type

/-- The parts of an expression of the type are balanced. A function is entered with the
address to return to, and its exit with the slot and the value that it returns. -/
def Form.Balanced (labels : Labels) (promised : List WordKind) (slots : List Slot)
    (last next : Nat) (type : Ty) : Form → Prop
  | .boolean _ | .character _ | .integer _ | .floating _ | .string _ | .identifier _ => True
  | .operation (.instruction _) operands =>
      exprsBalanced labels promised Ty.slots slots last next operands
  | .operation (.snippet _) operands =>
      ∃ middle, exprsBalanced labels promised Ty.slots slots last middle operands
  | .operation (.full composer) operands =>
      ∃ middle, exprsBalanced labels promised (fun _ => composer.pending) slots last middle operands
  | .comparison _ left right =>
      ∃ middle final, left.Balanced labels promised slots last middle ∧
        right.Balanced labels promised (left.type.slots ++ slots) middle final
  | .populatedArray elements =>
      exprsBalanced labels promised (fun _ => []) (.integer :: .integer :: slots) last next elements
  | .lambda _ body parameterSize _ =>
      ∃ result, type.result = .ok result ∧
        labels (LabelGroup.label ⟨"lambda", last + 1⟩ "start") = some ⟨[.integer], []⟩ ∧
        (Surroundings.ofFunction ⟨"lambda", last + 1⟩ parameterSize result).Known labels ∧
        blockBalanced labels (.ofFunction ⟨"lambda", last + 1⟩ parameterSize result) (last + 1) next
          body
  | .invocation callee arguments =>
      ∃ middle, exprsBalanced labels promised (fun _ => []) (.integer :: slots) last middle
          arguments ∧
        callee.Balanced labels promised slots middle next
  | .map array function =>
      ∃ middle final,
        array.Balanced labels promised (HigherOrder.mapBracket.contents ++ slots) last middle ∧
        function.Balanced labels promised (HigherOrder.mapBracket.contents ++ slots) middle final
  | .reduce array function =>
      ∃ middle final,
        array.Balanced labels promised (HigherOrder.reduceBracket.contents ++ slots) last middle ∧
        function.Balanced labels promised (HigherOrder.reduceBracket.contents ++ slots) middle final
  | .fold array none function =>
      ∃ middle final,
        array.Balanced labels promised (HigherOrder.foldBracket.contents ++ slots) last middle ∧
        function.Balanced labels promised
          (type.slots ++ (HigherOrder.foldBracket.contents ++ slots)) middle final
  | .fold array (some base) function =>
      ∃ middle middle' final,
        array.Balanced labels promised (HigherOrder.foldBracket.contents ++ slots) last middle ∧
        base.Balanced labels promised (HigherOrder.foldBracket.contents ++ slots) middle middle' ∧
        function.Balanced labels promised
          (type.slots ++ (HigherOrder.foldBracket.contents ++ slots)) middle' final
  | .zip first second function =>
      ∃ middle middle' final,
        first.Balanced labels promised (HigherOrder.zipBracket.contents ++ slots) last middle ∧
        second.Balanced labels promised (HigherOrder.zipBracket.contents ++ slots) middle middle' ∧
        function.Balanced labels promised (HigherOrder.zipBracket.contents ++ slots) middle' final

/-- The expressions are balanced, each on top of what is pending of those before it. -/
def exprsBalanced (labels : Labels) (promised : List WordKind) (pending : Ty → List Slot)
    (slots : List Slot) (last next : Nat) : List Expr → Prop
  | [] => next = last
  | expression :: rest =>
      ∃ middle, expression.Balanced labels promised slots last middle ∧
        exprsBalanced labels promised pending (pending expression.type ++ slots) middle next rest

def PrintItem.Balanced (labels : Labels) (promised : List WordKind) (slots : List Slot)
    (last : Nat) : PrintItem → Prop
  | .expression expression => ∃ middle, expression.Balanced labels promised slots last middle
  | .newline | .space | .tab => True

def printItemsBalanced (labels : Labels) (promised : List WordKind) (slots : List Slot)
    (last next : Nat) : List PrintItem → Prop
  | [] => next = last
  | item :: rest =>
      ∃ middle, Keeps labels promised slots last middle item.code ∧
        item.Balanced labels promised slots last ∧
        printItemsBalanced labels promised slots middle next rest

/-- The parts of the statement are balanced. The ends of a loop are entered with what the
loops have saved. -/
def Statement.Balanced (labels : Labels) (surroundings : Surroundings) (last next : Nat) :
    Statement → Prop
  | .declaration _ value false =>
      value.Balanced labels [] (.integer :: surroundings.saved) last next
  | .declaration _ value true =>
      value.Balanced labels [] (.integer :: surroundings.saved) (last + 1) next
  | .assignment target value =>
      ∃ middle, target.Balanced labels [] surroundings.saved last middle ∧
        value.Balanced labels [] (.integer :: surroundings.saved) middle next
  | .print items => printItemsBalanced labels [] surroundings.saved last next items
  | .ifElse condition thenBlock none =>
      ∃ middle, condition.Balanced labels [] surroundings.saved (last + 1) middle ∧
        blockBalanced labels surroundings middle next thenBlock
  | .ifElse condition thenBlock (some elseBlock) =>
      ∃ middle middle', condition.Balanced labels [] surroundings.saved (last + 1) middle ∧
        blockBalanced labels surroundings middle middle' thenBlock ∧
        blockBalanced labels surroundings middle' next elseBlock
  | .while condition body =>
      ∃ middle, condition.Balanced labels [] surroundings.saved (last + 1) middle ∧
        (surroundings.enterLoop (.ofWhile ⟨"while", last + 1⟩)).Known labels ∧
        blockBalanced labels (surroundings.enterLoop (.ofWhile ⟨"while", last + 1⟩)) middle next
          body
  | .for _ _ sequence body =>
      ∃ middle,
        sequence.Balanced labels [] (ForLoop.bracket.contents ++ surroundings.saved) (last + 1)
          middle ∧
        (surroundings.enterLoop (.ofFor ⟨"for", last + 1⟩)).Known labels ∧
        blockBalanced labels (surroundings.enterLoop (.ofFor ⟨"for", last + 1⟩)) middle next body
  | .break | .continue | .return none => True
  | .return (some value) => value.Balanced labels [] [.integer] last next
  | .call invocation => invocation.Balanced labels [] surroundings.saved last next
  | .release value => value.Balanced labels [] surroundings.saved last next
  | .block statements => blockBalanced labels surroundings last next statements

/-- Each of the statements starts and ends with what the loops have saved. -/
def blockBalanced (labels : Labels) (surroundings : Surroundings) (last next : Nat) :
    List Statement → Prop
  | [] => next = last
  | statement :: rest =>
      ∃ middle, Keeps labels [] surroundings.saved last middle (statement.code surroundings) ∧
        statement.Balanced labels surroundings last middle ∧
        blockBalanced labels surroundings middle next rest

end

/-! ## Well-typed trees -/

attribute [local simp] Form.Balanced exprsBalanced PrintItem.Balanced printItemsBalanced
  Statement.Balanced blockBalanced

mutual

theorem Expr.provides_fragment (slots : List Slot) (promised : List WordKind) {last next : Nat}
    {fragment : Fragment} :
    (expression : Expr) → expression.WellTyped → Valued expression.returnTypes →
      expression.fragment last = .ok (fragment, next) →
      Provides last next fun labels =>
        Flows labels ⟨slots, promised⟩ fragment.code
          ⟨fragment.leaves expression.type ++ slots, promised⟩ ∧
        expression.Balanced labels promised slots last next
  | .typed type form, typed, valued, generated => by
      rw [Expr.WellTyped] at typed
      rw [Expr.returnTypes] at valued
      rw [Expr.fragment_eq] at generated
      refine (form.provides_fragment slots promised type typed valued generated).mono
        fun labels flows => ⟨flows.1, ?_⟩
      rw [Expr.Balanced]
      exact ⟨⟨fragment, generated, .of_flows flows.1⟩, flows.2⟩

theorem Expr.provides_valueCode (slots : List Slot) (promised : List WordKind) {last next : Nat}
    {code : Code} :
    (expression : Expr) → expression.WellTyped → Valued expression.returnTypes →
      expression.valueCode last = .ok (code, next) →
      Provides last next fun labels =>
        Flows labels ⟨slots, promised⟩ code ⟨expression.type.slots ++ slots, promised⟩ ∧
          expression.Balanced labels promised slots last next
  | .typed type form, typed, valued, generated => by
      rw [Expr.WellTyped] at typed
      rw [Expr.returnTypes] at valued
      obtain ⟨fragment, made, value⟩ := Expr.valueCode_eq_ok.mp generated
      rw [Expr.fragment_eq] at made
      refine (form.provides_fragment slots promised type typed valued made).mono
        fun labels flows => ⟨Fragment.flows_valueCode flows.1 value, ?_⟩
      rw [Expr.Balanced]
      exact ⟨⟨fragment, made, .of_flows flows.1⟩, flows.2⟩

theorem Form.provides_fragment (slots : List Slot) (promised : List WordKind) {last next : Nat}
    {fragment : Fragment} (type : Ty) :
    (form : Form) → form.WellTyped type → Valued form.returnTypes →
      form.fragment type last = .ok (fragment, next) →
      Provides last next fun labels =>
        Flows labels ⟨slots, promised⟩ fragment.code ⟨fragment.leaves type ++ slots, promised⟩ ∧
          form.Balanced labels promised slots last next type
  | .boolean value, typed, _, generated => by
      obtain ⟨rfl, rfl⟩ := Form.fragment_boolean.mp generated
      rw [Form.WellTyped] at typed
      subst typed
      refine provides_of_forall fun labels =>
        ⟨flows_of_flow fun rest next goesOn => ?_, by simp⟩
      simpa [Ty.slots] using goesOn
  | .character value, typed, _, generated => by
      obtain ⟨rfl, rfl⟩ := Form.fragment_character.mp generated
      rw [Form.WellTyped] at typed
      subst typed
      refine provides_of_forall fun labels =>
        ⟨flows_of_flow fun rest next goesOn => ?_, by simp⟩
      simpa [Ty.slots] using goesOn
  | .integer value, typed, _, generated => by
      obtain ⟨rfl, rfl⟩ := Form.fragment_integer.mp generated
      rw [Form.WellTyped] at typed
      subst typed
      refine provides_of_forall fun labels =>
        ⟨flows_of_flow fun rest next goesOn => ?_, by simp⟩
      simpa [Ty.slots] using goesOn
  | .floating value, typed, _, generated => by
      obtain ⟨rfl, rfl⟩ := Form.fragment_floating.mp generated
      rw [Form.WellTyped] at typed
      subst typed
      refine provides_of_forall fun labels =>
        ⟨flows_of_flow fun rest next goesOn => ?_, by simp⟩
      simpa [Ty.slots] using goesOn
  | .string text, typed, _, generated => by
      obtain ⟨rfl, rfl⟩ := Form.fragment_string.mp generated
      rw [Form.WellTyped] at typed
      subst typed
      refine (provides_group "string" [] (by decide) (by simp)).mono fun labels _ =>
        ⟨flows_of_flow fun rest next goesOn => ?_, by simp⟩
      simpa [Record.stringLiteral, Ty.slots, Slot.pushed_label] using goesOn
  | .identifier binding, _, _, generated => by
      obtain ⟨address, addressed, rfl, rfl⟩ := Form.fragment_identifier.mp generated
      refine provides_of_forall fun labels =>
        ⟨flows_of_flow fun rest next goesOn => ?_, by simp⟩
      rw [Fragment.code_address, Location.flow_addressCode addressed]
      exact goesOn
  | .operation (.instruction instruction) operands, typed, valued, generated => by
      obtain ⟨values, evaluated, rfl⟩ := Form.fragment_instruction.mp generated
      rw [Form.WellTyped] at typed
      rw [Form.returnTypes] at valued
      refine (provides_values slots promised operands typed.1 valued evaluated).mono
        fun labels flows => ⟨flows_of_flow fun rest next goesOn => ?_, by simpa using flows.2⟩
      rw [Fragment.code_value, List.append_assoc]
      exact flows.1.flow (Instruction.flow_of_applies typed.2 goesOn)
  | .operation (.snippet snippet) operands, typed, valued, generated => by
      obtain ⟨values, middle, code, evaluated, built, rfl⟩ := Form.fragment_snippet.mp generated
      rw [Form.WellTyped] at typed
      rw [Form.returnTypes] at valued
      obtain ⟨typed, takes, gives⟩ := typed
      have snippetFlows : Provides middle next fun labels =>
          Flows labels ⟨Ty.operandSlots (operands.map Expr.type) ++ slots, promised⟩ code
            ⟨type.slots ++ slots, promised⟩ := by
        rw [takes, gives]
        exact Snippet.provides built
      refine ((provides_values slots promised operands typed valued evaluated).and
        snippetFlows).mono fun labels flows => ⟨flows.1.1.append flows.2, ?_⟩
      rw [Form.Balanced]
      exact ⟨middle, flows.1.2⟩
  | .operation (.full composer) [left, right], typed, valued, generated => by
      obtain ⟨fragments, middle, evaluated, built⟩ := Form.fragment_full.mp generated
      obtain ⟨leftFragment, _, _, leftMade, others, rfl⟩ := exprFragments_cons.mp evaluated
      obtain ⟨rightFragment, _, _, rightMade, none, rfl⟩ := exprFragments_cons.mp others
      obtain ⟨rfl, rfl⟩ := exprFragments_nil.mp none
      rw [Form.WellTyped, exprsWellTyped, exprsWellTyped] at typed
      rw [Form.returnTypes, exprsReturnTypes, exprsReturnTypes, valued_append, valued_append]
        at valued
      refine (((left.provides_fragment slots promised typed.1.1 valued.1 leftMade).and
        (right.provides_fragment (composer.pending ++ slots) promised typed.1.2.1 valued.2.1
          rightMade)).and (Composer.provides_fragment slots promised typed.2 built)).mono
        fun labels flows => ?_
      obtain ⟨⟨leftFlows, rightFlows⟩, composed⟩ := flows
      refine ⟨composed leftFlows.1 rightFlows.1, ?_⟩
      simp only [Form.Balanced, exprsBalanced]
      exact ⟨_, _, leftFlows.2, _, rightFlows.2, rfl⟩
  | .operation (.full composer) [], typed, _, _ => by
      rw [Form.WellTyped] at typed
      cases composer <;> simp [Composer.Applies] at typed
  | .operation (.full composer) [_], typed, _, _ => by
      rw [Form.WellTyped] at typed
      cases composer <;> simp [Composer.Applies] at typed
  | .operation (.full composer) (_ :: _ :: _ :: _), typed, _, _ => by
      rw [Form.WellTyped] at typed
      cases composer <;> simp [Composer.Applies] at typed
  | .comparison relation left right, typed, valued, generated => by
      obtain ⟨leftCode, middle, rightCode, middle', code, leftMade, rightMade, built, rfl⟩ :=
        Form.fragment_comparison.mp generated
      rw [Form.WellTyped] at typed
      rw [Form.returnTypes, valued_append] at valued
      obtain ⟨leftTyped, rightTyped, same, rfl⟩ := typed
      refine (((left.provides_valueCode slots promised leftTyped valued.1 leftMade).and
        (right.provides_valueCode (left.type.slots ++ slots) promised rightTyped valued.2
          rightMade)).and (Comparison.provides slots promised built)).mono fun labels flows => ?_
      obtain ⟨⟨leftFlows, rightFlows⟩, compared⟩ := flows
      refine ⟨compared leftFlows.1 (same ▸ rightFlows.1), ?_⟩
      rw [Form.Balanced]
      exact ⟨middle, middle', leftFlows.2, rightFlows.2⟩
  | .populatedArray elements, typed, valued, generated => by
      obtain ⟨values, element, code, evaluated, elementKnown, built, rfl⟩ :=
        Form.fragment_populatedArray.mp generated
      rw [Form.WellTyped] at typed
      rw [Form.returnTypes] at valued
      obtain ⟨typed, _, rfl, same⟩ := typed
      cases elementKnown
      refine (provides_each (.integer :: .integer :: slots) promised elements typed valued
        evaluated).mono fun labels flows =>
          ⟨Record.flows_arrayLiteral (fun value member => ?_) built, by simpa using flows.2⟩
      replace flows := flows.1
      rw [same, ← length_exprValueCodes evaluated] at flows
      have paired : (value, element) ∈ values.zip (List.replicate values.length element) := by
        obtain ⟨index, bound, rfl⟩ := List.mem_iff_getElem.mp member
        exact List.mem_iff_getElem.mpr ⟨index, by simpa using bound, by simp⟩
      exact flows _ paired
  | .lambda parameters body parameterSize localSize, typed, valued, generated => by
      obtain ⟨result, enter, bodyCode, resultKnown, entered, made, rfl⟩ :=
        Form.fragment_lambda.mp generated
      rw [Form.WellTyped] at typed
      rw [Form.returnTypes] at valued
      obtain ⟨returns, rfl, typed⟩ := typed
      obtain rfl : returns = result := Except.ok.inj resultKnown
      refine ((provides_entries "lambda" [("start", ⟨[.integer], []⟩),
        ("return", ⟨returned returns, []⟩), ("end", ⟨slots, promised⟩)] (by decide)
        (by simp) (by simp)).and (provides_block
          (.ofFunction ⟨"lambda", last + 1⟩ parameterSize returns)
          (fun _ member => nomatch member) body typed valued made)).mono fun labels flows => ?_
      obtain ⟨named, bodyFlows⟩ := flows
      simp only [List.forall_mem_cons, List.not_mem_nil, false_implies, implies_true,
        and_true] at named
      have known : (Surroundings.ofFunction ⟨"lambda", last + 1⟩ parameterSize returns).Known
          labels := by
        refine ⟨fun _ member => (nomatch member), fun _ member => ?_⟩
        cases member
        exact named.2.1
      obtain ⟨bodyFlows, balanced⟩ := bodyFlows known
      refine ⟨Form.flows_lambdaCode entered (Slot.pushed_label "start" (by decide)) named.1
        named.2.1 named.2.2 bodyFlows, ?_⟩
      rw [Form.Balanced]
      exact ⟨returns, rfl, named.1, known, balanced⟩
  | .invocation callee arguments, typed, valued, generated => by
      obtain ⟨values, middle, calleeCode, code, evaluated, calleeMade, built, rfl⟩ :=
        Form.fragment_invocation.mp generated
      rw [Form.WellTyped] at typed
      rw [Form.returnTypes, valued_append] at valued
      obtain ⟨argumentsTyped, calleeTyped, calleeType⟩ := typed
      refine ((provides_each (.integer :: slots) promised arguments argumentsTyped valued.1
        evaluated).and (callee.provides_valueCode slots promised calleeTyped valued.2
        calleeMade)).mono fun labels flows => ⟨flows_of_flow fun rest next goesOn => ?_, ?_⟩
      · refine Frame.flow_invoke built flows.1.1 (fun rest next goesOn => flows.2.1.flow ?_) goesOn
        simpa [calleeType, Ty.slots] using goesOn
      · rw [Form.Balanced]
        exact ⟨middle, flows.1.2, flows.2.2⟩
  | .map array function, typed, valued, generated => by
      obtain ⟨arrayCode, middle, functionCode, middle', code, arrayMade, functionMade, built,
        rfl⟩ := Form.fragment_map.mp generated
      rw [Form.WellTyped] at typed
      rw [Form.returnTypes, valued_append] at valued
      obtain ⟨arrayTyped, functionTyped, element, result, arrayType, functionType, rfl⟩ := typed
      let inside := HigherOrder.mapBracket.contents ++ slots
      refine (((array.provides_valueCode inside promised arrayTyped valued.1 arrayMade).and
        (function.provides_valueCode inside promised functionTyped valued.2 functionMade)).and
        (HigherOrder.provides_map slots promised built)).mono fun labels flows => ?_
      obtain ⟨⟨arrayFlows, functionFlows⟩, mapped⟩ := flows
      rw [arrayType] at arrayFlows
      rw [functionType] at functionFlows
      refine ⟨mapped arrayFlows.1 functionFlows.1, ?_⟩
      rw [Form.Balanced]
      exact ⟨middle, middle', arrayFlows.2, functionFlows.2⟩
  | .reduce array function, typed, valued, generated => by
      obtain ⟨arrayCode, middle, functionCode, middle', code, arrayMade, functionMade, built,
        rfl⟩ := Form.fragment_reduce.mp generated
      rw [Form.WellTyped] at typed
      rw [Form.returnTypes, valued_append] at valued
      obtain ⟨arrayTyped, functionTyped, element, arrayType, functionType, rfl⟩ := typed
      let inside := HigherOrder.reduceBracket.contents ++ slots
      refine (((array.provides_valueCode inside promised arrayTyped valued.1 arrayMade).and
        (function.provides_valueCode inside promised functionTyped valued.2 functionMade)).and
        (HigherOrder.provides_reduce slots promised built)).mono fun labels flows => ?_
      obtain ⟨⟨arrayFlows, functionFlows⟩, reduced⟩ := flows
      rw [arrayType] at arrayFlows reduced
      rw [functionType] at functionFlows
      refine ⟨reduced arrayFlows.1 functionFlows.1, ?_⟩
      rw [Form.Balanced]
      exact ⟨middle, middle', arrayFlows.2, functionFlows.2⟩
  | .fold array none function, typed, valued, generated => by
      obtain ⟨arrayCode, middle, start, middle', functionCode, middle'', code, arrayMade, based,
        functionMade, built, rfl⟩ := Form.fragment_fold.mp generated
      obtain ⟨rfl, rfl⟩ := pure_eq_ok.mp based
      rw [Form.WellTyped] at typed
      rw [Form.returnTypes, valued_append] at valued
      obtain ⟨arrayTyped, functionTyped, arrayType, functionType⟩ := typed
      rw [arrayType, functionType] at built
      let inside := HigherOrder.foldBracket.contents ++ slots
      refine (((array.provides_valueCode inside promised arrayTyped valued.1 arrayMade).and
        (function.provides_valueCode (type.slots ++ inside) promised functionTyped valued.2
          functionMade)).and
        (HigherOrder.provides_fold slots promised (fun _ => rfl) built)).mono fun labels flows => ?_
      obtain ⟨⟨arrayFlows, functionFlows⟩, folded⟩ := flows
      rw [arrayType] at arrayFlows
      rw [functionType] at functionFlows
      refine ⟨folded arrayFlows.1 (fun _ found => nomatch found) functionFlows.1, ?_⟩
      rw [Form.Balanced]
      exact ⟨_, _, arrayFlows.2, functionFlows.2⟩
  | .fold array (some base) function, typed, valued, generated => by
      obtain ⟨arrayCode, middle, start, middle', functionCode, middle'', code, arrayMade, based,
        functionMade, built, rfl⟩ := Form.fragment_fold.mp generated
      simp only [Form.baseCode, bind_eq_ok, pure_eq_ok] at based
      obtain ⟨baseCode, _, baseMade, rfl, rfl⟩ := based
      rw [Form.WellTyped] at typed
      rw [Form.returnTypes, valued_append, valued_append] at valued
      obtain ⟨arrayTyped, baseTyped, functionTyped, baseType, element, arrayType, functionType⟩ :=
        typed
      rw [arrayType, functionType] at built
      let inside := HigherOrder.foldBracket.contents ++ slots
      refine ((((array.provides_valueCode inside promised arrayTyped valued.1.1 arrayMade).and
        (base.provides_valueCode inside promised baseTyped valued.1.2 baseMade)).and
        (function.provides_valueCode (type.slots ++ inside) promised functionTyped valued.2
          functionMade)).and
        (HigherOrder.provides_fold slots promised (by simp) built)).mono fun labels flows => ?_
      obtain ⟨⟨⟨arrayFlows, baseFlows⟩, functionFlows⟩, folded⟩ := flows
      rw [arrayType] at arrayFlows
      rw [baseType] at baseFlows
      rw [functionType] at functionFlows
      refine ⟨folded arrayFlows.1 (fun start found => ?_) functionFlows.1, ?_⟩
      · cases found
        exact baseFlows.1
      · rw [Form.Balanced]
        exact ⟨middle, middle', middle'', arrayFlows.2, baseFlows.2, functionFlows.2⟩
  | .zip first second function, typed, valued, generated => by
      obtain ⟨firstCode, middle, secondCode, middle', functionCode, middle'', code, firstMade,
        secondMade, functionMade, built, rfl⟩ := Form.fragment_zip.mp generated
      rw [Form.WellTyped] at typed
      rw [Form.returnTypes, valued_append, valued_append] at valued
      obtain ⟨firstTyped, secondTyped, functionTyped, firstElement, secondElement, result,
        firstType, secondType, functionType, rfl⟩ := typed
      let inside := HigherOrder.zipBracket.contents ++ slots
      refine ((((first.provides_valueCode inside promised firstTyped valued.1.1 firstMade).and
        (second.provides_valueCode inside promised secondTyped valued.1.2 secondMade)).and
        (function.provides_valueCode inside promised functionTyped valued.2 functionMade)).and
        (HigherOrder.provides_zip slots promised built)).mono fun labels flows => ?_
      obtain ⟨⟨⟨firstFlows, secondFlows⟩, functionFlows⟩, zipped⟩ := flows
      rw [firstType] at firstFlows
      rw [secondType] at secondFlows
      rw [functionType] at functionFlows
      refine ⟨zipped firstFlows.1 secondFlows.1 functionFlows.1, ?_⟩
      rw [Form.Balanced]
      exact ⟨middle, middle', middle'', firstFlows.2, secondFlows.2, functionFlows.2⟩

/-- Operands are evaluated one on top of the other. -/
theorem provides_values (slots : List Slot) (promised : List WordKind) {last next : Nat}
    {values : List Code} :
    (operands : List Expr) → exprsWellTyped operands → Valued (exprsReturnTypes operands) →
      exprValueCodes operands last = .ok (values, next) →
      Provides last next fun labels =>
        Flows labels ⟨slots, promised⟩ values.flatten
          ⟨Ty.operandSlots (operands.map Expr.type) ++ slots, promised⟩ ∧
        exprsBalanced labels promised Ty.slots slots last next operands
  | [], _, _, generated => by
      obtain ⟨rfl, rfl⟩ := exprValueCodes_nil.mp generated
      exact provides_of_forall fun labels => ⟨rfl, by simp⟩
  | operand :: rest, typed, valued, generated => by
      obtain ⟨value, middle, others, made, restMade, rfl⟩ := exprValueCodes_cons.mp generated
      rw [exprsWellTyped] at typed
      rw [exprsReturnTypes, valued_append] at valued
      refine ((operand.provides_valueCode slots promised typed.1 valued.1 made).and
        (provides_values (operand.type.slots ++ slots) promised rest typed.2 valued.2
          restMade)).mono fun labels flows => ⟨?_, ?_⟩
      · rw [List.flatten_cons, List.map_cons, Ty.operandSlots_cons, List.append_assoc]
        exact flows.1.1.append flows.2.1
      · rw [exprsBalanced]
        exact ⟨middle, flows.1.2, flows.2.2⟩

/-- Arguments and elements are each evaluated on top of the same words. -/
theorem provides_each (slots : List Slot) (promised : List WordKind) {last next : Nat}
    {values : List Code} :
    (expressions : List Expr) → exprsWellTyped expressions →
      Valued (exprsReturnTypes expressions) →
      exprValueCodes expressions last = .ok (values, next) →
      Provides last next fun labels =>
        (∀ pair ∈ values.zip (expressions.map Expr.type),
          Flows labels ⟨slots, promised⟩ pair.1 ⟨pair.2.slots ++ slots, promised⟩) ∧
        exprsBalanced labels promised (fun _ => []) slots last next expressions
  | [], _, _, generated => by
      obtain ⟨rfl, rfl⟩ := exprValueCodes_nil.mp generated
      exact provides_of_forall fun labels => ⟨fun _ member => (nomatch member), by simp⟩
  | expression :: rest, typed, valued, generated => by
      obtain ⟨value, middle, others, made, restMade, rfl⟩ := exprValueCodes_cons.mp generated
      rw [exprsWellTyped] at typed
      rw [exprsReturnTypes, valued_append] at valued
      refine ((expression.provides_valueCode slots promised typed.1 valued.1 made).and
        (provides_each slots promised rest typed.2 valued.2 restMade)).mono
        fun labels flows => ⟨?_, ?_⟩
      · simp only [List.map_cons, List.zip_cons_cons, List.forall_mem_cons]
        exact ⟨flows.1.1, flows.2.1⟩
      · rw [exprsBalanced]
        exact ⟨middle, flows.1.2, flows.2.2⟩

theorem PrintItem.provides (slots : List Slot) (promised : List WordKind) {last next : Nat}
    {code : Code} :
    (item : PrintItem) → item.WellTyped → Valued item.returnTypes →
      item.code last = .ok (code, next) →
      Provides last next fun labels =>
        Flows labels ⟨slots, promised⟩ code ⟨slots, promised⟩ ∧
          item.Balanced labels promised slots last
  | .expression expression, typed, valued, generated => by
      obtain ⟨value, middle, print, made, printed, rfl⟩ := PrintItem.code_expression.mp generated
      rw [PrintItem.WellTyped] at typed
      rw [PrintItem.returnTypes] at valued
      refine ((expression.provides_valueCode slots promised typed valued made).and
        (Printing.provides_value slots promised _ printed)).mono fun labels flows =>
          ⟨flows.1.1.append flows.2, ?_⟩
      rw [PrintItem.Balanced]
      exact ⟨middle, flows.1.2⟩
  | .newline, _, _, generated => by
      obtain ⟨rfl, rfl⟩ := PrintItem.code_newline.mp generated
      refine provides_of_forall fun labels =>
        ⟨flows_of_flow fun rest next goesOn => ?_, by simp⟩
      simpa using goesOn
  | .space, _, _, generated => by
      obtain ⟨rfl, rfl⟩ := PrintItem.code_space.mp generated
      refine provides_of_forall fun labels =>
        ⟨flows_of_flow fun rest next goesOn => ?_, by simp⟩
      simpa using goesOn
  | .tab, _, _, generated => by
      obtain ⟨rfl, rfl⟩ := PrintItem.code_tab.mp generated
      refine provides_of_forall fun labels =>
        ⟨flows_of_flow fun rest next goesOn => ?_, by simp⟩
      simpa using goesOn

theorem provides_printItems (slots : List Slot) (promised : List WordKind) {last next : Nat}
    {code : Code} :
    (items : List PrintItem) → printItemsWellTyped items →
      Valued (printItemsReturnTypes items) → printItemsCode items last = .ok (code, next) →
      Provides last next fun labels =>
        Flows labels ⟨slots, promised⟩ code ⟨slots, promised⟩ ∧
          printItemsBalanced labels promised slots last next items
  | [], _, _, generated => by
      obtain ⟨rfl, rfl⟩ := printItemsCode_nil.mp generated
      exact provides_of_forall fun labels => ⟨rfl, by simp⟩
  | item :: rest, typed, valued, generated => by
      obtain ⟨first, middle, others, made, restMade, rfl⟩ := printItemsCode_cons.mp generated
      rw [printItemsWellTyped] at typed
      rw [printItemsReturnTypes, valued_append] at valued
      refine ((item.provides slots promised typed.1 valued.1 made).and
        (provides_printItems slots promised rest typed.2 valued.2 restMade)).mono
        fun labels flows => ⟨flows.1.1.append flows.2.1, ?_⟩
      rw [printItemsBalanced]
      exact ⟨middle, ⟨first, made, flows.1.1⟩, flows.1.2, flows.2.2⟩

/-- A statement starts and ends with what the loops around it have saved. -/
theorem Statement.provides {last next : Nat} {code : Code} (surroundings : Surroundings)
    (ofShared : surroundings.OfShared) :
    (statement : Statement) → statement.WellTyped surroundings.result →
      Valued statement.returnTypes →
      statement.code surroundings last = .ok (code, next) →
      Provides last next fun labels => surroundings.Known labels →
        Flows labels ⟨surroundings.saved, []⟩ code ⟨surroundings.saved, []⟩ ∧
          statement.Balanced labels surroundings last next
  | .declaration binding value false, typed, valued, generated => by
      obtain ⟨address, valueCode, store, addressed, made, stored, rfl⟩ :=
        Statement.code_declaration.mp generated
      obtain ⟨isValue, rfl⟩ := Ty.store_eq_ok.mp stored
      rw [Statement.WellTyped] at typed
      rw [Statement.returnTypes] at valued
      refine (value.provides_valueCode (.integer :: surroundings.saved) [] typed.1 valued
        made).mono fun labels flows _ =>
          ⟨flows_of_flow fun rest next goesOn => ?_, by simpa using flows.2⟩
      rw [List.append_assoc, List.append_assoc, Location.flow_addressCode addressed]
      refine flows.1.flow ?_
      rw [typed.2, flow_storeCode isValue (by simp)]
      exact ⟨by simp, goesOn⟩
  | .declaration binding value true, typed, valued, generated => by
      obtain ⟨flag, address, valueCode, store, flagged, addressed, made, stored, rfl⟩ :=
        Statement.code_static.mp generated
      obtain ⟨isValue, rfl⟩ := Ty.store_eq_ok.mp stored
      rw [Statement.WellTyped] at typed
      rw [Statement.returnTypes] at valued
      refine ((provides_group "static" [("skip", ⟨surroundings.saved, []⟩)] (by decide)
        (by simp)).and (value.provides_valueCode (.integer :: surroundings.saved) [] typed.1 valued
        made)).mono fun labels flows _ =>
          ⟨flows_of_flow fun rest next goesOn => ?_, by simpa using flows.2.2⟩
      obtain ⟨known, flows, _⟩ := flows
      simp only [List.forall_mem_cons, List.not_mem_nil, false_implies, implies_true,
        and_true] at known
      simp only [guardStatic, join_cons, join_nil, List.append_assoc, List.cons_append,
        List.nil_append, Location.flow_addressCode flagged, flow_loadC, flow_jumpTrue,
        Slot.fits_integer, Shape.enters_of_eq known, flow_pushI, flow_storeC, Slot.stores_integer,
        Location.flow_addressCode addressed, true_and]
      refine flows.flow ?_
      rw [typed.2, flow_storeCode isValue (by simp)]
      exact ⟨by simp, by simpa [known] using goesOn⟩
  | .assignment target value, typed, valued, generated => by
      obtain ⟨address, middle, valueCode, store, targeted, isAddress, made, stored, rfl⟩ :=
        Statement.code_assignment.mp generated
      obtain ⟨isValue, rfl⟩ := Ty.store_eq_ok.mp stored
      rw [Statement.WellTyped] at typed
      rw [Statement.returnTypes, valued_append] at valued
      refine ((target.provides_fragment surroundings.saved [] typed.1 valued.1 targeted).and
        (value.provides_valueCode (.integer :: surroundings.saved) [] typed.2.1 valued.2
        made)).mono fun labels flows _ => ⟨flows_of_flow fun rest next goesOn => ?_, ?_⟩
      case refine_2 =>
        rw [Statement.Balanced]
        exact ⟨middle, flows.1.2, flows.2.2⟩
      have leaves : address.leaves target.type = [.integer] := by
        simp [Fragment.leaves, of_decide_eq_true isAddress]
      rw [leaves] at flows
      rw [List.append_assoc, List.append_assoc]
      refine flows.1.1.flow (flows.2.1.flow ?_)
      rw [typed.2.2, flow_storeCode isValue (by simp)]
      exact ⟨by simp, goesOn⟩
  | .print items, typed, valued, generated => by
      rw [Statement.WellTyped] at typed
      rw [Statement.returnTypes] at valued
      exact (provides_printItems surroundings.saved [] items typed valued
        (Statement.code_print.mp generated)).mono fun labels flows _ =>
          ⟨flows.1, by simpa using flows.2⟩
  | .ifElse condition thenBlock none, typed, valued, generated => by
      obtain ⟨conditionCode, middle, thenCode, middle', otherCode, made, thenMade, otherMade,
        rfl⟩ := Statement.code_ifElse.mp generated
      obtain ⟨rfl, rfl⟩ := pure_eq_ok.mp otherMade
      rw [Statement.WellTyped] at typed
      rw [Statement.returnTypes, valued_append] at valued
      refine ((provides_group "if" [("else", ⟨surroundings.saved, []⟩),
        ("join", ⟨surroundings.saved, []⟩)] (by decide) (by simp)).and
        ((condition.provides_valueCode surroundings.saved [] typed.1 valued.1 made).and
          (provides_block surroundings ofShared thenBlock typed.2.2 valued.2 thenMade))).mono
        fun labels flows known => ?_
      obtain ⟨named, conditionFlows, thenFlows⟩ := flows
      simp only [List.forall_mem_cons, List.not_mem_nil, false_implies, implies_true,
        and_true] at named
      rw [typed.2.1] at conditionFlows
      refine ⟨Statement.flows_branchCode named.1 named.2 conditionFlows.1 (thenFlows known).1 rfl,
        ?_⟩
      rw [Statement.Balanced]
      exact ⟨middle, conditionFlows.2, (thenFlows known).2⟩
  | .ifElse condition thenBlock (some elseBlock), typed, valued, generated => by
      obtain ⟨conditionCode, middle, thenCode, middle', otherCode, made, thenMade, otherMade,
        rfl⟩ := Statement.code_ifElse.mp generated
      rw [Statement.WellTyped] at typed
      rw [Statement.returnTypes, valued_append, valued_append] at valued
      refine ((provides_group "if" [("else", ⟨surroundings.saved, []⟩),
        ("join", ⟨surroundings.saved, []⟩)] (by decide) (by simp)).and
        (((condition.provides_valueCode surroundings.saved [] typed.1 valued.1.1 made).and
          (provides_block surroundings ofShared thenBlock typed.2.2.1 valued.1.2 thenMade)).and
          (provides_block surroundings ofShared elseBlock typed.2.2.2 valued.2 otherMade))).mono
        fun labels flows known => ?_
      obtain ⟨named, ⟨conditionFlows, thenFlows⟩, elseFlows⟩ := flows
      simp only [List.forall_mem_cons, List.not_mem_nil, false_implies, implies_true,
        and_true] at named
      rw [typed.2.1] at conditionFlows
      refine ⟨Statement.flows_branchCode named.1 named.2 conditionFlows.1 (thenFlows known).1
        (elseFlows known).1, ?_⟩
      rw [Statement.Balanced]
      exact ⟨middle, middle', conditionFlows.2, (thenFlows known).2, (elseFlows known).2⟩
  | .while condition body, typed, valued, generated => by
      obtain ⟨conditionCode, middle, bodyCode, made, bodyMade, rfl⟩ :=
        Statement.code_while.mp generated
      rw [Statement.WellTyped] at typed
      rw [Statement.returnTypes, valued_append] at valued
      let context := LoopContext.ofWhile ⟨"while", last + 1⟩
      have inner : (surroundings.enterLoop context).OfShared :=
        ofShared.enterLoop fun _ member => nomatch member
      refine ((provides_group "while" [("start", ⟨surroundings.saved, []⟩),
        ("end", ⟨surroundings.saved, []⟩)] (by decide) (by simp)).and
        ((condition.provides_valueCode surroundings.saved [] typed.1 valued.1 made).and
          (provides_block (surroundings.enterLoop context) inner body typed.2.2 valued.2
            bodyMade))).mono fun labels flows known => ?_
      obtain ⟨named, conditionFlows, bodyFlows⟩ := flows
      simp only [List.forall_mem_cons, List.not_mem_nil, false_implies, implies_true,
        and_true] at named
      rw [typed.2.1] at conditionFlows
      have inside : (surroundings.enterLoop context).Known labels :=
        known.enterLoop named.1 named.2
      refine ⟨Statement.flows_loopCode named.1 named.2 conditionFlows.1 (bodyFlows inside).1, ?_⟩
      rw [Statement.Balanced]
      exact ⟨middle, conditionFlows.2, inside, (bodyFlows inside).2⟩
  | .for kind loopVariable sequence body, typed, valued, generated => by
      obtain ⟨layout, address, sequenceCode, middle, current, store, bodyCode, _, addressed, made,
        found, stored, bodyMade, rfl⟩ := Statement.code_for.mp generated
      obtain ⟨isValue, rfl⟩ := Ty.store_eq_ok.mp stored
      rw [Statement.WellTyped] at typed
      rw [Statement.returnTypes, valued_append] at valued
      let context := LoopContext.ofFor ⟨"for", last + 1⟩
      let inside : Shape := ⟨ForLoop.bracket.contents ++ surroundings.saved, []⟩
      have inner : (surroundings.enterLoop context).OfShared :=
        ofShared.enterLoop fun _ member => by
          cases member
          exact ForLoop.ofShared_bracket
      refine ((provides_group "for" [("start", inside), ("continue", inside), ("end", inside)]
        (by decide) (by simp)).and
        ((sequence.provides_valueCode inside.slots [] typed.1 valued.1 made).and
          (provides_block (surroundings.enterLoop context) inner body typed.2.2 valued.2
            bodyMade))).mono fun labels flows known => ?_
      obtain ⟨named, ⟨sequenceFlows, sequenceBalanced⟩, bodyFlows⟩ := flows
      simp only [List.forall_mem_cons, List.not_mem_nil, false_implies, implies_true,
        and_true] at named
      obtain ⟨startKnown, continueKnown, endKnown⟩ := named
      rw [typed.2.1.slots_sequence] at sequenceFlows
      have within : (surroundings.enterLoop context).Known labels :=
        known.enterLoop continueKnown endKnown
      obtain ⟨bodyFlows, bodyBalanced⟩ := bodyFlows within
      refine ⟨flows_of_flow fun rest next goesOn => ?_, ?_⟩
      case refine_2 =>
        rw [Statement.Balanced]
        exact ⟨middle, sequenceBalanced, within, bodyBalanced⟩
      simp only [join_cons, join_nil, List.append_assoc, List.nil_append]
      refine ForLoop.flow_setUp (fun _ _ => (Location.flow_addressCode addressed).mpr)
        sequenceFlows ?_
      refine ForLoop.flow_advance typed.2.1 isValue startKnown endKnown found ?_
      refine Flows.flow bodyFlows ?_
      exact ForLoop.flow_finish continueKnown startKnown endKnown goesOn
  | .break, _, _, generated => by
      obtain ⟨context, found, rfl, rfl⟩ := Statement.code_break.mp generated
      refine provides_of_forall fun labels known =>
        ⟨flows_of_flow fun rest next goesOn => ?_, by simp⟩
      simpa [(known.loop context (Surroundings.head?_of_innermostLoop found)).2] using ⟨_, goesOn⟩
  | .continue, _, _, generated => by
      obtain ⟨context, found, rfl, rfl⟩ := Statement.code_continue.mp generated
      refine provides_of_forall fun labels known =>
        ⟨flows_of_flow fun rest next goesOn => ?_, by simp⟩
      simpa [(known.loop context (Surroundings.head?_of_innermostLoop found)).1] using ⟨_, goesOn⟩
  | .return none, typed, _, generated => by
      obtain ⟨exit, result, exitFound, made, rfl⟩ := Statement.code_return.mp generated
      obtain ⟨rfl, rfl⟩ := pure_eq_ok.mp made
      rw [Statement.WellTyped] at typed
      refine provides_of_forall fun labels known =>
        ⟨Surroundings.flows_return ofShared (known.exit exit (by simp [exitFound])) ?_, by simp⟩
      rw [typed]
      rfl
  | .return (some value), typed, valued, generated => by
      obtain ⟨exit, result, exitFound, made, rfl⟩ := Statement.code_return.mp generated
      simp only [Statement.returnedCode, bind_eq_ok, pure_eq_ok, lift_eq_ok] at made
      obtain ⟨slot, _, ⟨slotMade, rfl⟩, valueCode, _, made, rfl, rfl⟩ := made
      rw [Statement.WellTyped] at typed
      rw [Statement.returnTypes, valued_cons] at valued
      refine (value.provides_valueCode [.integer] [] typed.1 valued.2 made).mono
        fun labels flows known =>
          ⟨Surroundings.flows_return ofShared (known.exit exit (by simp [exitFound]))
            (flows_of_flow fun rest next goesOn => ?_), by simpa using flows.2⟩
      obtain ⟨offset, _, built⟩ := Except.bind_eq_ok.mp slotMade
      cases built
      rw [← typed.2, returned, valued.1] at goesOn
      simpa using flows.1.flow goesOn
  | .call invocation, typed, valued, generated => by
      obtain ⟨value, made, rfl⟩ := Statement.code_call.mp generated
      rw [Statement.WellTyped] at typed
      rw [Statement.returnTypes] at valued
      refine (invocation.provides_valueCode surroundings.saved [] typed valued made).mono
        fun labels flows _ => ⟨flows_of_flow fun rest next goesOn => ?_, by simpa using flows.2⟩
      rw [List.append_assoc]
      exact flows.1.flow (flow_discard.mpr goesOn)
  | .release value, typed, valued, generated => by
      obtain ⟨valueCode, made, rfl⟩ := Statement.code_release.mp generated
      rw [Statement.WellTyped] at typed
      rw [Statement.returnTypes] at valued
      have pointer : value.type.slots = [.integer] := by
        obtain same | ⟨element, same⟩ := typed.2 <;> simp [same, Ty.slots]
      refine (value.provides_valueCode surroundings.saved [] typed.1 valued made).mono
        fun labels flows _ => ⟨flows_of_flow fun rest next goesOn => ?_, by simpa using flows.2⟩
      rw [pointer] at flows
      rw [List.append_assoc]
      exact flows.1.flow (by simpa using goesOn)
  | .block statements, typed, valued, generated => by
      rw [Statement.WellTyped] at typed
      rw [Statement.returnTypes] at valued
      exact (provides_block surroundings ofShared statements typed valued
        (Statement.code_block.mp generated)).mono fun labels flows known =>
          ⟨(flows known).1, by simpa using (flows known).2⟩

theorem provides_block {last next : Nat} {code : Code} (surroundings : Surroundings)
    (ofShared : surroundings.OfShared) :
    (statements : List Statement) → blockWellTyped surroundings.result statements →
      Valued (blockReturnTypes statements) →
      blockCode surroundings statements last = .ok (code, next) →
      Provides last next fun labels => surroundings.Known labels →
        Flows labels ⟨surroundings.saved, []⟩ code ⟨surroundings.saved, []⟩ ∧
          blockBalanced labels surroundings last next statements
  | [], _, _, generated => by
      obtain ⟨rfl, rfl⟩ := blockCode_nil.mp generated
      exact provides_of_forall fun labels _ => ⟨rfl, by simp⟩
  | statement :: rest, typed, valued, generated => by
      obtain ⟨first, middle, others, made, restMade, rfl⟩ := blockCode_cons.mp generated
      rw [blockWellTyped] at typed
      rw [blockReturnTypes, valued_append] at valued
      refine ((statement.provides surroundings ofShared typed.1 valued.1 made).and
        (provides_block surroundings ofShared rest typed.2 valued.2 restMade)).mono
        fun labels flows known => ?_
      obtain ⟨statementFlows, balanced⟩ := flows.1 known
      obtain ⟨restFlows, restBalanced⟩ := flows.2 known
      refine ⟨statementFlows.append restFlows, ?_⟩
      rw [blockBalanced]
      exact ⟨middle, ⟨first, made, statementFlows⟩, balanced, restBalanced⟩

end

end StackBackend
