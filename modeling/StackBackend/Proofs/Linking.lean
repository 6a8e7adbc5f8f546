import StackBackend.Proofs.Resolution

namespace StackBackend

/-! The code of trees and of the environment is linked. Constructs refer to labels of
their own, of the loops and the function around them, and of the environment. -/

open Generation Code

/-! ## Operators that are instructions -/

/-- The instructions name no labels, and are executed. -/
def Plain (operations : List Operation) : Prop :=
  ∀ operation ∈ operations,
    operation.instruction.labelOperand? = none ∧ operation.instruction.isDirective = false

theorem plain_append {first second : List Operation} :
    Plain (first ++ second) ↔ Plain first ∧ Plain second :=
  List.forall_mem_append

theorem plain_cons {operation : Operation} {rest : List Operation} :
    Plain (operation :: rest) ↔
      (operation.instruction.labelOperand? = none ∧ operation.instruction.isDirective = false) ∧
        Plain rest :=
  List.forall_mem_cons

theorem Instruction.definition?_eq_none_of_executed {instruction : Instruction}
    (executed : instruction.isDirective = false) : instruction.definition? = none := by
  cases instruction <;> first | rfl | cases executed

theorem Plain.labelFree {operations : List Operation} (plain : Plain operations) :
    LabelFree operations := fun operation member =>
  Instruction.definition?_eq_none_of_executed (plain operation member).2

/-! ## Surroundings -/

/-- The labels of the loops and of the function around a statement are known. -/
structure Surroundings.Linked (directory : Directory) (surroundings : Surroundings) : Prop where
  loops : ∀ context ∈ surroundings.loops,
    directory.code context.continueLabel ∧ directory.code context.endLabel
  brackets : ∀ context ∈ surroundings.loops, ∀ bracket ∈ context.bracket,
    ∀ word ∈ bracket.words, directory.data word
  exit : ∀ exit ∈ surroundings.returnLabel, directory.code exit

section

variable {directory : Directory}

namespace Surroundings

variable {surroundings : Surroundings} {context : LoopContext}

theorem Linked.enterLoop (linked : surroundings.Linked directory)
    (continueKnown : directory.code context.continueLabel)
    (endKnown : directory.code context.endLabel)
    (words : ∀ bracket ∈ context.bracket, ∀ word ∈ bracket.words, directory.data word) :
    (surroundings.enterLoop context).Linked directory where
  loops := List.forall_mem_cons.mpr ⟨⟨continueKnown, endKnown⟩, linked.loops⟩
  brackets := List.forall_mem_cons.mpr ⟨words, linked.brackets⟩
  exit := linked.exit

theorem Linked.innermostLoop (linked : surroundings.Linked directory)
    (found : surroundings.innermostLoop = .ok context) :
    directory.code context.continueLabel ∧ directory.code context.endLabel := by
  unfold Surroundings.innermostLoop at found
  split at found
  · rename_i other rest same
    cases found
    exact linked.loops context (by simp [same])
  · cases found

theorem Linked.resolves_unwind (linked : surroundings.Linked directory) :
    surroundings.unwind.Resolves directory :=
  resolves_flatMap fun context member => by
    cases saved : context.bracket with
    | none => exact resolves_nil.mpr trivial
    | some bracket => exact resolves_restore (linked.brackets context member bracket saved)

end Surroundings

/-! ## Trees -/

attribute [local simp] Instruction.Resolves Instruction.labelOperand? Instruction.operand
  Directory.Knows Cell.cells Cell.scratch

section

variable (standard : directory.Standard)
include standard

theorem Record.linked_arrayLiteral {element : Ty} {values : List Code} {code : Code}
    (linked : ∀ value ∈ values, value.Linked directory)
    (generated : arrayLiteral element values = .ok code) : code.Linked directory := by
  have slots : ∀ index, (arrayLiteralSlots element index values).Linked directory := by
    clear generated
    induction values with
    | nil => exact fun _ _ => resolves_nil.mpr trivial
    | cons value rest induction =>
        intro index introduced
        simp only [arrayLiteralSlots, arrayLiteralSlot, introduced_append, introduced_cons]
          at introduced
        have valueResolves := linked value (by simp) (by simp only [introduced])
        have restResolves := induction (fun other member => linked other (by simp [member]))
          (index + 1) (by simp only [introduced])
        simp [arrayLiteralSlots, arrayLiteralSlot, valueResolves, restResolves,
          resolves_storeCode standard]
  unfold arrayLiteral at generated
  split at generated
  · cases generated
  · cases generated
    intro introduced
    rw [introduced_append] at introduced
    simp [arrayLiteralHeader, resolves_allocateRecord standard, slots 0 introduced.2]

theorem ForLoop.resolves_current {kind : ForKind} {layout : SequenceLayout} {type : Ty}
    {code : Code} (generated : current kind layout type = .ok code) :
    code.Resolves directory := by
  cases kind with
  | index =>
      cases generated
      simp [standard.cells]
  | element =>
      obtain ⟨load, loaded, built⟩ := Except.bind_eq_ok.mp generated
      obtain ⟨_, rfl⟩ := Ty.load_eq_ok.mp loaded
      cases built
      simp [standard.cells]

theorem ForLoop.words_known :
    ∀ bracket ∈ some ForLoop.bracket, ∀ word ∈ bracket.words, directory.data word := by
  rintro _ ⟨⟩ word member
  refine standard.cells word ?_
  simp only [ForLoop.bracket, List.mem_cons, List.not_mem_nil, or_false] at member
  rcases member with rfl | rfl | rfl | rfl <;> simp

end

mutual

theorem Expr.linked_fragment (standard : directory.Standard) {last next : Nat}
    {fragment : Fragment} :
    (expression : Expr) → Plain expression.operations →
      expression.fragment last = .ok (fragment, next) → fragment.code.Linked directory
  | .typed type form, plain, generated => by
      rw [Expr.fragment_eq] at generated
      rw [Expr.operations] at plain
      exact form.linked_fragment standard plain generated

theorem Expr.linked_valueCode (standard : directory.Standard) {last next : Nat} {code : Code} :
    (expression : Expr) → Plain expression.operations →
      expression.valueCode last = .ok (code, next) → code.Linked directory
  | .typed type form, plain, generated => by
      obtain ⟨fragment, generated, value⟩ := Expr.valueCode_eq_ok.mp generated
      rw [Expr.fragment_eq] at generated
      rw [Expr.operations] at plain
      exact Fragment.linked_valueCode (form.linked_fragment standard plain generated) value

theorem Form.linked_fragment (standard : directory.Standard) {last next : Nat} {type : Ty}
    {fragment : Fragment} :
    (form : Form) → Plain (form.operations type) →
      form.fragment type last = .ok (fragment, next) → fragment.code.Linked directory
  | .boolean _, _, generated => by
      obtain ⟨rfl, rfl⟩ := Form.fragment_boolean.mp generated
      intro _
      simp
  | .character _, _, generated => by
      obtain ⟨rfl, rfl⟩ := Form.fragment_character.mp generated
      intro _
      simp
  | .integer _, _, generated => by
      obtain ⟨rfl, rfl⟩ := Form.fragment_integer.mp generated
      intro _
      simp
  | .floating _, _, generated => by
      obtain ⟨rfl, rfl⟩ := Form.fragment_floating.mp generated
      intro _
      simp
  | .string _, _, generated => by
      obtain ⟨rfl, rfl⟩ := Form.fragment_string.mp generated
      intro introduced
      simp only [Fragment.code_value, Record.stringLiteral, introduced_cons,
        Instruction.introduced_dataLabel] at introduced
      simp [Record.stringLiteral, introduced]
  | .identifier _, _, generated => by
      obtain ⟨address, addressed, rfl, rfl⟩ := Form.fragment_identifier.mp generated
      exact fun _ => Location.resolves_addressCode standard addressed
  | .operation (.instruction instruction) operands, plain, generated => by
      obtain ⟨values, evaluated, rfl⟩ := Form.fragment_instruction.mp generated
      rw [Form.operations, plain_cons] at plain
      have valuesLinked := linked_values standard operands plain.2 evaluated
      intro introduced
      rw [Fragment.code_value, introduced_append, introduced_flatten] at introduced
      rw [Fragment.code_value, resolves_append, resolves_flatten, resolves_cons]
      exact ⟨fun value member => valuesLinked value member (introduced.1 value member),
        Instruction.resolves_of_labelOperand?_eq_none plain.1.1 plain.1.2, resolves_nil.mpr trivial⟩
  | .operation (.snippet snippet) operands, plain, generated => by
      obtain ⟨values, middle, code, evaluated, built, rfl⟩ := Form.fragment_snippet.mp generated
      rw [Form.operations] at plain
      have valuesLinked := linked_values standard operands plain evaluated
      intro introduced
      rw [Fragment.code_value, introduced_append, introduced_flatten] at introduced
      rw [Fragment.code_value, resolves_append, resolves_flatten]
      exact ⟨fun value member => valuesLinked value member (introduced.1 value member),
        Snippet.linked standard built introduced.2⟩
  | .operation (.full composer) operands, plain, generated => by
      obtain ⟨fragments, middle, evaluated, built⟩ := Form.fragment_full.mp generated
      rw [Form.operations] at plain
      exact Composer.linked_fragment standard (linked_fragments standard operands plain evaluated)
        built
  | .comparison relation left right, plain, generated => by
      obtain ⟨leftCode, middle, rightCode, middle', code, leftMade, rightMade, built, rfl⟩ :=
        Form.fragment_comparison.mp generated
      rw [Form.operations, plain_append] at plain
      exact Comparison.linked standard (left.linked_valueCode standard plain.1 leftMade)
        (right.linked_valueCode standard plain.2 rightMade) built
  | .populatedArray elements, plain, generated => by
      obtain ⟨values, element, code, evaluated, _, built, rfl⟩ :=
        Form.fragment_populatedArray.mp generated
      rw [Form.operations] at plain
      exact Record.linked_arrayLiteral standard (linked_values standard elements plain evaluated)
        built
  | .lambda parameters body parameterSize localSize, plain, generated => by
      obtain ⟨result, enter, bodyCode, _, entered, made, rfl⟩ := Form.fragment_lambda.mp generated
      rw [Form.operations] at plain
      intro introduced
      simp only [Fragment.code_value, Form.lambdaCode, join_cons, introduced_append,
        introduced_cons, Instruction.introduced_label] at introduced
      have bodyResolves := linked_block standard body
        ⟨by simp, by simp, by simp [introduced]⟩
        plain made (by simp only [introduced])
      have missing : Code.Resolves directory
          (if result.isVoid then [] else [.jump Fault.missingReturn.handler]) := by
        cases result.isVoid <;> simp [standard.handlers]
      simp [Form.lambdaCode, introduced, bodyResolves, missing, Frame.resolves_enter standard entered,
        Frame.resolves_leave standard]
  | .invocation callee arguments, plain, generated => by
      obtain ⟨values, middle, calleeCode, code, evaluated, calleeMade, built, rfl⟩ :=
        Form.fragment_invocation.mp generated
      rw [Form.operations, plain_append] at plain
      have valuesLinked := linked_values standard arguments plain.1 evaluated
      intro introduced
      obtain ⟨argumentsIntroduced, calleeIntroduced⟩ := Frame.introduced_invoke built introduced
      refine Frame.resolves_invoke standard built (fun argument member => ?_)
        (callee.linked_valueCode standard plain.2 calleeMade calleeIntroduced)
      exact valuesLinked argument.1 (List.of_mem_zip member).1 (argumentsIntroduced argument member)
  | .map array function, plain, generated => by
      obtain ⟨arrayCode, middle, functionCode, middle', code, arrayMade, functionMade, built,
        rfl⟩ := Form.fragment_map.mp generated
      rw [Form.operations, plain_append] at plain
      exact HigherOrder.linked_map standard (array.linked_valueCode standard plain.1 arrayMade)
        (function.linked_valueCode standard plain.2 functionMade) built
  | .reduce array function, plain, generated => by
      obtain ⟨arrayCode, middle, functionCode, middle', code, arrayMade, functionMade, built,
        rfl⟩ := Form.fragment_reduce.mp generated
      rw [Form.operations, plain_append] at plain
      exact HigherOrder.linked_reduce standard (array.linked_valueCode standard plain.1 arrayMade)
        (function.linked_valueCode standard plain.2 functionMade) built
  | .fold array none function, plain, generated => by
      obtain ⟨arrayCode, middle, start, middle', functionCode, middle'', code, arrayMade, based,
        functionMade, built, rfl⟩ := Form.fragment_fold.mp generated
      obtain ⟨rfl, rfl⟩ := pure_eq_ok.mp based
      rw [Form.operations, plain_append] at plain
      exact HigherOrder.linked_fold standard (array.linked_valueCode standard plain.1 arrayMade)
        (by simp) (function.linked_valueCode standard plain.2 functionMade) built
  | .fold array (some base) function, plain, generated => by
      obtain ⟨arrayCode, middle, start, middle', functionCode, middle'', code, arrayMade, based,
        functionMade, built, rfl⟩ := Form.fragment_fold.mp generated
      simp only [Form.baseCode, bind_eq_ok, pure_eq_ok] at based
      obtain ⟨baseCode, _, baseMade, rfl, rfl⟩ := based
      rw [Form.operations, plain_append, plain_append] at plain
      have baseLinked := base.linked_valueCode standard plain.1.2 baseMade
      exact HigherOrder.linked_fold standard (array.linked_valueCode standard plain.1.1 arrayMade)
        (by rintro _ ⟨⟩; exact baseLinked) (function.linked_valueCode standard plain.2 functionMade)
        built
  | .zip first second function, plain, generated => by
      obtain ⟨firstCode, middle, secondCode, middle', functionCode, middle'', code, firstMade,
        secondMade, functionMade, built, rfl⟩ := Form.fragment_zip.mp generated
      rw [Form.operations, plain_append, plain_append] at plain
      exact HigherOrder.linked_zip standard (first.linked_valueCode standard plain.1.1 firstMade)
        (second.linked_valueCode standard plain.1.2 secondMade)
        (function.linked_valueCode standard plain.2 functionMade) built

theorem linked_fragments (standard : directory.Standard) {last next : Nat}
    {fragments : List Fragment} :
    (expressions : List Expr) → Plain (exprsOperations expressions) →
      exprFragments expressions last = .ok (fragments, next) →
      ∀ fragment ∈ fragments, fragment.code.Linked directory
  | [], _, generated => by
      obtain ⟨rfl, rfl⟩ := exprFragments_nil.mp generated
      exact fun _ member => nomatch member
  | expression :: rest, plain, generated => by
      obtain ⟨fragment, middle, others, made, restMade, rfl⟩ := exprFragments_cons.mp generated
      rw [exprsOperations, plain_append] at plain
      exact List.forall_mem_cons.mpr ⟨expression.linked_fragment standard plain.1 made,
        linked_fragments standard rest plain.2 restMade⟩

theorem linked_values (standard : directory.Standard) {last next : Nat} {values : List Code} :
    (expressions : List Expr) → Plain (exprsOperations expressions) →
      exprValueCodes expressions last = .ok (values, next) →
      ∀ value ∈ values, value.Linked directory
  | [], _, generated => by
      obtain ⟨rfl, rfl⟩ := exprValueCodes_nil.mp generated
      exact fun _ member => nomatch member
  | expression :: rest, plain, generated => by
      obtain ⟨value, middle, others, made, restMade, rfl⟩ := exprValueCodes_cons.mp generated
      rw [exprsOperations, plain_append] at plain
      exact List.forall_mem_cons.mpr ⟨expression.linked_valueCode standard plain.1 made,
        linked_values standard rest plain.2 restMade⟩

theorem PrintItem.linked (standard : directory.Standard) {last next : Nat} {code : Code} :
    (item : PrintItem) → Plain item.operations → item.code last = .ok (code, next) →
      code.Linked directory
  | .expression expression, plain, generated => by
      obtain ⟨value, middle, print, made, printed, rfl⟩ := PrintItem.code_expression.mp generated
      rw [PrintItem.operations] at plain
      intro introduced
      rw [introduced_append] at introduced
      exact (resolves_append _ _).mpr ⟨expression.linked_valueCode standard plain made introduced.1,
        Printing.linked_value standard _ printed introduced.2⟩
  | .newline, _, generated => by
      obtain ⟨rfl, rfl⟩ := PrintItem.code_newline.mp generated
      intro _
      simp [standard.texts, Cell.texts]
  | .space, _, generated => by
      obtain ⟨rfl, rfl⟩ := PrintItem.code_space.mp generated
      intro _
      simp [standard.texts, Cell.texts]
  | .tab, _, generated => by
      obtain ⟨rfl, rfl⟩ := PrintItem.code_tab.mp generated
      intro _
      simp [standard.texts, Cell.texts]

theorem linked_printItems (standard : directory.Standard) {last next : Nat} {code : Code} :
    (items : List PrintItem) → Plain (printItemsOperations items) →
      printItemsCode items last = .ok (code, next) → code.Linked directory
  | [], _, generated => by
      obtain ⟨rfl, rfl⟩ := printItemsCode_nil.mp generated
      exact fun _ => resolves_nil.mpr trivial
  | item :: rest, plain, generated => by
      obtain ⟨first, middle, others, made, restMade, rfl⟩ := printItemsCode_cons.mp generated
      rw [printItemsOperations, plain_append] at plain
      intro introduced
      rw [introduced_append] at introduced
      exact (resolves_append _ _).mpr ⟨item.linked standard plain.1 made introduced.1,
        linked_printItems standard rest plain.2 restMade introduced.2⟩

theorem Statement.linked (standard : directory.Standard) {last next : Nat}
    {surroundings : Surroundings} {code : Code} :
    (statement : Statement) → surroundings.Linked directory → Plain statement.operations →
      statement.code surroundings last = .ok (code, next) → code.Linked directory
  | .declaration binding value false, _, plain, generated => by
      obtain ⟨address, valueCode, store, addressed, made, stored, rfl⟩ :=
        Statement.code_declaration.mp generated
      rw [Statement.operations] at plain
      intro introduced
      simp only [introduced_append] at introduced
      have valueResolves := value.linked_valueCode standard plain made (by simp only [introduced])
      simp [valueResolves, Location.resolves_addressCode standard addressed,
        Ty.resolves_store standard stored]
  | .declaration binding value true, _, plain, generated => by
      obtain ⟨flag, address, valueCode, store, flagged, addressed, made, stored, rfl⟩ :=
        Statement.code_static.mp generated
      rw [Statement.operations] at plain
      intro introduced
      simp only [guardStatic, join_cons, introduced_append, introduced_cons,
        Instruction.introduced_label] at introduced
      have valueResolves := value.linked_valueCode standard plain made (by simp only [introduced])
      simp [guardStatic, introduced, valueResolves, Location.resolves_addressCode standard flagged,
        Location.resolves_addressCode standard addressed, Ty.resolves_store standard stored]
  | .assignment target value, _, plain, generated => by
      obtain ⟨address, middle, valueCode, store, targeted, _, made, stored, rfl⟩ :=
        Statement.code_assignment.mp generated
      rw [Statement.operations, plain_append] at plain
      intro introduced
      simp only [introduced_append] at introduced
      simp [target.linked_fragment standard plain.1 targeted introduced.1.1,
        value.linked_valueCode standard plain.2 made introduced.1.2,
        Ty.resolves_store standard stored]
  | .print items, _, plain, generated => by
      rw [Statement.operations] at plain
      exact linked_printItems standard items plain (Statement.code_print.mp generated)
  | .ifElse condition thenBlock none, around, plain, generated => by
      obtain ⟨conditionCode, middle, thenCode, middle', otherCode, made, thenMade, otherMade,
        rfl⟩ := Statement.code_ifElse.mp generated
      obtain ⟨rfl, rfl⟩ := pure_eq_ok.mp otherMade
      rw [Statement.operations, plain_append] at plain
      intro introduced
      simp only [Statement.branchCode, join_cons, introduced_append, introduced_cons,
        Instruction.introduced_label] at introduced
      have conditionResolves := condition.linked_valueCode standard plain.1 made
        (by simp only [introduced])
      have thenResolves := linked_block standard thenBlock around plain.2 thenMade
        (by simp only [introduced])
      simp [Statement.branchCode, introduced, conditionResolves, thenResolves]
  | .ifElse condition thenBlock (some elseBlock), around, plain, generated => by
      obtain ⟨conditionCode, middle, thenCode, middle', otherCode, made, thenMade, otherMade,
        rfl⟩ := Statement.code_ifElse.mp generated
      rw [Statement.operations, plain_append, plain_append] at plain
      intro introduced
      simp only [Statement.branchCode, join_cons, introduced_append, introduced_cons,
        Instruction.introduced_label] at introduced
      have conditionResolves := condition.linked_valueCode standard plain.1.1 made
        (by simp only [introduced])
      have thenResolves := linked_block standard thenBlock around plain.1.2 thenMade
        (by simp only [introduced])
      have otherResolves := linked_block standard elseBlock around plain.2 otherMade
        (by simp only [introduced])
      simp [Statement.branchCode, introduced, conditionResolves, thenResolves, otherResolves]
  | .while condition body, around, plain, generated => by
      obtain ⟨conditionCode, middle, bodyCode, made, bodyMade, rfl⟩ := Statement.code_while.mp
        generated
      rw [Statement.operations, plain_append] at plain
      intro introduced
      simp only [Statement.loopCode, join_cons, introduced_append, introduced_cons,
        Instruction.introduced_label] at introduced
      have conditionResolves := condition.linked_valueCode standard plain.1 made
        (by simp only [introduced])
      have bodyResolves := linked_block standard body
        (around.enterLoop (by simp only [introduced]) (by simp only [introduced]) (by simp))
        plain.2 bodyMade (by simp only [introduced])
      simp [Statement.loopCode, introduced, conditionResolves, bodyResolves]
  | .for kind loopVariable sequence body, around, plain, generated => by
      obtain ⟨layout, address, sequenceCode, middle, current, store, bodyCode, _, addressed, made,
        found, stored, bodyMade, rfl⟩ := Statement.code_for.mp generated
      rw [Statement.operations, plain_append] at plain
      intro introduced
      simp only [ForLoop.setUp, ForLoop.advance, ForLoop.finish, join_cons, introduced_append,
        introduced_cons, Instruction.introduced_label] at introduced
      have sequenceResolves := sequence.linked_valueCode standard plain.1 made
        (by simp only [introduced])
      have known := ForLoop.words_known standard
      have bodyResolves := linked_block standard body
        (around.enterLoop (by simp only [introduced]) (by simp only [introduced]) known)
        plain.2 bodyMade (by simp only [introduced])
      simp [ForLoop.setUp, ForLoop.advance, ForLoop.finish, introduced, sequenceResolves,
        bodyResolves, resolves_save (known _ rfl), resolves_restore (known _ rfl),
        Location.resolves_addressCode standard addressed, ForLoop.resolves_current standard found,
        Ty.resolves_store standard stored, resolves_nullCheck standard, standard.cells]
  | .break, around, _, generated => by
      obtain ⟨context, found, rfl, rfl⟩ := Statement.code_break.mp generated
      intro _
      simp [around.innermostLoop found]
  | .continue, around, _, generated => by
      obtain ⟨context, found, rfl, rfl⟩ := Statement.code_continue.mp generated
      intro _
      simp [around.innermostLoop found]
  | .return none, around, _, generated => by
      obtain ⟨exit, result, exits, returned, rfl⟩ := Statement.code_return.mp generated
      obtain ⟨rfl, rfl⟩ := pure_eq_ok.mp returned
      intro _
      simp [around.resolves_unwind, around.exit exit exits]
  | .return (some value), around, plain, generated => by
      obtain ⟨exit, result, exits, returned, rfl⟩ := Statement.code_return.mp generated
      simp only [Statement.returnedCode, bind_eq_ok, pure_eq_ok, lift_eq_ok] at returned
      obtain ⟨slot, _, ⟨found, rfl⟩, valueCode, _, made, rfl, rfl⟩ := returned
      rw [Statement.operations] at plain
      intro introduced
      simp only [introduced_append] at introduced
      have valueResolves := value.linked_valueCode standard plain made (by simp only [introduced])
      simp [around.resolves_unwind, around.exit exit exits, valueResolves,
        Frame.resolves_returnSlot standard found]
  | .call invocation, _, plain, generated => by
      obtain ⟨value, made, rfl⟩ := Statement.code_call.mp generated
      rw [Statement.operations] at plain
      intro introduced
      rw [introduced_append] at introduced
      simp [invocation.linked_valueCode standard plain made introduced.1]
  | .release value, _, plain, generated => by
      obtain ⟨valueCode, made, rfl⟩ := Statement.code_release.mp generated
      rw [Statement.operations] at plain
      intro introduced
      rw [introduced_append] at introduced
      simp [value.linked_valueCode standard plain made introduced.1, standard.subroutines]
  | .block statements, around, plain, generated => by
      rw [Statement.operations] at plain
      exact linked_block standard statements around plain (Statement.code_block.mp generated)

theorem linked_block (standard : directory.Standard) {last next : Nat}
    {surroundings : Surroundings} {code : Code} :
    (statements : List Statement) → surroundings.Linked directory →
      Plain (blockOperations statements) →
      blockCode surroundings statements last = .ok (code, next) → code.Linked directory
  | [], _, _, generated => by
      obtain ⟨rfl, rfl⟩ := blockCode_nil.mp generated
      exact fun _ => resolves_nil.mpr trivial
  | statement :: rest, around, plain, generated => by
      obtain ⟨first, middle, others, made, restMade, rfl⟩ := blockCode_cons.mp generated
      rw [blockOperations, plain_append] at plain
      intro introduced
      rw [introduced_append] at introduced
      exact (resolves_append _ _).mpr ⟨statement.linked standard around plain.1 made introduced.1,
        linked_block standard rest around plain.2 restMade introduced.2⟩

end

/-! ## The environment -/

theorem Code.introduced_flatMap {α : Type} {items : List α} {piece : α → Code} :
    Code.Introduced directory (items.flatMap piece) ↔
      ∀ item ∈ items, Code.Introduced directory (piece item) := by
  rw [List.flatMap_def, introduced_flatten]
  simp

@[simp] theorem Environment.introduced_wordCells {names : List String} :
    Code.Introduced directory (wordCells names) ↔ ∀ name ∈ names, directory.data name := by
  rw [wordCells, Code.introduced_flatMap]
  simp [Instruction.Introduced, Code.Introduced]

@[simp] theorem Environment.resolves_wordCells {names : List String} :
    Code.Resolves directory (wordCells names) ↔ True :=
  iff_true_intro (resolves_flatMap fun _ _ => by simp)

theorem ClearBytes.linked : ClearBytes.code.Linked directory := by
  intro introduced
  simp only [code, join_cons, introduced_append, introduced_cons, Instruction.introduced_label,
    Environment.introduced_wordCells, List.forall_mem_cons] at introduced
  simp [code, introduced, decrement]

theorem CopyBytes.linked : CopyBytes.code.Linked directory := by
  intro introduced
  simp only [code, join_cons, introduced_append, introduced_cons, Instruction.introduced_label,
    Environment.introduced_wordCells, List.forall_mem_cons] at introduced
  simp [code, introduced, decrement]

theorem LowestTerms.linked (standard : directory.Standard) : LowestTerms.code.Linked directory := by
  intro introduced
  simp only [code, join_cons, introduced_append, introduced_cons, Instruction.introduced_label,
    Environment.introduced_wordCells, List.forall_mem_cons] at introduced
  simp [code, introduced, standard.handlers]

theorem DiscardRecord.linked (standard : directory.Standard) :
    DiscardRecord.code.Linked directory := by
  intro introduced
  simp only [code, join_cons, introduced_append, introduced_cons, Instruction.introduced_label]
    at introduced
  simp [code, bracket, Bracket.save, Bracket.restore, introduced, decrement, standard.cells,
    standard.subroutines]

theorem Heap.linked : Heap.manager.Linked directory := by
  intro introduced
  simp only [manager, cells, allocate, deallocate, join_cons, List.flatMap_cons, introduced_append,
    introduced_cons, Instruction.introduced_label, Instruction.introduced_dataLabel] at introduced
  simp [manager, cells, allocate, deallocate, introduced]

theorem Heap.resolves_initialization (introduced : Heap.manager.Introduced directory) :
    Heap.initialization.Resolves directory := by
  simp only [manager, cells, join_cons, List.flatMap_cons, introduced_append, introduced_cons,
    Instruction.introduced_dataLabel] at introduced
  simp [initialization, introduced]

namespace Environment

/-- The subroutines that need the heap manager, and those of the heap manager. -/
def heapEntries : List String :=
  [Entry.allocate, Entry.deallocate, Entry.discardRecord]

end Environment

end

section

variable {directory : Directory}

theorem Fault.mem_all (fault : Fault) : fault ∈ Fault.all := by
  cases fault <;> simp [Fault.all]

namespace Environment

/-- The parts of the environment. -/
structure Parts (directory : Directory) (withDiscard : Bool) : Prop where
  pointers : directory.data Cell.framePointer ∧ directory.data Cell.stackPointer
  texts : ∀ text ∈ Cell.texts.map Prod.fst, directory.data text
  scratch : ∀ cell ∈ Cell.scratch.map Prod.fst, directory.data cell
  general : directory.data generalFaultFormat ∧ directory.code generalFault
  handlers : ∀ fault, (faultHandler fault).Introduced directory
  clearBytes : ClearBytes.code.Introduced directory
  copyBytes : CopyBytes.code.Introduced directory
  lowestTerms : LowestTerms.code.Introduced directory
  discard : Code.Introduced directory (if withDiscard then DiscardRecord.code else [])

theorem parts {withDiscard : Bool}
    (introduced : (Environment.code withDiscard).Introduced directory) :
    Parts directory withDiscard := by
  simp only [code, faultHandlers, join_cons, introduced_append, introduced_cons,
    introduced_wordCells, Code.introduced_flatMap, List.forall_mem_cons,
    Instruction.introduced_label, Instruction.introduced_dataLabel] at introduced
  obtain ⟨_, ⟨frame, stack, _⟩, _, _, _, _, texts, scratch, ⟨⟨format, _, general, _⟩, handlers⟩,
    clearBytes, copyBytes, lowestTerms, discard, _⟩ := introduced
  exact ⟨⟨frame, stack⟩, List.forall_mem_map.mpr fun text member => (texts text member).1,
    List.forall_mem_map.mpr fun cell member => (scratch cell member).1, ⟨format, general⟩,
    fun fault => handlers fault fault.mem_all, clearBytes, copyBytes, lowestTerms, discard⟩

/-- With the labels of the environment those that generated code refers to are known. -/
theorem Parts.standard {withDiscard : Bool} (parts : Parts directory withDiscard)
    (globals : directory.data Cell.globalBlock)
    (entries : ∀ entry ∈ heapEntries, directory.code entry) : directory.Standard where
  cells := by
    rw [Cell.cells, List.forall_mem_cons, List.forall_mem_cons]
    exact ⟨parts.pointers.1, parts.pointers.2, parts.scratch⟩
  texts := parts.texts
  globals := globals
  subroutines := by
    have clear := parts.clearBytes
    have copy := parts.copyBytes
    have terms := parts.lowestTerms
    simp only [ClearBytes.code, CopyBytes.code, LowestTerms.code, join_cons, introduced_append,
      introduced_cons, Instruction.introduced_label] at clear copy terms
    simp only [heapEntries, List.forall_mem_cons] at entries
    simp [Entry.subroutines, clear, copy, terms, entries]
  handlers fault := by
    have handler := parts.handlers fault
    simp only [faultHandler, introduced_cons, Instruction.introduced_label] at handler
    simp only [handler]

attribute [local simp] Instruction.Resolves Instruction.labelOperand? Instruction.operand
  Directory.Knows

theorem Parts.resolves_faultHandler {withDiscard : Bool} (parts : Parts directory withDiscard)
    (fault : Fault) : (faultHandler fault).Resolves directory := by
  have handler := parts.handlers fault
  simp only [faultHandler, introduced_cons, Instruction.introduced_dataLabel] at handler
  simp [faultHandler, handler, parts.general]

theorem linked (standard : directory.Standard) (withDiscard : Bool)
    (mainKnown : directory.code Entry.main) : (Environment.code withDiscard).Linked directory := by
  intro introduced
  have parts := parts introduced
  have texts : Code.Resolves directory
      (Cell.texts.flatMap fun cell => [.dataLabel cell.1, .dataS cell.2]) :=
    resolves_flatMap fun _ _ => by simp
  have scratch : Code.Resolves directory
      (Cell.scratch.flatMap fun cell => [.dataLabel cell.1, .dataZ cell.2]) := by
    have sizes : ∀ cell ∈ Cell.scratch, 0 ≤ cell.2 := by decide
    exact resolves_flatMap fun cell member => by simp [sizes cell member]
  have discard : Code.Resolves directory (if withDiscard then DiscardRecord.code else []) := by
    cases withDiscard with
    | true => exact DiscardRecord.linked standard parts.discard
    | false => exact resolves_nil.mpr trivial
  simp [code, faultHandlers, mainKnown, texts, scratch, discard, parts.pointers, parts.general,
    resolves_flatMap fun fault _ => parts.resolves_faultHandler fault,
    ClearBytes.linked parts.clearBytes, CopyBytes.linked parts.copyBytes,
    LowestTerms.linked standard parts.lowestTerms]

end Environment

end

end StackBackend
