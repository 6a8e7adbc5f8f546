import StackBackend.Proofs.Linking
import StackBackend.Proofs.Typing

namespace StackBackend

/-! The instructions that stand for operators in a well-typed tree are plain. -/

/-- No instruction with a label applies to anything, and no directive does. -/
theorem Instruction.Applies.plain {instruction : Instruction} {operands : List Ty} {result : Ty}
    (applies : instruction.Applies operands result) :
    instruction.labelOperand? = none ∧ instruction.isDirective = false := by
  cases instruction <;> first | exact ⟨rfl, rfl⟩ | cases applies

theorem plain_nil : Plain [] := nofun

mutual

theorem Expr.plain_operations :
    (expression : Expr) → expression.WellTyped → Plain expression.operations
  | .typed type form, typed => by
      rw [Expr.WellTyped] at typed
      rw [Expr.operations]
      exact form.plain_operations type typed

theorem Form.plain_operations (type : Ty) :
    (form : Form) → form.WellTyped type → Plain (form.operations type)
  | .boolean _, _ | .character _, _ | .integer _, _ | .floating _, _ | .string _, _
  | .identifier _, _ => by
      rw [Form.operations]
      exact plain_nil
  | .operation (.instruction instruction) operands, typed => by
      rw [Form.WellTyped] at typed
      rw [Form.operations, plain_cons]
      exact ⟨typed.2.plain, plain_exprs operands typed.1⟩
  | .operation (.snippet _) operands, typed | .operation (.full _) operands, typed => by
      rw [Form.WellTyped] at typed
      rw [Form.operations]
      exact plain_exprs operands typed.1
  | .comparison _ left right, typed => by
      rw [Form.WellTyped] at typed
      rw [Form.operations, plain_append]
      exact ⟨left.plain_operations typed.1, right.plain_operations typed.2.1⟩
  | .populatedArray elements, typed => by
      rw [Form.WellTyped] at typed
      rw [Form.operations]
      exact plain_exprs elements typed.1
  | .lambda _ body _ _, typed => by
      rw [Form.WellTyped] at typed
      obtain ⟨result, _, typed⟩ := typed
      rw [Form.operations]
      exact plain_block body typed
  | .invocation callee arguments, typed => by
      rw [Form.WellTyped] at typed
      rw [Form.operations, plain_append]
      exact ⟨plain_exprs arguments typed.1, callee.plain_operations typed.2.1⟩
  | .map array function, typed | .reduce array function, typed
  | .fold array none function, typed => by
      rw [Form.WellTyped] at typed
      rw [Form.operations, plain_append]
      exact ⟨array.plain_operations typed.1, function.plain_operations typed.2.1⟩
  | .fold first (some second) function, typed | .zip first second function, typed => by
      rw [Form.WellTyped] at typed
      rw [Form.operations, plain_append, plain_append]
      exact ⟨⟨first.plain_operations typed.1, second.plain_operations typed.2.1⟩,
        function.plain_operations typed.2.2.1⟩

theorem plain_exprs :
    (expressions : List Expr) → exprsWellTyped expressions → Plain (exprsOperations expressions)
  | [], _ => plain_nil
  | expression :: rest, typed => by
      rw [exprsWellTyped] at typed
      rw [exprsOperations, plain_append]
      exact ⟨expression.plain_operations typed.1, plain_exprs rest typed.2⟩

theorem PrintItem.plain_operations :
    (item : PrintItem) → item.WellTyped → Plain item.operations
  | .expression expression, typed => by
      rw [PrintItem.WellTyped] at typed
      rw [PrintItem.operations]
      exact expression.plain_operations typed
  | .newline, _ | .space, _ | .tab, _ => by
      rw [PrintItem.operations]
      exact plain_nil

theorem plain_printItems :
    (items : List PrintItem) → printItemsWellTyped items → Plain (printItemsOperations items)
  | [], _ => plain_nil
  | item :: rest, typed => by
      rw [printItemsWellTyped] at typed
      rw [printItemsOperations, plain_append]
      exact ⟨item.plain_operations typed.1, plain_printItems rest typed.2⟩

theorem Statement.plain_operations {result : Ty} :
    (statement : Statement) → statement.WellTyped result → Plain statement.operations
  | .declaration _ value _, typed => by
      rw [Statement.WellTyped] at typed
      rw [Statement.operations]
      exact value.plain_operations typed.1
  | .assignment target value, typed => by
      rw [Statement.WellTyped] at typed
      rw [Statement.operations, plain_append]
      exact ⟨target.plain_operations typed.1, value.plain_operations typed.2.1⟩
  | .print items, typed => by
      rw [Statement.WellTyped] at typed
      rw [Statement.operations]
      exact plain_printItems items typed
  | .ifElse condition thenBlock none, typed => by
      rw [Statement.WellTyped] at typed
      rw [Statement.operations, plain_append]
      exact ⟨condition.plain_operations typed.1, plain_block thenBlock typed.2.2⟩
  | .ifElse condition thenBlock (some elseBlock), typed => by
      rw [Statement.WellTyped] at typed
      rw [Statement.operations, plain_append, plain_append]
      exact ⟨⟨condition.plain_operations typed.1, plain_block thenBlock typed.2.2.1⟩,
        plain_block elseBlock typed.2.2.2⟩
  | .while condition body, typed => by
      rw [Statement.WellTyped] at typed
      rw [Statement.operations, plain_append]
      exact ⟨condition.plain_operations typed.1, plain_block body typed.2.2⟩
  | .for _ _ sequence body, typed => by
      rw [Statement.WellTyped] at typed
      rw [Statement.operations, plain_append]
      exact ⟨sequence.plain_operations typed.1, plain_block body typed.2.2⟩
  | .break, _ | .continue, _ | .return none, _ => by
      rw [Statement.operations]
      exact plain_nil
  | .return (some value), typed => by
      rw [Statement.WellTyped] at typed
      rw [Statement.operations]
      exact value.plain_operations typed.1
  | .call invocation, typed => by
      rw [Statement.WellTyped] at typed
      rw [Statement.operations]
      exact invocation.plain_operations typed
  | .release value, typed => by
      rw [Statement.WellTyped] at typed
      rw [Statement.operations]
      exact value.plain_operations typed.1
  | .block statements, typed => by
      rw [Statement.WellTyped] at typed
      rw [Statement.operations]
      exact plain_block statements typed

theorem plain_block {result : Ty} :
    (statements : List Statement) → blockWellTyped result statements →
      Plain (blockOperations statements)
  | [], _ => plain_nil
  | statement :: rest, typed => by
      rw [blockWellTyped] at typed
      rw [blockOperations, plain_append]
      exact ⟨statement.plain_operations typed.1, plain_block rest typed.2⟩

end

end StackBackend
