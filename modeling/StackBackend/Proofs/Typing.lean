import StackBackend.Proofs.OperatorFlow

namespace StackBackend

/-! Well-typed trees: the types of operands, arguments and results agree. Where an
operator is an instruction or a snippet, it is enough that the types agree in the
words that their values take on the operand stack. -/

namespace Ty

/-- The words of operand values on the stack, the last operand topmost. -/
def operandSlots (operands : List Ty) : List Slot :=
  operands.reverse.flatMap slots

@[simp] theorem operandSlots_nil : operandSlots [] = [] := rfl

@[simp] theorem operandSlots_cons (operand : Ty) (rest : List Ty) :
    operandSlots (operand :: rest) = operandSlots rest ++ operand.slots := by
  simp [operandSlots]

end Ty

/-- The instruction takes the words of the operands and leaves those of the result.
There is no such instruction with a label, and no such directive. -/
def Instruction.Applies (instruction : Instruction) (operands : List Ty) (result : Ty) : Prop :=
  let takes := (Ty.operandSlots operands).map Slot.kind
  let gives := result.slots.map Slot.kind
  match instruction with
  | .pop => ∃ kind, takes = [kind] ∧ gives = []
  | .duplicate => ∃ kind, takes = [kind] ∧ gives = [kind, kind]
  | .exchange => ∃ top below, takes = [top, below] ∧ gives = [below, top]
  | instruction => instruction.kinds? = some (takes, gives)

/-- The snippet takes the words of the operands and leaves those of the result. -/
def Snippet.Applies (snippet : Snippet) (operands : List Ty) (result : Ty) : Prop :=
  Ty.operandSlots operands = snippet.takes operands ∧ result.slots = snippet.gives

def Composer.Applies (composer : Composer) (operands : List Ty) (result : Ty) : Prop :=
  match composer with
  | .shortCircuitAnd | .shortCircuitOr => operands = [.boolean, .boolean] ∧ result = .boolean
  | .arrayIndex => operands = [.array result, .integer]
  | .stringIndex => operands = [.string, .integer] ∧ result = .character

/-- The types of the variable and the sequence of a loop agree. -/
def ForKind.Applies (kind : ForKind) (loopVariable sequence : Ty) : Prop :=
  match kind with
  | .index => loopVariable = .integer ∧ (sequence = .string ∨ ∃ element, sequence = .array element)
  | .element => sequence = .array loopVariable ∨ sequence = .string ∧ loopVariable = .character

mutual

def Expr.WellTyped : Expr → Prop
  | .typed type form => form.WellTyped type

def Form.WellTyped (type : Ty) : Form → Prop
  | .boolean _ => type = .boolean
  | .character _ => type = .character
  | .integer _ => type = .integer
  | .floating _ => type = .floating
  | .string _ => type = .string
  | .identifier binding => type = binding.type
  | .operation (.instruction instruction) operands =>
      exprsWellTyped operands ∧ instruction.Applies (operands.map Expr.type) type
  | .operation (.snippet snippet) operands =>
      exprsWellTyped operands ∧ snippet.Applies (operands.map Expr.type) type
  | .operation (.full composer) operands =>
      exprsWellTyped operands ∧ composer.Applies (operands.map Expr.type) type
  | .comparison _ left right =>
      left.WellTyped ∧ right.WellTyped ∧ left.type = right.type ∧ type = .boolean
  | .populatedArray elements =>
      exprsWellTyped elements ∧ ∃ element, type = .array element ∧
        elements.map Expr.type = List.replicate elements.length element
  | .lambda parameters body _ _ =>
      ∃ result, type = .lambda (parameters.map Binding.type) result ∧ blockWellTyped result body
  | .invocation callee arguments =>
      exprsWellTyped arguments ∧ callee.WellTyped ∧
        callee.type = .lambda (arguments.map Expr.type) type
  | .map array function =>
      array.WellTyped ∧ function.WellTyped ∧ ∃ element result, array.type = .array element ∧
        function.type = .lambda [element] result ∧ type = .array result
  | .reduce array function =>
      array.WellTyped ∧ function.WellTyped ∧ ∃ element, array.type = .array element ∧
        function.type = .lambda [element] .boolean ∧ type = .array element
  | .fold array none function =>
      array.WellTyped ∧ function.WellTyped ∧ array.type = .array type ∧
        function.type = .lambda [type, type] type
  | .fold array (some base) function =>
      array.WellTyped ∧ base.WellTyped ∧ function.WellTyped ∧ base.type = type ∧
        ∃ element, array.type = .array element ∧ function.type = .lambda [type, element] type
  | .zip first second function =>
      first.WellTyped ∧ second.WellTyped ∧ function.WellTyped ∧
        ∃ firstElement secondElement result, first.type = .array firstElement ∧
          second.type = .array secondElement ∧
          function.type = .lambda [firstElement, secondElement] result ∧ type = .array result

def exprsWellTyped : List Expr → Prop
  | [] => True
  | expression :: rest => expression.WellTyped ∧ exprsWellTyped rest

def PrintItem.WellTyped : PrintItem → Prop
  | .expression expression => expression.WellTyped
  | .newline | .space | .tab => True

def printItemsWellTyped : List PrintItem → Prop
  | [] => True
  | item :: rest => item.WellTyped ∧ printItemsWellTyped rest

/-- Well-typed in a function with the result. -/
def Statement.WellTyped (result : Ty) : Statement → Prop
  | .declaration binding value _ => value.WellTyped ∧ value.type = binding.type
  | .assignment target value => target.WellTyped ∧ value.WellTyped ∧ value.type = target.type
  | .print items => printItemsWellTyped items
  | .ifElse condition thenBlock none =>
      condition.WellTyped ∧ condition.type = .boolean ∧ blockWellTyped result thenBlock
  | .ifElse condition thenBlock (some elseBlock) =>
      condition.WellTyped ∧ condition.type = .boolean ∧ blockWellTyped result thenBlock ∧
        blockWellTyped result elseBlock
  | .while condition body =>
      condition.WellTyped ∧ condition.type = .boolean ∧ blockWellTyped result body
  | .for kind loopVariable sequence body =>
      sequence.WellTyped ∧ kind.Applies loopVariable.type sequence.type ∧
        blockWellTyped result body
  | .break | .continue => True
  | .return none => result = .void
  | .return (some value) => value.WellTyped ∧ value.type = result
  | .call invocation => invocation.WellTyped
  | .release value =>
      value.WellTyped ∧ (value.type = .string ∨ ∃ element, value.type = .array element)
  | .block statements => blockWellTyped result statements

def blockWellTyped (result : Ty) : List Statement → Prop
  | [] => True
  | statement :: rest => statement.WellTyped result ∧ blockWellTyped result rest

end

/-- The main program is no function; it cannot return. -/
def Program.WellTyped (program : Program) : Prop :=
  blockWellTyped .void program.body

/-! ## Values of return statements -/

mutual

/-- The types of the values that return statements in a tree carry. -/
def Expr.returnTypes : Expr → List Ty
  | .typed _ form => form.returnTypes

def Form.returnTypes : Form → List Ty
  | .boolean _ | .character _ | .integer _ | .floating _ | .string _ | .identifier _ => []
  | .operation _ operands => exprsReturnTypes operands
  | .comparison _ left right => left.returnTypes ++ right.returnTypes
  | .populatedArray elements => exprsReturnTypes elements
  | .lambda _ body _ _ => blockReturnTypes body
  | .invocation callee arguments => exprsReturnTypes arguments ++ callee.returnTypes
  | .map array function | .reduce array function => array.returnTypes ++ function.returnTypes
  | .fold array none function => array.returnTypes ++ function.returnTypes
  | .fold array (some base) function =>
      array.returnTypes ++ base.returnTypes ++ function.returnTypes
  | .zip first second function =>
      first.returnTypes ++ second.returnTypes ++ function.returnTypes

def exprsReturnTypes : List Expr → List Ty
  | [] => []
  | expression :: rest => expression.returnTypes ++ exprsReturnTypes rest

def PrintItem.returnTypes : PrintItem → List Ty
  | .expression expression => expression.returnTypes
  | .newline | .space | .tab => []

def printItemsReturnTypes : List PrintItem → List Ty
  | [] => []
  | item :: rest => item.returnTypes ++ printItemsReturnTypes rest

def Statement.returnTypes : Statement → List Ty
  | .declaration _ value _ => value.returnTypes
  | .assignment target value => target.returnTypes ++ value.returnTypes
  | .print items => printItemsReturnTypes items
  | .ifElse condition thenBlock none => condition.returnTypes ++ blockReturnTypes thenBlock
  | .ifElse condition thenBlock (some elseBlock) =>
      condition.returnTypes ++ blockReturnTypes thenBlock ++ blockReturnTypes elseBlock
  | .while condition body => condition.returnTypes ++ blockReturnTypes body
  | .for _ _ sequence body => sequence.returnTypes ++ blockReturnTypes body
  | .break | .continue | .return none => []
  | .return (some value) => value.type :: value.returnTypes
  | .call invocation => invocation.returnTypes
  | .release value => value.returnTypes
  | .block statements => blockReturnTypes statements

def blockReturnTypes : List Statement → List Ty
  | [] => []
  | statement :: rest => statement.returnTypes ++ blockReturnTypes rest

end

/-- All of the types are types of values. -/
def Valued (types : List Ty) : Prop :=
  ∀ type ∈ types, type.isVoid = false

theorem valued_append {first second : List Ty} :
    Valued (first ++ second) ↔ Valued first ∧ Valued second :=
  List.forall_mem_append

theorem valued_cons {type : Ty} {rest : List Ty} :
    Valued (type :: rest) ↔ type.isVoid = false ∧ Valued rest :=
  List.forall_mem_cons

end StackBackend
