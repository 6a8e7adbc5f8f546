import StackBackend.Environment
import StackBackend.Operator.Arithmetic
import StackBackend.Operator.HigherOrder
import StackBackend.Operator.Sequence
import StackBackend.Operator.Text
import StackBackend.Printing
import StackBackend.Tree

namespace StackBackend

/-! Code generation: one fragment for each node of a tree. -/

/-! ## Operators -/

/-- The type of an operand that an operator depends on. -/
def operandType (types : List Ty) (index : Nat) : Except Defect Ty :=
  match types[index]? with
  | some type => .ok type
  | none => .error (.operandOutOfRange types.length index)

namespace Snippet

/-- The code of a snippet, whose operand values are on the stack. -/
def code (snippet : Snippet) (operands : List Ty) (result : Ty) : Generation Code := do
  match snippet with
  | .integerDivide => return Arithmetic.integerDivide
  | .floatingDivide => return Arithmetic.floatingDivide
  | .rationalAdd => return Arithmetic.rationalAdd
  | .rationalSubtract => return Arithmetic.rationalSubtract
  | .rationalMultiply => return Arithmetic.rationalMultiply
  | .rationalDivide => return Arithmetic.rationalDivide
  | .rationalNegate => return Arithmetic.rationalNegate
  | .formRational => return Arithmetic.lowestTerms
  | .rationalize => Arithmetic.rationalize (← operandType operands 0)
  | .expressOver => Arithmetic.expressOver (← operandType operands 0)
  | .integerToRational | .characterToRational => return [.pushI 1]
  | .floatingToRational => Arithmetic.floatingToRational
  | .rationalToInteger => return [.divide]
  | .rationalToFloating => return Arithmetic.rationalToFloating
  | .integerToCharacter => return [.pushI 127, .btAnd]
  | .integerToBoolean => return [.pushI 1, .and]
  | .arrayAllocate => return Sequence.allocate (← result.element)
  | .arrayClone => return Sequence.clone (← (← operandType operands 0).element)
  | .arrayLength | .stringLength => Sequence.length (← operandType operands 0)
  | .arrayReverse | .stringReverse => Sequence.reverse (← operandType operands 0)
  | .substring => Text.substring
  | .stringConcatenate => return Text.concatenate
  | .stringCharacterConcatenate => return Text.appendCharacter
  | .characterStringConcatenate => return Text.prependCharacter

end Snippet

namespace Composer

/-- Both operands of a truth operator; the right one runs only when it decides
the result. -/
def shortCircuit (stem : String) (decides : String → Instruction) (left right : Fragment) :
    Generation Fragment := do
  let labels ← freshLabels stem
  let leftCode ← left.valueCode .boolean
  let rightCode ← right.valueCode .boolean
  return .value (Code.join [leftCode, [.duplicate, decides (labels.label "join"), .pop], rightCode,
    [.label (labels.label "join")]])

/-- The last two operands. -/
def lastTwo (operands : List Fragment) : Except Defect (Fragment × Fragment) :=
  match operands.reverse with
  | right :: left :: _ => .ok (left, right)
  | _ => .error .missingOperand

def fragment (composer : Composer) (operands : List Fragment) (types : List Ty) :
    Generation Fragment := do
  let (left, right) ← lastTwo operands
  match composer with
  | .shortCircuitAnd => shortCircuit "and" .jumpFalse left right
  | .shortCircuitOr => shortCircuit "or" .jumpTrue left right
  | .arrayIndex | .stringIndex =>
      let sequenceType ← operandType types 0
      let sequence ← left.valueCode sequenceType
      let index ← right.valueCode (← operandType types 1)
      return .address (← Sequence.index sequence index sequenceType)

end Composer

/-! ## Surroundings

What a statement has to know of where it stands: the function, and the loops of
that function around it, innermost first. -/

structure LoopContext where
  continueLabel : String
  endLabel : String
  /-- The scratch words that a `for` loop has saved on the operand stack. -/
  bracket : Option Bracket

structure Surroundings where
  /-- The exit of the function; the main program has none. -/
  returnLabel : Option String := none
  parameterSize : Int32 := 0
  result : Ty := .void
  loops : List LoopContext := []

namespace Surroundings

def innermostLoop (surroundings : Surroundings) : Except Defect LoopContext :=
  match surroundings.loops with
  | context :: _ => .ok context
  | [] => .error .outsideLoop

def enterLoop (surroundings : Surroundings) (context : LoopContext) : Surroundings :=
  { surroundings with loops := context :: surroundings.loops }

/-- Restores what the loops around a return statement have saved, innermost
first. -/
def unwind (surroundings : Surroundings) : Code :=
  surroundings.loops.flatMap fun context =>
    match context.bracket with
    | some bracket => bracket.restore
    | none => []

end Surroundings

/-! ## Loops over sequences

The state of a `for` loop lives in four scratch words, saved on entry and
restored at the end label, where a `break` goes as well. -/

namespace ForLoop

open Code

def bracket : Bracket :=
  ⟨[Cell.forIdentifier, Cell.forSequence, Cell.forLength, Cell.forIndex]⟩

/-- `[variable address sequence] -> []`, in two parts: the address is stored
before the sequence is evaluated. -/
def setUp (address sequence : Code) (layout : SequenceLayout) : Code :=
  Code.join [bracket.save, address, storeWord Cell.forIdentifier, sequence, Record.nullCheck,
    [.duplicate], readWord layout.lengthOffset, storeWord Cell.forLength,
    addOffset layout.headerSize, storeWord Cell.forSequence,
    [.pushI 0], storeWord Cell.forIndex]

/-- `[] -> [value of the variable]` -/
def current (kind : ForKind) (layout : SequenceLayout) (type : Ty) : Except Defect Code :=
  match kind with
  | .index => .ok (loadWord Cell.forIndex)
  | .element => do
      return Code.join [loadWord Cell.forSequence, loadWord Cell.forIndex,
        Record.elementAddress 0 layout.elementSize, (← type.load)]

/-- `[] -> []`: leaves the loop at its end, or else sets the variable. -/
def advance (labels : LabelGroup) (current store : Code) : Code :=
  Code.join [[.label (labels.label "start")], loadWord Cell.forLength, loadWord Cell.forIndex,
    [.subtract, .jumpFalse (labels.label "end")], loadWord Cell.forIdentifier,
    current, store]

/-- `[] -> []`: goes on with the next position, and ends the loop. -/
def finish (labels : LabelGroup) : Code :=
  Code.join [[.label (labels.label "continue")], increment Cell.forIndex,
    [.jump (labels.label "start"), .label (labels.label "end")], bracket.restore]

end ForLoop

/-! ## Declarations -/

/-- Runs the rest of a static declaration only the first time. -/
def guardStatic (skip : String) (flag rest : Code) : Code :=
  Code.join [flag, [.loadC, .jumpTrue skip], flag, [.pushI 1, .storeC], rest, [.label skip]]

/-! ## Trees -/

mutual

/-- The fragment of an expression: an address for what has a place in memory, a
value for everything else. -/
def Expr.fragment : Expr → Generation Fragment
  | .typed type form => form.fragment type

/-- The code of an expression as a value. -/
def Expr.valueCode : Expr → Generation Code
  | .typed type form => do (← form.fragment type).valueCode type

def Form.fragment (type : Ty) : Form → Generation Fragment
  | .boolean value => return .value [.pushI (if value then 1 else 0)]
  | .character value => return .value [.pushI (Int32.ofNat value.toNat)]
  | .integer value => return .value [.pushI value]
  | .floating value => return .value [.pushF value]
  | .string text => do
      let labels ← freshLabels "string"
      return .value (Record.stringLiteral (labels.label "literal") text)
  | .identifier binding => return .address (← binding.addressCode)
  | .operation (.instruction instruction) operands => do
      let values ← exprValueCodes operands
      return .value (values.flatten ++ [instruction])
  | .operation (.snippet snippet) operands => do
      let values ← exprValueCodes operands
      let code ← snippet.code (operands.map Expr.type) type
      return .value (values.flatten ++ code)
  | .operation (.full composer) operands => do
      let fragments ← exprFragments operands
      composer.fragment fragments (operands.map Expr.type)
  | .comparison relation left right => do
      let leftCode ← left.valueCode
      let rightCode ← right.valueCode
      return .value (← Comparison.code relation left.type leftCode rightCode)
  | .populatedArray elements => do
      let values ← exprValueCodes elements
      return .value (← Record.arrayLiteral (← type.element) values)
  | .lambda _ body parameterSize localSize => do
      let result ← type.result
      let labels ← freshLabels "lambda"
      let enter ← Frame.enter localSize
      let bodyCode ← blockCode
        { returnLabel := some (labels.label "return"), parameterSize, result } body
      -- Only a function without result may fall off its end.
      let missing : Code :=
        if result.isVoid then [] else [.jump Fault.missingReturn.handler]
      return .value (Code.join [[.jump (labels.label "end"), .label (labels.label "start")], enter,
        bodyCode, missing, [.label (labels.label "return")],
        Frame.leave parameterSize result,
        [.label (labels.label "end"), .pushD (labels.label "start")]])
  | .invocation callee arguments => do
      let values ← exprValueCodes arguments
      let calleeCode ← callee.valueCode
      return .value (← Frame.invoke calleeCode (values.zip (arguments.map Expr.type)) type)
  | .map array function => do
      let arrayCode ← array.valueCode
      let functionCode ← function.valueCode
      return .value (← HigherOrder.map arrayCode array.type functionCode function.type)
  | .reduce array function => do
      let arrayCode ← array.valueCode
      let functionCode ← function.valueCode
      return .value (← HigherOrder.reduce arrayCode array.type functionCode)
  | .fold array base function => do
      let arrayCode ← array.valueCode
      let baseCode ←
        match base with
        | none => pure none
        | some base => do pure (some (← base.valueCode))
      let functionCode ← function.valueCode
      return .value
        (← HigherOrder.fold arrayCode array.type baseCode functionCode function.type)
  | .zip first second function => do
      let firstCode ← first.valueCode
      let secondCode ← second.valueCode
      let functionCode ← function.valueCode
      return .value (← HigherOrder.zip firstCode first.type secondCode second.type
        functionCode function.type)

def exprFragments : List Expr → Generation (List Fragment)
  | [] => return []
  | expression :: rest => do
      let fragment ← expression.fragment
      return fragment :: (← exprFragments rest)

def exprValueCodes : List Expr → Generation (List Code)
  | [] => return []
  | expression :: rest => do
      let code ← expression.valueCode
      return code :: (← exprValueCodes rest)

def PrintItem.code : PrintItem → Generation Code
  | .expression expression => do
      let value ← expression.valueCode
      return value ++ (← Printing.value expression.type)
  | .newline => return Printing.printText Cell.newlineText
  | .space => return Printing.printText Cell.spaceText
  | .tab => return Printing.printText Cell.tabText

def printItemsCode : List PrintItem → Generation Code
  | [] => return []
  | item :: rest => do
      let code ← item.code
      return code ++ (← printItemsCode rest)

/-- The code of a statement; it leaves nothing on the operand stack. -/
def Statement.code (surroundings : Surroundings) : Statement → Generation Code
  | .declaration binding value false => do
      let address ← binding.addressCode
      let valueCode ← value.valueCode
      return address ++ valueCode ++ (← binding.type.store)
  | .declaration binding value true => do
      let labels ← freshLabels "static"
      let flag ← binding.flagAddressCode
      let address ← binding.addressCode
      let valueCode ← value.valueCode
      return guardStatic (labels.label "skip") flag
        (address ++ valueCode ++ (← binding.type.store))
  | .assignment target value => do
      let address ← target.fragment
      unless address.isAddress do throw .assignmentToValue
      let valueCode ← value.valueCode
      return address.code ++ valueCode ++ (← target.type.store)
  | .print items => printItemsCode items
  | .ifElse condition thenBlock elseBlock => do
      let labels ← freshLabels "if"
      let conditionCode ← condition.valueCode
      let thenCode ← blockCode surroundings thenBlock
      let elseCode ←
        match elseBlock with
        | none => pure []
        | some statements => blockCode surroundings statements
      return Code.join [conditionCode, [.jumpFalse (labels.label "else")], thenCode,
        [.jump (labels.label "join"), .label (labels.label "else")], elseCode,
        [.label (labels.label "join")]]
  | .while condition body => do
      let labels ← freshLabels "while"
      let conditionCode ← condition.valueCode
      let bodyCode ← blockCode
        (surroundings.enterLoop ⟨labels.label "start", labels.label "end", none⟩) body
      return Code.join [[.label (labels.label "start")], conditionCode,
        [.jumpFalse (labels.label "end")], bodyCode,
        [.jump (labels.label "start"), .label (labels.label "end")]]
  | .for kind loopVariable sequence body => do
      let layout ← sequence.type.sequenceLayout
      let labels ← freshLabels "for"
      let address ← loopVariable.addressCode
      let sequenceCode ← sequence.valueCode
      let current ← ForLoop.current kind layout loopVariable.type
      let store ← loopVariable.type.store
      let bodyCode ← blockCode
        (surroundings.enterLoop
          ⟨labels.label "continue", labels.label "end", some ForLoop.bracket⟩) body
      return Code.join [ForLoop.setUp address sequenceCode layout,
        ForLoop.advance labels current store, bodyCode, ForLoop.finish labels]
  | .break => return [.jump (← surroundings.innermostLoop).endLabel]
  | .continue => return [.jump (← surroundings.innermostLoop).continueLabel]
  | .return value => do
      match surroundings.returnLabel with
      | none => throw .outsideFunction
      | some exit =>
          let result ←
            match value with
            | none => pure []
            | some value => do
                let slot ← Frame.returnSlot surroundings.parameterSize surroundings.result
                let valueCode ← value.valueCode
                pure (slot ++ valueCode)
          return surroundings.unwind ++ result ++ [.jump exit]
  | .call invocation => do
      let value ← invocation.valueCode
      return value ++ invocation.type.discard
  | .release value => do
      let valueCode ← value.valueCode
      return valueCode ++ [.call Entry.discardRecord]
  | .block statements => blockCode surroundings statements

/-- The code of statements in order. -/
def blockCode (surroundings : Surroundings) : List Statement → Generation Code
  | [] => return []
  | statement :: rest => do
      let code ← statement.code surroundings
      return code ++ (← blockCode surroundings rest)

end

/-! ## Programs -/

structure CompileOptions where
  /-- Includes the heap manager and the discarding of records, which needs it. -/
  memoryManager : Bool := true

namespace Program

/-- The global block and the main program, up to the final halt. -/
def mainCode (program : Program) : Except Defect Code := do
  let (body, _) ← (blockCode {} program.body).run 0
  return [.dataLabel Cell.globalBlock, .dataZ program.globalSize, .label Entry.main] ++
    body ++ [.halt]

/-- The complete code of a program: environment, main program and heap
manager. -/
def compile (program : Program) (options : CompileOptions) : Except Defect Code := do
  let main ← program.mainCode
  return Code.join [if options.memoryManager then Heap.initialization else [],
    Environment.code options.memoryManager, main,
    if options.memoryManager then Heap.manager else []]

end Program

end StackBackend
