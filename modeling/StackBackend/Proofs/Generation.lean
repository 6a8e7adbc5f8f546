import StackBackend.Generator
import StackBackend.Proofs.Checked

namespace StackBackend

/-! When generation succeeds, and with what. For each kind of node there is one
equivalence: the node has code exactly when its parts have, and the code is put
together from theirs. Nothing else has to open the generator. -/

attribute [local simp] Expr.fragment Expr.valueCode Form.fragment exprFragments exprValueCodes
  PrintItem.code printItemsCode Statement.code blockCode

namespace Generation

variable {α β : Type} {last next : Nat}

theorem bind_eq_ok {first : Generation α} {rest : α → Generation β} {value : β} :
    (first >>= rest) last = .ok (value, next) ↔
      ∃ between middle, first last = .ok (between, middle) ∧
        rest between middle = .ok (value, next) := by
  change (Except.bind (first last) fun pair => rest pair.1 pair.2) = _ ↔ _
  cases first last with
  | error defect => simp [Except.bind]
  | ok pair =>
      obtain ⟨found, middle⟩ := pair
      simp only [Except.bind, Except.ok.injEq, Prod.mk.injEq]
      constructor
      · intro same
        exact ⟨found, middle, ⟨rfl, rfl⟩, same⟩
      · rintro ⟨_, _, ⟨rfl, rfl⟩, same⟩
        exact same

theorem pure_eq_ok {value result : α} :
    (pure value : Generation α) last = .ok (result, next) ↔ result = value ∧ next = last := by
  change Except.ok (value, last) = _ ↔ _
  simp [eq_comm]

theorem lift_eq_ok {checked : Except Defect α} {value : α} :
    (liftM checked : Generation α) last = .ok (value, next) ↔
      checked = .ok value ∧ next = last := by
  change (Except.bind checked fun found => .ok (found, last)) = _ ↔ _
  cases checked <;> simp [Except.bind, eq_comm]

theorem throw_eq_ok {defect : Defect} {value : α} :
    (throw defect : Generation α) last = .ok (value, next) ↔ False := by
  change Except.error defect = _ ↔ _
  simp

theorem freshLabels_eq_ok {stem : String} {labels : LabelGroup} :
    freshLabels stem last = .ok (labels, next) ↔ labels = ⟨stem, last + 1⟩ ∧ next = last + 1 := by
  simp [freshLabels, eq_comm]

end Generation

open Generation

/-! ## Expressions -/

section

variable {type : Ty} {last next : Nat} {fragment : Fragment} {code : Code}

theorem Ty.load_eq_ok :
    type.load = .ok code ↔ type.isVoid = false ∧ code = type.loadCode := by
  unfold Ty.load
  cases type.isVoid <;> simp [eq_comm]

theorem Ty.store_eq_ok :
    type.store = .ok code ↔ type.isVoid = false ∧ code = type.storeCode := by
  unfold Ty.store
  cases type.isVoid <;> simp [eq_comm]

theorem Fragment.valueCode_eq_ok :
    fragment.valueCode type = .ok code ↔
      (fragment.kind = .value ∧ code = fragment.code) ∨
        (fragment.kind = .address ∧ type.isVoid = false ∧
          code = fragment.code ++ type.loadCode) := by
  unfold Fragment.valueCode Ty.load
  cases fragment.kind <;> cases type.isVoid <;>
    simp [bind, Except.bind, pure, Except.pure, eq_comm]

namespace HigherOrder

open Code Record

theorem currentElement_eq_ok {cell : String} :
    currentElement cell type = .ok code ↔
      type.isVoid = false ∧
        code = Code.join [loadWord cell, loadWord Cell.operatorIndex,
          elementAddress arrayHeaderSize type.size, type.loadCode] := by
  simp only [currentElement, Except.bind_eq_ok, Ty.load_eq_ok, Except.pure_eq_ok]
  grind

theorem firstElement_eq_ok {cell : String} :
    firstElement cell type = .ok code ↔
      type.isVoid = false ∧
        code = loadWord cell ++ addOffset arrayHeaderSize ++ type.loadCode := by
  simp only [firstElement, Except.bind_eq_ok, Ty.load_eq_ok, Except.pure_eq_ok]
  grind

/-- The start of a fold, and the index of the element that the loop takes first. -/
def foldStart (element : Ty) : Option Code → Except Defect (Code × Int32)
  | some base => .ok (base, 0)
  | none => do return (← firstElement Cell.operatorArray element, 1)

theorem fold_eq_ok {array function : Code} {arrayType functionType : Ty} {base : Option Code} :
    fold array arrayType base function functionType last = .ok (code, next) ↔
      ∃ element accumulator start first current call, arrayType.element = .ok element ∧
        functionType.result = .ok accumulator ∧ foldStart element base = .ok (start, first) ∧
        currentElement Cell.operatorArray element = .ok current ∧
        Frame.invoke callee [(accumulator.unstash Cell.operatorTransfer, accumulator),
          (current, element)] accumulator = .ok call ∧ next = last + 1 ∧
        code = bracketed foldBracket
          (Code.join [operand array Cell.operatorArray, operandLength Cell.operatorArray,
            loadWord Cell.operatorLength, [.jumpFalse Fault.foldEmptyArray.handler], start,
            function, storeWord Cell.operatorLambda,
            loop ⟨"fold", last + 1⟩ first (accumulator.stash Cell.operatorTransfer ++ call)])
          accumulator := by
  cases base with
  | none =>
      simp only [fold, foldStart, bind_eq_ok, Except.bind_eq_ok, pure_eq_ok, Except.pure_eq_ok,
        lift_eq_ok, freshLabels_eq_ok]
      grind
  | some base =>
      simp only [fold, foldStart, bind_eq_ok, pure_eq_ok, lift_eq_ok, freshLabels_eq_ok,
        Except.ok.injEq]
      grind

end HigherOrder

theorem Expr.fragment_eq {form : Form} : (Expr.typed type form).fragment = form.fragment type := by
  rw [Expr.fragment]

theorem Expr.valueCode_eq_ok {expression : Expr} :
    expression.valueCode last = .ok (code, next) ↔
      ∃ fragment, expression.fragment last = .ok (fragment, next) ∧
        fragment.valueCode expression.type = .ok code := by
  cases expression with
  | typed type form =>
      rw [Expr.valueCode, Expr.fragment_eq]
      simp only [bind_eq_ok, lift_eq_ok, Expr.type]
      constructor
      · rintro ⟨fragment, _, generated, value, rfl⟩
        exact ⟨fragment, generated, value⟩
      · rintro ⟨fragment, generated, value⟩
        exact ⟨fragment, next, generated, value, rfl⟩

namespace Form

theorem fragment_boolean {value : Bool} :
    (Form.boolean value).fragment type last = .ok (fragment, next) ↔
      fragment = .value [.pushI (if value then 1 else 0)] ∧ next = last := by
  rw [Form.fragment, pure_eq_ok]

theorem fragment_character {value : UInt8} :
    (Form.character value).fragment type last = .ok (fragment, next) ↔
      fragment = .value [.pushI (Int32.ofNat value.toNat)] ∧ next = last := by
  rw [Form.fragment, pure_eq_ok]

theorem fragment_integer {value : Int32} :
    (Form.integer value).fragment type last = .ok (fragment, next) ↔
      fragment = .value [.pushI value] ∧ next = last := by
  rw [Form.fragment, pure_eq_ok]

theorem fragment_floating {value : Binary64} :
    (Form.floating value).fragment type last = .ok (fragment, next) ↔
      fragment = .value [.pushF value] ∧ next = last := by
  rw [Form.fragment, pure_eq_ok]

theorem fragment_string {text : String} :
    (Form.string text).fragment type last = .ok (fragment, next) ↔
      fragment = .value
          (Record.stringLiteral (LabelGroup.label ⟨"string", last + 1⟩ "literal") text) ∧
        next = last + 1 := by
  rw [Form.fragment]
  simp only [bind_eq_ok, pure_eq_ok, freshLabels_eq_ok]
  grind

theorem fragment_identifier {binding : Binding} :
    (Form.identifier binding).fragment type last = .ok (fragment, next) ↔
      ∃ address, binding.addressCode = .ok address ∧ fragment = .address address ∧
        next = last := by
  rw [Form.fragment]
  simp only [bind_eq_ok, pure_eq_ok, lift_eq_ok]
  grind

theorem fragment_instruction {instruction : Instruction} {operands : List Expr} :
    (Form.operation (.instruction instruction) operands).fragment type last =
        .ok (fragment, next) ↔
      ∃ values, exprValueCodes operands last = .ok (values, next) ∧
        fragment = .value (values.flatten ++ [instruction]) := by
  rw [Form.fragment]
  simp only [bind_eq_ok, pure_eq_ok]
  grind

theorem fragment_snippet {snippet : Snippet} {operands : List Expr} :
    (Form.operation (.snippet snippet) operands).fragment type last = .ok (fragment, next) ↔
      ∃ values middle code, exprValueCodes operands last = .ok (values, middle) ∧
        snippet.code (operands.map Expr.type) type middle = .ok (code, next) ∧
        fragment = .value (values.flatten ++ code) := by
  rw [Form.fragment]
  simp only [bind_eq_ok, pure_eq_ok]
  grind

theorem fragment_full {composer : Composer} {operands : List Expr} :
    (Form.operation (.full composer) operands).fragment type last = .ok (fragment, next) ↔
      ∃ fragments middle, exprFragments operands last = .ok (fragments, middle) ∧
        composer.fragment fragments (operands.map Expr.type) middle = .ok (fragment, next) := by
  rw [Form.fragment, bind_eq_ok]

theorem fragment_comparison {relation : Relation} {left right : Expr} :
    (Form.comparison relation left right).fragment type last = .ok (fragment, next) ↔
      ∃ leftCode middle rightCode middle' code, left.valueCode last = .ok (leftCode, middle) ∧
        right.valueCode middle = .ok (rightCode, middle') ∧
        Comparison.code relation left.type leftCode rightCode middle' = .ok (code, next) ∧
        fragment = .value code := by
  rw [Form.fragment]
  simp only [bind_eq_ok, pure_eq_ok]
  grind

theorem fragment_populatedArray {elements : List Expr} :
    (Form.populatedArray elements).fragment type last = .ok (fragment, next) ↔
      ∃ values element code, exprValueCodes elements last = .ok (values, next) ∧
        type.element = .ok element ∧ Record.arrayLiteral element values = .ok code ∧
        fragment = .value code := by
  rw [Form.fragment]
  simp only [bind_eq_ok, pure_eq_ok, lift_eq_ok]
  grind

/-- The code of a function around the code of its body. -/
def lambdaCode (labels : LabelGroup) (enter body : Code) (parameterSize : Int32) (result : Ty) :
    Code :=
  Code.join [[.jump (labels.label "end"), .label (labels.label "start")], enter, body,
    if result.isVoid then [] else [.jump Fault.missingReturn.handler],
    [.label (labels.label "return")], Frame.leave parameterSize result,
    [.label (labels.label "end"), .pushD (labels.label "start")]]

theorem fragment_lambda {parameters : List Binding} {body : List Statement}
    {parameterSize localSize : Int32} :
    (Form.lambda parameters body parameterSize localSize).fragment type last =
        .ok (fragment, next) ↔
      ∃ result enter bodyCode, type.result = .ok result ∧ Frame.enter localSize = .ok enter ∧
        blockCode
            { returnLabel := some (LabelGroup.label ⟨"lambda", last + 1⟩ "return"), parameterSize,
              result } body (last + 1) =
          .ok (bodyCode, next) ∧
        fragment = .value (lambdaCode ⟨"lambda", last + 1⟩ enter bodyCode parameterSize result) := by
  rw [Form.fragment]
  simp only [bind_eq_ok, pure_eq_ok, lift_eq_ok, freshLabels_eq_ok]
  constructor
  · rintro ⟨result, _, ⟨known, rfl⟩, labels, _, ⟨rfl, rfl⟩, enter, _, ⟨entered, rfl⟩, bodyCode,
      _, generated, rfl, rfl⟩
    exact ⟨result, enter, bodyCode, known, entered, generated, rfl⟩
  · rintro ⟨result, enter, bodyCode, known, entered, generated, rfl⟩
    exact ⟨result, last, ⟨known, rfl⟩, _, _, ⟨rfl, rfl⟩, enter, _, ⟨entered, rfl⟩, bodyCode, _,
      generated, rfl, rfl⟩

theorem fragment_invocation {callee : Expr} {arguments : List Expr} :
    (Form.invocation callee arguments).fragment type last = .ok (fragment, next) ↔
      ∃ values middle calleeCode code, exprValueCodes arguments last = .ok (values, middle) ∧
        callee.valueCode middle = .ok (calleeCode, next) ∧
        Frame.invoke calleeCode (values.zip (arguments.map Expr.type)) type = .ok code ∧
        fragment = .value code := by
  rw [Form.fragment]
  simp only [bind_eq_ok, pure_eq_ok, lift_eq_ok]
  grind

theorem fragment_map {array function : Expr} :
    (Form.map array function).fragment type last = .ok (fragment, next) ↔
      ∃ arrayCode middle functionCode middle' code, array.valueCode last = .ok (arrayCode, middle) ∧
        function.valueCode middle = .ok (functionCode, middle') ∧
        HigherOrder.map arrayCode array.type functionCode function.type middle' =
          .ok (code, next) ∧
        fragment = .value code := by
  rw [Form.fragment]
  simp only [bind_eq_ok, pure_eq_ok]
  grind

theorem fragment_reduce {array function : Expr} :
    (Form.reduce array function).fragment type last = .ok (fragment, next) ↔
      ∃ arrayCode middle functionCode middle' code, array.valueCode last = .ok (arrayCode, middle) ∧
        function.valueCode middle = .ok (functionCode, middle') ∧
        HigherOrder.reduce arrayCode array.type functionCode middle' = .ok (code, next) ∧
        fragment = .value code := by
  rw [Form.fragment]
  simp only [bind_eq_ok, pure_eq_ok]
  grind

/-- The code of the start of a fold, if the fold has one. -/
def baseCode : Option Expr → Generation (Option Code)
  | none => pure none
  | some base => do return some (← base.valueCode)

theorem fragment_fold {array function : Expr} {base : Option Expr} :
    (Form.fold array base function).fragment type last = .ok (fragment, next) ↔
      ∃ arrayCode middle start middle' functionCode middle'' code,
        array.valueCode last = .ok (arrayCode, middle) ∧
        baseCode base middle = .ok (start, middle') ∧
        function.valueCode middle' = .ok (functionCode, middle'') ∧
        HigherOrder.fold arrayCode array.type start functionCode function.type middle'' =
          .ok (code, next) ∧
        fragment = .value code := by
  rw [Form.fragment]
  cases base with
  | none =>
      simp only [bind_eq_ok, pure_eq_ok, baseCode]
      grind
  | some base =>
      simp only [bind_eq_ok, pure_eq_ok, baseCode]
      grind

theorem fragment_zip {first second function : Expr} :
    (Form.zip first second function).fragment type last = .ok (fragment, next) ↔
      ∃ firstCode middle secondCode middle' functionCode middle'' code,
        first.valueCode last = .ok (firstCode, middle) ∧
        second.valueCode middle = .ok (secondCode, middle') ∧
        function.valueCode middle' = .ok (functionCode, middle'') ∧
        HigherOrder.zip firstCode first.type secondCode second.type functionCode function.type
            middle'' =
          .ok (code, next) ∧
        fragment = .value code := by
  rw [Form.fragment]
  simp only [bind_eq_ok, pure_eq_ok]
  grind

end Form

theorem exprFragments_nil {fragments : List Fragment} :
    exprFragments [] last = .ok (fragments, next) ↔ fragments = [] ∧ next = last := by
  rw [exprFragments, pure_eq_ok]

theorem exprFragments_cons {expression : Expr} {rest : List Expr} {fragments : List Fragment} :
    exprFragments (expression :: rest) last = .ok (fragments, next) ↔
      ∃ fragment middle others, expression.fragment last = .ok (fragment, middle) ∧
        exprFragments rest middle = .ok (others, next) ∧ fragments = fragment :: others := by
  rw [exprFragments]
  simp only [bind_eq_ok, pure_eq_ok]
  grind

theorem exprValueCodes_nil {values : List Code} :
    exprValueCodes [] last = .ok (values, next) ↔ values = [] ∧ next = last := by
  rw [exprValueCodes, pure_eq_ok]

theorem exprValueCodes_cons {expression : Expr} {rest : List Expr} {values : List Code} :
    exprValueCodes (expression :: rest) last = .ok (values, next) ↔
      ∃ value middle others, expression.valueCode last = .ok (value, middle) ∧
        exprValueCodes rest middle = .ok (others, next) ∧ values = value :: others := by
  rw [exprValueCodes]
  simp only [bind_eq_ok, pure_eq_ok]
  grind

theorem length_exprValueCodes {expressions : List Expr} {values : List Code}
    (generated : exprValueCodes expressions last = .ok (values, next)) :
    values.length = expressions.length := by
  induction expressions generalizing last values with
  | nil =>
      obtain ⟨rfl, rfl⟩ := exprValueCodes_nil.mp generated
      rfl
  | cons expression rest induction =>
      obtain ⟨value, middle, others, _, restMade, rfl⟩ := exprValueCodes_cons.mp generated
      rw [List.length_cons, List.length_cons, induction restMade]

end

/-! ## Statements -/

section

variable {surroundings : Surroundings} {last next : Nat} {code : Code}

namespace PrintItem

theorem code_expression {expression : Expr} :
    (PrintItem.expression expression).code last = .ok (code, next) ↔
      ∃ value middle print, expression.valueCode last = .ok (value, middle) ∧
        Printing.value expression.type middle = .ok (print, next) ∧ code = value ++ print := by
  rw [PrintItem.code]
  simp only [bind_eq_ok, pure_eq_ok]
  grind

theorem code_newline :
    PrintItem.newline.code last = .ok (code, next) ↔
      code = Printing.printText Cell.newlineText ∧ next = last := by
  rw [PrintItem.code, pure_eq_ok]

theorem code_space :
    PrintItem.space.code last = .ok (code, next) ↔
      code = Printing.printText Cell.spaceText ∧ next = last := by
  rw [PrintItem.code, pure_eq_ok]

theorem code_tab :
    PrintItem.tab.code last = .ok (code, next) ↔
      code = Printing.printText Cell.tabText ∧ next = last := by
  rw [PrintItem.code, pure_eq_ok]

end PrintItem

theorem printItemsCode_nil :
    printItemsCode [] last = .ok (code, next) ↔ code = [] ∧ next = last := by
  rw [printItemsCode, pure_eq_ok]

theorem printItemsCode_cons {item : PrintItem} {rest : List PrintItem} :
    printItemsCode (item :: rest) last = .ok (code, next) ↔
      ∃ first middle others, item.code last = .ok (first, middle) ∧
        printItemsCode rest middle = .ok (others, next) ∧ code = first ++ others := by
  rw [printItemsCode]
  simp only [bind_eq_ok, pure_eq_ok]
  grind

namespace Statement

theorem code_declaration {binding : Binding} {value : Expr} :
    (Statement.declaration binding value false).code surroundings last = .ok (code, next) ↔
      ∃ address valueCode store, binding.addressCode = .ok address ∧
        value.valueCode last = .ok (valueCode, next) ∧ binding.type.store = .ok store ∧
        code = address ++ valueCode ++ store := by
  rw [Statement.code]
  simp only [bind_eq_ok, pure_eq_ok, lift_eq_ok]
  grind

theorem code_static {binding : Binding} {value : Expr} :
    (Statement.declaration binding value true).code surroundings last = .ok (code, next) ↔
      ∃ flag address valueCode store, binding.flagAddressCode = .ok flag ∧
        binding.addressCode = .ok address ∧ value.valueCode (last + 1) = .ok (valueCode, next) ∧
        binding.type.store = .ok store ∧
        code = guardStatic (LabelGroup.label ⟨"static", last + 1⟩ "skip") flag
          (address ++ valueCode ++ store) := by
  rw [Statement.code]
  simp only [bind_eq_ok, pure_eq_ok, lift_eq_ok, freshLabels_eq_ok]
  constructor
  · rintro ⟨labels, _, ⟨rfl, rfl⟩, flag, _, ⟨flagged, rfl⟩, address, _, ⟨addressed, rfl⟩,
      valueCode, _, generated, store, _, ⟨stored, rfl⟩, rfl, rfl⟩
    exact ⟨flag, address, valueCode, store, flagged, addressed, generated, stored, rfl⟩
  · rintro ⟨flag, address, valueCode, store, flagged, addressed, generated, stored, rfl⟩
    exact ⟨_, _, ⟨rfl, rfl⟩, flag, _, ⟨flagged, rfl⟩, address, _, ⟨addressed, rfl⟩, valueCode, _,
      generated, store, _, ⟨stored, rfl⟩, rfl, rfl⟩

theorem code_assignment {target value : Expr} :
    (Statement.assignment target value).code surroundings last = .ok (code, next) ↔
      ∃ address middle valueCode store, target.fragment last = .ok (address, middle) ∧
        address.isAddress = true ∧ value.valueCode middle = .ok (valueCode, next) ∧
        target.type.store = .ok store ∧ code = address.code ++ valueCode ++ store := by
  rw [Statement.code]
  simp only [bind_eq_ok]
  constructor
  · rintro ⟨address, middle, targeted, rest⟩
    split at rest
    · rename_i isAddress
      simp only [bind_eq_ok, pure_eq_ok, lift_eq_ok] at rest
      obtain ⟨valueCode, _, generated, store, _, ⟨stored, rfl⟩, rfl, rfl⟩ := rest
      exact ⟨address, middle, valueCode, store, targeted, isAddress, generated, stored, rfl⟩
    · simp only [bind_eq_ok, throw_eq_ok] at rest
      obtain ⟨_, _, impossible, _⟩ := rest
      exact impossible.elim
  · rintro ⟨address, middle, valueCode, store, targeted, isAddress, generated, stored, rfl⟩
    refine ⟨address, middle, targeted, ?_⟩
    rw [if_pos isAddress]
    simp only [bind_eq_ok, pure_eq_ok, lift_eq_ok]
    exact ⟨valueCode, next, generated, store, next, ⟨stored, rfl⟩, rfl, rfl⟩

theorem code_print {items : List PrintItem} :
    (Statement.print items).code surroundings last = .ok (code, next) ↔
      printItemsCode items last = .ok (code, next) := by
  rw [Statement.code]

/-- The code of the other branch; a missing one is empty. -/
def elseCode (surroundings : Surroundings) : Option (List Statement) → Generation Code
  | none => pure []
  | some statements => blockCode surroundings statements

/-- The code of a conditional around that of its parts. -/
def branchCode (labels : LabelGroup) (condition thenCode elseCode : Code) : Code :=
  Code.join [condition, [.jumpFalse (labels.label "else")], thenCode,
    [.jump (labels.label "join"), .label (labels.label "else")], elseCode,
    [.label (labels.label "join")]]

theorem code_ifElse {condition : Expr} {thenBlock : List Statement}
    {elseBlock : Option (List Statement)} :
    (Statement.ifElse condition thenBlock elseBlock).code surroundings last = .ok (code, next) ↔
      ∃ conditionCode middle thenCode middle' otherCode,
        condition.valueCode (last + 1) = .ok (conditionCode, middle) ∧
        blockCode surroundings thenBlock middle = .ok (thenCode, middle') ∧
        elseCode surroundings elseBlock middle' = .ok (otherCode, next) ∧
        code = branchCode ⟨"if", last + 1⟩ conditionCode thenCode otherCode := by
  rw [Statement.code]
  cases elseBlock with
  | none =>
      simp only [bind_eq_ok, pure_eq_ok, freshLabels_eq_ok, elseCode, branchCode]
      grind
  | some statements =>
      simp only [bind_eq_ok, pure_eq_ok, freshLabels_eq_ok, elseCode, branchCode]
      grind

/-- The code of a loop around that of its parts. -/
def loopCode (labels : LabelGroup) (condition body : Code) : Code :=
  Code.join [[.label (labels.label "start")], condition, [.jumpFalse (labels.label "end")], body,
    [.jump (labels.label "start"), .label (labels.label "end")]]

theorem code_while {condition : Expr} {body : List Statement} :
    (Statement.while condition body).code surroundings last = .ok (code, next) ↔
      ∃ conditionCode middle bodyCode,
        condition.valueCode (last + 1) = .ok (conditionCode, middle) ∧
        blockCode
            (surroundings.enterLoop ⟨LabelGroup.label ⟨"while", last + 1⟩ "start",
              LabelGroup.label ⟨"while", last + 1⟩ "end", none⟩) body middle =
          .ok (bodyCode, next) ∧
        code = loopCode ⟨"while", last + 1⟩ conditionCode bodyCode := by
  rw [Statement.code]
  simp only [bind_eq_ok, pure_eq_ok, freshLabels_eq_ok, loopCode]
  grind

theorem code_for {kind : ForKind} {loopVariable : Binding} {sequence : Expr}
    {body : List Statement} :
    (Statement.for kind loopVariable sequence body).code surroundings last = .ok (code, next) ↔
      ∃ layout address sequenceCode middle current store bodyCode,
        sequence.type.sequenceLayout = .ok layout ∧ loopVariable.addressCode = .ok address ∧
        sequence.valueCode (last + 1) = .ok (sequenceCode, middle) ∧
        ForLoop.current kind layout loopVariable.type = .ok current ∧
        loopVariable.type.store = .ok store ∧
        blockCode
            (surroundings.enterLoop ⟨LabelGroup.label ⟨"for", last + 1⟩ "continue",
              LabelGroup.label ⟨"for", last + 1⟩ "end", some ForLoop.bracket⟩) body middle =
          .ok (bodyCode, next) ∧
        code = Code.join [ForLoop.setUp address sequenceCode layout,
          ForLoop.advance ⟨"for", last + 1⟩ current store, bodyCode,
          ForLoop.finish ⟨"for", last + 1⟩] := by
  rw [Statement.code]
  simp only [bind_eq_ok, pure_eq_ok, lift_eq_ok, freshLabels_eq_ok]
  constructor
  · rintro ⟨layout, _, ⟨laid, rfl⟩, labels, _, ⟨rfl, rfl⟩, address, _, ⟨addressed, rfl⟩,
      sequenceCode, middle, generated, current, _, ⟨found, rfl⟩, store, _, ⟨stored, rfl⟩,
      bodyCode, _, repeated, rfl, rfl⟩
    exact ⟨layout, address, sequenceCode, _, current, store, bodyCode, laid, addressed,
      generated, found, stored, repeated, rfl⟩
  · rintro ⟨layout, address, sequenceCode, middle, current, store, bodyCode, laid, addressed,
      generated, found, stored, repeated, rfl⟩
    exact ⟨layout, _, ⟨laid, rfl⟩, _, _, ⟨rfl, rfl⟩, address, _, ⟨addressed, rfl⟩, sequenceCode,
      _, generated, current, _, ⟨found, rfl⟩, store, _, ⟨stored, rfl⟩, bodyCode, _, repeated,
      rfl, rfl⟩

theorem code_break :
    Statement.break.code surroundings last = .ok (code, next) ↔
      ∃ context, surroundings.innermostLoop = .ok context ∧ code = [.jump context.endLabel] ∧
        next = last := by
  rw [Statement.code]
  simp only [bind_eq_ok, pure_eq_ok, lift_eq_ok]
  grind

theorem code_continue :
    Statement.continue.code surroundings last = .ok (code, next) ↔
      ∃ context, surroundings.innermostLoop = .ok context ∧
        code = [.jump context.continueLabel] ∧ next = last := by
  rw [Statement.code]
  simp only [bind_eq_ok, pure_eq_ok, lift_eq_ok]
  grind

/-- The slot and the value of a return statement, if it has a value. -/
def returnedCode (surroundings : Surroundings) : Option Expr → Generation Code
  | none => pure []
  | some value => do
      let slot ← Frame.returnSlot surroundings.parameterSize surroundings.result
      let valueCode ← value.valueCode
      return slot ++ valueCode

theorem code_return {value : Option Expr} :
    (Statement.return value).code surroundings last = .ok (code, next) ↔
      ∃ exit result, surroundings.returnLabel = some exit ∧
        returnedCode surroundings value last = .ok (result, next) ∧
        code = surroundings.unwind ++ result ++ [.jump exit] := by
  rw [Statement.code]
  cases surroundings.returnLabel with
  | none => simp [throw_eq_ok]
  | some exit =>
      cases value with
      | none =>
          simp only [bind_eq_ok, pure_eq_ok, returnedCode]
          grind
      | some value =>
          simp only [bind_eq_ok, pure_eq_ok, lift_eq_ok, returnedCode]
          grind

theorem code_call {invocation : Expr} :
    (Statement.call invocation).code surroundings last = .ok (code, next) ↔
      ∃ value, invocation.valueCode last = .ok (value, next) ∧
        code = value ++ invocation.type.discard := by
  rw [Statement.code]
  simp only [bind_eq_ok, pure_eq_ok]
  grind

theorem code_release {value : Expr} :
    (Statement.release value).code surroundings last = .ok (code, next) ↔
      ∃ valueCode, value.valueCode last = .ok (valueCode, next) ∧
        code = valueCode ++ [.call Entry.discardRecord] := by
  rw [Statement.code]
  simp only [bind_eq_ok, pure_eq_ok]
  grind

theorem code_block {statements : List Statement} :
    (Statement.block statements).code surroundings last = .ok (code, next) ↔
      blockCode surroundings statements last = .ok (code, next) := by
  rw [Statement.code]

end Statement

theorem blockCode_nil :
    blockCode surroundings [] last = .ok (code, next) ↔ code = [] ∧ next = last := by
  rw [blockCode, pure_eq_ok]

theorem blockCode_cons {statement : Statement} {rest : List Statement} :
    blockCode surroundings (statement :: rest) last = .ok (code, next) ↔
      ∃ first middle others, statement.code surroundings last = .ok (first, middle) ∧
        blockCode surroundings rest middle = .ok (others, next) ∧ code = first ++ others := by
  rw [blockCode]
  simp only [bind_eq_ok, pure_eq_ok]
  grind

end

end StackBackend
