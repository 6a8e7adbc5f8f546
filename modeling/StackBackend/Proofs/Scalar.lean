import Mathlib.Data.List.Forall2
import StackBackend.Proofs.Assembling
import StackBackend.Proofs.Evaluation

namespace StackBackend

/-! Programs of scalars: booleans, characters and integers in global variables, with
arithmetic, comparisons, truth operators, conditionals, `while` loops and printing. All
of them have code, and the code can be assembled with and without the heap manager. -/

open Generation Code

/-! ## The language -/

def Ty.IsScalar : Ty → Prop
  | .boolean | .character | .integer => True
  | _ => False

/-- The operators that take the values of all their operands, with their types. -/
inductive Signature.HasType : Signature → List Ty → Ty → Prop
  | add : HasType (.instruction .add) [.integer, .integer] .integer
  | subtract : HasType (.instruction .subtract) [.integer, .integer] .integer
  | multiply : HasType (.instruction .multiply) [.integer, .integer] .integer
  | negate : HasType (.instruction .negate) [.integer] .integer
  | divide : HasType (.snippet .integerDivide) [.integer, .integer] .integer
  | toCharacter : HasType (.snippet .integerToCharacter) [.integer] .character
  | toBoolean : HasType (.snippet .integerToBoolean) [.integer] .boolean

/-- The two operators that may leave out their right operand. -/
def Composer.IsTruth (composer : Composer) : Prop :=
  composer = .shortCircuitAnd ∨ composer = .shortCircuitOr

/-- Well-typed expressions over some bindings. -/
inductive Expr.IsScalar (bindings : List Binding) : Expr → Prop
  | boolean (value : Bool) : IsScalar bindings (.typed .boolean (.boolean value))
  | character (value : UInt8) : IsScalar bindings (.typed .character (.character value))
  | integer (value : Int32) : IsScalar bindings (.typed .integer (.integer value))
  | identifier {binding : Binding} (known : binding ∈ bindings) :
      IsScalar bindings (.typed binding.type (.identifier binding))
  | operation {signature : Signature} {operands : List Expr} {types : List Ty} {type : Ty}
      (typed : signature.HasType types type) (operandTypes : operands.map Expr.type = types)
      (scalar : ∀ operand ∈ operands, IsScalar bindings operand) :
      IsScalar bindings (.typed type (.operation signature operands))
  | truth {composer : Composer} {left right : Expr} (isTruth : composer.IsTruth)
      (leftType : left.type = .boolean) (rightType : right.type = .boolean)
      (leftScalar : IsScalar bindings left) (rightScalar : IsScalar bindings right) :
      IsScalar bindings (.typed .boolean (.operation (.full composer) [left, right]))
  | comparison {relation : Relation} {left right : Expr} (same : left.type = right.type)
      (leftScalar : IsScalar bindings left) (rightScalar : IsScalar bindings right) :
      IsScalar bindings (.typed .boolean (.comparison relation left right))

/-- Well-typed statements; only inside a loop may they leave one. -/
inductive Statement.IsScalar (bindings : List Binding) : Bool → Statement → Prop
  | declaration {inLoop : Bool} {binding : Binding} {value : Expr} (known : binding ∈ bindings)
      (scalar : value.IsScalar bindings) (typed : value.type = binding.type) :
      IsScalar bindings inLoop (.declaration binding value false)
  | assignment {inLoop : Bool} {binding : Binding} {value : Expr} (known : binding ∈ bindings)
      (scalar : value.IsScalar bindings) (typed : value.type = binding.type) :
      IsScalar bindings inLoop (.assignment (.typed binding.type (.identifier binding)) value)
  | print {inLoop : Bool} {items : List PrintItem}
      (scalar : ∀ value, .expression value ∈ items → value.IsScalar bindings) :
      IsScalar bindings inLoop (.print items)
  | ifElse {inLoop : Bool} {condition : Expr} {thenBlock : List Statement}
      {elseBlock : Option (List Statement)} (scalar : condition.IsScalar bindings)
      (typed : condition.type = .boolean)
      (thenScalar : ∀ statement ∈ thenBlock, IsScalar bindings inLoop statement)
      (elseScalar : ∀ statement ∈ elseBlock.getD [], IsScalar bindings inLoop statement) :
      IsScalar bindings inLoop (.ifElse condition thenBlock elseBlock)
  | while {inLoop : Bool} {condition : Expr} {body : List Statement}
      (scalar : condition.IsScalar bindings) (typed : condition.type = .boolean)
      (bodyScalar : ∀ statement ∈ body, IsScalar bindings true statement) :
      IsScalar bindings inLoop (.while condition body)
  | break : IsScalar bindings true .break
  | continue : IsScalar bindings true .continue
  | block {inLoop : Bool} {statements : List Statement}
      (scalar : ∀ statement ∈ statements, IsScalar bindings inLoop statement) :
      IsScalar bindings inLoop (.block statements)

/-- Where a variable begins in the global block. -/
def Binding.start (binding : Binding) : Nat :=
  Address.index binding.location.offset

/-- The bindings are scalars at different places of a global block of the given size.
Bindings of the same place stand for the same variable. -/
structure Laid (bindings : List Binding) (size : Int32) : Prop where
  global : ∀ binding ∈ bindings, ∃ offset, binding.location = .global offset
  scalar : ∀ binding ∈ bindings, binding.type.IsScalar
  nonnegative : ∀ binding ∈ bindings, 0 ≤ binding.location.offset.toInt
  inside : ∀ binding ∈ bindings, ((binding.start + binding.type.width : Nat) : Int) ≤ size.toInt
  apart : ∀ first ∈ bindings, ∀ second ∈ bindings,
    (first.location.offset = second.location.offset ∧ first.type = second.type) ∨
      first.start + first.type.width ≤ second.start ∨
      second.start + second.type.width ≤ first.start

structure Program.IsScalar (program : Program) (bindings : List Binding) : Prop where
  laid : Laid bindings program.globalSize
  nonnegative : 0 ≤ program.globalSize
  body : ∀ statement ∈ program.body, statement.IsScalar bindings false

/-! ## Generation succeeds -/

namespace Generation

variable {α β : Type}

/-- Generation succeeds wherever it starts, with a result that has the property. -/
def Yields (generation : Generation α) (property : α → Prop) : Prop :=
  ∀ last, ∃ value next, generation last = .ok (value, next) ∧ property value

theorem Yields.bind {first : Generation α} {rest : α → Generation β} {between : α → Prop}
    {property : β → Prop} (yields : Yields first between)
    (later : ∀ value, between value → Yields (rest value) property) :
    Yields (first >>= rest) property := by
  intro last
  obtain ⟨value, middle, made, known⟩ := yields last
  obtain ⟨result, next, done, holds⟩ := later value known middle
  exact ⟨result, next, bind_eq_ok.mpr ⟨value, middle, made, done⟩, holds⟩

theorem yields_pure {value : α} {property : α → Prop} (holds : property value) :
    Yields (pure value) property :=
  fun last => ⟨value, last, rfl, holds⟩

theorem yields_lift {checked : Except Defect α} {value : α} {property : α → Prop}
    (made : checked = .ok value) (holds : property value) :
    Yields (liftM checked) property :=
  fun last => ⟨value, last, lift_eq_ok.mpr ⟨made, rfl⟩, holds⟩

theorem yields_freshLabels (stem : String) :
    Yields (freshLabels stem) fun labels => ∃ serial, labels = ⟨stem, serial + 1⟩ :=
  fun last => ⟨_, _, rfl, last, rfl⟩

end Generation

namespace Code

/-- The code refers to none of the labels of the heap. -/
def HeapFree (code : Code) : Prop :=
  ∀ instruction ∈ code, ∀ name, instruction.labelOperand? = some name →
    name ∉ Environment.heapEntries

@[simp] theorem heapFree_nil : HeapFree [] ↔ True := by simp [HeapFree]

@[simp] theorem heapFree_append {first second : Code} :
    HeapFree (first ++ second) ↔ HeapFree first ∧ HeapFree second := by
  simp [HeapFree, or_imp, forall_and]

theorem heapFree_cons {instruction : Instruction} {rest : Code} :
    HeapFree (instruction :: rest) ↔
      (∀ name, instruction.labelOperand? = some name → name ∉ Environment.heapEntries) ∧
        HeapFree rest := by
  simp [HeapFree]

/-- What resolves with the labels of the heap resolves without them. -/
theorem HeapFree.resolves {code : Code} (heapFree : code.HeapFree)
    (resolves : code.Resolves (code.directory Environment.heapEntries)) :
    code.Resolves (code.directory []) := by
  intro instruction member
  have known : ∀ name, instruction.labelOperand? = some name →
      (code.directory Environment.heapEntries).code name → (code.directory []).code name :=
    fun name names known => .inl (known.resolve_right (heapFree instruction member name names))
  have resolved := resolves instruction member
  cases instruction with
  | pushD name => exact resolved.imp_left (known name rfl)
  | dataD name => exact resolved.imp_left (known name rfl)
  | label name => trivial
  | dataLabel name => trivial
  | dataZ size => exact resolved
  | _ => exact fun name names => known name names (resolved name names)

/-- Labels of the heap carry no serial number. -/
theorem label_not_heapEntry (stem : String) (plain : stem.toList.all (!·.isDigit) = true)
    (serial : Nat) (suffix : String) :
    LabelGroup.label ⟨stem, serial + 1⟩ suffix ∉ Environment.heapEntries := by
  have free : ∀ entry ∈ Environment.heapEntries, LabelGroup.digitFree entry = true := by
    decide
  intro member
  have zero := LabelGroup.serialOf_of_digitFree (free _ member)
  rw [LabelGroup.serialOf_label plain] at zero
  exact Nat.succ_ne_zero serial zero

end Code

/-! ### Expressions -/

section

attribute [local simp] heapFree_cons Instruction.labelOperand? Instruction.operand

/-- A fragment whose value can be taken, without the heap. -/
def Fragment.Usable (type : Ty) (fragment : Fragment) : Prop :=
  ∃ code, fragment.valueCode type = .ok code ∧ code.HeapFree

theorem Fragment.usable_value {type : Ty} {code : Code} (heapFree : code.HeapFree) :
    (Fragment.value code).Usable type :=
  ⟨code, rfl, heapFree⟩

theorem Ty.IsScalar.cases {type : Ty} (scalar : type.IsScalar) :
    type = .boolean ∨ type = .character ∨ type = .integer := by
  cases type with
  | boolean => exact .inl rfl
  | character => exact .inr (.inl rfl)
  | integer => exact .inr (.inr rfl)
  | _ => exact scalar.elim

theorem Ty.IsScalar.isVoid {type : Ty} (scalar : type.IsScalar) : type.isVoid = false := by
  obtain rfl | rfl | rfl := scalar.cases <;> rfl

theorem Ty.IsScalar.store {type : Ty} (scalar : type.IsScalar) :
    type.store = .ok type.storeCode := by
  obtain rfl | rfl | rfl := scalar.cases <;> rfl

theorem Ty.IsScalar.heapFree {type : Ty} (scalar : type.IsScalar) :
    type.loadCode.HeapFree ∧ type.storeCode.HeapFree := by
  obtain rfl | rfl | rfl := scalar.cases <;> simp [Ty.loadCode, Ty.storeCode]

/-- `[] -> [address]` for a global variable. -/
def Binding.globalAddressCode (binding : Binding) : Code :=
  [.pushD Cell.globalBlock, .pushI binding.location.offset, .add]

theorem Laid.addressCode {bindings : List Binding} {size : Int32} (laid : Laid bindings size)
    {binding : Binding} (known : binding ∈ bindings) :
    binding.addressCode = .ok binding.globalAddressCode := by
  obtain ⟨offset, location⟩ := laid.global binding known
  have sum : Checked.add offset 0 = .ok offset := Checked.add_eq_ok.mpr (by simp)
  rw [Binding.addressCode, Location.addressCode, Binding.globalAddressCode, location]
  simp [Location.offset, sum, bind, Except.bind, pure, Except.pure]

theorem Binding.heapFree_globalAddressCode (binding : Binding) :
    binding.globalAddressCode.HeapFree := by
  have other : Cell.globalBlock ∉ Environment.heapEntries := by decide
  simp [globalAddressCode, other]

theorem Expr.IsScalar.isScalar_type {bindings : List Binding} {size : Int32}
    (laid : Laid bindings size) {expression : Expr} (scalar : expression.IsScalar bindings) :
    expression.type.IsScalar := by
  cases scalar with
  | identifier known => exact laid.scalar _ known
  | operation typed _ _ => cases typed <;> trivial
  | _ => trivial

theorem Expr.yields_valueCode {expression : Expr}
    (yields : Yields expression.fragment (Fragment.Usable expression.type)) :
    Yields expression.valueCode HeapFree := by
  cases expression with
  | typed type form =>
      refine yields.bind fun fragment usable => ?_
      obtain ⟨code, value, heapFree⟩ := usable
      exact yields_lift value heapFree

theorem yields_exprValueCodes {operands : List Expr}
    (yields : ∀ operand ∈ operands, Yields operand.valueCode HeapFree) :
    Yields (exprValueCodes operands) fun values => HeapFree values.flatten := by
  induction operands with
  | nil => exact yields_pure (heapFree_nil.mpr trivial)
  | cons operand rest induction =>
      obtain ⟨first, others⟩ := List.forall_mem_cons.mp yields
      refine first.bind fun code heapFree => (induction others).bind fun values othersFree => ?_
      exact yields_pure (heapFree_append.mpr ⟨heapFree, othersFree⟩)

theorem Signature.HasType.yields {signature : Signature} {types : List Ty} {type : Ty}
    (typed : signature.HasType types type) {operands : List Expr}
    (yields : Yields (exprValueCodes operands) fun values => HeapFree values.flatten) :
    Yields (Form.fragment type (.operation signature operands)) (Fragment.Usable type) := by
  have heapFree : ∀ {values : List Code} {code : Code}, HeapFree values.flatten → HeapFree code →
      (Fragment.value (values.flatten ++ code)).Usable type := fun first second =>
    Fragment.usable_value (heapFree_append.mpr ⟨first, second⟩)
  cases typed with
  | divide =>
      have other : Fault.integerDivideByZero.handler ∉ Environment.heapEntries := by decide
      refine yields.bind fun values free => Yields.bind (yields_pure rfl) fun code same => ?_
      subst same
      exact yields_pure (heapFree free (by simp [Arithmetic.integerDivide, other]))
  | toCharacter | toBoolean =>
      refine yields.bind fun values free => Yields.bind (yields_pure rfl) fun code same => ?_
      subst same
      exact yields_pure (heapFree free (by simp))
  | _ => exact yields.bind fun values free => yields_pure (heapFree free (by simp))

theorem Composer.yields_shortCircuit {stem : String} {decides : String → Instruction}
    {left right : Fragment} (plain : stem.toList.all (!·.isDigit) = true)
    (jumps : ∀ target, (decides target).labelOperand? = some target)
    (leftUsable : left.Usable .boolean) (rightUsable : right.Usable .boolean) :
    Yields (shortCircuit stem decides left right) (Fragment.Usable .boolean) := by
  obtain ⟨leftCode, leftValue, leftFree⟩ := leftUsable
  obtain ⟨rightCode, rightValue, rightFree⟩ := rightUsable
  refine (yields_freshLabels stem).bind fun labels ⟨serial, same⟩ => ?_
  refine (yields_lift leftValue rfl).bind fun _ leftSame => ?_
  refine (yields_lift rightValue rfl).bind fun _ rightSame => ?_
  subst leftSame rightSame same
  have other := label_not_heapEntry stem plain serial "join"
  have decided : HeapFree [.duplicate, decides (LabelGroup.label ⟨stem, serial + 1⟩ "join"),
      .pop] := by
    intro instruction member name names
    simp only [List.mem_cons, List.not_mem_nil, or_false] at member
    obtain rfl | rfl | rfl := member
    · cases names
    · rw [jumps] at names
      cases names
      exact other
    · cases names
  have joined : HeapFree [.label (LabelGroup.label ⟨stem, serial + 1⟩ "join")] := by
    simp [other]
  exact yields_pure (Fragment.usable_value (by
    simp only [Code.join_cons, Code.join_nil, heapFree_append]
    exact ⟨leftFree, decided, rightFree, joined, heapFree_nil.mpr trivial⟩))

theorem Composer.yields_fragment {composer : Composer} (isTruth : composer.IsTruth)
    {left right : Fragment} (leftUsable : left.Usable .boolean)
    (rightUsable : right.Usable .boolean) (types : List Ty) :
    Yields (composer.fragment [left, right] types) (Fragment.Usable .boolean) := by
  have operands : lastTwo [left, right] = .ok (left, right) := rfl
  refine Yields.bind (yields_lift operands rfl) fun _ same => ?_
  subst same
  obtain rfl | rfl := isTruth
  · exact yields_shortCircuit (by decide) (fun _ => rfl) leftUsable rightUsable
  · exact yields_shortCircuit (by decide) (fun _ => rfl) leftUsable rightUsable

theorem Comparison.heapFree_branch (relation : Relation) {first second : String}
    (firstOther : first ∉ Environment.heapEntries)
    (secondOther : second ∉ Environment.heapEntries) :
    (branch relation false first second).HeapFree := by
  cases relation <;>
    simp [branch, jumpIfPositive, jumpIfNegative, jumpIfZero, firstOther, secondOther]

theorem Comparison.isFloating_of_isScalar {type : Ty} (scalar : type.IsScalar) :
    isFloating type = false := by
  obtain rfl | rfl | rfl := scalar.cases <;> rfl

theorem Comparison.difference_of_isScalar {type : Ty} (scalar : type.IsScalar) :
    difference type = .ok [.subtract] := by
  obtain rfl | rfl | rfl := scalar.cases <;> rfl

theorem Comparison.yields_code {relation : Relation} {type : Ty} (scalar : type.IsScalar)
    {left right : Code} (leftFree : left.HeapFree) (rightFree : right.HeapFree) :
    Yields (Comparison.code relation type left right) HeapFree := by
  refine (yields_freshLabels "compare").bind fun labels ⟨serial, labelled⟩ => ?_
  refine (yields_lift (difference_of_isScalar scalar) rfl).bind fun _ same => yields_pure ?_
  subst labelled
  have other := label_not_heapEntry "compare" (by decide) serial
  have branches := heapFree_branch relation (other "true") (other "false")
  rw [← same, isFloating_of_isScalar scalar]
  simp only [Code.join_cons, Code.join_nil, heapFree_append]
  simp [leftFree, rightFree, branches, other]

theorem yields_exprFragments {operands : List Expr}
    (yields : ∀ operand ∈ operands, Yields operand.fragment (Fragment.Usable operand.type)) :
    Yields (exprFragments operands) (List.Forall₂ (fun operand => Fragment.Usable operand.type)
      operands) := by
  induction operands with
  | nil => exact yields_pure .nil
  | cons operand rest induction =>
      obtain ⟨first, others⟩ := List.forall_mem_cons.mp yields
      refine first.bind fun fragment usable => (induction others).bind fun fragments usables => ?_
      exact yields_pure (.cons usable usables)

theorem Expr.IsScalar.yields_fragment {bindings : List Binding} {size : Int32}
    (laid : Laid bindings size) {expression : Expr} (scalar : expression.IsScalar bindings) :
    Yields expression.fragment (Fragment.Usable expression.type) := by
  induction scalar with
  | boolean value => exact yields_pure (Fragment.usable_value (by simp))
  | character value => exact yields_pure (Fragment.usable_value (by simp))
  | integer value => exact yields_pure (Fragment.usable_value (by simp))
  | @identifier binding known =>
      have address := laid.addressCode known
      have typed := laid.scalar binding known
      refine Yields.bind (yields_lift address rfl) fun code same => yields_pure ?_
      subst same
      refine ⟨_, Fragment.valueCode_eq_ok.mpr (.inr ⟨rfl, typed.isVoid, rfl⟩), ?_⟩
      exact heapFree_append.mpr ⟨Binding.heapFree_globalAddressCode _, typed.heapFree.1⟩
  | operation typed _ _ induction =>
      exact typed.yields (yields_exprValueCodes fun operand member =>
        Expr.yields_valueCode (induction operand member))
  | truth isTruth leftType rightType _ _ leftYields rightYields =>
      refine Yields.bind (yields_exprFragments (by simp [leftYields, rightYields]))
        fun fragments usable => ?_
      obtain _ | ⟨leftUsable, _ | ⟨rightUsable, _ | _⟩⟩ := usable
      exact Composer.yields_fragment isTruth (leftType ▸ leftUsable) (rightType ▸ rightUsable) _
  | comparison same leftScalar _ leftYields rightYields =>
      refine (Expr.yields_valueCode leftYields).bind fun left leftFree =>
        (Expr.yields_valueCode rightYields).bind fun right rightFree => ?_
      exact (Comparison.yields_code (leftScalar.isScalar_type laid) leftFree rightFree).bind
        fun code heapFree => yields_pure (Fragment.usable_value heapFree)

theorem Expr.IsScalar.yields_valueCode {bindings : List Binding} {size : Int32}
    (laid : Laid bindings size) {expression : Expr} (scalar : expression.IsScalar bindings) :
    Yields expression.valueCode HeapFree :=
  Expr.yields_valueCode (scalar.yields_fragment laid)

/-! ### Statements -/

theorem Printing.heapFree_printText {cell : String} (other : cell ∉ Environment.heapEntries) :
    (printText cell).HeapFree := by
  simp [printText, other]

theorem Printing.yields_value {type : Ty} (scalar : type.IsScalar) :
    Yields (Printing.value type) HeapFree := by
  obtain rfl | rfl | rfl := scalar.cases
  · refine (yields_freshLabels "print-boolean").bind fun labels ⟨serial, labelled⟩ => yields_pure ?_
    subst labelled
    have other := label_not_heapEntry "print-boolean" (by decide) serial
    have texts : Cell.trueText ∉ Environment.heapEntries ∧
        Cell.falseText ∉ Environment.heapEntries := by decide
    have format : (printText Cell.stringFormat).HeapFree := heapFree_printText (by decide)
    simp [Printing.boolean, other, texts, format]
  · exact yields_pure (heapFree_printText (by decide))
  · exact yields_pure (heapFree_printText (by decide))

theorem PrintItem.yields_code {bindings : List Binding} {size : Int32} (laid : Laid bindings size)
    {item : PrintItem} (scalar : ∀ value, .expression value = item → value.IsScalar bindings) :
    Yields item.code HeapFree := by
  cases item with
  | expression value =>
      have scalar := scalar value rfl
      refine (scalar.yields_valueCode laid).bind fun code heapFree => ?_
      exact (Printing.yields_value (scalar.isScalar_type laid)).bind fun print printFree =>
        yields_pure (heapFree_append.mpr ⟨heapFree, printFree⟩)
  | newline => exact yields_pure (Printing.heapFree_printText (by decide))
  | space => exact yields_pure (Printing.heapFree_printText (by decide))
  | tab => exact yields_pure (Printing.heapFree_printText (by decide))

theorem yields_printItemsCode {bindings : List Binding} {size : Int32} (laid : Laid bindings size)
    {items : List PrintItem}
    (scalar : ∀ value, .expression value ∈ items → value.IsScalar bindings) :
    Yields (printItemsCode items) HeapFree := by
  induction items with
  | nil => exact yields_pure (heapFree_nil.mpr trivial)
  | cons item rest induction =>
      refine (PrintItem.yields_code laid fun value same => scalar value (by simp [same])).bind
        fun code heapFree => ?_
      exact (induction fun value member => scalar value (by simp [member])).bind
        fun others othersFree => yields_pure (heapFree_append.mpr ⟨heapFree, othersFree⟩)

/-- A loop to leave is there where it has to be, and its labels are not of the heap. -/
def Surroundings.Allow (surroundings : Surroundings) (inLoop : Bool) : Prop :=
  inLoop = true → ∃ context, surroundings.innermostLoop = .ok context ∧
    context.continueLabel ∉ Environment.heapEntries ∧ context.endLabel ∉ Environment.heapEntries

theorem yields_blockCode {surroundings : Surroundings} {statements : List Statement}
    (yields : ∀ statement ∈ statements, Yields (statement.code surroundings) HeapFree) :
    Yields (blockCode surroundings statements) HeapFree := by
  induction statements with
  | nil => exact yields_pure (heapFree_nil.mpr trivial)
  | cons statement rest induction =>
      obtain ⟨first, others⟩ := List.forall_mem_cons.mp yields
      refine first.bind fun code heapFree => (induction others).bind fun rest restFree => ?_
      exact yields_pure (heapFree_append.mpr ⟨heapFree, restFree⟩)

theorem Binding.heapFree_storing (binding : Binding) {code : Code} (heapFree : code.HeapFree)
    (scalar : binding.type.IsScalar) :
    HeapFree (binding.globalAddressCode ++ code ++ binding.type.storeCode) :=
  heapFree_append.mpr ⟨heapFree_append.mpr ⟨Binding.heapFree_globalAddressCode _, heapFree⟩,
    scalar.heapFree.2⟩

theorem Statement.IsScalar.yields_code {bindings : List Binding} {size : Int32}
    (laid : Laid bindings size) {inLoop : Bool} {statement : Statement}
    (scalar : statement.IsScalar bindings inLoop) {surroundings : Surroundings}
    (allow : surroundings.Allow inLoop) : Yields (statement.code surroundings) HeapFree := by
  induction scalar generalizing surroundings with
  | @declaration _ binding value known valueScalar _ =>
      have store := (laid.scalar binding known).store
      refine Yields.bind (yields_lift (laid.addressCode known) rfl) fun address same => ?_
      refine (valueScalar.yields_valueCode laid).bind fun code heapFree => ?_
      refine (yields_lift store rfl).bind fun _ storeSame => yields_pure ?_
      subst same storeSame
      exact binding.heapFree_storing heapFree (laid.scalar binding known)
  | @assignment _ binding value known valueScalar _ =>
      have store := (laid.scalar binding known).store
      have address : Yields (Expr.fragment (.typed binding.type (.identifier binding)))
          (· = .address binding.globalAddressCode) :=
        Yields.bind (yields_lift (laid.addressCode known) rfl) fun _ same =>
          yields_pure (by rw [same])
      refine address.bind fun _ same => ?_
      subst same
      refine Yields.bind (valueScalar.yields_valueCode laid) fun code heapFree => ?_
      refine (yields_lift store rfl).bind fun _ storeSame => yields_pure ?_
      subst storeSame
      exact binding.heapFree_storing heapFree (laid.scalar binding known)
  | print itemsScalar => exact yields_printItemsCode laid itemsScalar
  | @ifElse _ condition thenBlock elseBlock conditionScalar _ _ _ thenYields elseYields =>
      intro last
      obtain ⟨condition, middle, conditionMade, conditionFree⟩ :=
        conditionScalar.yields_valueCode laid (last + 1)
      obtain ⟨thenCode, middle', thenMade, thenFree⟩ := yields_blockCode
        (fun statement member => thenYields statement member allow) middle
      have others : Yields (Statement.elseCode surroundings elseBlock) HeapFree := by
        cases elseBlock with
        | none => exact yields_pure (heapFree_nil.mpr trivial)
        | some statements =>
            exact yields_blockCode fun statement member => elseYields statement member allow
      obtain ⟨elseCode, next, elseMade, elseFree⟩ := others middle'
      refine ⟨_, next, Statement.code_ifElse.mpr ⟨condition, middle, thenCode, middle', elseCode,
        conditionMade, thenMade, elseMade, rfl⟩, ?_⟩
      have other : ∀ suffix, LabelGroup.label ⟨"if", last + 1⟩ suffix ∉ Environment.heapEntries :=
        label_not_heapEntry _ (by decide) last
      simp [Statement.branchCode, conditionFree, thenFree, elseFree, other]
  | «while» conditionScalar _ _ bodyYields =>
      refine (yields_freshLabels "while").bind fun labels ⟨serial, labelled⟩ => ?_
      subst labelled
      have other := label_not_heapEntry "while" (by decide) serial
      refine (conditionScalar.yields_valueCode laid).bind fun condition conditionFree => ?_
      have inside : (surroundings.enterLoop
          ⟨LabelGroup.label ⟨"while", serial + 1⟩ "start",
            LabelGroup.label ⟨"while", serial + 1⟩ "end", none⟩).Allow true :=
        fun _ => ⟨_, rfl, other "start", other "end"⟩
      refine (yields_blockCode fun statement member => bodyYields statement member inside).bind
        fun body bodyFree => yields_pure ?_
      simp [conditionFree, bodyFree, other]
  | «break» =>
      obtain ⟨context, innermost, _, other⟩ := allow rfl
      refine Yields.bind (yields_lift innermost rfl) fun _ same => yields_pure ?_
      subst same
      simp [other]
  | «continue» =>
      obtain ⟨context, innermost, other, _⟩ := allow rfl
      refine Yields.bind (yields_lift innermost rfl) fun _ same => yields_pure ?_
      subst same
      simp [other]
  | block _ yields =>
      exact yields_blockCode fun statement member => yields statement member allow

/-! ## The image

Scalar programs name no operators that could hold labels, and refer to nothing of the
heap. -/

theorem plain_exprsOperations {operands : List Expr}
    (plain : ∀ operand ∈ operands, Plain operand.operations) :
    Plain (exprsOperations operands) := by
  induction operands with
  | nil => simp [exprsOperations, Plain]
  | cons operand rest induction =>
      obtain ⟨first, others⟩ := List.forall_mem_cons.mp plain
      exact plain_append.mpr ⟨first, induction others⟩

theorem Expr.IsScalar.plain {bindings : List Binding} {expression : Expr}
    (scalar : expression.IsScalar bindings) : Plain expression.operations := by
  induction scalar with
  | @operation signature operands _ type typed _ _ induction =>
      have operandsPlain := plain_exprsOperations induction
      rw [Expr.operations]
      cases typed with
      | divide | toCharacter | toBoolean => exact operandsPlain
      | _ => exact plain_cons.mpr ⟨⟨rfl, rfl⟩, operandsPlain⟩
  | @truth _ left right _ _ _ _ _ leftPlain rightPlain =>
      have operandsPlain : Plain (exprsOperations [left, right]) :=
        plain_exprsOperations (by simp [leftPlain, rightPlain])
      exact operandsPlain
  | comparison _ _ _ leftPlain rightPlain => exact plain_append.mpr ⟨leftPlain, rightPlain⟩
  | _ => simp [Expr.operations, Form.operations, Plain]

theorem plain_printItemsOperations {bindings : List Binding} {items : List PrintItem}
    (scalar : ∀ value, .expression value ∈ items → value.IsScalar bindings) :
    Plain (printItemsOperations items) := by
  induction items with
  | nil => simp [printItemsOperations, Plain]
  | cons item rest induction =>
      refine plain_append.mpr ⟨?_, induction fun value member => scalar value (by simp [member])⟩
      cases item with
      | expression value => exact (scalar value (by simp)).plain
      | _ => simp [PrintItem.operations, Plain]

theorem plain_blockOperations {statements : List Statement}
    (plain : ∀ statement ∈ statements, Plain statement.operations) :
    Plain (blockOperations statements) := by
  induction statements with
  | nil => simp [blockOperations, Plain]
  | cons statement rest induction =>
      obtain ⟨first, others⟩ := List.forall_mem_cons.mp plain
      exact plain_append.mpr ⟨first, induction others⟩

theorem Statement.IsScalar.plain {bindings : List Binding} {inLoop : Bool} {statement : Statement}
    (scalar : statement.IsScalar bindings inLoop) : Plain statement.operations := by
  induction scalar with
  | declaration _ valueScalar _ => exact valueScalar.plain
  | assignment _ valueScalar _ => exact valueScalar.plain
  | print itemsScalar => exact plain_printItemsOperations itemsScalar
  | @ifElse _ _ _ elseBlock conditionScalar _ _ _ thenPlain elsePlain =>
      have firstPlain := plain_append.mpr
        ⟨conditionScalar.plain, plain_blockOperations thenPlain⟩
      cases elseBlock with
      | none => exact firstPlain
      | some statements => exact plain_append.mpr ⟨firstPlain, plain_blockOperations elsePlain⟩
  | «while» conditionScalar _ _ bodyPlain =>
      exact plain_append.mpr ⟨conditionScalar.plain, plain_blockOperations bodyPlain⟩
  | block _ plain => exact plain_blockOperations plain
  | _ => simp [Statement.operations, Plain]

namespace Program

variable {program : Program} {bindings : List Binding}

theorem IsScalar.plain (scalar : program.IsScalar bindings) : Plain program.operations :=
  plain_blockOperations fun statement member => (scalar.body statement member).plain

theorem heapFree_environment : (Environment.code false).HeapFree := by
  have free : ∀ instruction ∈ Environment.code false, ∀ name ∈ instruction.labelOperand?,
      name ∉ Environment.heapEntries := by decide +kernel
  exact free

theorem IsScalar.exists_code (scalar : program.IsScalar bindings) (options : CompileOptions) :
    ∃ code, program.compile options = .ok code ∧
      (options.memoryManager = false → code.HeapFree) := by
  have yields : Yields (blockCode {} program.body) HeapFree :=
    yields_blockCode fun statement member =>
      (scalar.body statement member).yields_code scalar.laid (fun inLoop => nomatch inLoop)
  obtain ⟨body, last, made, heapFree⟩ := yields 0
  refine ⟨_, compile_eq_ok.mpr ⟨_, mainCode_eq_ok.mpr ⟨body, last, made, rfl⟩, rfl⟩, fun absent => ?_⟩
  have globals : Cell.globalBlock ∉ Environment.heapEntries := by decide
  have entry : Entry.main ∉ Environment.heapEntries := by decide
  simp [absent, heapFree_environment, heapFree, globals, entry]

/-- A scalar program has an image, with and without the heap manager. -/
theorem IsScalar.exists_image (scalar : program.IsScalar bindings) (options : CompileOptions) :
    ∃ code image, program.compile options = .ok code ∧ Image.assemble code = .ok image := by
  obtain ⟨code, compiled, heapFree⟩ := scalar.exists_code options
  have resolves : code.Resolves (code.directory []) := by
    cases manager : options.memoryManager with
    | true => exact resolves_compile scalar.plain scalar.nonnegative compiled manager
    | false =>
        exact (heapFree manager).resolves (linked scalar.plain scalar.nonnegative
          (fun _ member => .inr member) compiled (introduced_directory code _))
  obtain ⟨image, assembled⟩ := Image.assemble_of_resolves
    (defines_le_one scalar.plain compiled) resolves
  exact ⟨code, image, compiled, assembled⟩

end Program

end

end StackBackend
