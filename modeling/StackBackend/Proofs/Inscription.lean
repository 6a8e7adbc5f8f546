import Mathlib.Data.List.Forall2
import StackBackend.Proofs.Numbering

namespace StackBackend

/-! What generated code takes over from its tree. The texts of string literals are laid
out as data and floating numbers are pushed, each where the tree has them. Other than
that, the code of a tree holds no data, and its labels are made of fixed words and serial
numbers. -/

/-! ## Literals -/

/-- What code repeats from a tree as it is. -/
inductive Literal where
  | text (content : String)
  | number (value : Binary64)
deriving DecidableEq

/-- The text of a literal that is one. -/
def Literal.text? : Literal → Option String
  | .text content => some content
  | .number _ => none

/-- The number of a literal that is one. -/
def Literal.number? : Literal → Option Binary64
  | .text _ => none
  | .number value => some value

/-- The number that an instruction holds. -/
def Instruction.literals : Instruction → List Literal
  | .pushF value => [.number value]
  | _ => []

/-- Of the literals of its operands, a composer repeats those of the last two. -/
def Composer.literals (operands : List (List Literal)) : List Literal :=
  (operands.drop (operands.length - 2)).flatten

mutual

/-- The literals of a tree in the order in which its code repeats them. -/
def Expr.literals : Expr → List Literal
  | .typed _ form => form.literals

def Form.literals : Form → List Literal
  | .boolean _ | .character _ | .integer _ | .identifier _ => []
  | .floating value => [.number value]
  | .string text => [.text text]
  | .operation (.instruction instruction) operands =>
      (exprsLiterals operands).flatten ++ instruction.literals
  | .operation (.snippet _) operands => (exprsLiterals operands).flatten
  | .operation (.full _) operands => Composer.literals (exprsLiterals operands)
  | .comparison _ left right => left.literals ++ right.literals
  | .populatedArray elements => (exprsLiterals elements).flatten
  | .lambda _ body _ _ => blockLiterals body
  | .invocation callee arguments => (exprsLiterals arguments).flatten ++ callee.literals
  | .map array function | .reduce array function => array.literals ++ function.literals
  | .fold array none function => array.literals ++ function.literals
  | .fold array (some base) function => array.literals ++ base.literals ++ function.literals
  | .zip first second function => first.literals ++ second.literals ++ function.literals

/-- The literals of expressions, expression by expression. -/
def exprsLiterals : List Expr → List (List Literal)
  | [] => []
  | expression :: rest => expression.literals :: exprsLiterals rest

def PrintItem.literals : PrintItem → List Literal
  | .expression expression => expression.literals
  | .newline | .space | .tab => []

def printItemsLiterals : List PrintItem → List Literal
  | [] => []
  | item :: rest => item.literals ++ printItemsLiterals rest

def Statement.literals : Statement → List Literal
  | .declaration _ value _ => value.literals
  | .assignment target value => target.literals ++ value.literals
  | .print items => printItemsLiterals items
  | .ifElse condition thenBlock none => condition.literals ++ blockLiterals thenBlock
  | .ifElse condition thenBlock (some elseBlock) =>
      condition.literals ++ blockLiterals thenBlock ++ blockLiterals elseBlock
  | .while condition body => condition.literals ++ blockLiterals body
  | .for _ _ sequence body => sequence.literals ++ blockLiterals body
  | .break | .continue | .return none => []
  | .return (some value) => value.literals
  | .call invocation => invocation.literals
  | .release value => value.literals
  | .block statements => blockLiterals statements

def blockLiterals : List Statement → List Literal
  | [] => []
  | statement :: rest => statement.literals ++ blockLiterals rest

end

namespace Program

/-- The texts of the string literals of a program. -/
def texts (program : Program) : List String :=
  (blockLiterals program.body).filterMap Literal.text?

/-- The floating numbers of a program. -/
def numbers (program : Program) : List Binary64 :=
  (blockLiterals program.body).filterMap Literal.number?

end Program

/-! ## Inscriptions -/

/-- Whether the instruction lays something out or holds a number. -/
def Instruction.isInscribed : Instruction → Bool
  | .pushF _ => true
  | instruction => instruction.isDirective

/-- The characters stand in a listing as they are, wherever they stand. -/
def isPlainText (characters : List Char) : Bool :=
  characters.all fun character => character ∉ [' ', '\t', '\n', '\r', '%', '"']

/-- The data of a string literal. -/
def Record.literalData (label text : String) : Code :=
  [.dataLabel label, .dataI stringTypeId, .dataI stringLiteralStatus,
    .dataI (Int32.ofNat text.utf8ByteSize), .dataS text]

namespace Code

/-- The labels, data and numbers of code. -/
def inscription (code : Code) : Code :=
  code.filter Instruction.isInscribed

/-- What the code of a tree with the literals lays out: the literals, and labels of its
own between them. -/
inductive Inscribes : List Literal → Code → Prop
  | nil : Inscribes [] []
  | label {literals : List Literal} {rest : Code} {stem suffix : String} {serial : Nat}
      (plain : isPlainText (stem.toList ++ suffix.toList) = true)
      (others : Inscribes literals rest) :
      Inscribes literals (.label (LabelGroup.label ⟨stem, serial⟩ suffix) :: rest)
  | text {literals : List Literal} {rest : Code} (serial : Nat) (text : String)
      (others : Inscribes literals rest) :
      Inscribes (.text text :: literals)
        (Record.literalData (LabelGroup.label ⟨"string", serial⟩ "literal") text ++ rest)
  | number {literals : List Literal} {rest : Code} (value : Binary64)
      (others : Inscribes literals rest) :
      Inscribes (.number value :: literals) (.pushF value :: rest)

namespace Inscribes

variable {literals others : List Literal} {first second : Code}

theorem append (left : Inscribes literals first) (right : Inscribes others second) :
    Inscribes (literals ++ others) (first ++ second) := by
  induction left with
  | nil => exact right
  | label plain _ induction => exact .label plain induction
  | text serial text _ induction =>
      rw [List.append_assoc]
      exact .text serial text induction
  | number value _ induction => exact .number value induction

/-- Labels after the last literal. -/
theorem before (left : Inscribes literals first) (right : Inscribes [] second) :
    Inscribes literals (first ++ second) := by
  have whole := left.append right
  rwa [List.append_nil] at whole

end Inscribes

/-! ## Pieces that lay out nothing -/

@[simp] theorem inscription_nil : inscription [] = [] := rfl

@[simp] theorem inscription_append (first second : Code) :
    inscription (first ++ second) = inscription first ++ inscription second :=
  List.filter_append ..

@[simp] theorem inscription_cons (instruction : Instruction) (rest : Code) :
    inscription (instruction :: rest) =
      if instruction.isInscribed then instruction :: inscription rest else inscription rest :=
  List.filter_cons ..

attribute [local simp] Instruction.isInscribed Instruction.isDirective

@[simp] theorem inscription_loadWord (cell : String) : inscription (loadWord cell) = [] := rfl

@[simp] theorem inscription_storeWord (cell : String) : inscription (storeWord cell) = [] := rfl

@[simp] theorem inscription_increment (cell : String) : inscription (increment cell) = [] := rfl

@[simp] theorem inscription_addOffset (offset : Int32) : inscription (addOffset offset) = [] := by
  unfold addOffset
  split <;> rfl

@[simp] theorem inscription_readWord (offset : Int32) : inscription (readWord offset) = [] := by
  simp [readWord]

@[simp] theorem inscription_writeWord (offset : Int32) : inscription (writeWord offset) = [] := by
  unfold writeWord
  split <;> rfl

@[simp] theorem inscription_loadCode (type : Ty) : inscription type.loadCode = [] := by
  cases type <;> rfl

@[simp] theorem inscription_storeCode (type : Ty) : inscription type.storeCode = [] := by
  cases type <;> simp [Ty.storeCode]

@[simp] theorem inscription_stash (type : Ty) (cell : String) :
    inscription (type.stash cell) = [] := by
  cases type <;> simp [Ty.stash]

@[simp] theorem inscription_unstash (type : Ty) (cell : String) :
    inscription (type.unstash cell) = [] := by
  cases type <;> simp [Ty.unstash]

@[simp] theorem inscription_discard (type : Ty) : inscription type.discard = [] := by
  cases type <;> rfl

theorem inscription_flatMap {α : Type} {items : List α} {code : α → Code}
    (none : ∀ item ∈ items, inscription (code item) = []) :
    inscription (items.flatMap code) = [] := by
  induction items with
  | nil => rfl
  | cons item rest induction =>
      rw [List.flatMap_cons, inscription_append, none item (by simp),
        induction fun other member => none other (by simp [member]), List.nil_append]

@[simp] theorem inscription_save (bracket : Bracket) : inscription bracket.save = [] :=
  inscription_flatMap fun _ _ => rfl

@[simp] theorem inscription_restore (bracket : Bracket) : inscription bracket.restore = [] :=
  inscription_flatMap fun _ _ => rfl

@[simp] theorem inscription_restoreUnder (bracket : Bracket) (type : Ty) (cell : String) :
    inscription (bracket.restoreUnder type cell) = [] := by
  simp [Bracket.restoreUnder]

@[simp] theorem inscription_nullCheck : inscription Record.nullCheck = [] := rfl

@[simp] theorem inscription_elementAddress (header element : Int32) :
    inscription (Record.elementAddress header element) = [] := by
  unfold Record.elementAddress
  split <;> simp

@[simp] theorem inscription_allocateRecord (typeId status : Int32) :
    inscription (Record.allocateRecord typeId status) = [] := by
  simp [Record.allocateRecord]

@[simp] theorem inscription_allocateEmptyArray (status element : Int32) :
    inscription (Record.allocateEmptyArray status element) = [] := by
  simp [Record.allocateEmptyArray]

@[simp] theorem inscription_allocateString (status : Int32) :
    inscription (Record.allocateString status) = [] := by
  simp [Record.allocateString]

@[simp] theorem inscription_printText (cell : String) :
    inscription (Printing.printText cell) = [] := rfl

@[simp] theorem inscription_reserve (type : Ty) : inscription (Frame.reserve type) = [] := by
  simp [Frame.reserve]

@[simp] theorem inscription_result (type : Ty) : inscription (Frame.result type) = [] := by
  unfold Frame.result
  split <;> simp

@[simp] theorem inscription_leave (parameterSize : Int32) (type : Ty) :
    inscription (Frame.leave parameterSize type) = [] := by
  simp [Frame.leave]

end Code

attribute [local simp] Instruction.isInscribed Instruction.isDirective

/-! ## Operators -/

open Generation Code

section

variable {last middle next : Nat} {code : Code}

theorem Location.inscription_addressCode {location : Location} {delta : Int32}
    (generated : location.addressCode delta = .ok code) : code.inscription = [] := by
  obtain ⟨offset, _, built⟩ := Except.bind_eq_ok.mp generated
  cases location <;> cases built <;> rfl

namespace Ty

theorem inscription_load {type : Ty} (generated : type.load = .ok code) :
    code.inscription = [] := by
  obtain ⟨_, rfl⟩ := load_eq_ok.mp generated
  simp

theorem inscription_store {type : Ty} (generated : type.store = .ok code) :
    code.inscription = [] := by
  obtain ⟨_, rfl⟩ := store_eq_ok.mp generated
  simp

end Ty

namespace Arithmetic

theorem inscription_rationalize {operand : Ty} (generated : rationalize operand = .ok code) :
    code.inscription = [] := by
  unfold rationalize at generated
  cases operand <;> cases generated <;> simp [restateRational, lowestTerms]

theorem inscription_expressOver {operand : Ty} (generated : expressOver operand = .ok code) :
    code.inscription = [] := by
  unfold expressOver at generated
  cases operand <;> cases generated <;> simp [restateRational]

end Arithmetic

namespace Sequence

theorem inscription_length {sequence : Ty} (generated : length sequence = .ok code) :
    code.inscription = [] := by
  obtain ⟨layout, _, built⟩ := Except.bind_eq_ok.mp generated
  cases built
  simp

theorem inscription_allocateLike {sequence : Ty} (generated : allocateLike sequence = .ok code) :
    code.inscription = [] := by
  unfold allocateLike at generated
  cases sequence <;> cases generated <;> simp [allocate]

theorem inscribes_reverse {sequence : Ty} (generated : reverse sequence last = .ok (code, next)) :
    Inscribes [] code.inscription := by
  simp only [reverse, bind_eq_ok, pure_eq_ok, lift_eq_ok, freshLabels_eq_ok] at generated
  obtain ⟨layout, _, ⟨_, rfl⟩, labels, _, ⟨rfl, rfl⟩, allocation, _, ⟨allocated, rfl⟩, rfl, rfl⟩ :=
    generated
  simp only [join_cons, join_nil, inscription_append, inscription_allocateLike allocated]
  simp [sourceLength]
  exact .label (by decide) (.label (by decide) .nil)

theorem inscribes_index {sequence index : Code} {type : Ty} {literals : List Literal}
    (inscribes : Inscribes literals (sequence.inscription ++ index.inscription))
    (generated : Sequence.index sequence index type last = .ok (code, next)) :
    Inscribes literals code.inscription := by
  simp only [Sequence.index, bind_eq_ok, pure_eq_ok, lift_eq_ok, freshLabels_eq_ok] at generated
  obtain ⟨layout, _, ⟨_, rfl⟩, labels, _, ⟨rfl, rfl⟩, rfl, rfl⟩ := generated
  simp
  rw [← List.append_assoc]
  exact inscribes.before (.label (by decide) .nil)

end Sequence

theorem Text.inscribes_substring (generated : Text.substring last = .ok (code, next)) :
    Inscribes [] code.inscription := by
  simp only [Text.substring, bind_eq_ok, pure_eq_ok, freshLabels_eq_ok] at generated
  obtain ⟨labels, _, ⟨rfl, rfl⟩, rfl, rfl⟩ := generated
  simp [Text.lengthOf, Text.charactersOf, Text.span]
  exact .label (by decide) (.label (by decide) .nil)

theorem Comparison.inscribes {relation : Relation} {type : Ty} {left right : Code}
    {first second : List Literal} (leftInscribes : Inscribes first left.inscription)
    (rightInscribes : Inscribes second right.inscription)
    (generated : Comparison.code relation type left right last = .ok (code, next)) :
    Inscribes (first ++ second) code.inscription := by
  simp only [Comparison.code, bind_eq_ok, pure_eq_ok, lift_eq_ok, freshLabels_eq_ok] at generated
  obtain ⟨labels, _, ⟨rfl, rfl⟩, difference, _, ⟨found, rfl⟩, rfl, rfl⟩ := generated
  have subtracts : difference.inscription = [] := by
    cases type <;> simp only [Comparison.difference, Except.ok.injEq, reduceCtorEq] at found <;>
      subst found <;> simp [rationalDifference]
  have branches : ∀ onTrue onFalse, Code.inscription
      (Comparison.branch relation (isFloating type) onTrue onFalse) = [] := by
    intro onTrue onFalse
    cases relation <;> cases isFloating type <;> rfl
  simp [subtracts, branches]
  exact .label (by decide) (leftInscribes.append (.label (by decide) (rightInscribes.before
    (.label (by decide) (.label (by decide) (.label (by decide) (.label (by decide) .nil)))))))

namespace HigherOrder

theorem inscription_currentElement {cell : String} {element : Ty}
    (generated : currentElement cell element = .ok code) : code.inscription = [] := by
  obtain ⟨_, rfl⟩ := currentElement_eq_ok.mp generated
  simp

theorem inscription_firstElement {cell : String} {element : Ty}
    (generated : firstElement cell element = .ok code) : code.inscription = [] := by
  obtain ⟨_, rfl⟩ := firstElement_eq_ok.mp generated
  simp

theorem inscription_invoke {callee : Code} {arguments : List (Code × Ty)} {result : Ty}
    (generated : Frame.invoke callee arguments result = .ok code) :
    code.inscription = Code.inscription (arguments.map Prod.fst).flatten ++ callee.inscription := by
  obtain ⟨values, rfl⟩ := Frame.invoke_eq_ok.mp generated
  have passed : Code.inscription (Frame.passCodes arguments) =
      Code.inscription (arguments.map Prod.fst).flatten := by
    clear generated values
    induction arguments with
    | nil => rfl
    | cons argument rest induction =>
        rw [Frame.passCodes_cons, inscription_append, induction]
        simp [Frame.passCode]
  simp [passed]

variable {array function : Code} {first second third : List Literal}

theorem inscribes_map {arrayType functionType : Ty}
    (arrayInscribes : Inscribes first array.inscription)
    (functionInscribes : Inscribes second function.inscription)
    (generated : map array arrayType function functionType last = .ok (code, next)) :
    Inscribes (first ++ second) code.inscription := by
  simp only [map, bind_eq_ok, pure_eq_ok, lift_eq_ok, freshLabels_eq_ok] at generated
  obtain ⟨element, _, ⟨_, rfl⟩, result, _, ⟨_, rfl⟩, labels, _, ⟨rfl, rfl⟩, current, _,
    ⟨found, rfl⟩, call, _, ⟨called, rfl⟩, store, _, ⟨stored, rfl⟩, rfl, rfl⟩ := generated
  simp [inscription_invoke called, inscription_currentElement found, Ty.inscription_store stored,
    bracketed, operand, operandLength, allocateResult, loop, loopTest, resultSlot, callee]
  exact arrayInscribes.append (functionInscribes.before
    (.label (by decide) (.label (by decide) .nil)))

theorem inscribes_zip {front back : Code} {frontType backType functionType : Ty}
    (frontInscribes : Inscribes first front.inscription)
    (backInscribes : Inscribes second back.inscription)
    (functionInscribes : Inscribes third function.inscription)
    (generated : zip front frontType back backType function functionType last =
      .ok (code, next)) :
    Inscribes (first ++ second ++ third) code.inscription := by
  simp only [zip, bind_eq_ok, pure_eq_ok, lift_eq_ok, freshLabels_eq_ok] at generated
  obtain ⟨_, _, ⟨_, rfl⟩, _, _, ⟨_, rfl⟩, result, _, ⟨_, rfl⟩, labels, _, ⟨rfl, rfl⟩, current, _,
    ⟨found, rfl⟩, other, _, ⟨otherFound, rfl⟩, call, _, ⟨called, rfl⟩, store, _, ⟨stored, rfl⟩,
    rfl, rfl⟩ := generated
  simp [inscription_invoke called, inscription_currentElement found,
    inscription_currentElement otherFound, Ty.inscription_store stored, bracketed, operand,
    operandLength, allocateResult, loop, loopTest, resultSlot, callee]
  exact frontInscribes.append (backInscribes.append (functionInscribes.before
    (.label (by decide) (.label (by decide) .nil))))

theorem inscription_foldStart {element : Ty} {base : Option Code} {start : Code} {first : Int32}
    (generated : foldStart element base = .ok (start, first)) :
    start.inscription = Code.inscription (base.getD []) := by
  cases base with
  | none =>
      obtain ⟨code, found, built⟩ := Except.bind_eq_ok.mp generated
      cases built
      simp [inscription_firstElement found]
  | some base =>
      cases generated
      rfl

theorem inscribes_fold {arrayType functionType : Ty} {base : Option Code}
    (arrayInscribes : Inscribes first array.inscription)
    (baseInscribes : Inscribes second (Code.inscription (base.getD [])))
    (functionInscribes : Inscribes third function.inscription)
    (generated : fold array arrayType base function functionType last = .ok (code, next)) :
    Inscribes (first ++ second ++ third) code.inscription := by
  obtain ⟨element, accumulator, start, first, current, call, _, _, started, found, called, rfl,
    rfl⟩ := fold_eq_ok.mp generated
  simp [inscription_invoke called, inscription_currentElement found,
    inscription_foldStart started, bracketed, operand, operandLength, loop, loopTest, callee]
  exact arrayInscribes.append (baseInscribes.append (functionInscribes.before
    (.label (by decide) (.label (by decide) .nil))))

theorem inscribes_reduce {arrayType : Ty} (arrayInscribes : Inscribes first array.inscription)
    (functionInscribes : Inscribes second function.inscription)
    (generated : reduce array arrayType function last = .ok (code, next)) :
    Inscribes (first ++ second) code.inscription := by
  simp only [reduce, bind_eq_ok, pure_eq_ok, lift_eq_ok, freshLabels_eq_ok] at generated
  obtain ⟨element, _, ⟨_, rfl⟩, labels, _, ⟨rfl, rfl⟩, current, _, ⟨found, rfl⟩, call, _,
    ⟨called, rfl⟩, rfl, rfl⟩ := generated
  simp [inscription_invoke called, inscription_currentElement found, bracketed, operand,
    operandLength, judge, copyKept, loop, loopTest, resultSlot, callee]
  exact arrayInscribes.append (functionInscribes.before (.label (by decide) (.label (by decide)
    (.label (by decide) (.label (by decide) (.label (by decide) (.label (by decide) .nil)))))))

end HigherOrder

namespace Printing

theorem inscribes_value {last next : Nat} {code : Code} :
    (type : Ty) → value type last = .ok (code, next) → Inscribes [] code.inscription
  | .boolean, generated => by
      simp only [value, bind_eq_ok, pure_eq_ok, freshLabels_eq_ok] at generated
      obtain ⟨labels, _, ⟨rfl, rfl⟩, rfl, rfl⟩ := generated
      simp [boolean]
      exact .label (by decide) (.label (by decide) .nil)
  | .rational, generated => by
      simp only [value, bind_eq_ok, pure_eq_ok, freshLabels_eq_ok] at generated
      obtain ⟨labels, _, ⟨rfl, rfl⟩, rfl, rfl⟩ := generated
      simp [rational, integralPart, fractionalPart]
      exact .label (by decide) (.label (by decide) (.label (by decide) (.label (by decide) .nil)))
  | .array element, generated => by
      simp only [value, bind_eq_ok, pure_eq_ok, lift_eq_ok, freshLabels_eq_ok] at generated
      obtain ⟨labels, _, ⟨rfl, rfl⟩, load, _, ⟨loaded, rfl⟩, print, _, printed, rfl, rfl⟩ :=
        generated
      simp [array, Ty.inscription_load loaded]
      exact .label (by decide) ((inscribes_value element printed).before (.label (by decide) .nil))
  | .void, generated => by simp [value, throw_eq_ok] at generated
  | .integer, generated | .character, generated | .floating, generated | .string, generated
  | .lambda _ _, generated => by
      simp only [value, pure_eq_ok] at generated
      obtain ⟨rfl, rfl⟩ := generated
      simp [string, Inscribes.nil]

end Printing

theorem Snippet.inscribes {snippet : Snippet} {operands : List Ty} {result : Ty}
    (generated : snippet.code operands result last = .ok (code, next)) :
    Inscribes [] code.inscription := by
  cases snippet <;> simp only [Snippet.code, bind_eq_ok, pure_eq_ok, lift_eq_ok] at generated
  case rationalize =>
    obtain ⟨operand, _, ⟨_, rfl⟩, built, rfl⟩ := generated
    simp [Arithmetic.inscription_rationalize built, Inscribes.nil]
  case expressOver =>
    obtain ⟨operand, _, ⟨_, rfl⟩, built, rfl⟩ := generated
    simp [Arithmetic.inscription_expressOver built, Inscribes.nil]
  case floatingToRational =>
    obtain ⟨built, rfl⟩ := generated
    obtain ⟨rest, rationalized, built⟩ := Except.bind_eq_ok.mp built
    cases built
    simp [Arithmetic.inscription_rationalize rationalized, Inscribes.nil]
  case arrayLength | stringLength =>
    obtain ⟨operand, _, ⟨_, rfl⟩, built, rfl⟩ := generated
    simp [Sequence.inscription_length built, Inscribes.nil]
  case arrayReverse | stringReverse =>
    obtain ⟨operand, _, ⟨_, rfl⟩, built⟩ := generated
    exact Sequence.inscribes_reverse built
  case substring => exact Text.inscribes_substring generated
  case arrayAllocate =>
    obtain ⟨element, _, ⟨_, rfl⟩, rfl, rfl⟩ := generated
    simp [Sequence.allocate, Inscribes.nil]
  case arrayClone =>
    obtain ⟨operand, _, ⟨_, rfl⟩, element, _, ⟨_, rfl⟩, rfl, rfl⟩ := generated
    simp [Sequence.clone, Sequence.allocate, Sequence.sourceLength, Inscribes.nil]
  all_goals
    obtain ⟨rfl, rfl⟩ := generated
    simp [Arithmetic.integerDivide, Arithmetic.floatingDivide, Arithmetic.rationalAdd,
      Arithmetic.rationalSubtract, Arithmetic.rationalMultiply, Arithmetic.rationalDivide,
      Arithmetic.rationalNegate, Arithmetic.lowestTerms, Arithmetic.crossSum,
      Arithmetic.stashOperands, Arithmetic.product, Arithmetic.rationalToFloating,
      Text.concatenate, Text.appendCharacter, Text.prependCharacter, Text.lengthOf,
      Text.copyCharacters, Text.copyFrom, Text.charactersOf, Inscribes.nil]

/-! ## Composers -/

theorem Fragment.inscription_valueCode {fragment : Fragment} {type : Ty}
    (generated : fragment.valueCode type = .ok code) :
    code.inscription = fragment.code.inscription := by
  obtain ⟨_, rfl⟩ | ⟨_, _, rfl⟩ := Fragment.valueCode_eq_ok.mp generated <;> simp

namespace Composer

variable {left right fragment : Fragment} {first second : List Literal}

theorem inscribes_shortCircuit {stem : String} {decides : String → Instruction}
    (plain : isPlainText (stem.toList ++ "join".toList) = true)
    (silent : ∀ target, (decides target).isInscribed = false)
    (leftInscribes : Inscribes first left.code.inscription)
    (rightInscribes : Inscribes second right.code.inscription)
    (generated : shortCircuit stem decides left right last = .ok (fragment, next)) :
    Inscribes (first ++ second) fragment.code.inscription := by
  simp only [shortCircuit, bind_eq_ok, pure_eq_ok, lift_eq_ok, freshLabels_eq_ok] at generated
  obtain ⟨labels, _, ⟨rfl, rfl⟩, leftCode, _, ⟨leftValue, rfl⟩, rightCode, _, ⟨rightValue, rfl⟩,
    rfl, rfl⟩ := generated
  simp only [Fragment.value, join_cons, join_nil, List.cons_append, List.nil_append,
    inscription_append, inscription_cons, silent, Fragment.inscription_valueCode leftValue,
    Fragment.inscription_valueCode rightValue]
  simp
  exact leftInscribes.append (rightInscribes.before (.label plain .nil))

theorem inscribes_fragment {composer : Composer} {others : List Fragment} {types : List Ty}
    (leftInscribes : Inscribes first left.code.inscription)
    (rightInscribes : Inscribes second right.code.inscription)
    (generated : composer.fragment (others ++ [left, right]) types last = .ok (fragment, next)) :
    Inscribes (first ++ second) fragment.code.inscription := by
  simp only [Composer.fragment, lastTwo, List.reverse_append, List.reverse_cons, List.reverse_nil,
    List.nil_append, List.cons_append, bind_eq_ok, lift_eq_ok, Except.ok.injEq] at generated
  obtain ⟨_, _, ⟨rfl, rfl⟩, generated⟩ := generated
  cases composer with
  | shortCircuitAnd =>
      exact inscribes_shortCircuit (by decide) (fun _ => rfl) leftInscribes rightInscribes generated
  | shortCircuitOr =>
      exact inscribes_shortCircuit (by decide) (fun _ => rfl) leftInscribes rightInscribes generated
  | arrayIndex | stringIndex =>
      simp only [bind_eq_ok, pure_eq_ok, lift_eq_ok] at generated
      obtain ⟨sequenceType, _, ⟨_, rfl⟩, sequence, _, ⟨sequenceValue, rfl⟩, indexType, _,
        ⟨_, rfl⟩, index, _, ⟨indexValue, rfl⟩, code, _, indexed, rfl, rfl⟩ := generated
      refine Sequence.inscribes_index ?_ indexed
      rw [Fragment.inscription_valueCode sequenceValue, Fragment.inscription_valueCode indexValue]
      exact leftInscribes.append rightInscribes

end Composer

end

/-! ## Trees -/

/-- Pieces of code that inscribe a list of literals each. -/
abbrev InscribeAll (literals : List (List Literal)) (codes : List Code) : Prop :=
  List.Forall₂ (fun own code => Inscribes own code.inscription) literals codes

theorem Code.inscribes_flatten {literals : List (List Literal)} {codes : List Code}
    (inscribe : InscribeAll literals codes) :
    Inscribes literals.flatten (Code.inscription codes.flatten) := by
  induction inscribe with
  | nil => exact .nil
  | cons first _ induction =>
      rw [List.flatten_cons, List.flatten_cons, inscription_append]
      exact first.append induction

theorem Composer.inscribes_operands {composer : Composer} {literals : List (List Literal)}
    {operands : List Fragment} {types : List Ty} {fragment : Fragment} {last next : Nat}
    (inscribe : InscribeAll literals (operands.map Fragment.code))
    (generated : composer.fragment operands types last = .ok (fragment, next)) :
    Inscribes (Composer.literals literals) fragment.code.inscription := by
  have parts := generated
  simp only [Composer.fragment, bind_eq_ok, lift_eq_ok] at parts
  obtain ⟨⟨left, right⟩, _, ⟨found, _⟩, _⟩ := parts
  obtain ⟨others, rfl⟩ := lastTwo_eq_ok found
  rw [List.map_append] at inscribe
  have ends := List.forall₂_drop_append _ _ _ inscribe
  have length : literals.length - 2 = (others.map Fragment.code).length := by
    simp [inscribe.length_eq]
  rw [Composer.literals, length]
  cases shape : literals.drop (others.map Fragment.code).length with
  | nil => rw [shape] at ends; cases ends
  | cons first rest =>
      rw [shape] at ends
      obtain _ | ⟨leftInscribes, _ | ⟨rightInscribes, _ | _⟩⟩ := ends
      simpa using inscribes_fragment leftInscribes rightInscribes generated

theorem Record.inscription_arrayLiteral {element : Ty} {values : List Code} {code : Code}
    (generated : arrayLiteral element values = .ok code) :
    code.inscription = Code.inscription values.flatten := by
  have slots : ∀ index, Code.inscription (arrayLiteralSlots element index values) =
      Code.inscription values.flatten := by
    clear generated
    induction values with
    | nil => exact fun _ => rfl
    | cons value rest induction =>
        intro index
        simp [arrayLiteralSlots, arrayLiteralSlot, induction]
  unfold arrayLiteral at generated
  split at generated
  · cases generated
  · cases generated
    simp [arrayLiteralHeader, slots]

theorem Frame.inscription_enter {localSize : Int32} {code : Code}
    (generated : enter localSize = .ok code) : code.inscription = [] := by
  obtain ⟨size, _, built⟩ := Except.bind_eq_ok.mp generated
  cases built
  simp [moveStackPointer]

theorem Frame.inscription_returnSlot {parameterSize : Int32} {result : Ty} {code : Code}
    (generated : returnSlot parameterSize result = .ok code) : code.inscription = [] := by
  obtain ⟨offset, _, built⟩ := Except.bind_eq_ok.mp generated
  cases built
  simp

theorem ForLoop.inscription_current {kind : ForKind} {layout : SequenceLayout} {type : Ty}
    {code : Code} (generated : current kind layout type = .ok code) : code.inscription = [] := by
  cases kind with
  | index =>
      cases generated
      simp
  | element =>
      obtain ⟨load, loaded, built⟩ := Except.bind_eq_ok.mp generated
      cases built
      simp [Ty.inscription_load loaded]

theorem Surroundings.inscription_unwind (surroundings : Surroundings) :
    surroundings.unwind.inscription = [] :=
  inscription_flatMap fun context _ => by
    cases context.bracket <;> simp

/-- The instruction of an operator is executed, so it lays out nothing but its number. -/
theorem Instruction.inscribes {instruction : Instruction}
    (executed : instruction.isDirective = false) :
    Inscribes instruction.literals (Code.inscription [instruction]) := by
  cases instruction <;> cases executed <;> first | exact .nil | exact .number _ .nil

/-- No instruction of an operator is a directive. -/
def Executed (operations : List Operation) : Prop :=
  ∀ operation ∈ operations, operation.instruction.isDirective = false

theorem executed_append {first second : List Operation} :
    Executed (first ++ second) ↔ Executed first ∧ Executed second :=
  List.forall_mem_append

mutual

theorem Expr.inscribes_fragment {last next : Nat} {fragment : Fragment} :
    (expression : Expr) → Executed expression.operations →
      expression.fragment last = .ok (fragment, next) →
      Inscribes expression.literals fragment.code.inscription
  | .typed type form, executed, generated => by
      rw [Expr.fragment_eq] at generated
      rw [Expr.operations] at executed
      exact form.inscribes_fragment executed generated

theorem Expr.inscribes_valueCode {last next : Nat} {code : Code} :
    (expression : Expr) → Executed expression.operations →
      expression.valueCode last = .ok (code, next) →
      Inscribes expression.literals code.inscription
  | .typed type form, executed, generated => by
      obtain ⟨fragment, generated, value⟩ := Expr.valueCode_eq_ok.mp generated
      rw [Expr.fragment_eq] at generated
      rw [Expr.operations] at executed
      rw [Fragment.inscription_valueCode value]
      exact form.inscribes_fragment executed generated

theorem Form.inscribes_fragment {last next : Nat} {type : Ty} {fragment : Fragment} :
    (form : Form) → Executed (form.operations type) →
      form.fragment type last = .ok (fragment, next) →
      Inscribes form.literals fragment.code.inscription
  | .boolean _, _, generated => by
      obtain ⟨rfl, rfl⟩ := Form.fragment_boolean.mp generated
      exact .nil
  | .character _, _, generated => by
      obtain ⟨rfl, rfl⟩ := Form.fragment_character.mp generated
      exact .nil
  | .integer _, _, generated => by
      obtain ⟨rfl, rfl⟩ := Form.fragment_integer.mp generated
      exact .nil
  | .floating value, _, generated => by
      obtain ⟨rfl, rfl⟩ := Form.fragment_floating.mp generated
      exact .number value .nil
  | .string text, _, generated => by
      obtain ⟨rfl, rfl⟩ := Form.fragment_string.mp generated
      exact .text _ text .nil
  | .identifier _, _, generated => by
      obtain ⟨address, addressed, rfl, rfl⟩ := Form.fragment_identifier.mp generated
      rw [Fragment.address, Location.inscription_addressCode addressed]
      exact .nil
  | .operation (.instruction instruction) operands, executed, generated => by
      obtain ⟨values, evaluated, rfl⟩ := Form.fragment_instruction.mp generated
      rw [Form.operations, Executed, List.forall_mem_cons] at executed
      rw [Form.literals, Fragment.value, inscription_append]
      exact (inscribes_flatten (inscribe_values operands executed.2 evaluated)).append
        (Instruction.inscribes executed.1)
  | .operation (.snippet snippet) operands, executed, generated => by
      obtain ⟨values, middle, code, evaluated, built, rfl⟩ := Form.fragment_snippet.mp generated
      rw [Form.operations] at executed
      rw [Form.literals, Fragment.value, inscription_append]
      exact (inscribes_flatten (inscribe_values operands executed evaluated)).before
        (Snippet.inscribes built)
  | .operation (.full composer) operands, executed, generated => by
      obtain ⟨fragments, middle, evaluated, built⟩ := Form.fragment_full.mp generated
      rw [Form.operations] at executed
      rw [Form.literals]
      exact Composer.inscribes_operands (inscribe_fragments operands executed evaluated) built
  | .comparison relation left right, executed, generated => by
      obtain ⟨leftCode, middle, rightCode, middle', code, leftMade, rightMade, built, rfl⟩ :=
        Form.fragment_comparison.mp generated
      rw [Form.operations, executed_append] at executed
      exact Comparison.inscribes (left.inscribes_valueCode executed.1 leftMade)
        (right.inscribes_valueCode executed.2 rightMade) built
  | .populatedArray elements, executed, generated => by
      obtain ⟨values, element, code, evaluated, _, built, rfl⟩ :=
        Form.fragment_populatedArray.mp generated
      rw [Form.operations] at executed
      rw [Form.literals, Fragment.value, Record.inscription_arrayLiteral built]
      exact inscribes_flatten (inscribe_values elements executed evaluated)
  | .lambda parameters body parameterSize localSize, executed, generated => by
      obtain ⟨result, enter, bodyCode, _, entered, made, rfl⟩ := Form.fragment_lambda.mp generated
      rw [Form.operations] at executed
      have missing : Code.inscription
          (if result.isVoid then [] else [.jump Fault.missingReturn.handler]) = [] := by
        cases result.isVoid <;> rfl
      simp [Fragment.value, Form.lambdaCode, Frame.inscription_enter entered, missing,
        Form.literals]
      exact .label (by decide) ((inscribes_block body executed made).before
        (.label (by decide) (.label (by decide) .nil)))
  | .invocation callee arguments, executed, generated => by
      obtain ⟨values, middle, calleeCode, code, evaluated, calleeMade, built, rfl⟩ :=
        Form.fragment_invocation.mp generated
      rw [Form.operations, executed_append] at executed
      have zipped : (values.zip (arguments.map Expr.type)).map Prod.fst = values :=
        List.map_fst_zip (by simp [length_exprValueCodes evaluated])
      rw [Form.literals, Fragment.value, HigherOrder.inscription_invoke built, zipped]
      exact (inscribes_flatten (inscribe_values arguments executed.1 evaluated)).append
        (callee.inscribes_valueCode executed.2 calleeMade)
  | .map array function, executed, generated => by
      obtain ⟨arrayCode, middle, functionCode, middle', code, arrayMade, functionMade, built,
        rfl⟩ := Form.fragment_map.mp generated
      rw [Form.operations, executed_append] at executed
      exact HigherOrder.inscribes_map (array.inscribes_valueCode executed.1 arrayMade)
        (function.inscribes_valueCode executed.2 functionMade) built
  | .reduce array function, executed, generated => by
      obtain ⟨arrayCode, middle, functionCode, middle', code, arrayMade, functionMade, built,
        rfl⟩ := Form.fragment_reduce.mp generated
      rw [Form.operations, executed_append] at executed
      exact HigherOrder.inscribes_reduce (array.inscribes_valueCode executed.1 arrayMade)
        (function.inscribes_valueCode executed.2 functionMade) built
  | .fold array none function, executed, generated => by
      obtain ⟨arrayCode, middle, start, middle', functionCode, middle'', code, arrayMade, based,
        functionMade, built, rfl⟩ := Form.fragment_fold.mp generated
      obtain ⟨rfl, rfl⟩ := pure_eq_ok.mp based
      rw [Form.operations, executed_append] at executed
      have whole := HigherOrder.inscribes_fold (array.inscribes_valueCode executed.1 arrayMade)
        .nil (function.inscribes_valueCode executed.2 functionMade) built
      rwa [List.append_nil] at whole
  | .fold array (some base) function, executed, generated => by
      obtain ⟨arrayCode, middle, start, middle', functionCode, middle'', code, arrayMade, based,
        functionMade, built, rfl⟩ := Form.fragment_fold.mp generated
      simp only [Form.baseCode, bind_eq_ok, pure_eq_ok] at based
      obtain ⟨baseCode, _, baseMade, rfl, rfl⟩ := based
      rw [Form.operations, executed_append, executed_append] at executed
      exact HigherOrder.inscribes_fold (array.inscribes_valueCode executed.1.1 arrayMade)
        (base.inscribes_valueCode executed.1.2 baseMade)
        (function.inscribes_valueCode executed.2 functionMade) built
  | .zip first second function, executed, generated => by
      obtain ⟨firstCode, middle, secondCode, middle', functionCode, middle'', code, firstMade,
        secondMade, functionMade, built, rfl⟩ := Form.fragment_zip.mp generated
      rw [Form.operations, executed_append, executed_append] at executed
      exact HigherOrder.inscribes_zip (first.inscribes_valueCode executed.1.1 firstMade)
        (second.inscribes_valueCode executed.1.2 secondMade)
        (function.inscribes_valueCode executed.2 functionMade) built

theorem inscribe_fragments {last next : Nat} {fragments : List Fragment} :
    (expressions : List Expr) → Executed (exprsOperations expressions) →
      exprFragments expressions last = .ok (fragments, next) →
      InscribeAll (exprsLiterals expressions) (fragments.map Fragment.code)
  | [], _, generated => by
      obtain ⟨rfl, rfl⟩ := exprFragments_nil.mp generated
      exact .nil
  | expression :: rest, executed, generated => by
      obtain ⟨fragment, middle, others, made, restMade, rfl⟩ := exprFragments_cons.mp generated
      rw [exprsOperations, executed_append] at executed
      exact .cons (expression.inscribes_fragment executed.1 made)
        (inscribe_fragments rest executed.2 restMade)

theorem inscribe_values {last next : Nat} {values : List Code} :
    (expressions : List Expr) → Executed (exprsOperations expressions) →
      exprValueCodes expressions last = .ok (values, next) →
      InscribeAll (exprsLiterals expressions) values
  | [], _, generated => by
      obtain ⟨rfl, rfl⟩ := exprValueCodes_nil.mp generated
      exact .nil
  | expression :: rest, executed, generated => by
      obtain ⟨value, middle, others, made, restMade, rfl⟩ := exprValueCodes_cons.mp generated
      rw [exprsOperations, executed_append] at executed
      exact .cons (expression.inscribes_valueCode executed.1 made)
        (inscribe_values rest executed.2 restMade)

theorem PrintItem.inscribes {last next : Nat} {code : Code} :
    (item : PrintItem) → Executed item.operations → item.code last = .ok (code, next) →
      Inscribes item.literals code.inscription
  | .expression expression, executed, generated => by
      obtain ⟨value, middle, print, made, printed, rfl⟩ := PrintItem.code_expression.mp generated
      rw [PrintItem.operations] at executed
      rw [PrintItem.literals, inscription_append]
      exact (expression.inscribes_valueCode executed made).before
        (Printing.inscribes_value _ printed)
  | .newline, _, generated => by
      obtain ⟨rfl, rfl⟩ := PrintItem.code_newline.mp generated
      exact .nil
  | .space, _, generated => by
      obtain ⟨rfl, rfl⟩ := PrintItem.code_space.mp generated
      exact .nil
  | .tab, _, generated => by
      obtain ⟨rfl, rfl⟩ := PrintItem.code_tab.mp generated
      exact .nil

theorem inscribes_printItems {last next : Nat} {code : Code} :
    (items : List PrintItem) → Executed (printItemsOperations items) →
      printItemsCode items last = .ok (code, next) →
      Inscribes (printItemsLiterals items) code.inscription
  | [], _, generated => by
      obtain ⟨rfl, rfl⟩ := printItemsCode_nil.mp generated
      exact .nil
  | item :: rest, executed, generated => by
      obtain ⟨first, middle, others, made, restMade, rfl⟩ := printItemsCode_cons.mp generated
      rw [printItemsOperations, executed_append] at executed
      rw [printItemsLiterals, inscription_append]
      exact (item.inscribes executed.1 made).append (inscribes_printItems rest executed.2 restMade)

theorem Statement.inscribes {last next : Nat} {surroundings : Surroundings} {code : Code} :
    (statement : Statement) → Executed statement.operations →
      statement.code surroundings last = .ok (code, next) →
      Inscribes statement.literals code.inscription
  | .declaration binding value false, executed, generated => by
      obtain ⟨address, valueCode, store, addressed, made, stored, rfl⟩ :=
        Statement.code_declaration.mp generated
      rw [Statement.operations] at executed
      simp only [inscription_append, Location.inscription_addressCode addressed,
        Ty.inscription_store stored, List.nil_append, List.append_nil, Statement.literals]
      exact value.inscribes_valueCode executed made
  | .declaration binding value true, executed, generated => by
      obtain ⟨flag, address, valueCode, store, flagged, addressed, made, stored, rfl⟩ :=
        Statement.code_static.mp generated
      rw [Statement.operations] at executed
      simp [guardStatic, Location.inscription_addressCode flagged,
        Location.inscription_addressCode addressed, Ty.inscription_store stored,
        Statement.literals]
      exact (value.inscribes_valueCode executed made).before (.label (by decide) .nil)
  | .assignment target value, executed, generated => by
      obtain ⟨address, middle, valueCode, store, targeted, _, made, stored, rfl⟩ :=
        Statement.code_assignment.mp generated
      rw [Statement.operations, executed_append] at executed
      simp only [inscription_append, Ty.inscription_store stored, List.append_nil,
        Statement.literals]
      exact (target.inscribes_fragment executed.1 targeted).append
        (value.inscribes_valueCode executed.2 made)
  | .print items, executed, generated => by
      rw [Statement.operations] at executed
      exact inscribes_printItems items executed (Statement.code_print.mp generated)
  | .ifElse condition thenBlock none, executed, generated => by
      obtain ⟨conditionCode, middle, thenCode, middle', otherCode, made, thenMade, otherMade,
        rfl⟩ := Statement.code_ifElse.mp generated
      obtain ⟨rfl, rfl⟩ := pure_eq_ok.mp otherMade
      rw [Statement.operations, executed_append] at executed
      simp [Statement.branchCode, Statement.literals]
      exact (condition.inscribes_valueCode executed.1 made).append
        ((inscribes_block thenBlock executed.2 thenMade).before
          (.label (by decide) (.label (by decide) .nil)))
  | .ifElse condition thenBlock (some elseBlock), executed, generated => by
      obtain ⟨conditionCode, middle, thenCode, middle', otherCode, made, thenMade, otherMade,
        rfl⟩ := Statement.code_ifElse.mp generated
      rw [Statement.operations, executed_append, executed_append] at executed
      simp [Statement.branchCode, Statement.literals]
      exact (condition.inscribes_valueCode executed.1.1 made).append
        ((inscribes_block thenBlock executed.1.2 thenMade).append (.label (by decide)
          ((inscribes_block elseBlock executed.2 otherMade).before (.label (by decide) .nil))))
  | .while condition body, executed, generated => by
      obtain ⟨conditionCode, middle, bodyCode, made, bodyMade, rfl⟩ := Statement.code_while.mp
        generated
      rw [Statement.operations, executed_append] at executed
      simp [Statement.loopCode, Statement.literals]
      exact .label (by decide) ((condition.inscribes_valueCode executed.1 made).append
        ((inscribes_block body executed.2 bodyMade).before (.label (by decide) .nil)))
  | .for kind loopVariable sequence body, executed, generated => by
      obtain ⟨layout, address, sequenceCode, middle, current, store, bodyCode, _, addressed, made,
        found, stored, bodyMade, rfl⟩ := Statement.code_for.mp generated
      rw [Statement.operations, executed_append] at executed
      simp [ForLoop.setUp, ForLoop.advance, ForLoop.finish, ForLoop.inscription_current found,
        Location.inscription_addressCode addressed, Ty.inscription_store stored,
        Statement.literals]
      exact (sequence.inscribes_valueCode executed.1 made).append (.label (by decide)
        ((inscribes_block body executed.2 bodyMade).before
          (.label (by decide) (.label (by decide) .nil))))
  | .break, _, generated => by
      obtain ⟨context, _, rfl, rfl⟩ := Statement.code_break.mp generated
      exact .nil
  | .continue, _, generated => by
      obtain ⟨context, _, rfl, rfl⟩ := Statement.code_continue.mp generated
      exact .nil
  | .return none, _, generated => by
      obtain ⟨exit, result, _, returned, rfl⟩ := Statement.code_return.mp generated
      obtain ⟨rfl, rfl⟩ := pure_eq_ok.mp returned
      simp [Surroundings.inscription_unwind, Statement.literals, Inscribes.nil]
  | .return (some value), executed, generated => by
      obtain ⟨exit, result, _, returned, rfl⟩ := Statement.code_return.mp generated
      simp only [Statement.returnedCode, bind_eq_ok, pure_eq_ok, lift_eq_ok] at returned
      obtain ⟨slot, _, ⟨found, rfl⟩, valueCode, _, made, rfl, rfl⟩ := returned
      rw [Statement.operations] at executed
      simp [Surroundings.inscription_unwind, Frame.inscription_returnSlot found,
        Statement.literals]
      exact value.inscribes_valueCode executed made
  | .call invocation, executed, generated => by
      obtain ⟨value, made, rfl⟩ := Statement.code_call.mp generated
      rw [Statement.operations] at executed
      simp [Statement.literals]
      exact invocation.inscribes_valueCode executed made
  | .release value, executed, generated => by
      obtain ⟨valueCode, made, rfl⟩ := Statement.code_release.mp generated
      rw [Statement.operations] at executed
      simp [Statement.literals]
      exact value.inscribes_valueCode executed made
  | .block statements, executed, generated => by
      rw [Statement.operations] at executed
      exact inscribes_block statements executed (Statement.code_block.mp generated)

theorem inscribes_block {last next : Nat} {surroundings : Surroundings} {code : Code} :
    (statements : List Statement) → Executed (blockOperations statements) →
      blockCode surroundings statements last = .ok (code, next) →
      Inscribes (blockLiterals statements) code.inscription
  | [], _, generated => by
      obtain ⟨rfl, rfl⟩ := blockCode_nil.mp generated
      exact .nil
  | statement :: rest, executed, generated => by
      obtain ⟨first, middle, others, made, restMade, rfl⟩ := blockCode_cons.mp generated
      rw [blockOperations, executed_append] at executed
      rw [blockLiterals, inscription_append]
      exact (statement.inscribes executed.1 made).append
        (inscribes_block rest executed.2 restMade)

end

end StackBackend
