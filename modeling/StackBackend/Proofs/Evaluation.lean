import Mathlib.Logic.Function.Basic
import StackBackend.Format
import StackBackend.Tree

namespace StackBackend

/-! The meaning of programs of scalars. Expressions have a value or end in a fault;
statements go on, leave the loop around them, or end in a fault as well. Integers wrap
around at 32 bits, operands are evaluated from left to right, and the right operand of a
truth operator only when it decides. -/

/-- The values of variables, which are told apart by their offsets. -/
structure Store where
  value : Int32 → Int32

namespace Store

/-- All variables are zero at first. -/
def zero : Store := ⟨fun _ => 0⟩

def get (store : Store) (binding : Binding) : Int32 :=
  store.value binding.location.offset

def set (store : Store) (binding : Binding) (value : Int32) : Store :=
  ⟨Function.update store.value binding.location.offset value⟩

end Store

/-! ## Expressions -/

/-- A result or a fault, for trees that have a meaning here. -/
abbrev Outcome := ExceptT Fault Option

theorem Outcome.bind_eq_pure {α β : Type} {first : Outcome α} {rest : α → Outcome β} {value : β} :
    first >>= rest = pure value ↔ ∃ between, first = pure between ∧ rest between = pure value := by
  match first with
  | none => exact ⟨nofun, nofun⟩
  | some (.error fault) => exact ⟨nofun, nofun⟩
  | some (.ok between) =>
      refine ⟨fun same => ⟨between, rfl, same⟩, ?_⟩
      rintro ⟨_, same, later⟩
      cases same
      exact later

theorem Outcome.bind_eq_throw {α β : Type} {first : Outcome α} {rest : α → Outcome β}
    {fault : Fault} :
    first >>= rest = throw fault ↔
      first = throw fault ∨ ∃ between, first = pure between ∧ rest between = throw fault := by
  match first with
  | none => exact ⟨nofun, fun known => known.elim nofun nofun⟩
  | some (.error reason) =>
      refine ⟨fun same => .inl ?_, fun known => ?_⟩
      · cases same
        rfl
      · obtain same | ⟨_, same, _⟩ := known
        · cases same
          rfl
        · cases same
  | some (.ok between) =>
      refine ⟨fun same => .inr ⟨between, rfl, same⟩, ?_⟩
      rintro (same | ⟨_, same, later⟩)
      · cases same
      · cases same
        exact later

/-- Truth values are zero and one. -/
def truth (condition : Bool) : Int32 :=
  if condition then 1 else 0

/-- Whether a relation holds between two values, by the sign of their difference. -/
def Relation.holds (relation : Relation) (difference : Int32) : Bool :=
  match relation with
  | .greater => decide (0 < difference)
  | .greaterEqual => decide (0 ≤ difference)
  | .less => decide (difference < 0)
  | .lessEqual => decide (difference ≤ 0)
  | .equal => difference == 0
  | .notEqual => difference != 0

/-- Operators that take the values of all their operands. -/
def Signature.apply : Signature → List Int32 → Outcome Int32
  | .instruction .add, [left, right] => pure (left + right)
  | .instruction .subtract, [left, right] => pure (left - right)
  | .instruction .multiply, [left, right] => pure (left * right)
  | .instruction .negate, [value] => pure (-value)
  | .snippet .integerDivide, [left, right] =>
      if right = 0 then throw .integerDivideByZero else pure (left / right)
  | .snippet .integerToCharacter, [value] => pure (value &&& 127)
  | .snippet .integerToBoolean, [value] => pure (truth (value != 0))
  | _, _ => none

mutual

def Expr.evaluate (store : Store) : Expr → Outcome Int32
  | .typed _ form => form.evaluate store

def Form.evaluate (store : Store) : Form → Outcome Int32
  | .boolean value => pure (truth value)
  | .character value => pure (Int32.ofNat value.toNat)
  | .integer value => pure value
  | .identifier binding => pure (store.get binding)
  | .operation (.full .shortCircuitAnd) [left, right] => do
      let value ← left.evaluate store
      if value = 0 then pure value else right.evaluate store
  | .operation (.full .shortCircuitOr) [left, right] => do
      let value ← left.evaluate store
      if value = 0 then right.evaluate store else pure value
  | .operation signature operands => do signature.apply (← evaluateAll store operands)
  | .comparison relation left right => do
      let first ← left.evaluate store
      let second ← right.evaluate store
      pure (truth (relation.holds (first - second)))
  | _ => none

/-- The values of expressions in order. -/
def evaluateAll (store : Store) : List Expr → Outcome (List Int32)
  | [] => pure []
  | expression :: rest => do
      let value ← expression.evaluate store
      return value :: (← evaluateAll store rest)

end

/-! ## Printing -/

/-- The bytes that a value of the type is printed as. -/
def Ty.printed (type : Ty) (value : Int32) : Option (List UInt8) :=
  match type with
  | .integer => some (asciiBytes (toString value.toInt).toList)
  | .character => some [value.toUInt32.toUInt8]
  | .boolean => some (if value = 0 then "false" else "true").toUTF8.toList
  | _ => none

def PrintItem.printed (store : Store) : PrintItem → Outcome (List UInt8)
  | .expression operand => do
      let value ← operand.evaluate store
      (operand.type.printed value : Option (List UInt8))
  | .newline => pure "\n".toUTF8.toList
  | .space => pure " ".toUTF8.toList
  | .tab => pure "\t".toUTF8.toList

/-! ## Statements -/

/-- How a statement is left. -/
inductive Exit where
  | next
  | break
  | continue
  | fault (fault : Fault)
deriving DecidableEq

/-- What is printed last when a program ends in a fault. -/
def Exit.report : Exit → List UInt8
  | .fault reason => ("Runtime error: " ++ reason.message ++ "\n").toUTF8.toList
  | _ => []

/-- The expression that a statement begins with. -/
def Statement.first? : Statement → Option Expr
  | .declaration _ value false => some value
  | .assignment (.typed _ (.identifier _)) value => some value
  | .ifElse condition _ _ => some condition
  | .while condition _ => some condition
  | _ => none

/-- A statement executes from one store to another, with the output that it prints. -/
inductive Executes : Store → Statement → Exit → Store → List UInt8 → Prop
  | fault {store statement expression fault} (first : statement.first? = some expression)
      (faults : expression.evaluate store = throw fault) :
      Executes store statement (.fault fault) store []
  | declaration {store binding value result} (evaluates : value.evaluate store = pure result) :
      Executes store (.declaration binding value false) .next (store.set binding result) []
  | assignment {store type binding value result}
      (evaluates : value.evaluate store = pure result) :
      Executes store (.assignment (.typed type (.identifier binding)) value) .next
        (store.set binding result) []
  | printNothing {store} : Executes store (.print []) .next store []
  | printFault {store item rest fault} (faults : item.printed store = throw fault) :
      Executes store (.print (item :: rest)) (.fault fault) store []
  | print {store item rest exit text output} (printed : item.printed store = pure text)
      (others : Executes store (.print rest) exit store output) :
      Executes store (.print (item :: rest)) exit store (text ++ output)
  | ifElse {store condition thenBlock elseBlock value exit after output}
      (evaluates : condition.evaluate store = pure value)
      (branch : Executes store (.block (if value = 0 then elseBlock.getD [] else thenBlock)) exit
        after output) :
      Executes store (.ifElse condition thenBlock elseBlock) exit after output
  | whileDone {store condition body} (evaluates : condition.evaluate store = pure 0) :
      Executes store (.while condition body) .next store []
  | whileAgain {store condition body value exit between last after output later}
      (evaluates : condition.evaluate store = pure value) (nonzero : value ≠ 0)
      (once : Executes store (.block body) exit between output)
      (goesOn : exit = .next ∨ exit = .continue)
      (again : Executes between (.while condition body) last after later) :
      Executes store (.while condition body) last after (output ++ later)
  | whileBreak {store condition body value after output}
      (evaluates : condition.evaluate store = pure value) (nonzero : value ≠ 0)
      (once : Executes store (.block body) .break after output) :
      Executes store (.while condition body) .next after output
  | whileFault {store condition body value fault after output}
      (evaluates : condition.evaluate store = pure value) (nonzero : value ≠ 0)
      (once : Executes store (.block body) (.fault fault) after output) :
      Executes store (.while condition body) (.fault fault) after output
  | break {store} : Executes store .break .break store []
  | continue {store} : Executes store .continue .continue store []
  | blockEnd {store} : Executes store (.block []) .next store []
  | blockNext {store statement rest exit between after output later}
      (once : Executes store statement .next between output)
      (others : Executes between (.block rest) exit after later) :
      Executes store (.block (statement :: rest)) exit after (output ++ later)
  | blockLeft {store statement rest exit after output}
      (once : Executes store statement exit after output) (left : exit ≠ .next) :
      Executes store (.block (statement :: rest)) exit after output

end StackBackend
