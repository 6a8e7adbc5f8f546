import StackBackend.Binary64.Arithmetic
import StackBackend.Json
import StackBackend.Tree

namespace StackBackend

/-! The JSON form of trees. Alternatives are written as variants, groups of
fields as records. Encoding writes every field; decoding lets the fields with a
default be left out.

Decoding recurses on a bound for the depth of the value, since the parts of a
record are found by name. The depth of the value itself is always enough. -/

namespace Json

mutual

def depth : Json → Nat
  | .array items => depthOfItems items + 1
  | .object members => depthOfMembers members + 1
  | _ => 1

def depthOfItems : List Json → Nat
  | [] => 0
  | item :: rest => max item.depth (depthOfItems rest)

def depthOfMembers : List (String × Json) → Nat
  | [] => 0
  | (_, value) :: rest => max value.depth (depthOfMembers rest)

end

def ofInt32 (value : Int32) : Json :=
  .integer value.toInt

/-- A variant with a payload. -/
def tagged (name : String) (payload : Json) : Json :=
  .object [(name, payload)]

/-- A value for a name without payload. -/
def unit? {α : Type} (payload : Option Json) (value : α) : Option α :=
  if isUnit payload then some value else none

/-- Finds the alternative with the given name. -/
def named? {α : Type} (alternatives : List α) (name : α → String) (json : Json) : Option α := do
  let (given, payload) ← json.variant?
  let value ← alternatives.find? fun value => name value == given
  unit? payload value

/-- A field that may be left out but not be null. -/
def defaulted? {α : Type} (decode : Json → Option α) (value : α) : Option Json → Option α
  | none => some value
  | some json => decode json

end Json

/-! ## Types -/

namespace Ty

mutual

def encode : Ty → Json
  | .boolean => .string "boolean"
  | .character => .string "character"
  | .integer => .string "integer"
  | .floating => .string "floating"
  | .string => .string "string"
  | .rational => .string "rational"
  | .array element => .tagged "array" element.encode
  | .lambda parameters result =>
      .tagged "lambda" (.object [("parameters", .array (encodeList parameters)),
        ("result", result.encode)])
  | .void => .string "void"

def encodeList : List Ty → List Json
  | [] => []
  | type :: rest => type.encode :: encodeList rest

end

def decodeWithin : Nat → Json → Option Ty
  | 0, _ => none
  | bound + 1, json => do
      let (name, payload) ← json.variant?
      match name, payload with
      | "boolean", payload => Json.unit? payload .boolean
      | "character", payload => Json.unit? payload .character
      | "integer", payload => Json.unit? payload .integer
      | "floating", payload => Json.unit? payload .floating
      | "string", payload => Json.unit? payload .string
      | "rational", payload => Json.unit? payload .rational
      | "void", payload => Json.unit? payload .void
      | "array", some element => (decodeWithin bound element).map .array
      | "lambda", some payload =>
          match ← payload.fields? ["parameters", "result"] with
          | [some parameters, some result] =>
              return .lambda (← (← parameters.toArray?).mapM (decodeWithin bound))
                (← decodeWithin bound result)
          | _ => none
      | _, _ => none

def decode? (json : Json) : Option Ty :=
  decodeWithin json.depth json

end Ty

/-! ## Instructions -/

namespace Instruction

def encode (instruction : Instruction) : Json :=
  match instruction.operand with
  | .absent => .string instruction.opcode
  | .integer value => .tagged instruction.opcode (.ofInt32 value)
  | .byte value => .tagged instruction.opcode (.integer value.toNat)
  | .floating value => .tagged instruction.opcode (.floating value)
  | .label name => .tagged instruction.opcode (.string name)
  | .text value => .tagged instruction.opcode (.string value)

def decode? (json : Json) : Option Instruction := do
  let (opcode, payload) ← json.variant?
  match ← opcodeShape? opcode, payload with
  | .plain instruction, payload => Json.unit? payload instruction
  | .integer make, some value => value.toInt32?.map make
  | .byte make, some value => value.toByte?.map make
  | .floating make, some value => value.toBinary64?.map make
  | .label make, some value => value.toString?.map make
  | .text make, some value => value.toString?.map make
  | _, none => none

end Instruction

/-! ## Bindings -/

namespace Location

def encode : Location → Json
  | .global offset => .tagged "global" (.ofInt32 offset)
  | .frameLocal offset => .tagged "local" (.ofInt32 offset)
  | .parameter offset => .tagged "parameter" (.ofInt32 offset)

def decode? (json : Json) : Option Location := do
  match ← json.variant? with
  | ("global", some offset) => offset.toInt32?.map .global
  | ("local", some offset) => offset.toInt32?.map .frameLocal
  | ("parameter", some offset) => offset.toInt32?.map .parameter
  | _ => none

end Location

namespace Binding

def encode (binding : Binding) : Json :=
  .object [("name", .string binding.name), ("ty", binding.type.encode),
    ("location", binding.location.encode), ("mutable", .bool binding.mutable)]

def decode? (json : Json) : Option Binding := do
  match ← json.fields? ["name", "ty", "location", "mutable"] with
  | [some name, some type, some location, mutable] =>
      return {
        name := ← name.toString?
        type := ← Ty.decode? type
        location := ← Location.decode? location
        mutable := ← Json.defaulted? Json.toBool? false mutable }
  | _ => none

end Binding

/-! ## Operators -/

namespace Relation

def all : List Relation :=
  [.greater, .greaterEqual, .less, .lessEqual, .equal, .notEqual]

def name : Relation → String
  | .greater => "greater"
  | .greaterEqual => "greater_equal"
  | .less => "less"
  | .lessEqual => "less_equal"
  | .equal => "equal"
  | .notEqual => "not_equal"

def decode? (json : Json) : Option Relation :=
  json.named? all name

end Relation

namespace ForKind

def all : List ForKind := [.index, .element]

def name : ForKind → String
  | .index => "index"
  | .element => "element"

def decode? (json : Json) : Option ForKind :=
  json.named? all name

end ForKind

namespace Snippet

def all : List Snippet :=
  [.integerDivide, .floatingDivide, .rationalAdd, .rationalSubtract, .rationalMultiply,
    .rationalDivide, .rationalNegate, .formRational, .rationalize, .expressOver,
    .integerToRational, .characterToRational, .floatingToRational, .rationalToInteger,
    .rationalToFloating, .integerToCharacter, .integerToBoolean, .arrayAllocate, .arrayClone,
    .arrayLength, .arrayReverse, .stringLength, .stringReverse, .substring, .stringConcatenate,
    .stringCharacterConcatenate, .characterStringConcatenate]

def name : Snippet → String
  | .integerDivide => "integer_divide"
  | .floatingDivide => "floating_divide"
  | .rationalAdd => "rational_add"
  | .rationalSubtract => "rational_subtract"
  | .rationalMultiply => "rational_multiply"
  | .rationalDivide => "rational_divide"
  | .rationalNegate => "rational_negate"
  | .formRational => "form_rational"
  | .rationalize => "rationalize"
  | .expressOver => "express_over"
  | .integerToRational => "integer_to_rational"
  | .characterToRational => "character_to_rational"
  | .floatingToRational => "floating_to_rational"
  | .rationalToInteger => "rational_to_integer"
  | .rationalToFloating => "rational_to_floating"
  | .integerToCharacter => "integer_to_character"
  | .integerToBoolean => "integer_to_boolean"
  | .arrayAllocate => "array_allocate"
  | .arrayClone => "array_clone"
  | .arrayLength => "array_length"
  | .arrayReverse => "array_reverse"
  | .stringLength => "string_length"
  | .stringReverse => "string_reverse"
  | .substring => "substring"
  | .stringConcatenate => "string_concatenate"
  | .stringCharacterConcatenate => "string_character_concatenate"
  | .characterStringConcatenate => "character_string_concatenate"

def decode? (json : Json) : Option Snippet :=
  json.named? all name

end Snippet

namespace Composer

def all : List Composer := [.shortCircuitAnd, .shortCircuitOr, .arrayIndex, .stringIndex]

def name : Composer → String
  | .shortCircuitAnd => "short_circuit_and"
  | .shortCircuitOr => "short_circuit_or"
  | .arrayIndex => "array_index"
  | .stringIndex => "string_index"

def decode? (json : Json) : Option Composer :=
  json.named? all name

end Composer

namespace Signature

def encode : Signature → Json
  | .instruction operation => .tagged "instruction" operation.encode
  | .snippet chosen => .tagged "snippet" (.string chosen.name)
  | .full composer => .tagged "full" (.string composer.name)

def decode? (json : Json) : Option Signature := do
  match ← json.variant? with
  | ("instruction", some payload) => (Instruction.decode? payload).map .instruction
  | ("snippet", some payload) => (Snippet.decode? payload).map .snippet
  | ("full", some payload) => (Composer.decode? payload).map .full
  | _ => none

end Signature

/-! ## Encoding of trees -/

mutual

def Expr.encode : Expr → Json
  | .typed type form => .object [("ty", type.encode), ("kind", form.encode)]

def Form.encode : Form → Json
  | .boolean value => .tagged "boolean" (.bool value)
  | .character value => .tagged "character" (.integer value.toNat)
  | .integer value => .tagged "integer" (.ofInt32 value)
  | .floating value => .tagged "floating" (.floating value)
  | .string value => .tagged "string" (.string value)
  | .identifier binding => .tagged "identifier" binding.encode
  | .operation signature operands =>
      .tagged "operation" (.object [("signature", signature.encode),
        ("operands", .array (encodeExprs operands))])
  | .comparison relation left right =>
      .tagged "comparison" (.object [("op", .string relation.name), ("lhs", left.encode),
        ("rhs", right.encode)])
  | .populatedArray elements => .tagged "populated_array" (.array (encodeExprs elements))
  | .lambda parameters body parameterSize localSize =>
      .tagged "lambda" (.object [("parameters", .array (parameters.map Binding.encode)),
        ("body", .array (encodeStatements body)),
        ("parameter_scope_size", .ofInt32 parameterSize),
        ("local_scope_size", .ofInt32 localSize)])
  | .invocation callee arguments =>
      .tagged "invocation" (.object [("callee", callee.encode),
        ("arguments", .array (encodeExprs arguments))])
  | .map array function =>
      .tagged "map" (.object [("array", array.encode), ("lambda", function.encode)])
  | .reduce array function =>
      .tagged "reduce" (.object [("array", array.encode), ("lambda", function.encode)])
  | .fold array base function =>
      let base :=
        match base with
        | none => Json.null
        | some base => base.encode
      .tagged "fold" (.object [("array", array.encode), ("base", base),
        ("lambda", function.encode)])
  | .zip first second function =>
      .tagged "zip" (.object [("first", first.encode), ("second", second.encode),
        ("lambda", function.encode)])

def encodeExprs : List Expr → List Json
  | [] => []
  | expression :: rest => expression.encode :: encodeExprs rest

def PrintItem.encode : PrintItem → Json
  | .expression expression => .tagged "expression" expression.encode
  | .newline => .string "newline"
  | .space => .string "space"
  | .tab => .string "tab"

def encodePrintItems : List PrintItem → List Json
  | [] => []
  | item :: rest => item.encode :: encodePrintItems rest

def Statement.encode : Statement → Json
  | .declaration binding value isStatic =>
      .tagged "declaration" (.object [("binding", binding.encode), ("value", value.encode),
        ("is_static", .bool isStatic)])
  | .assignment target value =>
      .tagged "assignment" (.object [("target", target.encode), ("value", value.encode)])
  | .print items => .tagged "print" (.array (encodePrintItems items))
  | .ifElse condition thenBlock elseBlock =>
      let elseBlock :=
        match elseBlock with
        | none => Json.null
        | some statements => .array (encodeStatements statements)
      .tagged "if" (.object [("condition", condition.encode),
        ("then_block", .array (encodeStatements thenBlock)), ("else_block", elseBlock)])
  | .while condition body =>
      .tagged "while" (.object [("condition", condition.encode),
        ("body", .array (encodeStatements body))])
  | .for kind loopVariable sequence body =>
      .tagged "for" (.object [("kind", .string kind.name), ("variable", loopVariable.encode),
        ("sequence", sequence.encode), ("body", .array (encodeStatements body))])
  | .break => .string "break"
  | .continue => .string "continue"
  | .return value =>
      let value :=
        match value with
        | none => Json.null
        | some value => value.encode
      .tagged "return" value
  | .call invocation => .tagged "call" invocation.encode
  | .release value => .tagged "release" value.encode
  | .block statements => .tagged "block" (.array (encodeStatements statements))

def encodeStatements : List Statement → List Json
  | [] => []
  | statement :: rest => statement.encode :: encodeStatements rest

end

namespace Program

def encode (program : Program) : Json :=
  .object [("global_scope_size", .ofInt32 program.globalSize),
    ("body", .array (encodeStatements program.body))]

end Program

/-! ## Decoding of trees -/

mutual

def Expr.decodeWithin : Nat → Json → Option Expr
  | 0, _ => none
  | bound + 1, json => do
      match ← json.fields? ["ty", "kind"] with
      | [some type, some form] =>
          return .typed (← Ty.decode? type) (← Form.decodeWithin bound form)
      | _ => none

def Form.decodeWithin : Nat → Json → Option Form
  | 0, _ => none
  | bound + 1, json => do
      match ← json.variant? with
      | ("boolean", some value) => value.toBool?.map .boolean
      | ("character", some value) => value.toByte?.map .character
      | ("integer", some value) => value.toInt32?.map .integer
      | ("floating", some value) => value.toBinary64?.map .floating
      | ("string", some value) => value.toString?.map .string
      | ("identifier", some binding) => (Binding.decode? binding).map .identifier
      | ("operation", some payload) =>
          match ← payload.fields? ["signature", "operands"] with
          | [some signature, some operands] =>
              return .operation (← Signature.decode? signature)
                (← (← operands.toArray?).mapM (Expr.decodeWithin bound))
          | _ => none
      | ("comparison", some payload) =>
          match ← payload.fields? ["op", "lhs", "rhs"] with
          | [some relation, some left, some right] =>
              return .comparison (← Relation.decode? relation) (← Expr.decodeWithin bound left)
                (← Expr.decodeWithin bound right)
          | _ => none
      | ("populated_array", some elements) =>
          return .populatedArray (← (← elements.toArray?).mapM (Expr.decodeWithin bound))
      | ("lambda", some payload) =>
          match ← payload.fields?
              ["parameters", "body", "parameter_scope_size", "local_scope_size"] with
          | [some parameters, some body, some parameterSize, some localSize] =>
              return .lambda (← (← parameters.toArray?).mapM Binding.decode?)
                (← (← body.toArray?).mapM (Statement.decodeWithin bound))
                (← parameterSize.toInt32?) (← localSize.toInt32?)
          | _ => none
      | ("invocation", some payload) =>
          match ← payload.fields? ["callee", "arguments"] with
          | [some callee, some arguments] =>
              return .invocation (← Expr.decodeWithin bound callee)
                (← (← arguments.toArray?).mapM (Expr.decodeWithin bound))
          | _ => none
      | ("map", some payload) =>
          match ← payload.fields? ["array", "lambda"] with
          | [some array, some function] =>
              return .map (← Expr.decodeWithin bound array) (← Expr.decodeWithin bound function)
          | _ => none
      | ("reduce", some payload) =>
          match ← payload.fields? ["array", "lambda"] with
          | [some array, some function] =>
              return .reduce (← Expr.decodeWithin bound array)
                (← Expr.decodeWithin bound function)
          | _ => none
      | ("fold", some payload) =>
          match ← payload.fields? ["array", "base", "lambda"] with
          | [some array, base, some function] =>
              return .fold (← Expr.decodeWithin bound array)
                (← Json.defaulted? (Json.optional? (Expr.decodeWithin bound)) none base)
                (← Expr.decodeWithin bound function)
          | _ => none
      | ("zip", some payload) =>
          match ← payload.fields? ["first", "second", "lambda"] with
          | [some first, some second, some function] =>
              return .zip (← Expr.decodeWithin bound first) (← Expr.decodeWithin bound second)
                (← Expr.decodeWithin bound function)
          | _ => none
      | _ => none

def PrintItem.decodeWithin : Nat → Json → Option PrintItem
  | 0, _ => none
  | bound + 1, json => do
      match ← json.variant? with
      | ("expression", some expression) =>
          (Expr.decodeWithin bound expression).map .expression
      | ("newline", payload) => Json.unit? payload .newline
      | ("space", payload) => Json.unit? payload .space
      | ("tab", payload) => Json.unit? payload .tab
      | _ => none

def Statement.decodeWithin : Nat → Json → Option Statement
  | 0, _ => none
  | bound + 1, json => do
      match ← json.variant? with
      | ("declaration", some payload) =>
          match ← payload.fields? ["binding", "value", "is_static"] with
          | [some binding, some value, isStatic] =>
              return .declaration (← Binding.decode? binding) (← Expr.decodeWithin bound value)
                (← Json.defaulted? Json.toBool? false isStatic)
          | _ => none
      | ("assignment", some payload) =>
          match ← payload.fields? ["target", "value"] with
          | [some target, some value] =>
              return .assignment (← Expr.decodeWithin bound target)
                (← Expr.decodeWithin bound value)
          | _ => none
      | ("print", some items) =>
          return .print (← (← items.toArray?).mapM (PrintItem.decodeWithin bound))
      | ("if", some payload) =>
          match ← payload.fields? ["condition", "then_block", "else_block"] with
          | [some condition, some thenBlock, elseBlock] =>
              return .ifElse (← Expr.decodeWithin bound condition)
                (← (← thenBlock.toArray?).mapM (Statement.decodeWithin bound))
                (← Json.defaulted?
                  (Json.optional? fun block => do
                    (← block.toArray?).mapM (Statement.decodeWithin bound))
                  none elseBlock)
          | _ => none
      | ("while", some payload) =>
          match ← payload.fields? ["condition", "body"] with
          | [some condition, some body] =>
              return .while (← Expr.decodeWithin bound condition)
                (← (← body.toArray?).mapM (Statement.decodeWithin bound))
          | _ => none
      | ("for", some payload) =>
          match ← payload.fields? ["kind", "variable", "sequence", "body"] with
          | [some kind, some loopVariable, some sequence, some body] =>
              return .for (← ForKind.decode? kind) (← Binding.decode? loopVariable)
                (← Expr.decodeWithin bound sequence)
                (← (← body.toArray?).mapM (Statement.decodeWithin bound))
          | _ => none
      | ("break", payload) => Json.unit? payload .break
      | ("continue", payload) => Json.unit? payload .continue
      | ("return", some value) =>
          return .return (← Json.optional? (Expr.decodeWithin bound) value)
      | ("call", some invocation) => (Expr.decodeWithin bound invocation).map .call
      | ("release", some value) => (Expr.decodeWithin bound value).map .release
      | ("block", some statements) =>
          return .block (← (← statements.toArray?).mapM (Statement.decodeWithin bound))
      | _ => none

end

namespace Expr

def decode? (json : Json) : Option Expr :=
  decodeWithin json.depth json

end Expr

namespace Statement

def decode? (json : Json) : Option Statement :=
  decodeWithin json.depth json

/-- A list of statements. -/
def decodeBlock? (json : Json) : Option (List Statement) := do
  (← json.toArray?).mapM decode?

end Statement

namespace Program

def decode? (json : Json) : Option Program := do
  match ← json.fields? ["global_scope_size", "body"] with
  | [some globalSize, some body] =>
      return { globalSize := ← globalSize.toInt32?, body := ← Statement.decodeBlock? body }
  | _ => none

end Program

end StackBackend
