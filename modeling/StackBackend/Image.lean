import Std.Data.HashMap
import StackBackend.Instruction
import StackBackend.Memory

namespace StackBackend

/-! The assembler. It takes code and data apart, gives every label its place and
puts the places into the instructions and data that name labels. -/

/-- What a label resolves to: an index into the code, or a byte address in the
data. -/
inductive Symbol where
  | code (index : Nat)
  | data (address : Nat)
deriving DecidableEq

namespace Symbol

/-- The word that stands for the label at run time. -/
def word : Symbol → Int32
  | .code index => Int32.ofNat index
  | .data address => Int32.ofNat address

end Symbol

inductive AssemblyError where
  | duplicateLabel (label : String)
  | undefinedLabel (label : String)
  | notCodeLabel (opcode label : String)
  | negativeDataSize (size : Int32)
deriving DecidableEq

namespace AssemblyError

def message : AssemblyError → String
  | .duplicateLabel label => s!"label `{label}` is defined more than once"
  | .undefinedLabel label => s!"label `{label}` is never defined"
  | .notCodeLabel opcode label =>
      s!"`{opcode}` needs a code label, but `{label}` labels data"
  | .negativeDataSize size => s!"`DataZ` given a negative size ({size.toInt})"

end AssemblyError

/-! ## Placement

One pass over the code places every label. Data is kept as a list of pieces; a
piece that names a label is filled in when all labels are known. -/

inductive Datum where
  | bytes (content : List UInt8)
  | zeros (count : Nat)
  | reference (label : String)
deriving DecidableEq

namespace Datum

def size : Datum → Nat
  | .bytes content => content.length
  | .zeros count => count
  | .reference _ => 4

/-- The bytes of a piece; those of a label that has no place yet are zero. -/
def content : Datum → List UInt8
  | .bytes content => content
  | .zeros count => List.replicate count 0
  | .reference _ => List.replicate 4 0

@[simp] theorem length_content (datum : Datum) : datum.content.length = datum.size := by
  cases datum <;> simp [content, size]

end Datum

structure Placement where
  symbols : Std.HashMap String Symbol
  code : Array Instruction
  data : Array Datum
  dataSize : Nat

namespace Placement

def empty : Placement where
  symbols := ∅
  code := #[]
  data := #[]
  dataSize := 0

def define (placement : Placement) (name : String) (symbol : Symbol) :
    Except AssemblyError Placement :=
  if placement.symbols.contains name then
    .error (.duplicateLabel name)
  else
    .ok { placement with symbols := placement.symbols.insert name symbol }

def addDatum (placement : Placement) (datum : Datum) : Placement :=
  { placement with
    data := placement.data.push datum
    dataSize := placement.dataSize + datum.size }

def place (placement : Placement) : Instruction → Except AssemblyError Placement
  | .label name => placement.define name (.code placement.code.size)
  | .dataLabel name => placement.define name (.data placement.dataSize)
  | .dataC byte => .ok (placement.addDatum (.bytes [byte]))
  | .dataI value => .ok (placement.addDatum (.bytes (WordBytes.ofInt32 value)))
  | .dataF value => .ok (placement.addDatum (.bytes (WordBytes.ofBinary64 value)))
  | .dataS text => .ok (placement.addDatum (.bytes (text.toUTF8.toList ++ [0])))
  | .dataZ size =>
      if size < 0 then
        .error (.negativeDataSize size)
      else
        .ok (placement.addDatum (.zeros size.toNatClampNeg))
  | .dataD label => .ok (placement.addDatum (.reference label))
  | instruction => .ok { placement with code := placement.code.push instruction }

def ofCode (code : Code) : Except AssemblyError Placement :=
  code.foldlM place empty

def resolve (placement : Placement) (label : String) : Except AssemblyError Symbol :=
  match placement.symbols[label]? with
  | some symbol => .ok symbol
  | none => .error (.undefinedLabel label)

def resolveDatum (placement : Placement) : Datum → Except AssemblyError Datum
  | .reference label => do
      return .bytes (WordBytes.ofInt32 (← placement.resolve label).word)
  | datum => .ok datum

/-- The word of the label operand of an instruction, zero when it has none.
Only `PushD` may name data. -/
def target (placement : Placement) (instruction : Instruction) : Except AssemblyError Int32 :=
  match instruction.labelOperand? with
  | none => .ok 0
  | some label => do
      let symbol ← placement.resolve label
      match instruction, symbol with
      | .pushD _, _ => return symbol.word
      | _, .code _ => return symbol.word
      | _, .data _ => .error (.notCodeLabel instruction.opcode label)

end Placement

/-! ## Loading

Pieces are written one after the other. What they are written to is all zero, so
pieces of zeros need no writing. -/

def loadData (memory : Memory) (start : Nat) : List Datum → Memory
  | [] => memory
  | .bytes content :: rest =>
      loadData (memory.write start content) (start + content.length) rest
  | datum :: rest => loadData memory (start + datum.size) rest

@[simp] theorem size_loadData (memory : Memory) (start : Nat) (data : List Datum) :
    (loadData memory start data).size = memory.size := by
  fun_induction loadData memory start data with
  | case1 => rfl
  | case2 memory start content rest induction => simp [induction]
  | case3 memory start datum rest _ induction => exact induction

/-! ## Images -/

/-- An instruction of the code segment and what its label resolves to. -/
structure Placed where
  instruction : Instruction
  target : Int32
deriving DecidableEq, Inhabited

structure Image where
  code : Array Placed
  data : List Datum
  dataSize : Nat
  symbols : Std.HashMap String Symbol

namespace Image

/-- Labels in data are resolved before labels in code, each in order. -/
def ofPlacement (placement : Placement) : Except AssemblyError Image := do
  let data ← placement.data.toList.mapM placement.resolveDatum
  let code ← placement.code.mapM fun instruction => do
    return Placed.mk instruction (← placement.target instruction)
  return { code, data, dataSize := placement.dataSize, symbols := placement.symbols }

def assemble (code : Code) : Except AssemblyError Image := do
  ofPlacement (← Placement.ofCode code)

/-- The bytes from address zero on. -/
def dataSegment (image : Image) : List UInt8 :=
  image.data.flatMap Datum.content

/-- The address of a data label. -/
def dataAddress? (image : Image) (label : String) : Option Nat :=
  match image.symbols[label]? with
  | some (.data address) => some address
  | _ => none

end Image

end StackBackend
