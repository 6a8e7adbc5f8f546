namespace StackBackend

/-! The resolved types of the source language. Every expression of a tree
carries one; there are no type variables left. A rational is an exact fraction,
carried as a numerator and a denominator. -/

inductive Ty where
  | boolean
  | character
  | integer
  | floating
  | string
  | rational
  | array (element : Ty)
  | lambda (parameters : List Ty) (result : Ty)
  | void
deriving Inhabited

namespace Ty

def isVoid : Ty → Bool
  | .void => true
  | _ => false

/-- The bytes a value of this type takes in memory. -/
def size : Ty → Int32
  | .boolean | .character => 1
  | .integer | .string | .array _ | .lambda .. => 4
  | .floating | .rational => 8
  | .void => 0

/-- The words a value of this type takes on the operand stack. -/
def stackWords : Ty → Nat
  | .void => 0
  | .rational => 2
  | _ => 1

/-- Whether an array with elements of this type holds pointers to records that
are released with it. -/
def isReference : Ty → Bool
  | .array _ => true
  | _ => false

/-! The spelling of types in messages. -/

mutual

def text : Ty → String
  | .boolean => "bool"
  | .character => "char"
  | .integer => "int"
  | .floating => "float"
  | .string => "string"
  | .rational => "rat"
  | .array element => "[" ++ element.text ++ "]"
  | .lambda parameters result => "<" ++ texts parameters ++ "> -> " ++ result.text
  | .void => "void"

/-- The spellings of a parameter list, separated by commas. -/
def texts : List Ty → String
  | [] => ""
  | [last] => last.text
  | first :: rest => first.text ++ ", " ++ texts rest

end

end Ty

end StackBackend
