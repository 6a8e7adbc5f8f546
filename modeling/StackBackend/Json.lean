import StackBackend.Binary64

namespace StackBackend

/-! JSON values. An integer literal and a number with a fraction or an exponent
are told apart, since only the former stands for a word. The members of an
object keep their order and their repetitions. -/

inductive Json where
  | null
  | bool (value : Bool)
  | integer (value : Int)
  | floating (value : Binary64)
  | string (value : String)
  | array (items : List Json)
  | object (members : List (String × Json))
deriving Inhabited

namespace Json

/-- The value of the first member with this name. -/
def member? (json : Json) (name : String) : Option Json :=
  match json with
  | .object members => members.lookup name
  | _ => none

/-! Scalars. -/

def toBool? : Json → Option Bool
  | .bool value => some value
  | _ => none

def toString? : Json → Option String
  | .string value => some value
  | _ => none

def toInt? : Json → Option Int
  | .integer value => some value
  | _ => none

def toInt32? (json : Json) : Option Int32 := do
  let value ← json.toInt?
  if -2147483648 ≤ value ∧ value ≤ 2147483647 then some (Int32.ofInt value) else none

def toByte? (json : Json) : Option UInt8 := do
  let value ← json.toInt?
  if 0 ≤ value ∧ value ≤ 255 then some (UInt8.ofNat value.toNat) else none

def toNat? (json : Json) : Option Nat := do
  let value ← json.toInt?
  if 0 ≤ value then some value.toNat else none

/-- A finite number; an integer literal stands for the nearest one. -/
def toBinary64? (json : Json) : Option Binary64 :=
  let number :=
    match json with
    | .integer value => some (Binary64.ofMagnitude (value < 0)
        (Binary64.nearestMagnitude ⟨value.natAbs, 1⟩))
    | .floating value => some value
    | _ => none
  match number with
  | some value => if value.isFinite then some value else none
  | none => none

def toArray? : Json → Option (List Json)
  | .array items => some items
  | _ => none

/-! Records are objects whose members are named in advance. Members with other
names are ignored, and a known name may not be repeated. A record may also be
written as the array of its fields in order, where trailing fields that have a
default can be left out. -/

/-- The one value of a member; the outer option fails on a repetition. -/
def unique? (members : List (String × Json)) (name : String) : Option (Option Json) :=
  match members.filter fun member => member.1 == name with
  | [] => some none
  | [member] => some (some member.2)
  | _ => none

def fields? (names : List String) : Json → Option (List (Option Json))
  | .object members => names.mapM (unique? members)
  | .array items =>
      if items.length ≤ names.length then
        some (items.map some ++ List.replicate (names.length - items.length) none)
      else
        none
  | _ => none

/-! Variants are a name with a payload, as an object with one member. A variant
without payload may be given by its name alone, or with the payload null. -/

/-- The name and the payload of a variant; a bare name has no payload. -/
def variant? : Json → Option (String × Option Json)
  | .string name => some (name, none)
  | .object [(name, payload)] => some (name, some payload)
  | _ => none

/-- Whether what stands with a name is no payload. -/
def isUnit : Option Json → Bool
  | none | some .null => true
  | _ => false

/-- Reads null as nothing. -/
def optional? {α : Type} (decode : Json → Option α) : Json → Option (Option α)
  | .null => some none
  | json => (decode json).map some

end Json

end StackBackend
