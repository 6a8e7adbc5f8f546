import StackBackend.Decimal.Numeral
import StackBackend.Json

namespace StackBackend

namespace Json

/-! Writing JSON text without spaces. -/

def hexDigit (value : Nat) : Char :=
  if value < 10 then Char.ofNat (48 + value) else Char.ofNat (87 + value)

/-- The lowercase hexadecimal digits of bytes. -/
def hexText (bytes : List UInt8) : String :=
  bytes.foldl
    (fun text byte => (text.push (hexDigit (byte.toNat / 16))).push (hexDigit (byte.toNat % 16)))
    ""

def writeCharacter (text : String) (character : Char) : String :=
  match character with
  | '"' => text ++ "\\\""
  | '\\' => text ++ "\\\\"
  | '\n' => text ++ "\\n"
  | _ =>
      if character.toNat < 32 then
        ((text ++ "\\u00").push (hexDigit (character.toNat / 16))).push
          (hexDigit (character.toNat % 16))
      else
        text.push character

def writeString (text value : String) : String :=
  (value.toList.foldl writeCharacter (text.push '"')).push '"'

mutual

/-- The text of a value added to what is written already. -/
def write (text : String) : Json → String
  | .null => text ++ "null"
  | .bool value => text ++ if value then "true" else "false"
  | .integer value => text ++ toString value
  | .floating value => text ++ String.ofList value.exactText
  | .string value => writeString text value
  | .array items => (writeItems (text.push '[') true items).push ']'
  | .object members => (writeMembers (text.push '\x7b') true members).push '\x7d'

def writeItems (text : String) (first : Bool) : List Json → String
  | [] => text
  | item :: rest => writeItems (write (if first then text else text.push ',') item) false rest

def writeMembers (text : String) (first : Bool) : List (String × Json) → String
  | [] => text
  | (name, value) :: rest =>
      let text := (writeString (if first then text else text.push ',') name).push ':'
      writeMembers (write text value) false rest

end

def text (json : Json) : String :=
  write "" json

end Json

end StackBackend
