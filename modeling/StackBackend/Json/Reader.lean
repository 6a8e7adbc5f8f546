import StackBackend.Decimal.Scaled
import StackBackend.Json

namespace StackBackend

namespace JsonReader

/-! A strict reader of JSON text. Every function takes the characters that are
left and gives back what it read and what is left then. -/

def isSpace (character : Char) : Bool :=
  character = ' ' || character = '\n' || character = '\t' || character = '\r'

def skipSpace (text : List Char) : List Char :=
  text.dropWhile isSpace

/-! ## Strings -/

def hexValue? (digit : Char) : Option Nat :=
  if digit.isDigit then some (digit.toNat - 48)
  else if 'a' ≤ digit ∧ digit ≤ 'f' then some (digit.toNat - 87)
  else if 'A' ≤ digit ∧ digit ≤ 'F' then some (digit.toNat - 55)
  else none

/-- Four hexadecimal digits. -/
def codeUnit? : List Char → Option (Nat × List Char)
  | first :: second :: third :: fourth :: rest => do
      let unit := 4096 * (← hexValue? first) + 256 * (← hexValue? second) +
        16 * (← hexValue? third) + (← hexValue? fourth)
      return (unit, rest)
  | _ => none

/-- The character of an escape with four digits, or of two such escapes that
form a surrogate pair. A surrogate on its own stands for nothing. -/
def unicodeEscape? (text : List Char) : Option (Char × List Char) := do
  let (unit, rest) ← codeUnit? text
  if 0xD800 ≤ unit ∧ unit < 0xDC00 then
    match rest with
    | '\\' :: 'u' :: more =>
        let (low, rest) ← codeUnit? more
        if 0xDC00 ≤ low ∧ low < 0xE000 then
          return (Char.ofNat (0x10000 + 1024 * (unit - 0xD800) + (low - 0xDC00)), rest)
        else
          none
    | _ => none
  else if 0xDC00 ≤ unit ∧ unit < 0xE000 then
    none
  else
    return (Char.ofNat unit, rest)

def simpleEscape? : Char → Option Char
  | '"' => some '"'
  | '\\' => some '\\'
  | '/' => some '/'
  | 'b' => some '\x08'
  | 'f' => some '\x0c'
  | 'n' => some '\n'
  | 'r' => some '\r'
  | 't' => some '\t'
  | _ => none

/-- The string after an opening quote. The characters read so far are
`reversed`; every round takes at least one character. -/
def string? (reversed : List Char) : Nat → List Char → Option (String × List Char)
  | 0, _ => none
  | _ + 1, [] => none
  | _ + 1, '"' :: rest => some (String.ofList reversed.reverse, rest)
  | fuel + 1, '\\' :: 'u' :: text =>
      match unicodeEscape? text with
      | some (character, rest) => string? (character :: reversed) fuel rest
      | none => none
  | fuel + 1, '\\' :: letter :: rest =>
      match simpleEscape? letter with
      | some character => string? (character :: reversed) fuel rest
      | none => none
  | fuel + 1, character :: rest =>
      if character.toNat < 32 || character = '\\' then
        none
      else
        string? (character :: reversed) fuel rest

/-! ## Numbers -/

/-- Digits without a superfluous leading zero. -/
def wholeDigits? (text : List Char) : Option (List Char × List Char) :=
  let digits := text.takeWhile Char.isDigit
  let rest := text.dropWhile Char.isDigit
  match digits with
  | [] => none
  | '0' :: _ :: _ => none
  | _ => some (digits, rest)

/-- A point and at least one digit, if there is a point. -/
def fractionDigits? : List Char → Option (Option (List Char) × List Char)
  | '.' :: text =>
      let digits := text.takeWhile Char.isDigit
      if digits.isEmpty then none else some (some digits, text.dropWhile Char.isDigit)
  | text => some (none, text)

/-- An exponent with at least one digit, if there is one. -/
def exponentPart? : List Char → Option (Option Int × List Char)
  | 'e' :: text | 'E' :: text =>
      let (negative, text) :=
        match text with
        | '-' :: rest => (true, rest)
        | '+' :: rest => (false, rest)
        | _ => (false, text)
      let digits := text.takeWhile Char.isDigit
      if digits.isEmpty then
        none
      else
        let value : Int := naturalOfDigits digits
        some (some (if negative then -value else value), text.dropWhile Char.isDigit)
  | text => some (none, text)

/-- A number after its sign. A negative zero is not an integer. -/
def number? (reading : NumberReading) (negative : Bool) (text : List Char) :
    Option (Json × List Char) := do
  let (whole, rest) ← wholeDigits? text
  let (fraction, rest) ← fractionDigits? rest
  let (exponent, rest) ← exponentPart? rest
  let value := naturalOfDigits whole
  let isInteger := fraction.isNone && exponent.isNone && !(negative && value == 0)
  if isInteger && reading.keepsInteger value then
    return (.integer (if negative then -(value : Int) else value), rest)
  else
    return (.floating (reading.word negative whole (fraction.getD []) (exponent.getD 0)), rest)

def literal? (word : List Char) (value : Json) (text : List Char) : Option (Json × List Char) :=
  if word.isPrefixOf text then some (value, text.drop word.length) else none

/-! ## Values

Every character is looked at in at most two rounds, one for what it stands in
and one for what it starts, so twice the length of the text is fuel enough. -/

mutual

def value? (reading : NumberReading) : Nat → List Char → Option (Json × List Char)
  | 0, _ => none
  | fuel + 1, text =>
      match skipSpace text with
      | [] => none
      | 'n' :: rest => literal? "ull".toList .null rest
      | 't' :: rest => literal? "rue".toList (.bool true) rest
      | 'f' :: rest => literal? "alse".toList (.bool false) rest
      | '"' :: rest => (string? [] fuel rest).map fun (value, rest) =>
          (.string value, rest)
      | '[' :: rest =>
          match skipSpace rest with
          | ']' :: rest => some (.array [], rest)
          | rest => (items? reading fuel rest).map fun (items, rest) => (.array items, rest)
      | '\x7b' :: rest =>
          match skipSpace rest with
          | '\x7d' :: rest => some (.object [], rest)
          | rest => (members? reading fuel rest).map fun (members, rest) => (.object members, rest)
      | '-' :: rest => number? reading true rest
      | text => number? reading false text

/-- The items of an array that has some, and its closing bracket. -/
def items? (reading : NumberReading) : Nat → List Char → Option (List Json × List Char)
  | 0, _ => none
  | fuel + 1, text => do
      let (item, rest) ← value? reading fuel text
      match skipSpace rest with
      | ']' :: rest => return ([item], rest)
      | ',' :: rest =>
          let (items, rest) ← items? reading fuel rest
          return (item :: items, rest)
      | _ => none

/-- The members of an object that has some, and its closing brace. -/
def members? (reading : NumberReading) :
    Nat → List Char → Option (List (String × Json) × List Char)
  | 0, _ => none
  | fuel + 1, text => do
      let (name, rest) ←
        match skipSpace text with
        | '"' :: rest => string? [] fuel rest
        | _ => none
      let (value, rest) ←
        match skipSpace rest with
        | ':' :: rest => value? reading fuel rest
        | _ => none
      match skipSpace rest with
      | '\x7d' :: rest => return ([(name, value)], rest)
      | ',' :: rest =>
          let (members, rest) ← members? reading fuel rest
          return ((name, value) :: members, rest)
      | _ => none

end

end JsonReader

namespace Json

/-- The value of a text that holds one value and nothing else. -/
def ofText? (reading : NumberReading) (text : String) : Option Json := do
  let characters := text.toList
  let (value, rest) ← JsonReader.value? reading (2 * characters.length + 2) characters
  if (JsonReader.skipSpace rest).isEmpty then some value else none

end Json

end StackBackend
