import StackBackend.Decimal

namespace StackBackend

/-! Reading numbers from text. A reader takes the whole text of a number and
answers with nothing when the text is anything else. -/

def digitValue (digit : Char) : Nat :=
  digit.toNat - 48

/-- The number that a run of decimal digits denotes. -/
def naturalOfDigits (digits : List Char) : Nat :=
  digits.foldl (fun value digit => 10 * value + digitValue digit) 0

/-- A non-empty run of decimal digits. -/
def readNatural? (text : List Char) : Option Nat :=
  if !text.isEmpty && text.all Char.isDigit then some (naturalOfDigits text) else none

/-- Decimal digits with an optional sign. -/
def readInteger? : List Char → Option Int
  | '-' :: digits => (readNatural? digits).map fun value => -(value : Int)
  | '+' :: digits => (readNatural? digits).map fun value => (value : Int)
  | digits => (readNatural? digits).map fun value => (value : Int)

/-- A signed integer that fits in 32 bits. -/
def readInt32? (text : List Char) : Option Int32 := do
  let value ← readInteger? text
  if -2147483648 ≤ value ∧ value ≤ 2147483647 then some (Int32.ofInt value) else none

/-- Decimal digits with an optional plus sign, below the given bound. -/
def readBounded? (bound : Nat) (text : List Char) : Option Nat := do
  let digits :=
    match text with
    | '+' :: rest => rest
    | _ => text
  let value ← readNatural? digits
  if value < bound then some value else none

def readByte? (text : List Char) : Option UInt8 :=
  (readBounded? 256 text).map UInt8.ofNat

/-! A floating number is a sign and one of the words `inf`, `infinity` and
`nan` in any case, or digits with at most one point among them and an optional
exponent. At least one digit stands before or after the point. -/

/-- Digits with an optional fraction, as a decimal, and what follows them. -/
def readMantissa? (text : List Char) : Option (Decimal × List Char) :=
  let whole := text.takeWhile Char.isDigit
  match text.dropWhile Char.isDigit with
  | '.' :: rest =>
      let fraction := rest.takeWhile Char.isDigit
      if whole.isEmpty && fraction.isEmpty then
        none
      else
        some (⟨naturalOfDigits (whole ++ fraction), -(fraction.length : Int)⟩,
          rest.dropWhile Char.isDigit)
  | rest =>
      if whole.isEmpty then none else some (⟨naturalOfDigits whole, 0⟩, rest)

/-- Nothing, or an exponent that ends the text. -/
def readExponent? : List Char → Option Int
  | [] => some 0
  | 'e' :: exponent | 'E' :: exponent => readInteger? exponent
  | _ => none

def readUnsigned? (negative : Bool) (text : List Char) : Option Binary64 :=
  match String.ofList (text.map Char.toLower) with
  | "inf" | "infinity" => some (Binary64.infinity negative)
  | "nan" => some (Binary64.ofMagnitude negative Binary64.quietNaN.magnitude)
  | _ => do
      let (mantissa, rest) ← readMantissa? text
      let exponent ← readExponent? rest
      return Decimal.toBinary64 negative
        { mantissa with exponent := mantissa.exponent + exponent }

def readBinary64? : List Char → Option Binary64
  | '-' :: text => readUnsigned? true text
  | '+' :: text => readUnsigned? false text
  | text => readUnsigned? false text

end StackBackend
