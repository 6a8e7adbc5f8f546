import StackBackend.Decimal.Numeral

namespace StackBackend

/-! Formatted output. In a format, a percent sign and one of four letters ask
for an argument; a doubled percent sign stands for one; everything else stands
for itself, also a percent sign before any other byte or at the end. -/

inductive Conversion where
  | integer
  | floating
  | character
  | string
deriving DecidableEq

inductive Argument where
  | integer (value : Int32)
  | floating (value : Binary64)
  /-- The bytes of a zero-terminated text, without the terminator. -/
  | string (bytes : List UInt8)
deriving DecidableEq

/-- The bytes of characters known to be ASCII. -/
def asciiBytes (characters : List Char) : List UInt8 :=
  characters.map fun character => UInt8.ofNat character.toNat

namespace Format

def percent : UInt8 := 37

def conversion? (letter : UInt8) : Option Conversion :=
  if letter = 100 then some .integer
  else if letter = 103 then some .floating
  else if letter = 99 then some .character
  else if letter = 115 then some .string
  else none

/-- The conversions that a format asks for, in order. -/
def conversions : List UInt8 → List Conversion
  | [] => []
  | byte :: rest =>
      if byte = percent then
        match rest with
        | [] => []
        | letter :: after =>
            match conversion? letter with
            | some conversion => conversion :: conversions after
            | none => conversions after
      else
        conversions rest

def integerText (value : Int32) : List Char :=
  if value < 0 then
    '-' :: decimalDigits value.toInt.natAbs
  else
    decimalDigits value.toInt.natAbs

/-- The text of an argument under a conversion. -/
def expand : Conversion → Argument → List UInt8
  | .character, .integer value => [value.toUInt32.toUInt8]
  | _, .integer value => asciiBytes (integerText value)
  | _, .floating value => asciiBytes value.compactText
  | _, .string bytes => bytes

/-- The format with its conversions replaced by the arguments, in order. -/
def render : List UInt8 → List Argument → List UInt8
  | [], _ => []
  | byte :: rest, arguments =>
      if byte = percent then
        match rest with
        | [] => [percent]
        | letter :: after =>
            match conversion? letter with
            | some conversion =>
                match arguments with
                | argument :: others => expand conversion argument ++ render after others
                | [] => render after []
            | none =>
                if letter = percent then
                  percent :: render after arguments
                else
                  percent :: letter :: render after arguments
      else
        byte :: render rest arguments

end Format

end StackBackend
