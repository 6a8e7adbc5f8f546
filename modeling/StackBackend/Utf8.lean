namespace StackBackend

/-! Output is bytes. Read as UTF-8 it is a sequence of characters and of parts
that are ill-formed, where a part is the longest start of a character that the
next byte fails to continue, or else a single byte. -/

namespace Utf8

/-- A character some of whose bytes are still to come. The next byte has to be
between `least` and `greatest`. -/
structure Pending where
  value : Nat
  missing : Nat
  least : Nat
  greatest : Nat
deriving DecidableEq

/-- What a lead byte begins. The bounds of the second byte leave out overlong
forms, surrogates and what is above the last character. -/
def begin? (byte : Nat) : Option Pending :=
  if byte < 0xC2 then none
  else if byte < 0xE0 then some ⟨byte - 0xC0, 1, 0x80, 0xBF⟩
  else if byte = 0xE0 then some ⟨0, 2, 0xA0, 0xBF⟩
  else if byte = 0xED then some ⟨0xD, 2, 0x80, 0x9F⟩
  else if byte < 0xF0 then some ⟨byte - 0xE0, 2, 0x80, 0xBF⟩
  else if byte = 0xF0 then some ⟨0, 3, 0x90, 0xBF⟩
  else if byte < 0xF4 then some ⟨byte - 0xF0, 3, 0x80, 0xBF⟩
  else if byte = 0xF4 then some ⟨4, 3, 0x80, 0x8F⟩
  else none

/-- What was read so far, last first, where `none` stands for an ill-formed
part. -/
structure Reading where
  reversed : List (Option Char) := []
  pending : Option Pending := none

namespace Reading

def add (reading : Reading) (character : Option Char) : Reading :=
  ⟨character :: reading.reversed, none⟩

/-- Reads a byte that begins a character. -/
def start (reading : Reading) (byte : Nat) : Reading :=
  if byte < 0x80 then
    reading.add (some (Char.ofNat byte))
  else
    match begin? byte with
    | none => reading.add none
    | some pending => { reading with pending := some pending }

def step (reading : Reading) (byte : Nat) : Reading :=
  match reading.pending with
  | none => reading.start byte
  | some pending =>
      if pending.least ≤ byte ∧ byte ≤ pending.greatest then
        let value := pending.value * 64 + (byte - 0x80)
        if pending.missing = 1 then
          reading.add (some (Char.ofNat value))
        else
          { reading with pending := some ⟨value, pending.missing - 1, 0x80, 0xBF⟩ }
      else
        (reading.add none).start byte

def finish (reading : Reading) : List (Option Char) :=
  match reading.pending with
  | none => reading.reversed.reverse
  | some _ => (reading.add none).reversed.reverse

end Reading

/-- The characters of the bytes, with `none` for each ill-formed part. -/
def decode (bytes : List UInt8) : List (Option Char) :=
  (bytes.foldl (fun reading byte => reading.step byte.toNat) ({} : Reading)).finish

/-- The text of well-formed bytes. -/
def text? (bytes : List UInt8) : Option String :=
  ((decode bytes).mapM id).map String.ofList

/-- The text with a replacement character for each ill-formed part. -/
def lossyText (bytes : List UInt8) : String :=
  String.ofList ((decode bytes).map fun character => character.getD (Char.ofNat 0xFFFD))

end Utf8

end StackBackend
