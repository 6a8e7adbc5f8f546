import StackBackend.Binary64

namespace StackBackend

/-! The byte form of words: least significant byte first. -/

def littleEndian : Nat → Nat → List UInt8
  | 0, _ => []
  | width + 1, value => UInt8.ofNat value :: littleEndian width (value / 256)

def ofLittleEndian : List UInt8 → Nat
  | [] => 0
  | byte :: rest => byte.toNat + 256 * ofLittleEndian rest

@[simp] theorem length_littleEndian (width value : Nat) :
    (littleEndian width value).length = width := by
  induction width generalizing value with
  | zero => rfl
  | succ width induction => simp [littleEndian, induction]

theorem ofLittleEndian_littleEndian {width value : Nat} (fits : value < Nat.pow 256 width) :
    ofLittleEndian (littleEndian width value) = value := by
  induction width generalizing value with
  | zero => simp_all [littleEndian, ofLittleEndian]
  | succ width induction =>
      have rest : value / 256 < Nat.pow 256 width := by
        rw [Nat.div_lt_iff_lt_mul (by decide)]
        simpa [Nat.pow_succ] using fits
      simp only [littleEndian, ofLittleEndian, induction rest, UInt8.toNat_ofNat']
      omega

namespace WordBytes

def ofInt32 (value : Int32) : List UInt8 :=
  littleEndian 4 value.toUInt32.toNat

def toInt32 (bytes : List UInt8) : Int32 :=
  (UInt32.ofNat (ofLittleEndian bytes)).toInt32

def ofBinary64 (value : Binary64) : List UInt8 :=
  littleEndian 8 value.bits.toNat

def toBinary64 (bytes : List UInt8) : Binary64 :=
  ⟨UInt64.ofNat (ofLittleEndian bytes)⟩

@[simp] theorem toInt32_ofInt32 (value : Int32) : toInt32 (ofInt32 value) = value := by
  have fits : value.toUInt32.toNat < Nat.pow 256 4 := value.toUInt32.toNat_lt
  simp [toInt32, ofInt32, ofLittleEndian_littleEndian fits]

@[simp] theorem toBinary64_ofBinary64 (value : Binary64) :
    toBinary64 (ofBinary64 value) = value := by
  have fits : value.bits.toNat < Nat.pow 256 8 := value.bits.toNat_lt
  simp [toBinary64, ofBinary64, ofLittleEndian_littleEndian fits]

end WordBytes

end StackBackend
