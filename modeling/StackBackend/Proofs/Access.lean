import StackBackend.Access
import StackBackend.Proofs.Run

namespace StackBackend

/-! What the short access sequences do. Each is straight code, so its meaning is
what it makes of the operand stack and the memory. -/

/-! ## Bytes and words

Loading and then storing gives the bytes back, as storing and then loading gives the word
back. -/

theorem ofLittleEndian_lt (bytes : List UInt8) :
    ofLittleEndian bytes < Nat.pow 256 bytes.length := by
  induction bytes with
  | nil => decide
  | cons byte rest induction =>
      have bound := byte.toNat_lt
      change byte.toNat + 256 * ofLittleEndian rest < Nat.pow 256 rest.length * 256
      omega

theorem littleEndian_ofLittleEndian (bytes : List UInt8) :
    littleEndian bytes.length (ofLittleEndian bytes) = bytes := by
  induction bytes with
  | nil => rfl
  | cons byte rest induction =>
      have bound := byte.toNat_lt
      have low : UInt8.ofNat (byte.toNat + 256 * ofLittleEndian rest) = byte := by
        refine UInt8.toNat_inj.mp ?_
        rw [UInt8.toNat_ofNat']
        omega
      have high : (byte.toNat + 256 * ofLittleEndian rest) / 256 = ofLittleEndian rest := by
        omega
      rw [List.length_cons, littleEndian, ofLittleEndian, low, high, induction]

namespace WordBytes

theorem toUInt8_toInt32 (byte : UInt8) : (toInt32 [byte]).toUInt32.toUInt8 = byte := by
  refine UInt8.toNat_inj.mp ?_
  have bound := byte.toNat_lt
  simp [toInt32, ofLittleEndian]

theorem ofInt32_toInt32 {bytes : List UInt8} (length : bytes.length = 4) :
    ofInt32 (toInt32 bytes) = bytes := by
  have bound := ofLittleEndian_lt bytes
  have back := littleEndian_ofLittleEndian bytes
  rw [length] at bound back
  rw [ofInt32, toInt32, UInt32.toUInt32_toInt32, UInt32.toNat_ofNat_of_lt' bound, back]

theorem ofBinary64_toBinary64 {bytes : List UInt8} (length : bytes.length = 8) :
    ofBinary64 (toBinary64 bytes) = bytes := by
  have bound := ofLittleEndian_lt bytes
  have back := littleEndian_ofLittleEndian bytes
  rw [length] at bound back
  rw [ofBinary64, toBinary64, UInt64.toNat_ofNat_of_lt' bound, back]

end WordBytes

/-! ## Words in memory -/

namespace Memory

/-- The word at an index. -/
def word (memory : Memory) (index : Nat) : Int32 :=
  WordBytes.toInt32 (memory.read index 4)

def setWord (memory : Memory) (index : Nat) (value : Int32) : Memory :=
  memory.write index (WordBytes.ofInt32 value)

@[simp] theorem length_ofInt32 (value : Int32) : (WordBytes.ofInt32 value).length = 4 :=
  length_littleEndian 4 _

@[simp] theorem size_setWord (memory : Memory) (index : Nat) (value : Int32) :
    (memory.setWord index value).size = memory.size :=
  size_write memory index _

theorem byte_setWord_of_outside {memory : Memory} {index other : Nat} {value : Int32}
    (outside : other < index ∨ index + 4 ≤ other) :
    (memory.setWord index value).byte other = memory.byte other :=
  byte_write_of_outside memory index other _ (by simpa using outside)

theorem read_setWord {memory : Memory} {index : Nat} (inside : index + 4 ≤ memory.size)
    (value : Int32) : (memory.setWord index value).read index 4 = WordBytes.ofInt32 value := by
  have back := read_write memory index (WordBytes.ofInt32 value) (by simpa using inside)
  rwa [length_ofInt32] at back

theorem read_setWord_of_apart {memory : Memory} {index start width : Nat} {value : Int32}
    (apart : start + width ≤ index ∨ index + 4 ≤ start) :
    (memory.setWord index value).read start width = memory.read start width :=
  read_write_of_disjoint memory start width index _ (by rwa [length_ofInt32])

theorem word_setWord {memory : Memory} {index : Nat} (inside : index + 4 ≤ memory.size)
    (value : Int32) : (memory.setWord index value).word index = value := by
  rw [word, read_setWord inside, WordBytes.toInt32_ofInt32]

theorem word_congr {left right : Memory} {index : Nat}
    (same : ∀ other, index ≤ other → other < index + 4 → left.byte other = right.byte other) :
    left.word index = right.word index := by
  rw [word, word, read_congr same]

theorem word_write_of_apart {memory : Memory} {index other : Nat} {values : List UInt8}
    (apart : other + 4 ≤ index ∨ index + values.length ≤ other) :
    (memory.write index values).word other = memory.word other :=
  word_congr fun position lower upper =>
    byte_write_of_outside memory index position values (by omega)

theorem word_setWord_of_apart {memory : Memory} {index other : Nat} {value : Int32}
    (apart : other + 4 ≤ index ∨ index + 4 ≤ other) :
    (memory.setWord index value).word other = memory.word other :=
  word_write_of_apart (by simpa using apart)

end Memory

/-! ## Cells and offsets -/

namespace Code

variable {word : String → Int32} {stack : List Word} {memory : Memory}

theorem act_append (first second : Code) :
    act word (first ++ second) stack memory =
      (act word first stack memory).bind fun (stack, memory) => act word second stack memory := by
  induction first generalizing stack memory with
  | nil => rfl
  | cons instruction rest induction =>
      rw [List.cons_append, act, act]
      split
      · exact induction
      · rw [Option.bind_assoc]
        congr 1
        funext between
        exact induction

theorem act_append_eq {first second : Code} {between : List Word} {changed : Memory}
    (acts : act word first stack memory = some (between, changed)) :
    act word (first ++ second) stack memory = act word second between changed := by
  rw [act_append, acts]
  rfl

theorem act_loadWord {name : String} {index : Nat} {rest : Code}
    (names : Address.Names (word name) index) (inside : index + 4 ≤ memory.size) :
    act word (loadWord name ++ rest) stack memory =
      act word rest (.integer (memory.word index) :: stack) memory :=
  act_loadI (Memory.load?_eq names inside)

theorem act_storeWord {name : String} {index : Nat} {value : Int32} {rest : Code}
    (names : Address.Names (word name) index) (inside : index + 4 ≤ memory.size) :
    act word (storeWord name ++ rest) (.integer value :: stack) memory =
      act word rest stack (memory.setWord index value) :=
  act_storeI (Memory.store?_eq names (by rwa [Memory.length_ofInt32]))

theorem act_addOffset {rest : Code} (offset base : Int32) :
    act word (addOffset offset ++ rest) (.integer base :: stack) memory =
      act word rest (.integer (base + offset) :: stack) memory := by
  unfold addOffset
  split
  · rename_i zero
    rw [zero, Int32.add_zero, List.nil_append]
  · rfl

theorem act_readWord {offset base : Int32} {index : Nat} {rest : Code}
    (names : Address.Names (base + offset) index) (inside : index + 4 ≤ memory.size) :
    act word (readWord offset ++ rest) (.integer base :: stack) memory =
      act word rest (.integer (memory.word index) :: stack) memory := by
  rw [readWord, List.append_assoc, act_addOffset]
  exact act_loadI (Memory.load?_eq names inside)

theorem act_setWord {index : Nat} {address value : Int32} {rest : Code}
    (names : Address.Names address index) (inside : index + 4 ≤ memory.size) :
    act word (.storeI :: rest) (.integer value :: .integer address :: stack) memory =
      act word rest stack (memory.setWord index value) :=
  act_storeI (Memory.store?_eq names (by rwa [Memory.length_ofInt32]))

end Code

/-! ## Typed values

A value of a type is a list of words on the operand stack, top first, and a list
of bytes in memory. -/

namespace Ty

/-- The bytes that a store of the words leaves in memory. -/
def bytes? (type : Ty) (value : List Word) : Option (List UInt8) :=
  match type with
  | .boolean | .character =>
      match value with
      | [.integer value] => some [value.toUInt32.toUInt8]
      | _ => none
  | .integer | .string | .array _ | .lambda .. =>
      match value with
      | [.integer value] => some (WordBytes.ofInt32 value)
      | _ => none
  | .floating =>
      match value with
      | [.floating value] => some (WordBytes.ofBinary64 value)
      | _ => none
  | .rational =>
      match value with
      | [.integer denominator, .integer numerator] =>
          some (WordBytes.ofInt32 numerator ++ WordBytes.ofInt32 denominator)
      | _ => none
  | .void => if value = [] then some [] else none

/-- The words that a load of the bytes pushes. -/
def words : Ty → List UInt8 → List Word
  | .boolean, bytes | .character, bytes => [.integer (WordBytes.toInt32 bytes)]
  | .integer, bytes | .string, bytes | .array _, bytes | .lambda .., bytes =>
      [.integer (WordBytes.toInt32 bytes)]
  | .floating, bytes => [.floating (WordBytes.toBinary64 bytes)]
  | .rational, bytes =>
      [.integer (WordBytes.toInt32 (bytes.drop 4)), .integer (WordBytes.toInt32 (bytes.take 4))]
  | .void, _ => []

/-- The words are a value of the type: memory can hold it without loss. A boolean
or a character is a byte, so its word has to be one. -/
def Admits (type : Ty) (value : List Word) : Prop :=
  ∃ bytes, type.bytes? value = some bytes ∧ type.words bytes = value

/-- The bytes of a value as a number. -/
def width (type : Ty) : Nat :=
  type.size.toNatClampNeg

theorem width_rational : width .rational = 8 := rfl

theorem width_le (type : Ty) : type.width ≤ 8 := by
  cases type <;> exact Nat.le_of_ble_eq_true rfl

theorem toInt_size (type : Ty) : type.size.toInt = (type.width : Int) := by
  cases type <;> rfl

theorem length_bytes? {type : Ty} {value : List Word} {bytes : List UInt8}
    (found : type.bytes? value = some bytes) : bytes.length = type.width := by
  cases type with
  | void =>
      simp only [bytes?, Option.ite_none_right_eq_some] at found
      rw [← Option.some.inj found.2]
      rfl
  | _ =>
      simp only [bytes?] at found
      split at found <;> cases found
      rfl

end Ty

namespace Ty

/-- What is loaded from the bytes of a value is stored as the same bytes. -/
theorem bytes?_words {type : Ty} {bytes : List UInt8} (length : bytes.length = type.width) :
    type.bytes? (type.words bytes) = some bytes := by
  cases type with
  | boolean | character =>
      obtain ⟨byte, rfl⟩ := List.length_eq_one_iff.mp length
      simp only [words, bytes?, WordBytes.toUInt8_toInt32]
  | integer | string | array | lambda =>
      simp only [words, bytes?, WordBytes.ofInt32_toInt32 length]
  | floating => simp only [words, bytes?, WordBytes.ofBinary64_toBinary64 length]
  | rational =>
      have eight : bytes.length = 8 := length
      have first : (bytes.take 4).length = 4 := by rw [List.length_take]; omega
      have second : (bytes.drop 4).length = 4 := by rw [List.length_drop]; omega
      simp only [words, bytes?, WordBytes.ofInt32_toInt32 first, WordBytes.ofInt32_toInt32 second,
        List.take_append_drop]
  | void =>
      obtain rfl := List.length_eq_zero_iff.mp length
      rfl

/-- What memory holds is a value of any type of its width. -/
theorem admits_words {type : Ty} {bytes : List UInt8} (length : bytes.length = type.width) :
    type.Admits (type.words bytes) :=
  ⟨bytes, bytes?_words length, rfl⟩

end Ty

/-! ## Cells

Cells of a word each that lie apart below an address. Loads and stores of one
leave the others alone. -/

/-- The index that an address stands for. -/
def Address.index (address : Int32) : Nat :=
  address.toNatClampNeg

structure Cells (word : String → Int32) (names : List String) (floor : Nat) : Prop where
  located : ∀ name ∈ names, Address.Names (word name) (Address.index (word name))
  below : ∀ name ∈ names, Address.index (word name) + 4 ≤ floor
  apart : ∀ first ∈ names, ∀ second ∈ names, first ≠ second →
    Address.index (word first) + 4 ≤ Address.index (word second) ∨
      Address.index (word second) + 4 ≤ Address.index (word first)

namespace Cells

variable {word : String → Int32} {names : List String} {floor : Nat}

theorem mono (cells : Cells word names floor) {fewer : List String}
    (subset : ∀ name ∈ fewer, name ∈ names) : Cells word fewer floor where
  located name member := cells.located name (subset name member)
  below name member := cells.below name (subset name member)
  apart first firstMember second secondMember :=
    cells.apart first (subset first firstMember) second (subset second secondMember)

/-- Cells lie below whatever is higher than their floor. -/
theorem raise {higher : Nat} (cells : Cells word names floor) (above : floor ≤ higher) :
    Cells word names higher :=
  { cells with below := fun name member => Nat.le_trans (cells.below name member) above }

/-- The index is in none of the cells. -/
def Misses (word : String → Int32) (names : List String) (index : Nat) : Prop :=
  ∀ name ∈ names,
    index < Address.index (word name) ∨ Address.index (word name) + 4 ≤ index

section

variable {memory : Memory} {stack : List Word} {name other : String} {index : Nat} {value : Int32}
  {rest : Code}

theorem act_load (cells : Cells word names floor) (member : name ∈ names)
    (inside : floor ≤ memory.size) :
    Code.act word (Code.loadWord name ++ rest) stack memory =
      Code.act word rest (.integer (memory.word (Address.index (word name))) :: stack) memory :=
  Code.act_loadWord (cells.located name member) (Nat.le_trans (cells.below name member) inside)

theorem act_store (cells : Cells word names floor) (member : name ∈ names)
    (inside : floor ≤ memory.size) :
    Code.act word (Code.storeWord name ++ rest) (.integer value :: stack) memory =
      Code.act word rest stack (memory.setWord (Address.index (word name)) value) :=
  Code.act_storeWord (cells.located name member) (Nat.le_trans (cells.below name member) inside)

theorem word_set (cells : Cells word names floor) (member : name ∈ names)
    (inside : floor ≤ memory.size) :
    (memory.setWord (Address.index (word name)) value).word (Address.index (word name)) = value :=
  Memory.word_setWord (Nat.le_trans (cells.below name member) inside) value

theorem word_set_other (cells : Cells word names floor) (member : name ∈ names)
    (otherMember : other ∈ names) (different : name ≠ other) :
    (memory.setWord (Address.index (word name)) value).word (Address.index (word other)) =
      memory.word (Address.index (word other)) :=
  Memory.word_setWord_of_apart (cells.apart name member other otherMember different).symm

/-- A cell is not touched by a store above the floor. -/
theorem word_set_above (cells : Cells word names floor) (member : name ∈ names)
    (above : floor ≤ index) :
    (memory.setWord index value).word (Address.index (word name)) =
      memory.word (Address.index (word name)) :=
  Memory.word_setWord_of_apart (Or.inl (Nat.le_trans (cells.below name member) above))

/-- A word above the floor is not touched by a store to a cell. -/
theorem above_set (cells : Cells word names floor) (member : name ∈ names)
    (above : floor ≤ index) :
    (memory.setWord (Address.index (word name)) value).word index = memory.word index :=
  Memory.word_setWord_of_apart (Or.inr (Nat.le_trans (cells.below name member) above))

theorem byte_set (cells : Cells word names floor) (member : name ∈ names)
    (above : floor ≤ index) :
    (memory.setWord (Address.index (word name)) value).byte index = memory.byte index :=
  Memory.byte_setWord_of_outside (Or.inr (Nat.le_trans (cells.below name member) above))

end

theorem misses_of_floor_le (cells : Cells word names floor) {index : Nat}
    (above : floor ≤ index) : Misses word names index := by
  intro name member
  have below := cells.below name member
  omega

end Cells

/-! ## Loading and storing values -/

namespace Ty

/-- The cells that the store of a rational passes through. -/
def storeCells : List String :=
  [Cell.rationalStoreAddress, Cell.rationalStoreDenominator]

section

variable {word : String → Int32} {stack : List Word} {memory : Memory} {type : Ty}
  {address : Int32} {index : Nat}

/-- A place in memory that has room for a value of the type. A rational is two words, and the
second one needs an address as well. -/
structure Lies (type : Ty) (address : Int32) (index : Nat) (memory : Memory) : Prop where
  names : Address.Names address index
  inside : index + type.width ≤ memory.size
  second : type = .rational → index + 4 < 2147483648

/-- A load pushes the words of the bytes. -/
theorem Lies.act_loadCode (isValue : type.isVoid = false)
    (lies : type.Lies address index memory) (rest : Code) :
    Code.act word (type.loadCode ++ rest) (.integer address :: stack) memory =
      Code.act word rest (type.words (memory.read index type.width) ++ stack) memory := by
  have names := lies.names
  have inside := lies.inside
  cases type with
  | boolean | character => exact Code.act_loadC (Memory.load?_eq names inside)
  | integer | string | array | lambda => exact Code.act_loadI (Memory.load?_eq names inside)
  | floating => exact Code.act_loadF (Memory.load?_eq names inside)
  | rational =>
      rw [width_rational] at inside
      have second : Address.Names (address + 4) (index + 4) := names.add rfl (lies.second rfl)
      have split : memory.read index 8 = memory.read index 4 ++ memory.read (index + 4) 4 :=
        memory.read_append index 4 4
      have firstHalf : (memory.read index 8).take 4 = memory.read index 4 := by
        rw [split, List.take_left' (Memory.length_read memory index 4)]
      have secondHalf : (memory.read index 8).drop 4 = memory.read (index + 4) 4 := by
        rw [split, List.drop_left' (Memory.length_read memory index 4)]
      have words : words .rational (memory.read index 8) =
          [.integer (memory.word (index + 4)), .integer (memory.word index)] := by
        rw [Memory.word, Memory.word, ← firstHalf, ← secondHalf]
        rfl
      rw [width_rational, words, loadCode]
      simp only [List.cons_append, List.nil_append, Code.act_duplicate]
      rw [Code.act_loadI (Memory.load?_eq names (by omega)), Code.act_exchange, Code.act_pushI,
        Code.act_add, Code.act_loadI (Memory.load?_eq second (by omega))]
      rfl
  | void => cases isValue

theorem lies_of_fits (names : Address.Names address index)
    (inside : index + type.width ≤ memory.size) (fits : index + type.width < 2147483648) :
    type.Lies address index memory where
  names := names
  inside := inside
  second wide := by
    rw [wide, width_rational] at fits
    omega

theorem act_loadCode (isValue : type.isVoid = false) (names : Address.Names address index)
    (inside : index + type.width ≤ memory.size) (fits : index + type.width < 2147483648)
    (rest : Code) :
    Code.act word (type.loadCode ++ rest) (.integer address :: stack) memory =
      Code.act word rest (type.words (memory.read index type.width) ++ stack) memory :=
  (lies_of_fits names inside fits).act_loadCode isValue rest

/-- The bytes of the value are apart from the cells that the store of a rational passes
through. -/
def Avoids (word : String → Int32) (type : Ty) (index : Nat) : Prop :=
  ∀ name ∈ storeCells, Address.index (word name) + 4 ≤ index ∨
    index + type.width ≤ Address.index (word name)

theorem avoids_of_above {floor : Nat} (cells : Cells word storeCells floor)
    (above : floor ≤ index) : type.Avoids word index :=
  fun name member => .inl (Nat.le_trans (cells.below name member) above)

/-- Stores a rational: the numerator first, then the denominator past it. -/
theorem act_storeRational {numerator denominator : Int32} {floor : Nat}
    (cells : Cells word storeCells floor) (room : floor ≤ memory.size)
    (lies : rational.Lies address index memory) (avoids : rational.Avoids word index)
    (rest : Code) :
    Code.act word (rational.storeCode ++ rest)
        (.integer denominator :: .integer numerator :: .integer address :: stack) memory =
      Code.act word rest stack
        ((((memory.setWord (Address.index (word Cell.rationalStoreDenominator)) denominator).setWord
          (Address.index (word Cell.rationalStoreAddress)) address).setWord
          index numerator).setWord (index + 4) denominator) := by
  have inAddress := cells.located Cell.rationalStoreAddress (by simp [storeCells])
  have inDenominator := cells.located Cell.rationalStoreDenominator (by simp [storeCells])
  have addressBelow := cells.below Cell.rationalStoreAddress (by simp [storeCells])
  have denominatorBelow := cells.below Cell.rationalStoreDenominator (by simp [storeCells])
  have apart := cells.apart Cell.rationalStoreAddress (by simp [storeCells])
    Cell.rationalStoreDenominator (by simp [storeCells]) (by decide)
  have names := lies.names
  have inside := lies.inside
  have missesAddress := avoids Cell.rationalStoreAddress (by simp [storeCells])
  have missesDenominator := avoids Cell.rationalStoreDenominator (by simp [storeCells])
  rw [width_rational] at inside missesAddress missesDenominator
  have second : Address.Names (address + 4) (index + 4) := names.add rfl (lies.second rfl)
  simp only [storeCode, Code.join_cons, Code.join_nil, List.append_assoc, List.cons_append,
    List.nil_append]
  rw [Code.act_storeWord inDenominator (by omega), Code.act_exchange, Code.act_duplicate,
    Code.act_storeWord inAddress (by rw [Memory.size_setWord]; omega), Code.act_exchange,
    Code.act_setWord names (by simp only [Memory.size_setWord]; omega),
    Code.act_loadWord inAddress (by simp only [Memory.size_setWord]; omega),
    Memory.word_setWord_of_apart (by omega),
    Memory.word_setWord (by simp only [Memory.size_setWord]; omega), Code.act_addOffset,
    Code.act_loadWord inDenominator (by simp only [Memory.size_setWord]; omega),
    Memory.word_setWord_of_apart (by omega), Memory.word_setWord_of_apart (by omega),
    Memory.word_setWord (by omega),
    Code.act_setWord second (by simp only [Memory.size_setWord]; omega)]

theorem length_bytes_le {value : List Word} {bytes : List UInt8}
    (encoded : type.bytes? value = some bytes) (inside : index + type.width ≤ memory.size) :
    index + bytes.length ≤ memory.size := by
  rwa [length_bytes? encoded]

/-- The memory that a store of the words leaves. -/
structure Stored (word : String → Int32) (type : Ty) (index : Nat) (bytes : List UInt8)
    (memory after : Memory) : Prop where
  size : after.size = memory.size
  written : after.read index type.width = bytes
  kept : ∀ other, other < index ∨ index + type.width ≤ other →
    Cells.Misses word storeCells other → after.byte other = memory.byte other

/-- One write of all bytes is a store. -/
theorem stored_write {value : List Word} {bytes : List UInt8}
    (encoded : type.bytes? value = some bytes) (inside : index + type.width ≤ memory.size) :
    Stored word type index bytes memory (memory.write index bytes) where
  size := Memory.size_write _ _ _
  written := by
    rw [← length_bytes? encoded]
    exact Memory.read_write memory index bytes (length_bytes_le encoded inside)
  kept other apart _ := by
    rw [← length_bytes? encoded] at apart
    exact Memory.byte_write_of_outside memory index other bytes apart

theorem stored_rational {numerator denominator : Int32} (inside : index + 8 ≤ memory.size) :
    Stored word .rational index (WordBytes.ofInt32 numerator ++ WordBytes.ofInt32 denominator)
      memory
      ((((memory.setWord (Address.index (word Cell.rationalStoreDenominator)) denominator).setWord
        (Address.index (word Cell.rationalStoreAddress)) address).setWord
        index numerator).setWord (index + 4) denominator) where
  size := by simp only [Memory.size_setWord]
  written := by
    refine (Memory.read_append _ index 4 4).trans ?_
    rw [Memory.read_setWord (by simp only [Memory.size_setWord]; omega),
      Memory.read_setWord_of_apart (Or.inl (Nat.le_refl _)),
      Memory.read_setWord (by simp only [Memory.size_setWord]; omega)]
  kept other apart misses := by
    rw [width_rational] at apart
    have missesAddress := misses Cell.rationalStoreAddress (by simp [storeCells])
    have missesDenominator := misses Cell.rationalStoreDenominator (by simp [storeCells])
    rw [Memory.byte_setWord_of_outside (by omega), Memory.byte_setWord_of_outside (by omega),
      Memory.byte_setWord_of_outside missesAddress,
      Memory.byte_setWord_of_outside missesDenominator]

/-- The store of a type other than rational is one write. -/
theorem act_storeNarrow (stack : List Word) (memory : Memory) {value : List Word}
    {bytes : List UInt8} (isValue : type.isVoid = false) (narrow : type ≠ .rational)
    (encoded : type.bytes? value = some bytes) (names : Address.Names address index)
    (inside : index + type.width ≤ memory.size) (rest : Code) :
    ∃ top, value = [top] ∧
      Code.act word (type.storeCode ++ rest) (top :: .integer address :: stack) memory =
        Code.act word rest stack (memory.write index bytes) := by
  have single := Memory.store?_eq names (length_bytes_le encoded inside)
  cases type with
  | boolean | character =>
      simp only [bytes?] at encoded
      split at encoded <;> cases encoded
      exact ⟨_, rfl, Code.act_storeC single⟩
  | integer | string | array | lambda =>
      simp only [bytes?] at encoded
      split at encoded <;> cases encoded
      exact ⟨_, rfl, Code.act_storeI single⟩
  | floating =>
      simp only [bytes?] at encoded
      split at encoded <;> cases encoded
      exact ⟨_, rfl, Code.act_storeF single⟩
  | rational => exact absurd rfl narrow
  | void => cases isValue

/-- A store leaves the bytes of the words in memory, and changes nothing else. The store of a
rational also changes the cells it passes through. -/
theorem Lies.act_storeCode {value : List Word} {bytes : List UInt8}
    (isValue : type.isVoid = false) (lies : type.Lies address index memory)
    (cells : type = .rational → Cells word storeCells memory.size)
    (avoids : type = .rational → type.Avoids word index)
    (encoded : type.bytes? value = some bytes) :
    ∃ after : Memory,
      (∀ stack rest, Code.act word (type.storeCode ++ rest)
          (value ++ .integer address :: stack) memory = Code.act word rest stack after) ∧
      Stored word type index bytes memory after ∧
      (type ≠ .rational → ∀ other, other < index ∨ index + type.width ≤ other →
        after.byte other = memory.byte other) := by
  have inside := lies.inside
  by_cases wide : type = .rational
  · have held := cells wide
    have apart := avoids wide
    subst wide
    simp only [bytes?] at encoded
    split at encoded <;> cases encoded
    exact ⟨_, fun _ => act_storeRational held (Nat.le_refl _) lies apart, stored_rational inside,
      fun narrow => absurd rfl narrow⟩
  · refine ⟨memory.write index bytes, fun stack rest => ?_, stored_write encoded inside,
      fun _ other outside => ?_⟩
    · obtain ⟨top, rfl, acts⟩ :=
        act_storeNarrow stack memory isValue wide encoded lies.names inside rest
      exact acts
    · rw [← length_bytes? encoded] at outside
      exact Memory.byte_write_of_outside memory index other bytes outside

theorem act_storeCode (memory : Memory) {value : List Word}
    {bytes : List UInt8} {floor : Nat}
    (isValue : type.isVoid = false) (cells : Cells word storeCells floor)
    (encoded : type.bytes? value = some bytes) (names : Address.Names address index)
    (above : floor ≤ index) (inside : index + type.width ≤ memory.size)
    (fits : index + type.width < 2147483648) :
    ∃ after : Memory,
      (∀ stack rest, Code.act word (type.storeCode ++ rest)
          (value ++ .integer address :: stack) memory = Code.act word rest stack after) ∧
      Stored word type index bytes memory after := by
  have room : floor ≤ memory.size := by omega
  rcases (lies_of_fits names inside fits).act_storeCode isValue
    (fun _ => cells.raise room) (fun _ => avoids_of_above cells above) encoded with
    ⟨after, acts, stored, _⟩
  exact ⟨after, acts, stored⟩

end

end Ty

end StackBackend
