import StackBackend.Bytes
import StackBackend.Memory.Page

namespace StackBackend

/-! The flat memory of the machine. Its view is `byte`: the byte at an index,
zero until something is written there. Reading and writing a range go byte by
byte, so what they do to the view is one small fact about `set` and an
induction.

The bytes are kept in pages. Pages come into being when something is written to
them, so a memory takes the space that a run makes use of, whatever its size. -/

structure Memory where
  size : Nat
  pages : Array Page

namespace Memory

/-- The number of bytes in a page. -/
def pageSize : Nat := 4096

/-- A memory of zero bytes. -/
def zeros (size : Nat) : Memory := ⟨size, #[]⟩

/-- The page with the given number; one past the last is empty. -/
def page (memory : Memory) (number : Nat) : Page :=
  memory.pages.getD number Page.empty

def byte (memory : Memory) (index : Nat) : UInt8 :=
  (memory.page (index / pageSize)).byte (index % pageSize)

/-- Pages with one of them changed, which is added if it is not there. -/
def changePage (pages : Array Page) (number : Nat) (change : Page → Page) : Array Page :=
  if number < pages.size then
    pages.modify number change
  else
    (pages ++ Array.replicate (number - pages.size) Page.empty).push (change Page.empty)

def set (memory : Memory) (index : Nat) (value : UInt8) : Memory :=
  match memory with
  | ⟨size, pages⟩ =>
      if index < size then
        ⟨size, changePage pages (index / pageSize) (·.set (index % pageSize) value)⟩
      else
        ⟨size, pages⟩

/-- The `width` bytes from `start` on. -/
def read (memory : Memory) (start : Nat) : Nat → List UInt8
  | 0 => []
  | width + 1 => memory.byte start :: memory.read (start + 1) width

def write (memory : Memory) (start : Nat) : List UInt8 → Memory
  | [] => memory
  | value :: rest => (memory.set start value).write (start + 1) rest

/-- The index that an address names when `width` bytes from it on are inside
the memory. -/
def index? (memory : Memory) (address : Int32) (width : Nat) : Option Nat :=
  if 0 ≤ address ∧ address.toNatClampNeg + width ≤ memory.size then
    some address.toNatClampNeg
  else
    none

/-- The bytes from `index` up to the next zero byte, at most `count` of them
looked at. The bytes found so far are `reversed`. -/
def scanZero (memory : Memory) (index : Nat) (reversed : List UInt8) : Nat → Option (List UInt8)
  | 0 => none
  | count + 1 =>
      if memory.byte index = 0 then
        some reversed.reverse
      else
        memory.scanZero (index + 1) (memory.byte index :: reversed) count

/-- The zero-terminated text at `index`, without its terminator. -/
def terminated? (memory : Memory) (index : Nat) : Option (List UInt8) :=
  memory.scanZero index [] (memory.size - index)

/-! What writing does to the view. -/

@[simp] theorem byte_zeros (size index : Nat) : (zeros size).byte index = 0 := rfl

theorem getD_changePage (pages : Array Page) (number other : Nat) (change : Page → Page) :
    (changePage pages number change).getD other Page.empty =
      if number = other then change (pages.getD number Page.empty)
      else pages.getD other Page.empty := by
  simp only [Array.getD_eq_getD_getElem?]
  unfold changePage
  split
  · rw [Array.getElem?_modify]
    grind
  · rw [Array.getElem?_push]
    grind

@[simp] theorem size_set (memory : Memory) (index : Nat) (value : UInt8) :
    (memory.set index value).size = memory.size := by
  unfold set
  split
  split <;> rfl

theorem byte_set (memory : Memory) (index other : Nat) (value : UInt8) :
    (memory.set index value).byte other =
      if index = other ∧ index < memory.size then value else memory.byte other := by
  rcases memory with ⟨size, pages⟩
  unfold set
  by_cases inside : index < size
  · simp only [inside, if_true, and_true, byte, page, getD_changePage]
    by_cases samePage : index / pageSize = other / pageSize
    · have sameIndex : index % pageSize = other % pageSize ↔ index = other := by
        constructor
        · intro sameOffset
          rw [← Nat.div_add_mod index pageSize, ← Nat.div_add_mod other pageSize, samePage,
            sameOffset]
        · intro equal
          rw [equal]
      simp only [samePage, if_true, Page.byte_set, sameIndex]
    · have different : index ≠ other := fun equal => samePage (equal ▸ rfl)
      simp only [samePage, different, if_false]
  · simp [inside]

@[simp] theorem size_write (memory : Memory) (start : Nat) (values : List UInt8) :
    (memory.write start values).size = memory.size := by
  induction values generalizing memory start with
  | nil => rfl
  | cons value rest induction => simp [write, induction]

/-- Bytes outside the written range stay as they were. -/
theorem byte_write_of_outside (memory : Memory) (start other : Nat) (values : List UInt8)
    (outside : other < start ∨ start + values.length ≤ other) :
    (memory.write start values).byte other = memory.byte other := by
  induction values generalizing memory start with
  | nil => rfl
  | cons value rest induction =>
      rw [write, induction (memory.set start value) (start + 1) (by grind), byte_set]
      have different : start ≠ other := by grind
      simp [different]

/-- What was written inside the memory is read back. -/
theorem read_write (memory : Memory) (start : Nat) (values : List UInt8)
    (inside : start + values.length ≤ memory.size) :
    (memory.write start values).read start values.length = values := by
  induction values generalizing memory start with
  | nil => rfl
  | cons value rest induction =>
      have first : start < memory.size := by grind
      simp only [List.length_cons, read, write]
      rw [byte_write_of_outside _ _ _ _ (Or.inl (Nat.lt_succ_self start)),
        induction (memory.set start value) (start + 1) (by grind [size_set]), byte_set]
      simp [first]

end Memory

end StackBackend
