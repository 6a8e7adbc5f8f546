import StackBackend.Memory

namespace StackBackend

/-! Addresses and the bytes behind them.

An address is a 32-bit word that stands for an index into memory. Sums of
addresses and offsets are taken over the integers here, under the condition that
they stay in the 32-bit range. -/

namespace Address

/-- The address is the word for the index. -/
def Names (address : Int32) (index : Nat) : Prop :=
  address.toInt = (index : Int)

instance (address : Int32) (index : Nat) : Decidable (Names address index) :=
  inferInstanceAs (Decidable (_ = _))

theorem toInt_add {left right : Int32}
    (lower : -2147483648 ≤ left.toInt + right.toInt)
    (upper : left.toInt + right.toInt < 2147483648) :
    (left + right).toInt = left.toInt + right.toInt := by
  rw [Int32.toInt_add]
  exact Int.bmod_eq_of_le (by omega) (by omega)

theorem toInt_sub {left right : Int32}
    (lower : -2147483648 ≤ left.toInt - right.toInt)
    (upper : left.toInt - right.toInt < 2147483648) :
    (left - right).toInt = left.toInt - right.toInt := by
  rw [Int32.toInt_sub]
  exact Int.bmod_eq_of_le (by omega) (by omega)

theorem names_ofNat {index : Nat} (fits : index < 2147483648) :
    Names (Int32.ofNat index) index :=
  Int32.toInt_ofNat_of_lt fits

theorem Names.add {address offset : Int32} {index : Nat} {target : Nat}
    (names : Names address index) (sum : (index : Int) + offset.toInt = target)
    (fits : target < 2147483648) : Names (address + offset) target := by
  unfold Names at *
  rw [toInt_add (by omega) (by omega)]
  omega

theorem Names.plus {address offset : Int32} {index distance : Nat} (names : Names address index)
    (far : Names offset distance) (fits : index + distance < 2147483648) :
    Names (address + offset) (index + distance) :=
  names.add (by unfold Names at far; omega) fits

theorem Names.sub {address offset : Int32} {index : Nat} {target : Nat}
    (names : Names address index) (difference : (index : Int) - offset.toInt = target)
    (fits : target < 2147483648) : Names (address - offset) target := by
  unfold Names at *
  rw [toInt_sub (by omega) (by omega)]
  omega

theorem Names.unique {address : Int32} {first second : Nat}
    (left : Names address first) (right : Names address second) : first = second := by
  unfold Names at *
  omega

end Address

namespace Memory

/-! ## Loads and stores -/

/-- The bytes that a load finds. -/
def load? (memory : Memory) (address : Int32) (width : Nat) : Option (List UInt8) :=
  (memory.index? address width).map (memory.read · width)

/-- The memory that a store leaves. -/
def store? (memory : Memory) (address : Int32) (values : List UInt8) : Option Memory :=
  (memory.index? address values.length).map (memory.write · values)

theorem index?_eq_some {memory : Memory} {address : Int32} {width index : Nat} :
    memory.index? address width = some index ↔
      Address.Names address index ∧ index + width ≤ memory.size := by
  have nonnegative : 0 ≤ address ↔ 0 ≤ address.toInt := Int32.le_iff_toInt_le
  have clamped : address.toNatClampNeg = address.toInt.toNat := rfl
  unfold index? Address.Names
  split <;> grind

theorem load?_eq {memory : Memory} {address : Int32} {width index : Nat}
    (names : Address.Names address index) (inside : index + width ≤ memory.size) :
    memory.load? address width = some (memory.read index width) := by
  rw [load?, index?_eq_some.mpr ⟨names, inside⟩]
  rfl

theorem store?_eq {memory : Memory} {address : Int32} {values : List UInt8} {index : Nat}
    (names : Address.Names address index) (inside : index + values.length ≤ memory.size) :
    memory.store? address values = some (memory.write index values) := by
  rw [store?, index?_eq_some.mpr ⟨names, inside⟩]
  rfl

/-! ## Reading after writing -/

@[simp] theorem length_read (memory : Memory) (start width : Nat) :
    (memory.read start width).length = width := by
  induction width generalizing start with
  | zero => rfl
  | succ width induction => simp [read, induction]

/-- A read depends only on the bytes in its range. -/
theorem read_congr {left right : Memory} {start width : Nat}
    (same : ∀ index, start ≤ index → index < start + width → left.byte index = right.byte index) :
    left.read start width = right.read start width := by
  induction width generalizing start with
  | zero => rfl
  | succ width induction =>
      simp only [read]
      rw [same start (by omega) (by omega),
        induction fun index lower upper => same index (by omega) (by omega)]

/-- The same bytes at two places. -/
theorem read_shift {left right : Memory} {start origin width : Nat}
    (same : ∀ index < width, left.byte (start + index) = right.byte (origin + index)) :
    left.read start width = right.read origin width := by
  induction width generalizing start origin with
  | zero => rfl
  | succ width induction =>
      have first : left.byte start = right.byte origin := same 0 (Nat.succ_pos width)
      have rest : left.read (start + 1) width = right.read (origin + 1) width :=
        induction fun index below => by
          have next := same (index + 1) (Nat.succ_lt_succ below)
          rwa [← Nat.add_assoc, ← Nat.add_assoc, Nat.add_right_comm, Nat.add_right_comm origin]
            at next
      simp only [read]
      rw [first, rest]

theorem read_write_of_disjoint (memory : Memory) (start width written : Nat)
    (values : List UInt8)
    (apart : start + width ≤ written ∨ written + values.length ≤ start) :
    (memory.write written values).read start width = memory.read start width :=
  read_congr fun index lower upper =>
    byte_write_of_outside memory written index values (by omega)

theorem read_append (memory : Memory) (start first second : Nat) :
    memory.read start (first + second) =
      memory.read start first ++ memory.read (start + first) second := by
  induction first generalizing start with
  | zero => simp [read]
  | succ first induction =>
      have shifted : start + (first + 1) = start + 1 + first := by omega
      rw [Nat.succ_add, read, induction, read, List.cons_append, shifted]

/-! ## Zero-terminated texts -/

theorem scanZero_of_read {memory : Memory} {text : List UInt8} {index count : Nat}
    {reversed : List UInt8} (found : memory.read index text.length = text)
    (ended : memory.byte (index + text.length) = 0) (noZero : 0 ∉ text)
    (enough : text.length < count) :
    memory.scanZero index reversed count = some (reversed.reverse ++ text) := by
  induction text generalizing index count reversed with
  | nil =>
      obtain ⟨count, rfl⟩ : ∃ rest, count = rest + 1 := ⟨count - 1, by simp at enough; omega⟩
      simp only [List.length_nil, Nat.add_zero] at ended
      simp [scanZero, ended]
  | cons byte rest induction =>
      obtain ⟨count, rfl⟩ : ∃ rest, count = rest + 1 := ⟨count - 1, by simp at enough; omega⟩
      simp only [List.length_cons, read, List.cons.injEq] at found
      have different : byte ≠ 0 := fun zero => noZero (by simp [zero])
      have shifted : index + (rest.length + 1) = index + 1 + rest.length := by omega
      simp only [List.length_cons, shifted] at ended
      rw [scanZero, found.1, if_neg different,
        induction found.2 ended (by simp_all) (by simpa using enough)]
      simp

/-- The text at an index where its bytes and a zero byte stand. -/
theorem terminated?_of_read {memory : Memory} {text : List UInt8} {index : Nat}
    (found : memory.read index (text.length + 1) = text ++ [0]) (noZero : 0 ∉ text)
    (inside : index + text.length < memory.size) :
    memory.terminated? index = some text := by
  rw [read_append] at found
  obtain ⟨same, zero⟩ := List.append_inj found (by simp)
  have ended : memory.byte (index + text.length) = 0 := by
    simpa [read] using zero
  unfold terminated?
  rw [scanZero_of_read same ended noZero (by omega)]
  rfl

end Memory

end StackBackend
