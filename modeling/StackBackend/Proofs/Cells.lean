import StackBackend.Proofs.Access

namespace StackBackend

/-! Cells as variables. Code that works through cells changes nothing else, and what it
leaves in memory is said cell by cell. -/

namespace Memory

/-- The word in a cell. -/
def cell (memory : Memory) (word : String → Int32) (name : String) : Int32 :=
  memory.word (Address.index (word name))

def setCell (memory : Memory) (word : String → Int32) (name : String) (value : Int32) : Memory :=
  memory.setWord (Address.index (word name)) value

@[simp] theorem size_setCell (memory : Memory) (word : String → Int32) (name : String)
    (value : Int32) : (memory.setCell word name value).size = memory.size :=
  size_setWord ..

end Memory

theorem Address.names_index {address : Int32} (nonnegative : 0 ≤ address.toInt) :
    Names address (index address) :=
  (Int.toNat_of_nonneg nonnegative).symm

/-- Loads the word at an address. -/
theorem Code.act_loadAt {word : String → Int32} {memory : Memory} {stack : List Word}
    {address : Int32} {index : Nat} {rest : Code} (names : Address.Names address index)
    (inside : index + 4 ≤ memory.size) :
    Code.act word (.loadI :: rest) (.integer address :: stack) memory =
      Code.act word rest (.integer (memory.word index) :: stack) memory :=
  Code.act_loadI (Memory.load?_eq names inside)

namespace Cells

variable {word : String → Int32} {names : List String} {floor : Nat} {memory : Memory}
  {stack : List Word} {name other : String} {index : Nat} {value : Int32} {rest : Code}

section

variable (cells : Cells word names floor)
include cells

theorem act_loadCell (member : name ∈ names) (inside : floor ≤ memory.size) :
    Code.act word (Code.loadWord name ++ rest) stack memory =
      Code.act word rest (.integer (memory.cell word name) :: stack) memory :=
  cells.act_load member inside

theorem act_storeCell (member : name ∈ names) (inside : floor ≤ memory.size) :
    Code.act word (Code.storeWord name ++ rest) (.integer value :: stack) memory =
      Code.act word rest stack (memory.setCell word name value) :=
  cells.act_store member inside

theorem act_decrementCell (member : name ∈ names) (inside : floor ≤ memory.size) :
    Code.act word (Code.decrement name ++ rest) stack memory =
      Code.act word rest stack (memory.setCell word name (memory.cell word name - 1)) := by
  have room : Address.index (word name) + 4 ≤ memory.size :=
    Nat.le_trans (cells.below name member) inside
  simp only [Code.decrement, List.cons_append, List.nil_append, Code.act_pushD,
    Code.act_duplicate, Code.act_loadAt (cells.located name member) room, Code.act_pushI,
    Code.act_subtract, Code.act_setWord (cells.located name member) room]
  rfl

theorem act_incrementCell (member : name ∈ names) (inside : floor ≤ memory.size) :
    Code.act word (Code.increment name ++ rest) stack memory =
      Code.act word rest stack (memory.setCell word name (memory.cell word name + 1)) := by
  have room : Address.index (word name) + 4 ≤ memory.size :=
    Nat.le_trans (cells.below name member) inside
  simp only [Code.increment, List.cons_append, List.nil_append, Code.act_pushD,
    Code.act_duplicate, Code.act_loadAt (cells.located name member) room, Code.act_pushI,
    Code.act_add, Code.act_setWord (cells.located name member) room]
  rfl

theorem act_lastLoad (member : name ∈ names) (inside : floor ≤ memory.size) :
    Code.act word (Code.loadWord name) stack memory =
      some (.integer (memory.cell word name) :: stack, memory) :=
  Code.act_alone fun _ => cells.act_loadCell member inside

theorem act_lastStore (member : name ∈ names) (inside : floor ≤ memory.size) :
    Code.act word (Code.storeWord name) (.integer value :: stack) memory =
      some (stack, memory.setCell word name value) :=
  Code.act_alone fun _ => cells.act_storeCell member inside

theorem act_lastIncrement (member : name ∈ names) (inside : floor ≤ memory.size) :
    Code.act word (Code.increment name) stack memory =
      some (stack, memory.setCell word name (memory.cell word name + 1)) :=
  Code.act_alone fun _ => cells.act_incrementCell member inside

theorem cell_setCell (member : name ∈ names) (inside : floor ≤ memory.size) :
    (memory.setCell word name value).cell word name = value :=
  cells.word_set member inside

theorem cell_setCell_other (member : name ∈ names) (otherMember : other ∈ names)
    (different : name ≠ other) :
    (memory.setCell word name value).cell word other = memory.cell word other :=
  cells.word_set_other member otherMember different

theorem cell_setWord (member : name ∈ names) (above : floor ≤ index) :
    (memory.setWord index value).cell word name = memory.cell word name :=
  cells.word_set_above member above

theorem word_setCell (member : name ∈ names) (above : floor ≤ index) :
    (memory.setCell word name value).word index = memory.word index :=
  cells.above_set member above

theorem byte_setCell (member : name ∈ names) (above : floor ≤ index) :
    (memory.setCell word name value).byte index = memory.byte index :=
  cells.byte_set member above

end

/-- The two memories differ in cells at most. -/
structure Only (word : String → Int32) (names : List String) (before after : Memory) : Prop where
  size : after.size = before.size
  kept : ∀ index, Misses word names index → after.byte index = before.byte index

namespace Only

variable {before between after : Memory} {all : List String}

theorem refl (memory : Memory) : Only word names memory memory :=
  ⟨rfl, fun _ _ => rfl⟩

theorem trans (first : Only word names before between) (second : Only word names between after) :
    Only word names before after :=
  ⟨second.size.trans first.size,
    fun index misses => (second.kept index misses).trans (first.kept index misses)⟩

theorem mono (only : Only word names before after) (subset : ∀ name ∈ names, name ∈ all) :
    Only word all before after :=
  ⟨only.size, fun index misses => only.kept index fun name member =>
    misses name (subset name member)⟩

theorem floor_le (only : Only word names before after) (inside : floor ≤ before.size) :
    floor ≤ after.size :=
  only.size.symm ▸ inside

theorem setCell (only : Only word names before after) (member : name ∈ names) (value : Int32) :
    Only word names before (after.setCell word name value) where
  size := (Memory.size_setCell ..).trans only.size
  kept index misses :=
    (Memory.byte_setWord_of_outside (misses name member)).trans (only.kept index misses)

/-- Other cells keep their words. -/
theorem cell (only : Only word names before after) (cells : Cells word all floor)
    (subset : ∀ name ∈ names, name ∈ all) (member : other ∈ all) (different : other ∉ names) :
    after.cell word other = before.cell word other := by
  refine Memory.word_congr fun index lower upper => only.kept index fun name named => ?_
  have apart := cells.apart name (subset name named) other member
    fun same => different (same ▸ named)
  omega

theorem byte_above (only : Only word names before after) (cells : Cells word all floor)
    (subset : ∀ name ∈ names, name ∈ all) (above : floor ≤ index) :
    after.byte index = before.byte index :=
  only.kept index ((cells.mono subset).misses_of_floor_le above)

theorem word_above (only : Only word names before after) (cells : Cells word all floor)
    (subset : ∀ name ∈ names, name ∈ all) (above : floor ≤ index) :
    after.word index = before.word index :=
  Memory.word_congr fun _ lower _ => only.byte_above cells subset (Nat.le_trans above lower)

end Only

end Cells

end StackBackend
