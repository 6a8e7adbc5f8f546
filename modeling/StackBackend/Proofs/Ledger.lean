import StackBackend.Heap
import StackBackend.Proofs.Cells

namespace StackBackend

/-! The blocks of the heap. A ledger records which blocks there are and which of them were
given back; a memory is sound for a ledger when it spells out the same, in the words
before the blocks and in the list of free blocks. -/

namespace Heap

structure Block where
  /-- The address of the payload. -/
  address : Nat
  /-- The bytes of the payload. -/
  size : Nat
deriving DecidableEq

/-- The index is in the payload. -/
def Block.Covers (block : Block) (index : Nat) : Prop :=
  block.address ≤ index ∧ index < block.address + block.size

/-! ## Blocks in a row -/

/-- The blocks fill the memory between two addresses, each behind the word that holds its
size. -/
def Tiled (memory : Memory) : Nat → List Block → Nat → Prop
  | start, [], stop => start = stop
  | start, block :: rest, stop =>
      block.address = start + 4 ∧ 4 ≤ block.size ∧
        Address.Names (memory.word start) block.size ∧
        Tiled memory (block.address + block.size) rest stop

namespace Tiled

variable {memory : Memory} {start stop : Nat} {blocks : List Block} {block other : Block}

theorem start_le (tiled : Tiled memory start blocks stop) : start ≤ stop := by
  induction blocks generalizing start with
  | nil => exact Nat.le_of_eq tiled
  | cons block rest induction =>
      obtain ⟨address, _, _, tiled⟩ := tiled
      have later := induction tiled
      omega

theorem bounds (tiled : Tiled memory start blocks stop) (member : block ∈ blocks) :
    start + 4 ≤ block.address ∧ 4 ≤ block.size ∧ block.address + block.size ≤ stop := by
  induction blocks generalizing start with
  | nil => cases member
  | cons first rest induction =>
      obtain ⟨address, size, _, tiled⟩ := tiled
      have later := tiled.start_le
      obtain rfl | member := List.mem_cons.mp member
      · omega
      · have inside := induction tiled member
        omega

theorem header (tiled : Tiled memory start blocks stop) (member : block ∈ blocks) :
    Address.Names (memory.word (block.address - 4)) block.size := by
  induction blocks generalizing start with
  | nil => cases member
  | cons first rest induction =>
      obtain ⟨address, _, header, tiled⟩ := tiled
      obtain rfl | member := List.mem_cons.mp member
      · rwa [address, Nat.add_sub_cancel]
      · exact induction tiled member

/-- Different blocks lie apart, with room for a word between them. -/
theorem apart (tiled : Tiled memory start blocks stop) (member : block ∈ blocks)
    (otherMember : other ∈ blocks) (different : block ≠ other) :
    block.address + block.size + 4 ≤ other.address ∨
      other.address + other.size + 4 ≤ block.address := by
  induction blocks generalizing start with
  | nil => cases member
  | cons first rest induction =>
      obtain ⟨address, size, _, tiled⟩ := tiled
      obtain rfl | later := List.mem_cons.mp member
      · obtain rfl | otherLater := List.mem_cons.mp otherMember
        · exact absurd rfl different
        · exact .inl (tiled.bounds otherLater).1
      · obtain rfl | otherLater := List.mem_cons.mp otherMember
        · exact .inr (tiled.bounds later).1
        · exact induction tiled later otherLater

/-- The word before a block is outside the first word of any block. -/
theorem header_apart (tiled : Tiled memory start blocks stop) (member : block ∈ blocks)
    (otherMember : other ∈ blocks) :
    block.address - 4 + 4 ≤ other.address ∨ other.address + 4 ≤ block.address - 4 := by
  have bounds := tiled.bounds member
  have otherBounds := tiled.bounds otherMember
  by_cases same : block = other
  · subst same
    omega
  · have apart := tiled.apart member otherMember same
    omega

/-- Different blocks are outside each other's first words. -/
theorem first_apart (tiled : Tiled memory start blocks stop) (member : block ∈ blocks)
    (otherMember : other ∈ blocks) (different : block ≠ other) {index : Nat}
    (covers : block.Covers index) : index < other.address ∨ other.address + 4 ≤ index := by
  have otherBounds := tiled.bounds otherMember
  have apart := tiled.apart member otherMember different
  unfold Block.Covers at covers
  omega

/-- Blocks stay in a row as long as the words before them stay. -/
theorem congr {after : Memory} (tiled : Tiled memory start blocks stop)
    (same : ∀ block ∈ blocks, after.word (block.address - 4) = memory.word (block.address - 4)) :
    Tiled after start blocks stop := by
  induction blocks generalizing start with
  | nil => exact tiled
  | cons first rest induction =>
      obtain ⟨address, size, header, tiled⟩ := tiled
      obtain ⟨firstSame, restSame⟩ := List.forall_mem_cons.mp same
      rw [address, Nat.add_sub_cancel] at firstSame
      refine ⟨address, size, ?_, induction tiled restSame⟩
      rw [firstSame]
      exact header

/-- A new block at the end of the row. -/
theorem concat {size : Nat} (tiled : Tiled memory start blocks stop) (large : 4 ≤ size)
    (header : Address.Names (memory.word stop) size) :
    Tiled memory start (blocks ++ [⟨stop + 4, size⟩]) (stop + 4 + size) := by
  induction blocks generalizing start with
  | nil =>
      cases tiled
      exact ⟨rfl, large, header, rfl⟩
  | cons first rest induction =>
      obtain ⟨address, firstSize, firstHeader, tiled⟩ := tiled
      exact ⟨address, firstSize, firstHeader, induction tiled⟩

end Tiled

/-! ## Free blocks -/

/-- The pointer leads through the blocks, each of which holds the pointer to the next in
its first word; the last holds zero. -/
def Linked (memory : Memory) : Int32 → List Block → Prop
  | pointer, [] => pointer = 0
  | pointer, block :: rest =>
      Address.Names pointer block.address ∧ Linked memory (memory.word block.address) rest

namespace Linked

variable {memory after : Memory} {pointer : Int32} {blocks : List Block}

/-- Only the first words of the blocks matter. -/
theorem congr (linked : Linked memory pointer blocks)
    (same : ∀ block ∈ blocks, after.word block.address = memory.word block.address) :
    Linked after pointer blocks := by
  induction blocks generalizing pointer with
  | nil => exact linked
  | cons first rest induction =>
      obtain ⟨names, linked⟩ := linked
      obtain ⟨firstSame, restSame⟩ := List.forall_mem_cons.mp same
      refine ⟨names, ?_⟩
      rw [firstSame]
      exact induction linked restSame

/-- What follows a block in the list. -/
theorem follows {passed rest : List Block} {block : Block}
    (linked : Linked memory pointer (passed ++ block :: rest)) :
    Linked memory (memory.word block.address) rest := by
  induction passed generalizing pointer with
  | nil => exact linked.2
  | cons first others induction => exact induction linked.2

/-- Replaces what follows a block. -/
theorem relink {passed rest rest' : List Block} {previous : Block}
    (linked : Linked memory pointer (passed ++ previous :: rest))
    (same : ∀ block ∈ passed, after.word block.address = memory.word block.address)
    (follows : Linked after (after.word previous.address) rest') :
    Linked after pointer (passed ++ previous :: rest') := by
  induction passed generalizing pointer with
  | nil => exact ⟨linked.1, follows⟩
  | cons first others induction =>
      obtain ⟨names, linked⟩ := linked
      obtain ⟨firstSame, restSame⟩ := List.forall_mem_cons.mp same
      refine ⟨names, ?_⟩
      rw [firstSame]
      exact induction linked restSame

end Linked

/-! ## Ledgers -/

structure Ledger where
  /-- All blocks, in the order of their addresses. -/
  blocks : List Block
  /-- The blocks that were given back and not handed out again, the last one first. -/
  free : List Block
  /-- Where the next new block begins. -/
  bump : Nat

namespace Ledger

/-- The blocks that are handed out. -/
def live (ledger : Ledger) : List Block :=
  ledger.blocks.filter (· ∉ ledger.free)

/-- The first free block that is large enough. -/
def fit? (ledger : Ledger) (size : Nat) : Option Block :=
  ledger.free.find? fun block => size ≤ block.size

/-- Hands out the first free block that is large enough, or else a new one. -/
def allocate (ledger : Ledger) (size : Nat) : Block × Ledger :=
  match ledger.fit? size with
  | some block => (block, { ledger with free := ledger.free.erase block })
  | none =>
      let block : Block := ⟨ledger.bump + 4, size⟩
      (block, { ledger with
        blocks := ledger.blocks ++ [block]
        bump := ledger.bump + 4 + size })

/-- There is a free block for the request, or room for a new one in the memory and below the
largest address. -/
def Room (ledger : Ledger) (memorySize size : Nat) : Prop :=
  ledger.fit? size = none →
    ledger.bump + 4 + size ≤ memorySize ∧ ledger.bump + 4 + size ≤ 2147483647

def deallocate (ledger : Ledger) (block : Block) : Ledger :=
  { ledger with free := block :: ledger.free }

theorem mem_live {ledger : Ledger} {block : Block} :
    block ∈ ledger.live ↔ block ∈ ledger.blocks ∧ block ∉ ledger.free := by
  simp [live]

end Ledger

/-- The memory spells out the ledger. -/
structure Sound (word : String → Int32) (memory : Memory) (ledger : Ledger) : Prop where
  tiled : Tiled memory (Address.index (word Cell.heap)) ledger.blocks ledger.bump
  bump : Address.Names (memory.cell word Cell.bumpPointer) ledger.bump
  inside : ledger.bump ≤ memory.size
  fits : ledger.bump ≤ 2147483647
  linked : Linked memory (memory.cell word Cell.freeList) ledger.free
  once : ledger.free.Nodup
  known : ∀ block ∈ ledger.free, block ∈ ledger.blocks

namespace Sound

variable {word : String → Int32} {before after : Memory} {ledger : Ledger} {block : Block}

theorem bounds (sound : Sound word before ledger) (member : block ∈ ledger.blocks) :
    Address.index (word Cell.heap) + 4 ≤ block.address ∧ 4 ≤ block.size ∧
      block.address + block.size ≤ before.size ∧ block.address + block.size ≤ 2147483647 := by
  have bounds := sound.tiled.bounds member
  have inside := sound.inside
  have fits := sound.fits
  omega

/-- Blocks that are handed out do not overlap. -/
theorem live_apart (sound : Sound word before ledger) {other : Block}
    (member : block ∈ ledger.live) (otherMember : other ∈ ledger.live)
    (different : block ≠ other) :
    block.address + block.size ≤ other.address ∨ other.address + other.size ≤ block.address := by
  have apart := sound.tiled.apart (Ledger.mem_live.mp member).1
    (Ledger.mem_live.mp otherMember).1 different
  omega

/-- The heap stays sound when the list of free blocks is another one. -/
theorem relinked (sound : Sound word before ledger) {free : List Block}
    (size : after.size = before.size)
    (bump : after.cell word Cell.bumpPointer = before.cell word Cell.bumpPointer)
    (headers : ∀ block ∈ ledger.blocks,
      after.word (block.address - 4) = before.word (block.address - 4))
    (linked : Linked after (after.cell word Cell.freeList) free)
    (once : free.Nodup) (known : ∀ block ∈ free, block ∈ ledger.blocks) :
    Sound word after { ledger with free := free } where
  tiled := sound.tiled.congr headers
  bump := bump.symm ▸ sound.bump
  inside := size.symm ▸ sound.inside
  fits := sound.fits
  linked := linked
  once := once
  known := known

end Sound

namespace Ledger

variable {ledger : Ledger} {passed rest : List Block} {block : Block} {size : Nat}

/-- Which block fits when the free blocks before it do not. -/
theorem fit?_eq_some (free : ledger.free = passed ++ block :: rest)
    (small : ∀ block ∈ passed, block.size < size) (fits : size ≤ block.size) :
    ledger.fit? size = some block := by
  rw [fit?, free, List.find?_append, List.find?_eq_none.mpr]
  · simp [fits]
  · intro other member
    simpa using small other member

theorem fit?_eq_none (small : ∀ block ∈ ledger.free, block.size < size) :
    ledger.fit? size = none :=
  List.find?_eq_none.mpr fun block member => by simpa using small block member

theorem allocate_of_fit (free : ledger.free = passed ++ block :: rest) (once : ledger.free.Nodup)
    (small : ∀ block ∈ passed, block.size < size) (fits : size ≤ block.size) :
    ledger.allocate size = (block, { ledger with free := passed ++ rest }) := by
  have absent : block ∉ passed := by
    rw [free, List.nodup_append] at once
    exact fun member => once.2.2 block member block List.mem_cons_self rfl
  rw [allocate, fit?_eq_some free small fits, free]
  simp [List.erase_append_right _ absent]

theorem allocate_of_none (none : ledger.fit? size = none) :
    ledger.allocate size = (⟨ledger.bump + 4, size⟩, { ledger with
      blocks := ledger.blocks ++ [⟨ledger.bump + 4, size⟩]
      bump := ledger.bump + 4 + size }) := by
  rw [allocate, none]

/-- A block that is handed out comes from the free ones or from the end of the heap. -/
theorem allocate_cases (ledger : Ledger) (size : Nat) :
    (∃ block ∈ ledger.free, size ≤ block.size ∧
        ledger.allocate size = (block, { ledger with free := ledger.free.erase block })) ∨
      ledger.fit? size = none ∧ ledger.allocate size = (⟨ledger.bump + 4, size⟩, { ledger with
        blocks := ledger.blocks ++ [⟨ledger.bump + 4, size⟩]
        bump := ledger.bump + 4 + size }) := by
  cases found : ledger.fit? size with
  | none => exact .inr ⟨rfl, allocate_of_none found⟩
  | some block =>
      refine .inl ⟨block, List.mem_of_find?_eq_some found, ?_, by rw [allocate, found]⟩
      simpa using List.find?_some found

/-- No block becomes free by handing one out. -/
theorem free_allocate (size : Nat) :
    ∀ block ∈ (ledger.allocate size).2.free, block ∈ ledger.free := by
  intro block member
  obtain ⟨taken, _, _, allocated⟩ | ⟨_, allocated⟩ := ledger.allocate_cases size
  · rw [allocated] at member
    exact List.mem_of_mem_erase member
  · rwa [allocated] at member

theorem le_size_allocate (size : Nat) : size ≤ (ledger.allocate size).1.size := by
  obtain ⟨block, _, fits, allocated⟩ | ⟨_, allocated⟩ := ledger.allocate_cases size
  · rwa [allocated]
  · simp only [allocated, Nat.le_refl]

theorem bump_le_allocate (size : Nat) : ledger.bump ≤ (ledger.allocate size).2.bump := by
  obtain ⟨block, _, _, allocated⟩ | ⟨_, allocated⟩ := ledger.allocate_cases size
  · simp only [allocated, Nat.le_refl]
  · rw [allocated]
    dsimp only
    omega

end Ledger

section

variable {word : String → Int32} {memory : Memory} {ledger : Ledger} {block : Block} (size : Nat)

/-- A block that was handed out before is another one, and lies apart. -/
theorem Sound.allocate_apart (sound : Sound word memory ledger) (member : block ∈ ledger.live) :
    (ledger.allocate size).1.address + (ledger.allocate size).1.size + 4 ≤ block.address ∨
      block.address + block.size + 4 ≤ (ledger.allocate size).1.address := by
  obtain ⟨known, notFree⟩ := Ledger.mem_live.mp member
  obtain ⟨taken, free, _, allocated⟩ | ⟨_, allocated⟩ := ledger.allocate_cases size
  · rw [allocated]
    exact sound.tiled.apart (sound.known taken free) known fun same => notFree (same ▸ free)
  · have bounds := sound.tiled.bounds known
    rw [allocated]
    exact .inr (by dsimp only; omega)

/-- The block that is handed out lies below the end of the heap and behind its size. -/
theorem Sound.allocate_bounds (sound : Sound word memory ledger) :
    Address.index (word Cell.heap) + 4 ≤ (ledger.allocate size).1.address ∧
      (ledger.allocate size).1.address + (ledger.allocate size).1.size ≤
        (ledger.allocate size).2.bump ∧
      (ledger.allocate size).1.address ≤ ledger.bump + 4 := by
  have start := sound.tiled.start_le
  obtain ⟨taken, free, _, allocated⟩ | ⟨_, allocated⟩ := ledger.allocate_cases size
  · rw [allocated]
    have bounds := sound.tiled.bounds (sound.known taken free)
    dsimp only
    omega
  · rw [allocated]
    dsimp only
    omega

/-- The block that is handed out is handed out afterwards, and so are those before it. -/
theorem Sound.live_allocate (sound : Sound word memory ledger) :
    block ∈ (ledger.allocate size).2.live ↔
      block = (ledger.allocate size).1 ∨ block ∈ ledger.live := by
  obtain ⟨taken, free, _, allocated⟩ | ⟨_, allocated⟩ := ledger.allocate_cases size
  · have known := sound.known taken free
    rw [allocated, Ledger.mem_live, Ledger.mem_live, sound.once.mem_erase_iff]
    by_cases same : block = taken
    · simp [same, known]
    · simp [same]
  · have fresh : (⟨ledger.bump + 4, size⟩ : Block) ∉ ledger.free := fun free => by
      have bounds := sound.tiled.bounds (sound.known _ free)
      dsimp only at bounds
      omega
    rw [allocated, Ledger.mem_live, Ledger.mem_live, List.mem_append, List.mem_singleton]
    by_cases same : block = ⟨ledger.bump + 4, size⟩
    · simp [same, fresh]
    · simp [same]

end

end Heap

end StackBackend
