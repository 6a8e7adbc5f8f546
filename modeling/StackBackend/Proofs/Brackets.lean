import StackBackend.Bracket
import StackBackend.Proofs.Cells
import StackBackend.Proofs.Layout

namespace StackBackend

/-! What brackets and the cells of eight bytes do to the memory. Words that are saved on the
operand stack come back however they were used in between, and a value that is parked in a wide
cell comes out as it went in. -/

namespace Cells

/-- A cell of eight bytes, below the floor and apart from the cells of a word each. -/
structure Wide (word : String → Int32) (names : List String) (floor : Nat) (name : String) :
    Prop where
  located : Address.Names (word name) (Address.index (word name))
  below : Address.index (word name) + 8 ≤ floor
  apart : ∀ other ∈ names, Address.index (word other) + 4 ≤ Address.index (word name) ∨
    Address.index (word name) + 8 ≤ Address.index (word other)

end Cells

theorem Image.wide_of_assemble {code : Code} {image : Image} {names : List String} {label : String}
    (assembled : assemble code = .ok image) (fits : image.dataSize ≤ 2147483647)
    (lays : ∀ name ∈ names, code.Lays name 4) (wide : code.Lays label 8) (other : label ∉ names) :
    Cells.Wide image.word names image.dataSize label := by
  have inside := place_add_le assembled wide
  have index := index_word assembled wide (by omega)
  refine ⟨?_, by omega, fun name member => ?_⟩
  · rw [index]
    exact names_place assembled wide (by omega)
  · have below := place_add_le assembled (lays name member)
    rw [index, index_word assembled (lays name member) (by omega)]
    exact places_apart assembled (lays name member) wide fun same => other (same ▸ member)

/-- The cells and the bytes stay as they are. -/
structure Steady (word : String → Int32) (names : List String) (kept : Nat → Prop)
    (before after : Memory) : Prop where
  size : after.size = before.size
  cells : ∀ name ∈ names, after.cell word name = before.cell word name
  bytes : ∀ index, kept index → after.byte index = before.byte index

namespace Steady

variable {word : String → Int32} {names fewer : List String} {kept less : Nat → Prop}
  {before between after : Memory}

theorem refl (memory : Memory) : Steady word names kept memory memory :=
  ⟨rfl, fun _ _ => rfl, fun _ _ => rfl⟩

theorem trans (first : Steady word names kept before between)
    (second : Steady word names kept between after) : Steady word names kept before after where
  size := second.size.trans first.size
  cells name member := (second.cells name member).trans (first.cells name member)
  bytes index keeps := (second.bytes index keeps).trans (first.bytes index keeps)

theorem mono (steady : Steady word names kept before after)
    (subset : ∀ name ∈ fewer, name ∈ names) (weaker : ∀ index, less index → kept index) :
    Steady word fewer less before after where
  size := steady.size
  cells name member := steady.cells name (subset name member)
  bytes index keeps := steady.bytes index (weaker index keeps)

/-- What is read from bytes that are kept. -/
theorem read (steady : Steady word names kept before after) {start width : Nat}
    (keeps : ∀ index, start ≤ index → index < start + width → kept index) :
    after.read start width = before.read start width :=
  Memory.read_congr fun index lower upper => steady.bytes index (keeps index lower upper)

theorem word_eq (steady : Steady word names kept before after) {start : Nat}
    (keeps : ∀ index, start ≤ index → index < start + 4 → kept index) :
    after.word start = before.word start :=
  Memory.word_congr fun index lower upper => steady.bytes index (keeps index lower upper)

end Steady

namespace Ty

variable {word : String → Int32} {names : List String} {floor : Nat} {memory : Memory}
  {type : Ty} {label : String} {value : List Word} {bytes : List UInt8}

theorem Lies.congr {address : Int32} {index : Nat} {after : Memory}
    (lies : type.Lies address index memory) (size : after.size = memory.size) :
    type.Lies address index after :=
  { lies with inside := size ▸ lies.inside }

/-- A value is parked in a cell with room for it, and nothing else changes. -/
theorem Lies.act_stash {index : Nat} (isValue : type.isVoid = false)
    (lies : type.Lies (word label) index memory) (encoded : type.bytes? value = some bytes) :
    ∃ after : Memory,
      (∀ stack rest, Code.act word (type.stash label ++ rest) (value ++ stack) memory =
        Code.act word rest stack after) ∧
      after.size = memory.size ∧ after.read index type.width = bytes ∧
      ∀ other, other < index ∨ index + type.width ≤ other →
        after.byte other = memory.byte other := by
  have names := lies.names
  have inside := lies.inside
  by_cases two : type = .rational
  · subst two
    rw [width_rational] at inside
    simp only [bytes?] at encoded
    split at encoded <;> cases encoded
    rename_i denominator numerator
    have upper : Address.Names (word label + 4) (index + 4) := names.add rfl (lies.second rfl)
    refine ⟨(memory.setWord (index + 4) denominator).setWord index numerator,
      fun stack rest => ?_, by simp only [Memory.size_setWord], ?_, fun other apart => ?_⟩
    · simp only [stash, List.cons_append, List.nil_append]
      rw [Code.act_pushD, Code.act_pushI, Code.act_add, Code.act_exchange,
        Code.act_setWord upper (by omega), Code.act_storeWord names
          (by rw [Memory.size_setWord]; omega)]
    · refine (Memory.read_append _ _ 4 4).trans ?_
      rw [Memory.read_setWord (by rw [Memory.size_setWord]; omega),
        Memory.read_setWord_of_apart (.inr (Nat.le_refl _)), Memory.read_setWord (by omega)]
    · rw [width_rational] at apart
      rw [Memory.byte_setWord_of_outside (by omega), Memory.byte_setWord_of_outside (by omega)]
  · have written := length_bytes? encoded
    refine ⟨memory.write index bytes, fun stack rest => ?_, Memory.size_write _ _ _, ?_,
      fun other apart => Memory.byte_write_of_outside _ _ _ _ (by rwa [written])⟩
    · obtain ⟨top, rfl, acts⟩ := @act_storeNarrow word type _ _ stack memory value bytes isValue two
        encoded names inside rest
      have code : type.stash label = [.pushD label, .exchange] ++ type.storeCode := by
        cases type <;> first | rfl | exact absurd rfl two | cases isValue
      rw [code]
      simpa only [List.append_assoc, List.cons_append, List.nil_append, Code.act_pushD,
        Code.act_exchange] using acts
    · rw [← written]
      exact Memory.read_write _ _ _ (length_bytes_le encoded inside)

theorem Lies.act_unstash {index : Nat} (isValue : type.isVoid = false)
    (lies : type.Lies (word label) index memory) (stack : List Word) (rest : Code) :
    Code.act word (type.unstash label ++ rest) stack memory =
      Code.act word rest (type.words (memory.read index type.width) ++ stack) memory := by
  have code : type.unstash label = .pushD label :: type.loadCode := by
    cases type <;> first | rfl | cases isValue
  rw [code, List.cons_append, Code.act_pushD, lies.act_loadCode isValue]

theorem lies_of_wide (wide : Cells.Wide word names floor label) (inside : floor ≤ memory.size)
    (fits : floor ≤ 2147483647) :
    type.Lies (word label) (Address.index (word label)) memory := by
  have below := wide.below
  have width := type.width_le
  exact lies_of_fits wide.located (by omega) (by omega)

/-- A value is parked in a wide cell. -/
theorem act_stash (isValue : type.isVoid = false) (wide : Cells.Wide word names floor label)
    (inside : floor ≤ memory.size) (fits : floor ≤ 2147483647)
    (encoded : type.bytes? value = some bytes) :
    ∃ after : Memory,
      (∀ stack rest, Code.act word (type.stash label ++ rest) (value ++ stack) memory =
        Code.act word rest stack after) ∧
      Stored word type (Address.index (word label)) bytes memory after := by
  rcases (lies_of_wide wide inside fits).act_stash isValue encoded with
    ⟨after, acts, size, written, kept⟩
  exact ⟨after, acts, size, written, fun other apart _ => kept other apart⟩

theorem act_unstash (isValue : type.isVoid = false) (wide : Cells.Wide word names floor label)
    (inside : floor ≤ memory.size) (fits : floor ≤ 2147483647) (stack : List Word) (rest : Code) :
    Code.act word (type.unstash label ++ rest) stack memory =
      Code.act word rest (type.words (memory.read (Address.index (word label)) type.width) ++ stack)
        memory :=
  (lies_of_wide wide inside fits).act_unstash isValue stack rest

end Ty

namespace Bracket

open Code

variable {word : String → Int32} {names : List String} {floor : Nat} {memory : Memory}

/-- The words that are saved, the last one on top. -/
def saved (bracket : Bracket) (word : String → Int32) (memory : Memory) : List Word :=
  bracket.words.reverse.map fun name => .integer (memory.cell word name)

theorem act_loadWords (cells : Cells word names floor) (inside : floor ≤ memory.size)
    {words : List String} (known : ∀ name ∈ words, name ∈ names) (stack : List Word)
    (rest : Code) :
    act word (words.flatMap loadWord ++ rest) stack memory =
      act word rest ((words.reverse.map fun name => .integer (memory.cell word name)) ++ stack)
        memory := by
  induction words generalizing stack with
  | nil => rfl
  | cons name words induction =>
      obtain ⟨first, others⟩ := List.forall_mem_cons.mp known
      rw [List.flatMap_cons, List.append_assoc, cells.act_loadCell first inside,
        induction others, List.reverse_cons, List.map_append, List.append_assoc]
      rfl

theorem act_storeWords (cells : Cells word names floor) (inside : floor ≤ memory.size)
    {words : List String} (known : ∀ name ∈ words, name ∈ names) (value : String → Int32) :
    ∃ after, (∀ stack rest, act word (words.flatMap storeWord ++ rest)
          ((words.map fun name => .integer (value name)) ++ stack) memory =
        act word rest stack after) ∧
      Cells.Only word words memory after ∧
      ∀ name ∈ words, after.cell word name = value name := by
  induction words generalizing memory with
  | nil => exact ⟨memory, fun _ _ => rfl, .refl memory, fun _ member => nomatch member⟩
  | cons name words induction =>
      obtain ⟨first, others⟩ := List.forall_mem_cons.mp known
      have room : floor ≤ (memory.setCell word name (value name)).size := by
        rwa [Memory.size_setCell]
      obtain ⟨after, acts, only, set⟩ := induction room others
      refine ⟨after, fun stack rest => ?_, ?_, ?_⟩
      · rw [List.flatMap_cons, List.append_assoc, List.map_cons, List.cons_append,
          cells.act_storeCell first inside, acts]
      · exact (((Cells.Only.refl memory).setCell (by simp) _).trans
          (only.mono fun other member => List.mem_cons_of_mem _ member))
      · intro other member
        by_cases later : other ∈ words
        · exact set other later
        · obtain rfl : other = name := by simpa [later] using member
          rw [only.cell cells others first later, cells.cell_setCell first inside]

theorem act_save (cells : Cells word names floor) (inside : floor ≤ memory.size)
    {bracket : Bracket} (known : ∀ name ∈ bracket.words, name ∈ names) (stack : List Word)
    (rest : Code) :
    act word (bracket.save ++ rest) stack memory =
      act word rest (bracket.saved word memory ++ stack) memory :=
  act_loadWords cells inside known stack rest

/-- The words are those of the first memory again. Every other byte that is kept is the one of
the second memory. -/
structure Restored (bracket : Bracket) (word : String → Int32) (kept : Nat → Prop)
    (first second after : Memory) : Prop where
  size : after.size = second.size
  words : ∀ name ∈ bracket.words, after.cell word name = first.cell word name
  bytes : ∀ index, Cells.Misses word bracket.words index → kept index →
    after.byte index = second.byte index

theorem act_restore (cells : Cells word names floor) (inside : floor ≤ memory.size)
    {bracket : Bracket} (known : ∀ name ∈ bracket.words, name ∈ names) (first : Memory) :
    ∃ after,
      (∀ stack rest, act word (bracket.restore ++ rest) (bracket.saved word first ++ stack) memory =
        act word rest stack after) ∧
      bracket.Restored word (fun _ => True) first memory after := by
  obtain ⟨after, restores, only, set⟩ := act_storeWords cells inside
    (fun name member => known name (List.mem_reverse.mp member)) fun name => first.cell word name
  exact ⟨after, restores, only.size, fun name member => set name (List.mem_reverse.mpr member),
    fun index misses _ => only.kept index fun name member =>
      misses name (List.mem_reverse.mp member)⟩

/-- A cell with room for the result of a type, apart from the words. -/
structure Carrier (bracket : Bracket) (word : String → Int32) (type : Ty) (label : String)
    (index : Nat) (memory : Memory) : Prop where
  lies : type.Lies (word label) index memory
  unsaved : label ∉ bracket.words
  apart : ∀ name ∈ bracket.words, Address.index (word name) + 4 ≤ index ∨
    index + type.width ≤ Address.index (word name)

theorem carrier_of_wide {bracket : Bracket} {type : Ty} {label : String}
    (wide : Cells.Wide word names floor label) (inside : floor ≤ memory.size)
    (fits : floor ≤ 2147483647) (known : ∀ name ∈ bracket.words, name ∈ names) :
    bracket.Carrier word type label (Address.index (word label)) memory where
  lies := Ty.lies_of_wide wide inside fits
  unsaved member := by
    have apart := wide.apart label (known label member)
    omega
  apart name member := by
    have apart := wide.apart name (known name member)
    have width := type.width_le
    omega

/-- A result passes the words that are restored. -/
theorem act_restoreUnder (cells : Cells word names floor) (inside : floor ≤ memory.size)
    {bracket : Bracket} {type : Ty} {label : String} {index : Nat} {value : List Word}
    (known : ∀ name ∈ bracket.words, name ∈ names)
    (carrier : bracket.Carrier word type label index memory) (admits : type.Admits value)
    (first : Memory) :
    ∃ after,
      (∀ stack rest, act word (bracket.restoreUnder type label ++ rest)
          (value ++ (bracket.saved word first ++ stack)) memory =
        act word rest (value ++ stack) after) ∧
      bracket.Restored word (fun other => other < index ∨ index + type.width ≤ other) first memory
        after := by
  obtain ⟨bytes, encoded, back⟩ := admits
  cases isVoid : type.isVoid with
  | true =>
      -- Nothing is left to be carried.
      obtain rfl : type = .void := by cases type <;> first | rfl | cases isVoid
      obtain rfl : value = [] := back.symm
      obtain ⟨after, restores, restored⟩ := act_restore cells inside known first
      refine ⟨after, fun stack rest => ?_, restored.size, restored.words,
        fun other misses _ => restored.bytes other misses trivial⟩
      rw [restoreUnder, Ty.stash, Ty.unstash, List.nil_append, List.append_nil]
      exact restores stack rest
  | false =>
      obtain ⟨stashed, stashes, size, written, kept⟩ := carrier.lies.act_stash isVoid encoded
      obtain ⟨after, restores, restored⟩ := act_restore cells (size.symm ▸ inside) known first
      have lies : type.Lies (word label) index after :=
        carrier.lies.congr (restored.size.trans size)
      have parked : after.read index type.width = bytes := by
        refine Eq.trans (Memory.read_congr fun other lower upper => ?_) written
        refine restored.bytes other (fun name member => ?_) trivial
        have apart := carrier.apart name member
        omega
      refine ⟨after, fun stack rest => ?_, restored.size.trans size, restored.words,
        fun other misses outside => (restored.bytes other misses trivial).trans (kept other outside)⟩
      rw [restoreUnder, List.append_assoc, List.append_assoc, stashes, restores,
        lies.act_unstash isVoid, parked, back]

end Bracket

end StackBackend
