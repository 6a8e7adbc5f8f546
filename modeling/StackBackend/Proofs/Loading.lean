import Mathlib.Algebra.Ring.Nat
import StackBackend.Proofs.Layout

namespace StackBackend

/-! What the memory holds when a run starts: every cell the piece of data that was laid
out for it. -/

/-! ## Pieces in a blank memory -/

namespace Memory

/-- All bytes from an index on are zero. -/
def Blank (memory : Memory) (start : Nat) : Prop :=
  ∀ index, start ≤ index → memory.byte index = 0

theorem Blank.read {memory : Memory} {start : Nat} (blank : memory.Blank start) (width : Nat) :
    memory.read start width = List.replicate width 0 := by
  induction width generalizing start with
  | zero => rfl
  | succ width induction =>
      have first : memory.byte start = 0 := blank start (Nat.le_refl start)
      have others : memory.Blank (start + 1) := fun index above => blank index (by omega)
      rw [Memory.read, first, induction others, List.replicate_succ]

/-- A part of a range of zeros. -/
theorem read_of_zeros {memory : Memory} {start total offset width : Nat}
    (zeros : memory.read start total = List.replicate total 0) (inside : offset + width ≤ total) :
    memory.read (start + offset) width = List.replicate width 0 := by
  obtain ⟨rest, rfl⟩ := Nat.exists_eq_add_of_le inside
  rw [read_append, read_append, ← List.replicate_append_replicate,
    ← List.replicate_append_replicate] at zeros
  have first := (List.append_inj zeros (by simp)).1
  exact (List.append_inj first (by simp)).2

end Memory

namespace Datum

/-- The bytes of pieces one after the other. -/
def total (data : List Datum) : Nat :=
  (data.map size).sum

@[simp] theorem total_nil : total [] = 0 := rfl

@[simp] theorem total_cons (datum : Datum) (rest : List Datum) :
    total (datum :: rest) = datum.size + total rest := by
  simp [total]

/-- Loading one piece fills its own bytes and no others. -/
structure Loads (datum : Datum) (memory : Memory) (start : Nat) (after : Memory) : Prop where
  size : after.size = memory.size
  content : after.read start datum.size = datum.content
  kept : ∀ index, index < start ∨ start + datum.size ≤ index →
    after.byte index = memory.byte index

theorem exists_loads {memory : Memory} {start : Nat} (datum : Datum) (rest : List Datum)
    (blank : memory.Blank start) (inside : start + datum.size ≤ memory.size) :
    ∃ after, datum.Loads memory start after ∧
      loadData memory start (datum :: rest) = loadData after (start + datum.size) rest := by
  cases datum with
  | bytes content =>
      exact ⟨memory.write start content, ⟨Memory.size_write _ _ _,
        Memory.read_write memory start content inside, fun index outside =>
        Memory.byte_write_of_outside memory start index content outside⟩, rfl⟩
  | zeros count => exact ⟨memory, ⟨rfl, blank.read count, fun _ _ => rfl⟩, rfl⟩
  | reference label => exact ⟨memory, ⟨rfl, blank.read 4, fun _ _ => rfl⟩, rfl⟩

theorem Loads.blank {datum : Datum} {memory after : Memory} {start : Nat}
    (loads : datum.Loads memory start after) (blank : memory.Blank start) :
    after.Blank (start + datum.size) := fun index above => by
  rw [loads.kept index (.inr above)]
  exact blank index (by omega)

end Datum

section

variable {memory : Memory} {start : Nat}

/-- Bytes below the pieces stay as they were. -/
theorem byte_loadData {data : List Datum} {index : Nat} (blank : memory.Blank start)
    (inside : start + Datum.total data ≤ memory.size) (below : index < start) :
    (loadData memory start data).byte index = memory.byte index := by
  induction data generalizing memory start with
  | nil => rfl
  | cons datum rest induction =>
      rw [Datum.total_cons] at inside
      obtain ⟨after, loads, same⟩ := datum.exists_loads rest blank (by omega)
      have size := loads.size
      rw [same, induction (loads.blank blank) (by omega) (by omega), loads.kept index (.inl below)]

theorem read_loadData {first rest : List Datum} {datum : Datum} (blank : memory.Blank start)
    (inside : start + Datum.total (first ++ datum :: rest) ≤ memory.size) :
    (loadData memory start (first ++ datum :: rest)).read (start + Datum.total first) datum.size =
      datum.content := by
  induction first generalizing memory start with
  | nil =>
      rw [List.nil_append, Datum.total_cons] at inside
      obtain ⟨after, loads, same⟩ := datum.exists_loads rest blank (by omega)
      have size := loads.size
      rw [List.nil_append, same, Datum.total_nil, Nat.add_zero, ← loads.content]
      exact Memory.read_congr fun index _ upper =>
        byte_loadData (loads.blank blank) (by omega) upper
  | cons piece first induction =>
      rw [List.cons_append, Datum.total_cons] at inside
      obtain ⟨after, loads, same⟩ := piece.exists_loads (first ++ datum :: rest) blank (by omega)
      have size := loads.size
      rw [List.cons_append, same, Datum.total_cons, ← Nat.add_assoc,
        induction (loads.blank blank) (by omega)]

end

/-! ## Images -/

namespace Code

theorem total_filterMap_datum? (code : Code) :
    Datum.total (code.filterMap Instruction.datum?) = code.dataSize := by
  induction code with
  | nil => rfl
  | cons instruction rest induction =>
      rw [dataSize_cons, Instruction.dataSize]
      cases laid : instruction.datum? <;> simp [laid, induction]

end Code

namespace Placement

variable {placement : Placement}

theorem size_resolveDatum {datum resolved : Datum}
    (found : placement.resolveDatum datum = .ok resolved) : resolved.size = datum.size := by
  cases datum with
  | reference label =>
      obtain ⟨symbol, _, same⟩ := Except.bind_eq_ok.mp found
      cases same
      exact Memory.length_ofInt32 _
  | _ =>
      cases found
      rfl

theorem total_resolveDatum {data resolved : List Datum}
    (found : data.mapM placement.resolveDatum = .ok resolved) :
    Datum.total resolved = Datum.total data := by
  induction data generalizing resolved with
  | nil =>
      cases found
      rfl
  | cons datum rest induction =>
      rw [List.mapM_cons] at found
      simp only [Except.bind_eq_ok, Except.pure_eq_ok] at found
      obtain ⟨first, firstFound, others, othersFound, rfl⟩ := found
      rw [Datum.total_cons, Datum.total_cons, size_resolveDatum firstFound, induction othersFound]

end Placement

namespace Image

variable {code : Code} {image : Image}

/-- A piece of data that names no label is in the image as it was laid out, after the data
before it. -/
theorem exists_data (assembled : assemble code = .ok image) {before rest : Code}
    {instruction : Instruction} {datum : Datum} (parts : code = before ++ instruction :: rest)
    (laid : instruction.datum? = some datum) (fixed : ∀ label, datum ≠ .reference label) :
    ∃ first others, image.data = first ++ datum :: others ∧ Datum.total first = before.dataSize ∧
      Datum.total image.data = image.dataSize := by
  obtain ⟨placement, made⟩ := assembled_of_assemble assembled
  have data : placement.data.toList = code.filterMap Instruction.datum? := by
    simpa [Placement.empty] using Placement.data_extend made.placed
  have resolved := made.data
  have total := Placement.total_resolveDatum resolved
  rw [data, Code.total_filterMap_datum?, ← dataSize_of_assemble assembled] at total
  rw [data, parts, List.filterMap_append, List.filterMap_cons_some laid, List.mapM_append,
    List.mapM_cons] at resolved
  simp only [Except.bind_eq_ok, Except.pure_eq_ok] at resolved
  obtain ⟨first, firstFound, _, ⟨piece, pieceFound, others, _, rfl⟩, same⟩ := resolved
  have unchanged : piece = datum := by
    cases datum with
    | reference label => exact absurd rfl (fixed label)
    | _ =>
        cases pieceFound
        rfl
  refine ⟨first, others, by rw [same, unchanged], ?_, total⟩
  rw [Placement.total_resolveDatum firstFound, Code.total_filterMap_datum?]

@[simp] theorem size_initialState (image : Image) (memorySize : Nat) :
    (image.initialState memorySize).memory.size = memorySize :=
  size_loadData _ _ _

/-- A run starts with what was laid out for a cell in the cell. -/
theorem read_initialState (assembled : assemble code = .ok image) {name : String}
    {instruction : Instruction} {datum : Datum}
    (part : [.dataLabel name, instruction] <:+: code)
    (laid : instruction.datum? = some datum) (fixed : ∀ label, datum ≠ .reference label)
    {memorySize : Nat} (room : image.dataSize ≤ memorySize) :
    (image.initialState memorySize).memory.read (image.place name) datum.size =
      datum.content := by
  obtain ⟨before, rest, parts⟩ := part
  have cell : code = before ++ .dataLabel name :: instruction :: rest := by simp [← parts]
  have piece : code = (before ++ [.dataLabel name]) ++ instruction :: rest := by simp [← parts]
  obtain ⟨first, others, data, before', total⟩ := exists_data assembled piece laid fixed
  have place : image.place name = 0 + Datum.total first := by
    rw [place_of_assemble assembled cell, before']
    simp [Instruction.dataSize, Instruction.datum?]
  have blank : (Memory.zeros memorySize).Blank 0 := fun index _ => Memory.byte_zeros _ index
  rw [initialState, data, place]
  refine read_loadData blank ?_
  rw [← data, total, Nat.zero_add]
  exact room

end Image

namespace Code

theorem lays_of_infix {name : String} {datum : Instruction} {code : Code}
    (part : [.dataLabel name, datum] <:+: code) : code.Lays name datum.dataSize := by
  obtain ⟨before, rest, parts⟩ := part
  exact ⟨before, datum, rest, by simp [← parts], rfl⟩

end Code

theorem Image.exists_holds_of_infix {code piece : Code} {image : Image}
    (assembled : assemble code = .ok image) (part : piece <:+: code) :
    ∃ position, image.Holds piece position := by
  obtain ⟨before, rest, parts⟩ := part
  have holds := holds_of_assemble assembled
  rw [← parts, holds_append, holds_append] at holds
  exact ⟨_, holds.1.2⟩

end StackBackend
