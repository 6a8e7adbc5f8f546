import StackBackend.Environment
import StackBackend.Proofs.Assembly
import StackBackend.Proofs.Calling

namespace StackBackend

/-! Where the cells of a program are. A cell is a data label with the piece of
data right behind it; cells of different names never overlap, whatever else is
laid out between them. -/

namespace Code

/-- The code lays out a cell of the given size. -/
def Lays (name : String) (size : Nat) (code : Code) : Prop :=
  ∃ before datum after, code = before ++ .dataLabel name :: datum :: after ∧
    datum.dataSize = size

variable {name : String} {size : Nat} {first second : Code}

theorem Lays.left (lays : Lays name size first) (second : Code) :
    Lays name size (first ++ second) := by
  obtain ⟨before, datum, after, rfl, width⟩ := lays
  exact ⟨before, datum, after ++ second, by simp, width⟩

theorem Lays.right (lays : Lays name size second) (first : Code) :
    Lays name size (first ++ second) := by
  obtain ⟨before, datum, after, rfl, width⟩ := lays
  exact ⟨first ++ before, datum, after, by simp, width⟩

theorem lays_cons (name : String) (datum : Instruction) (rest : Code) :
    Lays name datum.dataSize (.dataLabel name :: datum :: rest) :=
  ⟨[], datum, rest, rfl, rfl⟩

theorem Lays.join {pieces : List Code} {piece : Code} (lays : Lays name size piece)
    (member : piece ∈ pieces) : Lays name size (Code.join pieces) := by
  induction pieces with
  | nil => cases member
  | cons head rest induction =>
      rcases List.mem_cons.mp member with rfl | member
      · exact lays.left _
      · exact (induction member).right _

theorem lays_flatMap {α : Type} {items : List α} (item : α) {code : α → Code}
    (lays : Lays name size (code item)) (member : item ∈ items) :
    Lays name size (items.flatMap code) := by
  induction items with
  | nil => cases member
  | cons head rest induction =>
      rw [List.flatMap_cons]
      rcases List.mem_cons.mp member with rfl | member
      · exact lays.left _
      · exact (induction member).right _

/-- What comes after a cell comes after its data as well. -/
theorem dataSize_le_of_later {other : String} {datum : Instruction}
    {before before' between after rest : Code} (different : name ≠ other)
    (longer : before' = before ++ between)
    (split : .dataLabel name :: datum :: after = between ++ .dataLabel other :: rest) :
    before.dataSize + datum.dataSize ≤ before'.dataSize := by
  rw [longer, dataSize_append]
  cases between with
  | nil =>
      cases split
      exact absurd rfl different
  | cons label between =>
      cases between with
      | nil =>
          cases split
          exact Nat.le_refl _
      | cons datum' between =>
          cases split
          simp only [dataSize_cons]
          omega

end Code

/-! ## Addresses -/

namespace Image

variable {code : Code} {image : Image} {name other : String} {size otherSize : Nat}

/-- The address of a data label; zero when there is none. -/
def place (image : Image) (name : String) : Nat :=
  (image.dataAddress? name).getD 0

theorem place_eq {address : Nat} (symbol : image.symbols[name]? = some (.data address)) :
    image.place name = address := by
  rw [place, dataAddress?, symbol]
  rfl

theorem place_of_assemble (assembled : assemble code = .ok image) {before rest : Code}
    (parts : code = before ++ .dataLabel name :: rest) : image.place name = before.dataSize :=
  place_eq (symbol_of_assemble assembled parts)

theorem place_add_le (assembled : assemble code = .ok image) (lays : code.Lays name size) :
    image.place name + size ≤ image.dataSize := by
  obtain ⟨before, datum, after, parts, width⟩ := lays
  rw [place_of_assemble assembled parts, dataSize_of_assemble assembled, parts]
  simp only [Code.dataSize_append, Code.dataSize_cons]
  omega

/-- The word of a cell whose address is in the 32-bit range is that address. -/
theorem names_place (assembled : assemble code = .ok image) (lays : code.Lays name size)
    (fits : image.place name < 2147483648) :
    Address.Names (image.word name) (image.place name) := by
  obtain ⟨before, datum, after, parts, width⟩ := lays
  have symbol := symbol_of_assemble assembled parts
  rw [place_eq symbol] at fits ⊢
  rw [word, symbol]
  exact Address.names_ofNat fits

/-- Cells of different names do not overlap. -/
theorem places_apart (assembled : assemble code = .ok image) (lays : code.Lays name size)
    (otherLays : code.Lays other otherSize) (different : name ≠ other) :
    image.place name + size ≤ image.place other ∨
      image.place other + otherSize ≤ image.place name := by
  obtain ⟨before, datum, after, parts, rfl⟩ := lays
  obtain ⟨before', datum', after', parts', rfl⟩ := otherLays
  rw [place_of_assemble assembled parts, place_of_assemble assembled parts']
  have same := parts.symm.trans parts'
  rcases List.append_eq_append_iff.mp same with ⟨between, longer, rest⟩ | ⟨between, longer, rest⟩
  · exact Or.inl (Code.dataSize_le_of_later different longer rest)
  · exact Or.inr (Code.dataSize_le_of_later different.symm longer rest)

theorem index_word (assembled : assemble code = .ok image) (lays : code.Lays name size)
    (fits : image.place name < 2147483648) :
    Address.index (image.word name) = image.place name := by
  have named := names_place assembled lays fits
  unfold Address.Names at named
  unfold Address.index Int32.toNatClampNeg
  omega

/-- Cells of a word each that some code lays out are apart, below all that lies
beyond the data. -/
theorem cells_of_assemble (assembled : assemble code = .ok image) {names : List String}
    {floor : Nat} (lays : ∀ name ∈ names, code.Lays name 4) (above : image.dataSize ≤ floor)
    (fits : floor ≤ 2147483648) : Cells image.word names floor := by
  have below : ∀ name ∈ names, image.place name + 4 ≤ floor := fun name member =>
    Nat.le_trans (place_add_le assembled (lays name member)) above
  have index : ∀ name ∈ names, Address.index (image.word name) = image.place name :=
    fun name member => index_word assembled (lays name member) (by
      have := below name member
      omega)
  refine ⟨fun name member => ?_, fun name member => ?_, fun first firstMember second secondMember
    different => ?_⟩
  · rw [index name member]
    exact names_place assembled (lays name member) (by
      have := below name member
      omega)
  · rw [index name member]
    exact below name member
  · rw [index first firstMember, index second secondMember]
    exact places_apart assembled (lays first firstMember) (lays second secondMember) different

end Image

/-! ## The environment -/

namespace Environment

open Code

theorem lays_wordCells {names : List String} {name : String} (member : name ∈ names) :
    Lays name 4 (wordCells names) :=
  lays_flatMap name (lays_cons name (.dataI 0) []) member

theorem lays_pointers {name : String} (withDiscard : Bool)
    (member : name ∈ [Cell.framePointer, Cell.stackPointer]) :
    Lays name 4 (code withDiscard) :=
  (lays_wordCells member).join (by simp)

theorem lays_scratch {name : String} (size : Int32) (withDiscard : Bool)
    (member : (name, size) ∈ Cell.scratch) :
    Lays name size.toNatClampNeg (code withDiscard) := by
  have piece : Lays name size.toNatClampNeg
      (Cell.scratch.flatMap fun cell => [.dataLabel cell.1, .dataZ cell.2]) :=
    lays_flatMap (name, size) (lays_cons name (.dataZ size) []) member
  exact piece.join (by simp)

theorem lays_frameCells {name : String} (withDiscard : Bool) (member : name ∈ Frame.cells) :
    Lays name 4 (code withDiscard) := by
  simp only [Frame.cells, List.mem_cons, List.not_mem_nil, or_false] at member
  rcases member with rfl | rfl | rfl | rfl | rfl | rfl
  · exact lays_pointers withDiscard (by simp)
  · exact lays_pointers withDiscard (by simp)
  · exact lays_scratch 4 withDiscard (by simp [Cell.scratch])
  · exact lays_scratch 4 withDiscard (by simp [Cell.scratch])
  · exact lays_scratch 4 withDiscard (by simp [Cell.scratch])
  · exact lays_scratch 4 withDiscard (by simp [Cell.scratch])

end Environment

namespace Heap

theorem lays_cells {name : String} (member : name ∈ cells) : manager.Lays name 4 := by
  have laid : Code.Lays name 4 (cells.flatMap fun cell => [.dataLabel cell, .dataI 0]) :=
    Code.lays_flatMap name (Code.lays_cons name (.dataI 0) []) member
  exact laid.join (by simp)

end Heap

end StackBackend
