import StackBackend.Proofs.ByteLoops
import StackBackend.Proofs.HeapHistory
import StackBackend.Proofs.Correctness

namespace StackBackend

/-! The byte loops as their callers see them. Both routines are part of every program. Whatever
range of memory they are called for, they work on all of it and on nothing else, and leave no
more than their own cells behind. -/

theorem ClearBytes.infix_environment (withDiscard : Bool) :
    ClearBytes.code <:+: Environment.code withDiscard :=
  List.infix_of_mem_flatten (by simp)

theorem CopyBytes.infix_environment (withDiscard : Bool) :
    CopyBytes.code <:+: Environment.code withDiscard :=
  List.infix_of_mem_flatten (by simp)

namespace Prepared

variable {code : Code} {image : Image} {size : Int32}

theorem clearBytes_installed (prepared : Prepared code image size) :
    ClearBytes.Installed image := by
  obtain ⟨_, cells, _, holds⟩ := prepared.routine_stands ClearBytes.infix_environment
  exact ClearBytes.installed_of_holds prepared.addressable cells holds

theorem copyBytes_installed (prepared : Prepared code image size) : CopyBytes.Installed image := by
  obtain ⟨_, cells, _, holds⟩ := prepared.routine_stands CopyBytes.infix_environment
  exact CopyBytes.installed_of_holds prepared.addressable cells holds

end Prepared

namespace Program

variable {program : Program} {options : CompileOptions} {code : Code} {image : Image}
  {memory : Memory} {count : Int32} {position : Nat}

/-- Both routines go back to the address on the stack, which loses their arguments and that
address only. The first one makes the bytes of a range zero. The second one gives the bytes of a
range to another range, which may start anywhere but past the first byte of the one it is copied
from and within it. No other byte changes outside the cells of the routine. -/
theorem byte_loops_keep_to_ranges (compiled : program.compile options = .ok code)
    (assembled : Image.assemble code = .ok image) (addressable : image.Addressable)
    (fits : image.dataSize ≤ 2147483647) (inside : image.dataSize ≤ memory.size)
    (natural : 0 ≤ count) (returns : position ≤ image.code.size) (stack : List Word)
    (output : ByteArray) (limit : Option Nat) :
    (∃ here, image.Marks Entry.clearBytes here ∧
      ∀ base, memory.Spans base (Address.index count) →
        Cells.Apart image.word ClearBytes.cells (Address.index base) (Address.index count) →
        ∃ after, Runs image limit ⟨here, .integer (Int32.ofNat position) :: .integer count ::
            .integer base :: stack, memory, output⟩ ⟨position, stack, after, output⟩ ∧
          ClearBytes.Cleared image.word memory after (Address.index base) (Address.index count)) ∧
    ∃ here, image.Marks Entry.copyBytes here ∧
      ∀ destination source, memory.Spans destination (Address.index count) →
        memory.Spans source (Address.index count) →
        Cells.Apart image.word CopyBytes.cells (Address.index destination) (Address.index count) →
        Cells.Apart image.word CopyBytes.cells (Address.index source) (Address.index count) →
        ¬ (Address.index source < Address.index destination ∧
          Address.index destination < Address.index source + Address.index count) →
        ∃ after, Runs image limit ⟨here, .integer (Int32.ofNat position) :: .integer count ::
            .integer source :: .integer destination :: stack, memory, output⟩
            ⟨position, stack, after, output⟩ ∧
          CopyBytes.Copied image.word memory after (Address.index destination)
            (Address.index source) (Address.index count) := by
  obtain ⟨body, composed⟩ := exists_composed compiled
  have prepared := composed.prepared assembled addressable fits
  have counted : Address.Names count (Address.index count) :=
    Address.names_index (Int32.le_iff_toInt_le.mp natural)
  have few : Address.index count ≤ 2147483648 := by
    have bound := Int32.toInt_lt count
    unfold Address.Names at counted
    omega
  have clearing := prepared.clearBytes_installed
  have copying := prepared.copyBytes_installed
  obtain ⟨clear, clearMarks, _⟩ := clearing.atEntry
  obtain ⟨copy, copyMarks, _⟩ := copying.atEntry
  refine ⟨⟨clear, clearMarks, fun base spans apart => ?_⟩, copy, copyMarks,
    fun destination source spans sourceSpans apart unread outside => ?_⟩
  · exact ClearBytes.runs_reached clearing inside counted (spans.reach few) apart returns clearMarks
  · exact CopyBytes.runs_reached copying inside counted (spans.reach few) (sourceSpans.reach few)
      apart unread (by omega) returns copyMarks

/-- Of four bytes, three are cleared; and the four are copied to two places further down, over
the first two of themselves. -/
theorem bytes_moved_down :
    ∃ code image clear copy memory cleared copied,
      idle.compile ⟨true⟩ = .ok code ∧ Image.assemble code = .ok image ∧ image.Addressable ∧
      image.dataSize ≤ 2147483647 ∧ image.dataSize ≤ memory.size ∧
      memory.read 65542 4 = [3, 4, 5, 6] ∧
      Runs image none ⟨clear, [.integer (Int32.ofNat 0), .integer 3, .integer 65542], memory, .empty⟩
        ⟨0, [], cleared, .empty⟩ ∧
      cleared.read 65542 4 = [0, 0, 0, 6] ∧
      Runs image none ⟨copy, [.integer (Int32.ofNat 0), .integer 4, .integer 65542,
        .integer 65540], memory, .empty⟩ ⟨0, [], copied, .empty⟩ ∧
      copied.read 65540 4 = [3, 4, 5, 6] := by
  obtain ⟨code, image, compiled, assembled, addressable, small⟩ := exists_idle_image
  obtain ⟨body, composed⟩ := exists_composed compiled
  have prepared := composed.prepared assembled addressable (by omega)
  let memory := (Memory.zeros 65546).write 65542 [3, 4, 5, 6]
  have size : memory.size = 65546 := Memory.size_write ..
  have bytes : memory.read 65542 4 = [3, 4, 5, 6] :=
    Memory.read_write _ _ [3, 4, 5, 6] (by decide)
  have spans {start : Int32} {count : Nat} (low : 65536 ≤ Address.index start)
      (names : Address.Names start (Address.index start))
      (high : Address.index start + count ≤ 65546) : memory.Spans start count :=
    Memory.spans_of_fits names (by omega) (by omega)
  obtain ⟨⟨clear, _, clears⟩, _⟩ := byte_loops_keep_to_ranges compiled assembled addressable
    (show image.dataSize ≤ 2147483647 by omega) (show image.dataSize ≤ memory.size by omega)
    (show (0 : Int32) ≤ 3 by decide) (Nat.zero_le _) [] .empty none
  obtain ⟨_, copy, _, copies⟩ := byte_loops_keep_to_ranges compiled assembled addressable
    (show image.dataSize ≤ 2147483647 by omega) (show image.dataSize ≤ memory.size by omega)
    (show (0 : Int32) ≤ 4 by decide) (Nat.zero_le _) [] .empty none
  have clearMisses {start : Nat} (low : 65536 ≤ start) :
      Cells.Misses image.word ClearBytes.cells start :=
    prepared.clearBytes_installed.cells.misses_of_floor_le (Nat.le_trans small low)
  have copyMisses {start count : Nat} (low : 65536 ≤ start) :
      Cells.Apart image.word CopyBytes.cells start count := fun index lower _ =>
    prepared.copyBytes_installed.cells.misses_of_floor_le (by omega)
  obtain ⟨cleared, clearing, zero⟩ := clears 65542 (spans (by decide) (by decide) (by decide))
    fun index lower _ => clearMisses (Nat.le_trans (by decide) lower)
  obtain ⟨copied, copying, moved⟩ := copies 65540 65542 (spans (by decide) (by decide) (by decide))
    (spans (by decide) (by decide) (by decide)) (copyMisses (by decide)) (copyMisses (by decide))
    (by decide)
  have clear : ∀ index, 65542 ≤ index → index < 65545 → cleared.byte index = 0 := zero.clear
  have last : cleared.byte 65545 = memory.byte 65545 :=
    zero.kept 65545 (.inr (by decide)) (clearMisses (by decide))
  have six : memory.byte 65545 = 6 := by
    simp only [Memory.read, List.cons.injEq] at bytes
    exact bytes.2.2.2.1
  refine ⟨code, image, _, copy, memory, cleared, copied, compiled, assembled, addressable,
    by omega, by omega, bytes, clearing, ?_, copying, (Memory.read_shift moved.same).trans bytes⟩
  simp [Memory.read, clear, last, six]

end Program

end StackBackend
