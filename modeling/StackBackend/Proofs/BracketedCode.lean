import StackBackend.Proofs.Safety
import StackBackend.Proofs.TypedAccess

namespace StackBackend

/-! Brackets from end to end. At one end words are saved on the operand stack; at the other one
they are what they were, whatever has run in between and written over them, and its result stays
on the stack. -/

/-! ## Results -/

namespace Ty

/-- What code of a type leaves on the operand stack: a value, or nothing if the type is void. -/
inductive IsResult : Ty → List Word → Prop
  | nothing : IsResult .void []
  | value {type : Ty} {value : List Word} (isValue : type.IsValue value) : IsResult type value

variable {type : Ty} {value : List Word}

theorem IsResult.admits (isResult : type.IsResult value) : type.Admits value := by
  cases isResult with
  | nothing => exact ⟨[], rfl, rfl⟩
  | value isValue => exact isValue.admits

theorem IsResult.length_eq (isResult : type.IsResult value) : value.length = type.stackWords := by
  cases isResult with
  | nothing => rfl
  | value isValue => cases isValue <;> rfl

end Ty

/-! ## Both ends -/

namespace Bracket

variable {code : Code} {image : Image} {limit : Option Nat} {bracket : Bracket} {type : Ty}
  {label : String} {index start : Nat} {value : List Word} {first memory : Memory}

theorem runs_save (cells : Cells image.word bracket.words memory.size) {pc : Nat}
    (holds : image.Holds bracket.save pc) (stack : List Word) (output : ByteArray) :
    Runs image limit ⟨pc, stack, memory, output⟩
      ⟨pc + bracket.save.size, bracket.saved image.word memory ++ stack, memory, output⟩ :=
  Runs.straight holds
    (Code.act_alone (act_save cells (Nat.le_refl _) (fun _ member => member) stack))

/-- The saved words are taken off the stack and are in their cells again. -/
theorem runs_restore (cells : Cells image.word bracket.words memory.size) (first : Memory) :
    ∃ after, bracket.Restored image.word (fun _ => True) first memory after ∧
      ∀ pc stack output, image.Holds bracket.restore pc →
        Runs image limit ⟨pc, bracket.saved image.word first ++ stack, memory, output⟩
          ⟨pc + bracket.restore.size, stack, after, output⟩ := by
  obtain ⟨after, acts, restored⟩ :=
    act_restore cells (Nat.le_refl _) (fun _ member => member) first
  exact ⟨after, restored, fun pc stack output holds =>
    Runs.straight holds (Code.act_alone (acts stack))⟩

/-- The same from beneath a result, which stays. -/
theorem runs_restoreUnder (cells : Cells image.word bracket.words memory.size)
    (carrier : bracket.Carrier image.word type label index memory)
    (isResult : type.IsResult value) (first : Memory) :
    ∃ after, bracket.Restored image.word
        (fun other => other < index ∨ index + type.width ≤ other) first memory after ∧
      ∀ pc stack output, image.Holds (bracket.restoreUnder type label) pc →
        Runs image limit
          ⟨pc, value ++ (bracket.saved image.word first ++ stack), memory, output⟩
          ⟨pc + (bracket.restoreUnder type label).size, value ++ stack, after, output⟩ := by
  obtain ⟨after, acts, restored⟩ := act_restoreUnder cells (Nat.le_refl _)
    (fun _ member => member) carrier isResult.admits first
  exact ⟨after, restored, fun pc stack output holds =>
    Runs.straight holds (Code.act_alone (acts stack))⟩

theorem Carrier.congr {after : Memory}
    (carrier : bracket.Carrier image.word type label index memory)
    (size : after.size = memory.size) : bracket.Carrier image.word type label index after :=
  { carrier with lies := carrier.lies.congr size }

/-- A bracket saves exactly its words. Whatever code runs then and leaves them on the stack, they
are restored, and nothing else changes. A result that the code has left on top of them stays, and
the only other bytes to change are those it passes through. -/
theorem brackets_restore (assembled : Image.assemble code = .ok image)
    (addressable : image.Addressable) (cells : Cells image.word bracket.words first.size)
    (saves : image.Holds bracket.save start) (stack : List Word) (output : ByteArray)
    (limit : Option Nat) :
    Runs image limit ⟨start, stack, first, output⟩
      ⟨start + bracket.save.size, bracket.saved image.word first ++ stack, first, output⟩ ∧
    ∀ {value memory pc printed},
      Runs image limit
        ⟨start + bracket.save.size, bracket.saved image.word first ++ stack, first, output⟩
        ⟨pc, value ++ (bracket.saved image.word first ++ stack), memory, printed⟩ →
      (value = [] → image.Holds bracket.restore pc →
        ∃ after, Runs image limit ⟨start, stack, first, output⟩
            ⟨pc + bracket.restore.size, stack, after, printed⟩ ∧
          bracket.Restored image.word (fun _ => True) first memory after) ∧
      ∀ {type label index}, type.IsResult value →
        bracket.Carrier image.word type label index first →
        ∃ under, bracket.restoreUnderChecked type label = .ok under ∧
          value.length = type.stackWords ∧
          (image.Holds under pc →
            ∃ after, Runs image limit ⟨start, stack, first, output⟩
                ⟨pc + under.size, value ++ stack, after, printed⟩ ∧
              bracket.Restored image.word
                (fun other => other < index ∨ index + type.width ≤ other) first memory after) := by
  have saved := @runs_save image limit bracket first cells start saves stack output
  refine ⟨saved, fun {value memory pc printed} runs => ?_⟩
  have size : memory.size = first.size := Image.size_of_runs assembled addressable runs
  rw [← size] at cells
  refine ⟨?_, fun {type label index} isResult carrier => ?_⟩
  · rintro rfl holds
    obtain ⟨after, restored, restores⟩ := @runs_restore image limit bracket memory cells first
    exact ⟨after, saved.trans (runs.trans (restores pc stack printed holds)), restored⟩
  · refine ⟨bracket.restoreUnder type label, if_neg carrier.unsaved, isResult.length_eq,
      fun holds => ?_⟩
    obtain ⟨after, restored, restores⟩ :=
      @runs_restoreUnder image limit bracket type label index value memory cells
        (carrier.congr size) isResult first
    exact ⟨after, saved.trans (runs.trans (restores pc stack printed holds)), restored⟩

/-! Two words that are written over twice. -/

def pair : Bracket :=
  ⟨["first", "second"]⟩

def overwriting : Code :=
  Code.join [[.pushI 1], Code.storeWord "first", [.pushI 2], Code.storeWord "second"]

/-- Behind the words and a cell for results there are two brackets. The code in the second one
leaves three quarters. -/
def bracketing : Code :=
  Environment.wordCells pair.words ++ ([.dataLabel "result", .dataZ 8] ++
    (pair.save ++ (overwriting ++ (pair.restore ++
      (pair.save ++ ((overwriting ++ [.pushI 3, .pushI 4]) ++
        pair.restoreUnder .rational "result"))))))

theorem act_overwriting {word : String → Int32} {floor : Nat} (cells : Cells word pair.words floor)
    (inside : floor ≤ memory.size) (stack : List Word) (rest : Code) :
    Code.act word (overwriting ++ rest) stack memory =
      Code.act word rest stack ((memory.setCell word "first" 1).setCell word "second" 2) := by
  simp only [overwriting, Code.join_cons, Code.join_nil, List.append_nil, List.append_assoc,
    List.cons_append, List.nil_append, Code.act_pushI]
  rw [cells.act_storeCell (by simp [pair]) inside, Code.act_pushI,
    cells.act_storeCell (by simp [pair]) (by rwa [Memory.size_setCell])]

/-- Seven and nine come back both times, and the three quarters stay. -/
theorem pair_restored :
    ∃ image first after, Image.assemble bracketing = .ok image ∧ image.Addressable ∧
      Cells image.word pair.words first.size ∧ image.Holds pair.save 0 ∧
      pair.Carrier image.word .rational "result" (Address.index (image.word "result")) first ∧
      first.cell image.word "first" = 7 ∧ first.cell image.word "second" = 9 ∧
      Runs image none ⟨0, [], first, .empty⟩
        ⟨bracketing.size, [.integer 4, .integer 3], after, .empty⟩ ∧
      after.cell image.word "first" = 7 ∧ after.cell image.word "second" = 9 := by
  obtain ⟨image, assembled⟩ := Image.exists_image_iff.mpr
    (Code.defects_eq_nil.mp (show bracketing.defects = [] by decide))
  have addressable : image.Addressable := by
    rw [Image.Addressable, Image.codeSize_of_assemble assembled]
    decide
  have size : image.dataSize = 16 := (Image.dataSize_of_assemble assembled).trans (by decide)
  have lays : ∀ name ∈ pair.words, bracketing.Lays name 4 := fun name member =>
    (Environment.lays_wordCells member).left _
  have laysResult : bracketing.Lays "result" 8 :=
    ((Code.lays_cons "result" (.dataZ 8) []).left _).right _
  have cells : Cells image.word pair.words 16 :=
    Image.cells_of_assemble assembled lays (Nat.le_of_eq size) (by decide)
  have wide : Cells.Wide image.word pair.words image.dataSize "result" :=
    Image.wide_of_assemble assembled (by omega) lays laysResult (by decide)
  let first := ((Memory.zeros 16).setCell image.word "first" 7).setCell image.word "second" 9
  have sizeFirst : first.size = 16 := by simp only [first, Memory.size_setCell]; rfl
  have carrier : pair.Carrier image.word .rational "result" _ first :=
    carrier_of_wide wide (by omega) (by omega) fun _ member => member
  have one : first.cell image.word "first" = 7 := by
    rw [cells.cell_setCell_other (by simp [pair]) (by simp [pair]) (by decide),
      cells.cell_setCell (by simp [pair]) (Nat.le_refl _)]
  have two : first.cell image.word "second" = 9 :=
    cells.cell_setCell (by simp [pair]) (by rw [Memory.size_setCell]; exact Nat.le_refl _)
  -- The parts of the code in order.
  obtain ⟨_, parts⟩ := Image.holds_append.mp (Image.holds_of_assemble assembled)
  obtain ⟨_, parts⟩ := Image.holds_append.mp parts
  obtain ⟨saves, parts⟩ := Image.holds_append.mp parts
  obtain ⟨overwrites, parts⟩ := Image.holds_append.mp parts
  obtain ⟨restores, parts⟩ := Image.holds_append.mp parts
  obtain ⟨savesAgain, parts⟩ := Image.holds_append.mp parts
  obtain ⟨overwritesAgain, restoresAgain⟩ := Image.holds_append.mp parts
  obtain ⟨_, bracketed⟩ := brackets_restore assembled addressable (sizeFirst.symm ▸ cells) saves
    [] .empty none
  obtain ⟨middle, toMiddle, restored⟩ := (@bracketed [] _ _ _ (Runs.straight overwrites
    (Code.act_alone (act_overwriting cells (by omega) _)))).1 rfl restores
  have same : middle.size = first.size := by
    rw [restored.size, Memory.size_setCell, Memory.size_setCell]
  obtain ⟨_, bracketed⟩ := brackets_restore assembled addressable
    ((same.trans sizeFirst).symm ▸ cells) savesAgain [] .empty none
  have leaves : Code.act image.word (overwriting ++ [.pushI 3, .pushI 4])
      (pair.saved image.word middle ++ []) middle = some ([.integer 4, .integer 3] ++
        (pair.saved image.word middle ++ []),
        (middle.setCell image.word "first" 1).setCell image.word "second" 2) := by
    rw [act_overwriting cells (by omega)]
    rfl
  obtain ⟨under, checked, _, restoresUnder⟩ := (@bracketed [.integer 4, .integer 3] _ _ _
    (Runs.straight overwritesAgain leaves)).2 (.value (.rational 3 4)) (carrier.congr same)
  rw [restoreUnderChecked, if_neg carrier.unsaved] at checked
  obtain rfl := Except.ok.inj checked
  obtain ⟨after, fromMiddle, restoredAgain⟩ := restoresUnder restoresAgain
  refine ⟨image, first, after, assembled, addressable, sizeFirst.symm ▸ cells, saves, carrier,
    one, two, toMiddle.trans fromMiddle, ?_, ?_⟩
  · rw [restoredAgain.words _ (by simp [pair]), restored.words _ (by simp [pair]), one]
  · rw [restoredAgain.words _ (by simp [pair]), restored.words _ (by simp [pair]), two]

end Bracket

end StackBackend
