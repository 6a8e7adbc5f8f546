import StackBackend.Proofs.Cells
import StackBackend.Proofs.Simulation

namespace StackBackend

/-! Code that prints and leaves memory as it is. -/

variable {code first second : Code} {image : Image} {size : Int32} {memory : Memory}
  {stack between left : List Word} {text others : List UInt8}

/-- The code prints the text, leaves the stack, and goes on behind itself. -/
def Prints (image : Image) (memory : Memory) (code : Code) (stack left : List Word)
    (text : List UInt8) : Prop :=
  ∀ start output, image.Holds code start →
    Runs image none ⟨start, stack, memory, output⟩
      ⟨start + code.size, left, memory, written output text⟩

namespace Prints

theorem silent (acts : code.act image.word stack memory = some (left, memory)) :
    Prints image memory code stack left [] :=
  fun _ _ holds => Runs.straight holds acts

theorem append (prints : Prints image memory first stack between text)
    (next : Prints image memory second between left others) :
    Prints image memory (first ++ second) stack left (text ++ others) := by
  intro start output holds
  obtain ⟨firstHolds, secondHolds⟩ := Image.holds_append.mp holds
  rw [Code.size_append, ← Nat.add_assoc, written_append]
  exact (prints start output firstHolds).trans (next _ _ secondHolds)

end Prints

/-- Writing a scratch word keeps the texts. -/
theorem Texts.setCell (prepared : Prepared code image size)
    (texts : Texts image memory) {name : String} (scratch : (name, (4 : Int32)) ∈ Cell.scratch)
    (other : name ∉ Environment.texts.map Prod.fst) (value : Int32) :
    Texts image (memory.setCell image.word name value) := by
  have lays := prepared.lays_scratch scratch
  have inside := Image.place_add_le prepared.assembled lays
  have fits := prepared.fits
  have index := Image.index_word prepared.assembled lays (by omega)
  refine texts.write prepared lays other (Nat.le_of_eq index.symm) ?_
  rw [index, Memory.length_ofInt32]

namespace Printing

open Code

/-- The texts without conversions stand for themselves. -/
theorem fixed_texts : ∀ entry ∈ Cell.texts.drop 4,
    Format.conversions entry.2.toUTF8.toList = [] ∧
      Format.render entry.2.toUTF8.toList [] = entry.2.toUTF8.toList ∧
      entry.2.toUTF8.toList = asciiBytes entry.2.toList := by
  decide +kernel

theorem mem_texts {entry : String × String} (member : entry ∈ Cell.texts) :
    entry ∈ Environment.texts :=
  List.mem_append_left _ member

section

variable (prepared : Prepared code image size) (texts : Texts image memory)
include prepared texts

theorem prints_fixed (cell fixed : String) (member : (cell, fixed) ∈ Cell.texts.drop 4)
    (stack : List Word) :
    Prints image memory (printText cell) stack stack (asciiBytes fixed.toList) := by
  obtain ⟨plain, same, bytes⟩ := fixed_texts _ member
  intro start output holds
  have prints := runs_fixed prepared texts (mem_texts (List.mem_of_mem_drop member)) plain same
    holds stack output
  rwa [bytes] at prints

theorem prints_integer (value : Int32) (stack : List Word) :
    Prints image memory (printText Cell.integerFormat) (.integer value :: stack) stack
      (asciiBytes (Format.integerText value)) :=
  fun _ output holds => runs_integer prepared texts value holds stack output

theorem prints_character (value : Int32) (stack : List Word) :
    Prints image memory (printText Cell.characterFormat) (.integer value :: stack) stack
      [value.toUInt32.toUInt8] :=
  fun _ output holds => runs_character prepared texts value holds stack output

end

end Printing

end StackBackend
