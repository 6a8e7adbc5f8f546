import StackBackend.Proofs.Brackets
import StackBackend.Proofs.RoundTrip

namespace StackBackend

/-! Values of every type in memory. What a store puts at an address is what a load finds there,
and what is stashed in a cell is what comes out of it, word for word; nothing else changes but
the cells that the store of a rational passes through. -/

/-! ## Values -/

namespace Ty

/-- The words of a value of a type as they are on the operand stack, topmost first. A boolean or
a character is a byte, and a rational has its denominator on top. -/
inductive IsValue : Ty → List Word → Prop
  | boolean {value : Int32} (lower : 0 ≤ value.toInt) (upper : value.toInt ≤ 255) :
      IsValue .boolean [.integer value]
  | character {value : Int32} (lower : 0 ≤ value.toInt) (upper : value.toInt ≤ 255) :
      IsValue .character [.integer value]
  | integer (value : Int32) : IsValue .integer [.integer value]
  | floating (value : Binary64) : IsValue .floating [.floating value]
  | string (pointer : Int32) : IsValue .string [.integer pointer]
  | rational (numerator denominator : Int32) :
      IsValue .rational [.integer denominator, .integer numerator]
  | array (element : Ty) (pointer : Int32) : IsValue (.array element) [.integer pointer]
  | lambda (parameters : List Ty) (result : Ty) (entry : Int32) :
      IsValue (.lambda parameters result) [.integer entry]

theorem IsValue.isVoid {type : Ty} {value : List Word} (isValue : type.IsValue value) :
    type.isVoid = false := by
  cases isValue <;> rfl

theorem toInt32_byte {value : Int32} (lower : 0 ≤ value.toInt) (upper : value.toInt ≤ 255) :
    WordBytes.toInt32 [value.toUInt32.toUInt8] = value := by
  rcases Int.eq_ofNat_of_zero_le lower with ⟨number, same⟩
  have small : number < UInt32.size := Nat.lt_of_le_of_lt (by omega : number ≤ 255) (by decide)
  have named : value = (UInt32.ofNat number).toInt32 := by
    rw [← Int32.toInt_inj, same]
    exact (Int32.toInt_ofNat_of_lt (by omega)).symm
  have byte : (UInt32.ofNat number).toUInt8.toNat = number := by
    rw [UInt32.toNat_toUInt8, UInt32.toNat_ofNat_of_lt' small]
    omega
  rw [named, WordBytes.toInt32, UInt32.toUInt32_toInt32]
  simp only [ofLittleEndian, byte, Nat.mul_zero, Nat.add_zero]

/-- Memory holds the values of a type without loss. -/
theorem IsValue.admits {type : Ty} {value : List Word} (isValue : type.IsValue value) :
    type.Admits value := by
  cases isValue with
  | boolean lower upper | character lower upper =>
      refine ⟨_, rfl, ?_⟩
      rw [words, toInt32_byte lower upper]
  | integer value | string value | array _ value | lambda _ _ value =>
      refine ⟨_, rfl, ?_⟩
      rw [words, WordBytes.toInt32_ofInt32]
  | floating value =>
      refine ⟨_, rfl, ?_⟩
      rw [words, WordBytes.toBinary64_ofBinary64]
  | rational numerator denominator =>
      refine ⟨_, rfl, ?_⟩
      have length : (WordBytes.ofInt32 numerator).length = 4 := Memory.length_ofInt32 numerator
      rw [words, List.drop_left' length, List.take_left' length, WordBytes.toInt32_ofInt32,
        WordBytes.toInt32_ofInt32]

end Ty

/-! ## Round trips -/

/-- The first piece of code takes the value off the stack, with the words of the target beneath
it, and puts it away. The second one gives it back for the same target, wherever the pieces
stand and whatever else is on the stack. -/
structure Carries (image : Image) (limit : Option Nat) (put get : Code) (target value : List Word)
    (kept : Nat → Prop) (before after : Memory) : Prop where
  puts : ∀ pc stack output, image.Holds put pc →
    Runs image limit ⟨pc, value ++ (target ++ stack), before, output⟩
      ⟨pc + put.size, stack, after, output⟩
  size : after.size = before.size
  kept : ∀ index, kept index → after.byte index = before.byte index
  gets : ∀ pc stack output, image.Holds get pc →
    Runs image limit ⟨pc, target ++ stack, after, output⟩
      ⟨pc + get.size, value ++ stack, after, output⟩

namespace Ty

variable {type : Ty} {value : List Word} {image : Image} {limit : Option Nat} {memory : Memory}
  {index : Nat}

theorem Lies.carries {address : Int32} (lies : type.Lies address index memory)
    (isValue : type.IsValue value)
    (cells : type = .rational → Cells image.word storeCells memory.size)
    (avoids : type = .rational → type.Avoids image.word index) :
    ∃ after, Carries image limit type.storeCode type.loadCode [.integer address] value
      (fun other => (other < index ∨ index + type.width ≤ other) ∧
        (type = .rational → Cells.Misses image.word storeCells other)) memory after := by
  have isVoid := isValue.isVoid
  rcases isValue.admits with ⟨bytes, encoded, back⟩
  rcases lies.act_storeCode isVoid cells avoids encoded with ⟨after, stores, stored, narrow⟩
  have still := lies.congr stored.size
  refine ⟨after, ?_, stored.size, ?_, ?_⟩
  · intro pc stack output holds
    exact Runs.straight holds (Code.act_alone (stores stack))
  · rintro other ⟨outside, misses⟩
    by_cases wide : type = .rational
    · exact stored.kept other outside (misses wide)
    · exact narrow wide other outside
  · intro pc stack output holds
    have acts : Code.act image.word type.loadCode (.integer address :: stack) after = _ :=
      Code.act_alone (still.act_loadCode isVoid)
    rw [stored.written, back] at acts
    exact Runs.straight holds acts

theorem Lies.parks {label : String} (lies : type.Lies (image.word label) index memory)
    (isValue : type.IsValue value) :
    ∃ after, Carries image limit (type.stash label) (type.unstash label) [] value
      (fun other => other < index ∨ index + type.width ≤ other) memory after := by
  have isVoid := isValue.isVoid
  rcases isValue.admits with ⟨bytes, encoded, back⟩
  rcases lies.act_stash isVoid encoded with ⟨after, stashes, size, written, kept⟩
  have still := lies.congr size
  refine ⟨after, ?_, size, kept, ?_⟩
  · intro pc stack output holds
    exact Runs.straight holds (Code.act_alone (stashes stack))
  · intro pc stack output holds
    have acts := Code.act_alone (still.act_unstash isVoid stack)
    rw [written, back] at acts
    exact Runs.straight holds acts

/-- A value of any type goes through memory unchanged, at every address with room for it and
through every cell with room for it. Only the bytes of the value change. Storing a rational also
changes the two cells it passes through, which must not be among those bytes. -/
theorem value_carried (isValue : type.IsValue value) (image : Image) (limit : Option Nat) :
    (∃ store load, type.store = .ok store ∧ type.load = .ok load ∧
      ∀ {address index memory}, type.Lies address index memory →
        (type = .rational →
          Cells image.word storeCells memory.size ∧ type.Avoids image.word index) →
        ∃ after, Carries image limit store load [.integer address] value
          (fun other => (other < index ∨ index + type.width ≤ other) ∧
            (type = .rational → Cells.Misses image.word storeCells other)) memory after) ∧
      ∀ {label index memory}, type.Lies (image.word label) index memory →
        ∃ after, Carries image limit (type.stash label) (type.unstash label) [] value
          (fun other => other < index ∨ index + type.width ≤ other) memory after := by
  have isVoid := isValue.isVoid
  refine ⟨⟨type.storeCode, type.loadCode, ?_, ?_, fun lies apart => ?_⟩, fun lies => ?_⟩
  · rw [store, isVoid]
    rfl
  · rw [load, isVoid]
    rfl
  · exact lies.carries isValue (fun wide => (apart wide).1) fun wide => (apart wide).2
  · exact lies.parks isValue

end Ty

/-! A program that stores a rational it has loaded. -/

namespace Program

def ratio : Binding where
  name := "ratio"
  type := .rational
  location := .global 0
  mutable := true

def restoring : Program where
  globalSize := 8
  body := [.assignment (.typed .rational (.identifier ratio))
    (.typed .rational (.identifier ratio))]

def ratioAddress : Code :=
  [.pushD Cell.globalBlock, .pushI 0, .add]

theorem restoring_body : blockCode {} restoring.body 0 =
    .ok (ratioAddress ++ (ratioAddress ++ Ty.rational.loadCode) ++ Ty.rational.storeCode, 0) := rfl

/-- Both pieces of code stand in the compiled program, and carry a rational through memory above
its data. -/
theorem ratio_carried : ∃ code image load store after,
    restoring.compile ⟨true⟩ = .ok code ∧ Image.assemble code = .ok image ∧
      image.Holds Ty.rational.loadCode load ∧ image.Holds Ty.rational.storeCode store ∧
      Carries image none Ty.rational.storeCode Ty.rational.loadCode [.integer 65536]
        [.integer 4, .integer (-3)]
        (fun other => (other < 65536 ∨ 65536 + Ty.rational.width ≤ other) ∧
          (Ty.rational = .rational → Cells.Misses image.word Ty.storeCells other))
        (Memory.zeros 65544) after := by
  have small : restoring.isSmall ⟨true⟩ = true := by decide +kernel
  rcases exists_code_of_isSmall small with ⟨code, compiled⟩
  have plain : Plain restoring.operations := by
    simp [Plain, restoring, operations, blockOperations, Statement.operations, Expr.operations,
      Form.operations]
  rcases Program.exists_image plain (by simp [restoring]) compiled rfl with ⟨image, assembled⟩
  rcases image_of_isSmall small compiled assembled with ⟨_, fits⟩
  rcases exists_composed compiled with ⟨body, composed⟩
  rcases composed.generated with ⟨last, made⟩
  rw [restoring_body] at made
  cases made
  have loading : Ty.rational.loadCode <:+: code :=
    List.IsInfix.trans ⟨.label Entry.main :: (ratioAddress ++ ratioAddress),
      Ty.rational.storeCode ++ [.halt], by simp⟩ composed.main
  have storing : Ty.rational.storeCode <:+: code :=
    List.IsInfix.trans
      ⟨.label Entry.main :: (ratioAddress ++ (ratioAddress ++ Ty.rational.loadCode)), [.halt],
        by simp⟩ composed.main
  rcases Image.exists_holds_of_infix assembled loading with ⟨load, loads⟩
  rcases Image.exists_holds_of_infix assembled storing with ⟨store, stores⟩
  have cells : Cells image.word Ty.storeCells 65536 :=
    (frame_cells compiled assembled fits (by decide)).mono (by decide)
  have lies : Ty.rational.Lies 65536 65536 (Memory.zeros 65544) :=
    ⟨by decide, by decide, fun _ => by decide⟩
  rcases (Ty.value_carried (.rational (-3) 4) image none).1 with
    ⟨_, _, stored, loaded, carried⟩
  cases stored
  cases loaded
  rcases carried lies fun _ => ⟨cells.raise (by decide), Ty.avoids_of_above cells (Nat.le_refl _)⟩
    with ⟨after, carries⟩
  exact ⟨code, image, load, store, after, compiled, assembled, loads, stores, carries⟩

end Program

end StackBackend
