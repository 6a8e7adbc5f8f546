import Mathlib.Logic.Relation
import StackBackend.Proofs.Filling

namespace StackBackend

/-! The first pass of a filter. A predicate is called for the elements of an array, its verdicts
are kept in a mask, and those that are not zero are counted. The predicate may allocate. -/

/-- Calls keep a heap below the frames sound and the spared records handed out. What else they do
to the ledger is up to the relation. -/
def Callback.Manages (image : Image) (terms : Terms)
    (allots : Heap.Ledger → Heap.Ledger → Prop) : Prop :=
  ∀ before after ledger, terms.keeps before after → Heap.Sound image.word before ledger →
    (∀ block ∈ terms.spared, block ∈ ledger.live) → ledger.bump ≤ terms.floor →
    ∃ later, Heap.Sound image.word after later ∧ (∀ block ∈ terms.spared, block ∈ later.live) ∧
      allots ledger later

namespace HigherOrder

open Callback (Terms Serves Obliges Manages)

/-! ## The mask -/

/-- An answer speaks for an element if it is not zero. -/
def verdict (answer : List UInt8) : Bool :=
  answer != [0]

theorem verdict_singleton (byte : UInt8) : verdict [byte] = true ↔ ¬ byte = 0 := by
  simp [verdict]

theorem toInt32_eq_zero (byte : UInt8) : WordBytes.toInt32 [byte] = 0 ↔ byte = 0 := by
  refine ⟨fun zero => ?_, fun zero => by rw [zero]; rfl⟩
  rw [← WordBytes.toUInt8_toInt32 byte, zero]
  rfl

/-- The predicate speaks for the element at an index. -/
def speaks (terms : Terms) (memory : Memory) (address : Nat) (element : Ty) (index : Nat) : Bool :=
  verdict (terms.answer [Record.item memory address element index])

/-- The indices below the index that are kept. -/
def chosen (keeps : Nat → Bool) (index : Nat) : List Nat :=
  (List.range index).filter keeps

theorem chosen_succ (keeps : Nat → Bool) (index : Nat) :
    chosen keeps (index + 1) = chosen keeps index ++ if keeps index then [index] else [] := by
  rw [chosen, List.range_succ, List.filter_append, List.filter_singleton, Bool.cond_eq_ite]
  rfl

theorem length_chosen_le (keeps : Nat → Bool) (index : Nat) :
    (chosen keeps index).length ≤ index := by
  have bound := List.length_filter_le keeps (List.range index)
  rwa [List.length_range] at bound

/-- The words that stay while elements are judged. -/
def judgeWords : List String :=
  [Cell.operatorLambda, Cell.operatorArray, Cell.operatorOtherArray, Cell.operatorLength,
    Cell.operatorResult]

/-- The predicate, the array and the mask are in the words of the operators. However the
predicate allocates, the heap stays below the frames. -/
structure Judge (image : Image) (terms : Terms) (block mask : Heap.Block) (element : Ty)
    (count : Nat) (allots : Heap.Ledger → Heap.Ledger → Prop) (first : Heap.Ledger)
    (ready : Memory) : Prop where
  fits : terms.Fits image.dataSize
  boolean : terms.result = .boolean
  filler : Filler image terms [⟨Cell.operatorArray, element, block⟩] mask count judgeWords ready
  manages : Manages image terms allots
  room : ∀ ledger, Relation.ReflTransGen allots first ledger → ledger.bump ≤ terms.floor

/-- The elements up to the index have been judged: the verdicts are in the mask, and those that
are not zero have been counted. -/
structure Judging (image : Image) (terms : Terms) (block mask : Heap.Block) (element : Ty)
    (count : Nat) (allots : Heap.Ledger → Heap.Ledger → Prop) (first : Heap.Ledger)
    (ready : Memory) (index : Nat) (calls : List Excursion) (now : Memory) : Prop where
  filling : Filling image terms [⟨Cell.operatorArray, element, block⟩] mask count judgeWords ready
    index calls now
  kept : Address.Names (now.cell image.word Cell.operatorCount)
    (chosen (speaks terms ready block.address element) index).length
  heap : ∃ ledger, Relation.ReflTransGen allots first ledger ∧
    Heap.Sound image.word now ledger ∧ ∀ block ∈ terms.spared, block ∈ ledger.live

section

variable {image : Image} {limit : Option Nat} {terms : Terms} {block mask : Heap.Block}
  {element : Ty} {count index : Nat} {allots : Heap.Ledger → Heap.Ledger → Prop}
  {first : Heap.Ledger} {ready now : Memory} {start : Configuration} {calls : List Excursion}
  {ledger : Heap.Ledger} {memory after : Memory}

/-- Passing values keeps a heap below the frames sound. -/
theorem sound_of_calm (installed : Installed image) {floor top : Nat}
    (sound : Heap.Sound image.word memory ledger)
    (calm : Frame.Calm image.word floor top memory after) (below : ledger.bump ≤ floor) :
    Heap.Sound image.word after ledger := by
  have heap := installed.record.start
  have low := sound.tiled.start_le
  refine sound.steady ⟨calm.size, fun name member => ?_, fun index inside => ?_⟩
  · exact calm.cell installed.cells (by omega) frame_known
      ((by decide : ∀ name ∈ _, name ∈ Program.wordCells) name member)
      ((by decide : ∀ name ∈ [Cell.freeList, Cell.bumpPointer], name ∉ Frame.cells) name
        member)
  · exact calm.kept index ((installed.frames (Nat.le_refl _)).misses_of_floor_le (by omega))
      (.inl (by omega))

/-- Storing a value in a block that is handed out keeps the heap sound. -/
theorem sound_stored (installed : Installed image) {type : Ty} {bytes : List UInt8}
    (sound : Heap.Sound image.word memory ledger) (live : block ∈ ledger.live)
    (stored : Ty.Stored image.word type index bytes memory after)
    (above : block.address ≤ index) (below : index + type.width ≤ block.address + block.size) :
    Heap.Sound image.word after ledger := by
  have heap := installed.record.start
  have bounds := sound.bounds (Heap.Ledger.mem_live.mp live).1
  have storing := installed.steady_stored stored (by omega)
    (by decide : ∀ name ∈ [Cell.freeList, Cell.bumpPointer], name ∈ followed ∧
      name ∉ Ty.storeCells)
  refine sound.within live storing.size storing.cells fun other inside outside => ?_
  unfold Heap.Block.Covers at outside
  exact storing.bytes other ⟨by omega, by omega⟩

/-! ## One verdict -/

/-- The memory with a verdict counted. -/
def tallied (image : Image) (memory : Memory) (value : Int32) : Memory :=
  if value = 0 then memory
  else memory.setCell image.word Cell.operatorCount (memory.cell image.word Cell.operatorCount + 1)

/-- Counts the verdict on the stack if it is not zero. -/
def tally (skip : String) : Code :=
  .duplicate :: .jumpFalse skip :: (Code.increment Cell.operatorCount ++ [.label skip])

theorem tallies (installed : Installed image) {skip : String} {value : Int32} {pc : Nat}
    {stack : List Word} {output : ByteArray} (inside : image.dataSize ≤ memory.size)
    (holds : image.Holds (tally skip) pc)
    (reached : Course image limit calls start ⟨pc, .integer value :: stack, memory, output⟩) :
    Course image limit calls start
      ⟨pc + (tally skip).size, .integer value :: stack, tallied image memory value, output⟩ := by
  have parts : tally skip = [.duplicate] ++ .jumpFalse skip ::
      (Code.increment Cell.operatorCount ++ [.label skip]) := rfl
  rw [parts] at holds
  obtain ⟨holdsCopy, holdsTest⟩ := Image.holds_append.mp holds
  obtain ⟨holdsCount, holdsLabel⟩ :=
    Image.holds_append.mp ((Image.holds_cons rfl _ _).mp holdsTest).2
  obtain ⟨marks, _⟩ := (Image.holds_label ..).mp holdsLabel
  have size : pc + (tally skip).size = pc + 1 + 1 + (Code.increment Cell.operatorCount).size := by
    rw [parts, Code.size_append_cons _ _ rfl, Code.size_append]
    simp only [Code.size_cons, Code.size_nil, Instruction.isDirective, Bool.false_eq_true, if_false,
      if_true]
    omega
  have copied := reached.straight holdsCopy rfl
  rw [size]
  by_cases zero : value = 0
  · rw [tallied, if_pos zero]
    exact copied.branch installed.addressable holdsTest rfl marks
      (show _ = some true by simp [Instruction.test, zero])
  · have counts : Code.act image.word (Code.increment Cell.operatorCount) (.integer value :: stack)
        memory = some (.integer value :: stack, memory.setCell image.word Cell.operatorCount
          (memory.cell image.word Cell.operatorCount + 1)) :=
      installed.words.act_lastIncrement (by simp [words]) inside
    have passed := copied.branch installed.addressable holdsTest rfl marks
      (show _ = some false by simp [Instruction.test, zero])
    rw [tallied, if_neg zero]
    exact passed.straight holdsCount counts

theorem steady_tallied (installed : Installed image) (memory : Memory) (value : Int32) :
    Steady image.word (Cell.stackPointer :: Cell.framePointer :: Cell.operatorIndex :: judgeWords)
      (fun index => image.dataSize ≤ index) memory (tallied image memory value) := by
  unfold tallied
  split
  · exact .refl memory
  · exact installed.steady_setCell (by decide) _ (by decide)

theorem sound_tallied (installed : Installed image) (value : Int32)
    (sound : Heap.Sound image.word memory ledger) :
    Heap.Sound image.word (tallied image memory value) ledger := by
  unfold tallied
  split
  · exact sound
  · exact sound_setCell installed sound (by simp [words]) _

theorem cell_tallied (installed : Installed image) (value : Int32) {kept : Nat}
    (inside : image.dataSize ≤ memory.size)
    (names : Address.Names (memory.cell image.word Cell.operatorCount) kept)
    (small : kept + 1 < 2147483648) :
    Address.Names ((tallied image memory value).cell image.word Cell.operatorCount)
      (kept + if value = 0 then 0 else 1) := by
  unfold tallied
  split
  · exact names
  · rw [installed.words.cell_setCell (by simp [words]) inside]
    exact names.add rfl small

/-- The element at the index has been judged. -/
theorem Judging.next (installed : Installed image)
    (judge : Judge image terms block mask element count allots first ready)
    (judging : Judging image terms block mask element count allots first ready index calls now)
    (below : index < count) {excursion : Excursion} {passed answered stored : Memory}
    (serves : Serves image terms [Record.item ready block.address element index] excursion)
    (calm : Frame.Calm image.word terms.floor terms.top now passed)
    (keeps : terms.keeps passed answered)
    (stands : Frame.Stands image.word terms.floor answered terms.top terms.framePointer)
    (steady : Steady image.word words terms.Spares now answered)
    {byte : UInt8} (answers : terms.answer [Record.item ready block.address element index] = [byte])
    (kept : Ty.Stored image.word terms.result (mask.address + 16 + index * terms.result.width)
      [byte] (tallied image answered (WordBytes.toInt32 [byte])) stored) :
    Judging image terms block mask element count allots first ready (index + 1)
      (calls ++ [excursion])
      (stored.setCell image.word Cell.operatorIndex
        (stored.cell image.word Cell.operatorIndex + 1)) := by
  have parks := judge.filler.filled
  have room := parks.room
  have above := parks.above
  have within := Record.item_le terms.result below
  have low := judge.fits.above
  have under := stands.above
  have inside := stands.inside
  have counting := steady_tallied installed answered (WordBytes.toInt32 [byte])
  have filling := judging.filling.next installed judge.fits judge.filler below serves
    (stands.of_steady (counting.mono (by simp) fun _ keeps => keeps))
    ((steady.mono (by decide) fun _ spares => spares).trans
      (counting.mono (fun name member => List.mem_cons_of_mem _ (List.mem_cons_of_mem _ member))
        fun _ => judge.fits.le_of_spares)) (by rw [elements, List.map_singleton, answers]; exact kept)
  have storing : Steady image.word words _ _ stored :=
    installed.steady_stored kept (by omega) (by decide)
  refine ⟨filling, ?_, ?_⟩
  · have last : (_ : Int) = (count : Int) := judging.filling.counts.length
    have small := Int32.toInt_lt (now.cell image.word Cell.operatorLength)
    have fewer := length_chosen_le (speaks terms ready block.address element) index
    have names := judging.kept
    rw [← steady.cells _ (by simp [words])] at names
    have counted := cell_tallied installed (WordBytes.toInt32 [byte]) (by omega) names (by omega)
    rw [installed.words.cell_setCell_other (by simp [words]) (by simp [words]) (by decide),
      storing.cells _ (by simp [words]), chosen_succ, List.length_append, speaks, answers]
    simpa only [toInt32_eq_zero, verdict_singleton, apply_ite List.length, List.length_singleton,
      List.length_nil, ite_not] using counted
  · obtain ⟨ledger, reachable, sound, live⟩ := judging.heap
    obtain ⟨later, soundLater, liveLater, allotted⟩ := judge.manages passed answered ledger keeps
      (sound_of_calm installed sound calm (judge.room ledger reachable)) live
      (judge.room ledger reachable)
    have soundStored := sound_stored installed
      (sound_tallied installed (WordBytes.toInt32 [byte]) soundLater)
      (liveLater mask judge.filler.targetSpared) kept (by omega) (by omega)
    exact ⟨later, reachable.tail allotted, sound_setCell installed soundStored (by simp [words]) _,
      liveLater⟩

/-- Judges the current element. -/
def judgement (skip : String) (call : Code) : Code :=
  resultSlot 1 ++ call ++ (tally skip ++ [.storeC])

/-- One turn of the loop judges the element at the index. -/
theorem Judging.turn (installed : Installed image) {call current : Code} {skip : String} {pc : Nat}
    {stack : List Word} {output : ByteArray}
    (judge : Judge image terms block mask element count allots first ready)
    (judging : Judging image terms block mask element count allots first ready index calls now)
    (generated : Frame.invoke callee [(current, element)] terms.result = .ok call)
    (found : currentElement Cell.operatorArray element = .ok current)
    (types : terms.types = [element]) (holds : image.Holds (judgement skip call) pc)
    (below : index < count) (obliges : Obliges image limit terms start)
    (reached : Course image limit calls start ⟨pc, stack, now, output⟩) :
    ∃ calls' now' output', Course image limit calls' start
        ⟨pc + (judgement skip call).size, stack, now', output'⟩ ∧
      image.dataSize ≤ now'.size ∧
      Judging image terms block mask element count allots first ready (index + 1) calls'
        (now'.setCell image.word Cell.operatorIndex
          (now'.cell image.word Cell.operatorIndex + 1)) := by
  have isValue : terms.result.isVoid = false := by rw [judge.boolean]; rfl
  have single : terms.result.width = 1 := by rw [judge.boolean]; rfl
  have size : terms.result.size = 1 := by rw [judge.boolean]; rfl
  obtain ⟨holdsCall, holdsRest⟩ := Image.holds_append.mp holds
  obtain ⟨holdsTally, holdsStore⟩ := Image.holds_append.mp holdsRest
  obtain ⟨excursion, slot, passed, answered, output', visited, named, length, serves, calm, keeps,
    stands, steady⟩ := judging.filling.asks installed judge.fits isValue generated types.symm
      (.cons ⟨found, rfl⟩ .nil) (size ▸ holdsCall) judge.filler below obliges reached
  rw [single] at length
  obtain ⟨byte, answers⟩ := List.length_eq_one_iff.mp length
  -- The verdict is counted and stored.
  have low := judge.fits.above
  have under := stands.above
  have inside := stands.inside
  have counting := steady_tallied installed answered (WordBytes.toInt32 [byte])
  obtain ⟨stored, stores, kept⟩ := judge.filler.stores installed isValue named
    (show [byte].length = _ by rw [single]; rfl) below
    (stands.of_steady (counting.mono (by simp) fun _ keeps => keeps))
  have words : terms.result.words [byte] = [.integer (WordBytes.toInt32 [byte])] := by
    rw [judge.boolean]; rfl
  have store : terms.result.storeCode = [.storeC] := by rw [judge.boolean]; rfl
  rw [size, answers, words, List.singleton_append] at visited
  have tallied := tallies installed (by omega) holdsTally visited
  have storing := stores stack
  rw [store, words, List.singleton_append] at storing
  refine ⟨calls ++ [excursion], stored, output', ?_, by rw [kept.size, counting.size]; omega,
    judging.next installed judge below serves calm keeps stands steady answers kept⟩
  rw [judgement, Code.size_append, Code.size_append (tally skip), ← Nat.add_assoc, ← Nat.add_assoc]
  exact tallied.straight holdsStore storing

/-! ## The pass -/

end

end HigherOrder

end StackBackend
