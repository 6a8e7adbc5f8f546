import StackBackend.Proofs.PureFunctions

namespace StackBackend

/-! Fold is the left fold of an array: each call gets what the one before has answered, and the
next element. -/

theorem Record.drop_items {memory : Memory} {address : Nat} {element : Ty} {count index : Nat}
    (below : index < count) :
    (items memory address element count).drop index =
      item memory address element index :: (items memory address element count).drop (index + 1) := by
  have inside : index < (items memory address element count).length := by
    simpa only [items, List.length_map, List.length_range] using below
  rw [List.drop_eq_getElem_cons inside]
  simp only [items, List.getElem_map, List.getElem_range]

namespace HigherOrder

open Callback (Terms Serves Obliges)

/-! ## Left folds -/

/-- What is left after the items. -/
def foldValue (answer : List (List UInt8) → List UInt8) :
    List UInt8 → List (List UInt8) → List UInt8 :=
  List.foldl fun accumulator item => answer [accumulator, item]

/-- What the calls for the items are made with. -/
def foldArguments (answer : List (List UInt8) → List UInt8) :
    List UInt8 → List (List UInt8) → List (List (List UInt8))
  | _, [] => []
  | accumulator, item :: items =>
      [accumulator, item] :: foldArguments answer (answer [accumulator, item]) items

/-- There is a call for every item. -/
theorem length_foldArguments (answer : List (List UInt8) → List UInt8) (accumulator : List UInt8)
    (items : List (List UInt8)) : (foldArguments answer accumulator items).length = items.length := by
  induction items generalizing accumulator with
  | nil => rfl
  | cons item items induction => rw [foldArguments, List.length_cons, induction, List.length_cons]

/-! ## The loop -/

/-- The function and the array are in the words of the operators, and no call writes the array. -/
structure Folder (image : Image) (terms : Terms) (block : Heap.Block) (element : Ty) (count : Nat)
    (ready : Memory) : Prop where
  fits : terms.Fits image.dataSize
  function : ready.cell image.word Cell.operatorLambda = terms.function
  parked : Parks image terms.floor ready Cell.operatorArray block element count
  spared : block ∈ terms.spared

/-- The calls for the items so far have been served in order, and what the last one answered is
the accumulator: with the items that are left it comes to the value. -/
structure Folding (image : Image) (terms : Terms) (block : Heap.Block) (element : Ty) (count : Nat)
    (ready : Memory) (value : List UInt8) (arguments : List (List (List UInt8)))
    (accumulator : List UInt8) (index : Nat) (calls : List Excursion) (now : Memory) : Prop where
  counts : Counts image now index count
  stands : Frame.Stands image.word terms.floor now terms.top terms.framePointer
  steady : Steady image.word others terms.Spares ready now
  length : accumulator.length = terms.result.width
  value : foldValue terms.answer accumulator
    ((Record.items ready block.address element count).drop index) = value
  served : ∃ made, List.Forall₂ (Serves image terms) made calls ∧
    made ++ foldArguments terms.answer accumulator
      ((Record.items ready block.address element count).drop index) = arguments

section

variable {image : Image} {limit : Option Nat} {terms : Terms} {block : Heap.Block} {element : Ty}
  {count index : Nat} {ready now : Memory} {value accumulator : List UInt8}
  {given : List (List (List UInt8))} {start : Configuration} {calls : List Excursion}

/-- Parking a value beside the words keeps them, and everything beyond the data. -/
theorem Installed.steady_stashed (installed : Installed image) {type : Ty} {bytes : List UInt8}
    {after : Memory} (stored : Ty.Stored image.word type
      (Address.index (image.word Cell.operatorTransfer)) bytes now after)
    {names : List String}
    (others : ∀ name ∈ names, name ∈ followed ∧ name ∉ Ty.storeCells) :
    Steady image.word names (fun index => image.dataSize ≤ index) now after where
  size := stored.size
  cells name member := by
    have known := followed_known name (others name member).1
    have apart := installed.transfer.apart name known
    have width := type.width_le
    refine Memory.word_congr fun index lower upper => stored.kept index (by omega) ?_
    intro cell listed
    have distinct := installed.cells.apart name known cell (storeCells_known cell listed)
      fun same => (others name member).2 (same ▸ listed)
    omega
  bytes index above := by
    have below := installed.transfer.below
    have width := type.width_le
    exact stored.kept index (by omega)
      ((installed.cells.mono storeCells_known).misses_of_floor_le above)

/-- The accumulator is fetched whatever passing values has done. -/
theorem fetches_transfer (installed : Installed image) {floor top : Nat} {type : Ty}
    {bytes : List UInt8} (isValue : type.isVoid = false) (above : image.dataSize ≤ floor)
    (inside : image.dataSize ≤ now.size)
    (parked : now.read (Address.index (image.word Cell.operatorTransfer)) type.width = bytes) :
    Frame.Fetches image.word floor top now (type.unstash Cell.operatorTransfer) type bytes := by
  refine ⟨by rw [← parked, Memory.length_read], fun after calm stack rest => ?_⟩
  have size := calm.size
  have below := installed.transfer.below
  have width := type.width_le
  rw [Ty.act_unstash isValue installed.transfer (by omega) installed.fits, ← parked]
  refine congrArg (fun bytes => Code.act image.word rest (type.words bytes ++ stack) after)
    (Memory.read_congr fun index lower upper => calm.kept index (fun name member => ?_)
      (.inl (by omega)))
  have apart := installed.transfer.apart name (frame_known name member)
  omega

/-- The call for the element at the index has been served, and its answer is the accumulator. -/
theorem Folding.next (installed : Installed image)
    (folder : Folder image terms block element count ready)
    (folding : Folding image terms block element count ready value given accumulator index calls now)
    (below : index < count) {excursion : Excursion} {answered : Memory}
    (serves : Serves image terms [accumulator, Record.item ready block.address element index]
      excursion)
    (stands : Frame.Stands image.word terms.floor answered terms.top terms.framePointer)
    (steady : Steady image.word words terms.Spares now answered)
    (length : (terms.answer [accumulator, Record.item ready block.address element index]).length =
      terms.result.width) :
    Folding image terms block element count ready value given
      (terms.answer [accumulator, Record.item ready block.address element index]) (index + 1)
      (calls ++ [excursion])
      (answered.setCell image.word Cell.operatorIndex
        (answered.cell image.word Cell.operatorIndex + 1)) := by
  have low := folder.fits.above
  have room := folder.fits.room
  have inside := stands.inside
  have above := stands.above
  have setting : Steady image.word (Cell.stackPointer :: Cell.framePointer :: others) _ answered
      (answered.setCell image.word Cell.operatorIndex
        (answered.cell image.word Cell.operatorIndex + 1)) :=
    installed.steady_setCell (by decide) _ (by decide)
  have stays : Steady image.word others terms.Spares now
      (answered.setCell image.word Cell.operatorIndex
        (answered.cell image.word Cell.operatorIndex + 1)) :=
    (steady.mono others_known fun _ spares => spares).trans
      (setting.mono (fun name member => by simp [member]) fun _ => folder.fits.le_of_spares)
  have counted : (answered.setCell image.word Cell.operatorIndex
      (answered.cell image.word Cell.operatorIndex + 1)).cell image.word Cell.operatorIndex =
        now.cell image.word Cell.operatorIndex + 1 := by
    rw [installed.words.cell_setCell (by simp [words]) (by omega), steady.cells _ (by simp [words])]
  have limit : (_ : Int) = (count : Int) := folding.counts.length
  have small := Int32.toInt_lt (now.cell image.word Cell.operatorLength)
  obtain ⟨made, served, same⟩ := folding.served
  rw [Record.drop_items below] at same
  refine ⟨⟨?_, ?_, ?_⟩, stands.of_steady (setting.mono (by simp) fun _ keeps => keeps),
    folding.steady.trans stays, length, ?_, made ++ [_], List.rel_append served (.cons serves .nil),
    ?_⟩
  · rw [Memory.size_setCell]
    omega
  · rw [counted]
    exact folding.counts.index.add rfl (by omega)
  · rw [stays.cells _ (by simp [others])]
    exact folding.counts.length
  · rw [← folding.value, Record.drop_items below]
    rfl
  · rw [← same, List.append_assoc]
    rfl

/-- One turn of the loop passes the accumulator and the element at the index. -/
theorem Folding.turn (installed : Installed image)
    (isValue : terms.result.isVoid = false) {call current : Code} {pc : Nat} {stack : List Word}
    {output : ByteArray}
    (generated : Frame.invoke callee
      [(terms.result.unstash Cell.operatorTransfer, terms.result), (current, element)]
      terms.result = .ok call)
    (found : currentElement Cell.operatorArray element = .ok current)
    (types : terms.types = [terms.result, element])
    (holds : image.Holds (terms.result.stash Cell.operatorTransfer ++ call) pc)
    (folder : Folder image terms block element count ready)
    (folding : Folding image terms block element count ready value given accumulator index calls now)
    (below : index < count) (obliges : Obliges image limit terms start)
    (reached : Course image limit calls start
      ⟨pc, terms.result.words accumulator ++ stack, now, output⟩) :
    ∃ calls' accumulator' now' output', Course image limit calls' start
        ⟨pc + (terms.result.stash Cell.operatorTransfer ++ call).size,
          terms.result.words accumulator' ++ stack, now', output'⟩ ∧
      image.dataSize ≤ now'.size ∧
      Folding image terms block element count ready value given accumulator' (index + 1) calls'
        (now'.setCell image.word Cell.operatorIndex
          (now'.cell image.word Cell.operatorIndex + 1)) := by
  have low := folder.fits.above
  have inside := folding.stands.inside
  have above := folding.stands.above
  have small := folding.stands.fits
  obtain ⟨holdsStash, holdsCall⟩ := Image.holds_append.mp holds
  -- The accumulator is parked.
  obtain ⟨stashed, stashes, stored⟩ := Ty.act_stash isValue installed.transfer
    folding.counts.inside installed.fits (Ty.bytes?_words folding.length)
  have parks : Code.act image.word (terms.result.stash Cell.operatorTransfer)
      (terms.result.words accumulator ++ stack) now = some (stack, stashed) :=
    Code.act_alone (stashes stack)
  have stashing : Steady image.word (Cell.stackPointer :: Cell.framePointer :: words) _ now stashed :=
    installed.steady_stashed stored (by decide)
  have steady : Steady image.word others terms.Spares ready stashed :=
    folding.steady.trans (stashing.mono
      (fun name member => by simp [others_known name member]) fun _ => folder.fits.le_of_spares)
  have counts : Counts image stashed index count := by
    refine ⟨stashing.size.symm ▸ folding.counts.inside, ?_, ?_⟩
    · rw [stashing.cells _ (by simp [words])]
      exact folding.counts.index
    · rw [stashing.cells _ (by simp [words])]
      exact folding.counts.length
  have stands := folding.stands.of_steady (stashing.mono (by simp) fun _ keeps => keeps)
  -- The function is called.
  have fetched : Frame.Fetches image.word terms.floor terms.top stashed current element _ :=
    fetches_currentElement installed found (folder.parked.of_steady steady (by simp [others]))
      counts below (by have := stands.inside; omega) (by omega)
  rw [item_of_steady steady folder.parked.room (fun other covers => .inl ⟨block, folder.spared, covers⟩)
    below] at fetched
  have carried := @fetches_transfer image stashed installed terms.floor terms.top terms.result _
    isValue low counts.inside stored.written
  obtain ⟨excursion, _, answered, output', visited, serves, _, _, standsAfter, kept, length⟩ :=
    Callback.invokes installed folder.fits isValue generated types.symm holdsCall stands
      ((steady.cells _ (by simp [others])).trans folder.function)
      (.cons carried (.cons fetched .nil)) (reached.straight holdsStash parks) obliges
  have size := kept.size
  refine ⟨calls ++ [excursion], _, answered, output', ?_, by have := counts.inside; omega,
    folding.next installed folder below serves standsAfter ?_ length⟩
  · rw [Code.size_append, ← Nat.add_assoc]
    exact visited
  · exact (stashing.mono (fun name member => by simp [member])
      fun _ => folder.fits.le_of_spares).trans kept

/-- A course goes through the loop of a fold. -/
theorem Folder.loops (installed : Installed image)
    (folder : Folder image terms block element count ready) (isValue : terms.result.isVoid = false)
    {call current : Code} {labels : LabelGroup} {pc offset : Nat} {first : Int32}
    {stack : List Word} {output : ByteArray} {initial : List UInt8}
    (generated : Frame.invoke callee
      [(terms.result.unstash Cell.operatorTransfer, terms.result), (current, element)]
      terms.result = .ok call)
    (found : currentElement Cell.operatorArray element = .ok current)
    (types : terms.types = [terms.result, element])
    (holds : image.Holds (loop labels first (terms.result.stash Cell.operatorTransfer ++ call)) pc)
    (counted : Address.Names (ready.cell image.word Cell.operatorLength) count)
    (offsets : Address.Names first offset) (within : offset ≤ count)
    (stands : Frame.Stands image.word terms.floor ready terms.top terms.framePointer)
    (length : initial.length = terms.result.width) (obliges : Obliges image limit terms start)
    (reached : Course image limit [] start
      ⟨pc, terms.result.words initial ++ stack, ready, output⟩) :
    ∃ calls value after output', Course image limit calls start
        ⟨pc + (loop labels first (terms.result.stash Cell.operatorTransfer ++ call)).size,
          terms.result.words value ++ stack, after, output'⟩ ∧
      value = foldValue terms.answer initial
        ((Record.items ready block.address element count).drop offset) ∧
      value.length = terms.result.width ∧
      List.Forall₂ (Serves image terms) (foldArguments terms.answer initial
        ((Record.items ready block.address element count).drop offset)) calls ∧
      Frame.Stands image.word terms.floor after terms.top terms.framePointer ∧
      Steady image.word others terms.Spares ready after := by
  have low := folder.fits.above
  have inside := stands.inside
  have above := stands.above
  have setting : Steady image.word (Cell.stackPointer :: Cell.framePointer :: others) _ ready
      (ready.setCell image.word Cell.operatorIndex first) :=
    installed.steady_setCell (by decide) _ (by decide)
  have begins : Folding image terms block element count ready (foldValue terms.answer initial
      ((Record.items ready block.address element count).drop offset)) (foldArguments terms.answer
        initial ((Record.items ready block.address element count).drop offset)) initial offset []
          (ready.setCell image.word Cell.operatorIndex first) := by
    refine ⟨⟨?_, ?_, ?_⟩, stands.of_steady (setting.mono (by simp) fun _ keeps => keeps),
      setting.mono (fun name member => by simp [member]) fun _ => folder.fits.le_of_spares, length,
      rfl, [], .nil, rfl⟩
    · rw [Memory.size_setCell]
      omega
    · rw [installed.words.cell_setCell (by simp [words]) (by omega)]
      exact offsets
    · rw [setting.cells _ (by simp [others])]
      exact counted
  obtain ⟨calls, _, after, output', looped, value, rfl, folding⟩ := Course.loops
    (fun index calls stack' now => ∃ accumulator, stack' = terms.result.words accumulator ++ stack ∧
      Folding image terms block element count ready (foldValue terms.answer initial
        ((Record.items ready block.address element count).drop offset)) (foldArguments terms.answer
          initial ((Record.items ready block.address element count).drop offset)) accumulator index
            calls now)
    installed holds (by omega) (fun inv => by
      obtain ⟨_, _, folding⟩ := inv
      exact folding.counts)
    (fun holdsBody below inv reached => by
      obtain ⟨accumulator, rfl, folding⟩ := inv
      obtain ⟨calls', accumulator', now', output', turned, within, next⟩ := folding.turn installed
        isValue generated found types holdsBody folder below obliges reached
      exact ⟨calls', _, now', output', turned, within, accumulator', rfl, next⟩)
    ⟨initial, rfl, begins⟩ within reached
  have spent : (Record.items ready block.address element count).drop count = [] := by
    simp [Record.items]
  have same := folding.value
  obtain ⟨made, served, all⟩ := folding.served
  rw [spent] at same all
  rw [foldArguments, List.append_nil] at all
  exact ⟨calls, value, after, output', looped, same, folding.length, all ▸ served, folding.stands,
    folding.steady⟩

end

/-! ## From the array to the value -/

/-- Reads the length of the array and leaves it on the stack. -/
def measure : Code :=
  operandLength Cell.operatorArray ++ Code.loadWord Cell.operatorLength

/-- The length of the array that has been evaluated is in its word, and it is not zero. -/
def measured (image : Image) (pointer length : Int32) (held : Configuration) : Configuration :=
  ⟨held.pc + (Record.nullCheck ++ Code.storeWord Cell.operatorArray).size + measure.size + 1,
    held.stack.tail, (held.memory.setCell image.word Cell.operatorArray pointer).setCell image.word
      Cell.operatorLength length, held.output⟩

/-- The first element of the array has been fetched. -/
def fetched (element : Ty) (item : List UInt8) (before : Configuration) : Configuration :=
  ⟨before.pc + (Code.loadWord Cell.operatorArray ++ Code.addOffset Record.arrayHeaderSize ++
    element.loadCode).size, element.words item ++ before.stack, before.memory, before.output⟩

/-- What has become of the memory: the calls for the items have been served in order, the array
and the words of the operators are as before. -/
structure Folded (image : Image) (terms : Terms) (block : Heap.Block) (first ready after : Memory)
    (initial : List UInt8) (items : List (List UInt8)) (calls : List Excursion) : Prop where
  served : List.Forall₂ (Serves image terms) (foldArguments terms.answer initial items) calls
  array : ∀ index, block.Covers index → after.byte index = ready.byte index
  words : ∀ name ∈ words, after.cell image.word name = first.cell image.word name
  stands : Frame.Stands image.word terms.floor after terms.top terms.framePointer

theorem Folded.length {image : Image} {terms : Terms} {block : Heap.Block}
    {first ready after : Memory} {initial : List UInt8} {items : List (List UInt8)}
    {calls : List Excursion}
    (folded : Folded image terms block first ready after initial items calls) :
    calls.length = items.length := by
  rw [← folded.served.length_eq, length_foldArguments]

section

variable {image : Image} {limit : Option Nat} {terms : Terms} {ledger : Heap.Ledger}
  {block : Heap.Block} {element : Ty} {count next later : Nat}
  {start held based ready : Configuration} {code array function begins : Code}
  {base : Option Code} {functionType : Ty} {pointer first : Int32}
  {arrayCalls baseCalls functionCalls : List Excursion} {initial : List UInt8}

variable (installed : Installed image)
  (generated : fold array (.array element) base function functionType next = .ok (code, later))
  (resulting : functionType.result = .ok terms.result)
  (holds : image.Holds code start.pc) (inside : image.dataSize ≤ start.memory.size)
  (evaluates : Evaluates image limit arrayCalls array [.integer pointer]
    (foldBracket.entered image start) held)
  (sound : Heap.Sound image.word held.memory ledger)
  (isArray : Record.IsArray held.memory ledger pointer block element count)
include installed generated resulting holds inside evaluates sound isArray

variable (begun : Evaluates image limit baseCalls begins (terms.result.words initial)
    (measured image pointer (held.memory.word (block.address + 12)) held) based)
  (called : Evaluates image limit functionCalls function [.integer terms.function] based ready)
include begun called

end

end HigherOrder

namespace Program

open Callback (Terms Obliges)
open HigherOrder

/-- The fold of two numbers by differences. -/
def folding (base : Option Expr) : Form :=
  .fold (.typed (.array .integer) (.identifier twoNumbers)) base (combining .subtract)

/-- The bytes of the difference of two arguments. -/
def difference (arguments : List (List UInt8)) : List UInt8 :=
  WordBytes.ofInt32 (argument arguments 0 - argument arguments 1)

/-- What the function with the value answers. -/
def subtracting (image : Image) (memory : Memory) (value : Int32) : Terms :=
  pureTerms image memory value [.integer, .integer] .integer difference [stagedBlock image]

end Program

end StackBackend
