import StackBackend.Proofs.Operands

namespace StackBackend

/-! A fresh array is filled with what a function answers to the elements of the operand arrays, an
index after the other. -/

namespace HigherOrder

open Callback (Terms Serves Obliges)

/-! ## The loop -/

/-- An operand array: the word that it is parked in, the type of its elements, and its block. -/
structure Source where
  cell : String
  element : Ty
  block : Heap.Block

/-- The elements of the operand arrays at an index. -/
def elements (sources : List Source) (memory : Memory) (index : Nat) : List (List UInt8) :=
  sources.map fun source => Record.item memory source.block.address source.element index

/-- The bytes that stay while an array is filled: those that a call spares, but for the elements
of the array. -/
def Leaves (terms : Terms) (target : Heap.Block) (count index : Nat) : Prop :=
  terms.Spares index ∧ (index < target.address + 16 ∨
    target.address + 16 + count * terms.result.width ≤ index)

/-- The function, the operands and the fresh array are in words of the operators that stay, and
calls write neither operands nor array. -/
structure Filler (image : Image) (terms : Terms) (sources : List Source) (target : Heap.Block)
    (count : Nat) (stay : List String) (ready : Memory) : Prop where
  known : ∀ name ∈ stay, name ∈ words
  notIndex : Cell.operatorIndex ∉ stay
  needed : ∀ name ∈ [Cell.operatorLambda, Cell.operatorLength, Cell.operatorResult], name ∈ stay
  function : ready.cell image.word Cell.operatorLambda = terms.function
  parked : ∀ source ∈ sources,
    Parks image terms.floor ready source.cell source.block source.element count
  cells : ∀ source ∈ sources, source.cell ∈ stay
  spared : ∀ source ∈ sources, source.block ∈ terms.spared
  apart : ∀ source ∈ sources, source.block.address + source.block.size ≤ target.address ∨
    target.address + target.size ≤ source.block.address
  filled : Parks image terms.floor ready Cell.operatorResult target terms.result count
  targetSpared : target ∈ terms.spared

/-- The array is filled up to the index: the calls for the elements so far have been served in
order, and their answers are in the array. -/
structure Filling (image : Image) (terms : Terms) (sources : List Source) (target : Heap.Block)
    (count : Nat) (stay : List String) (ready : Memory) (index : Nat) (calls : List Excursion)
    (now : Memory) : Prop where
  counts : Counts image now index count
  stands : Frame.Stands image.word terms.floor now terms.top terms.framePointer
  steady : Steady image.word stay (Leaves terms target count) ready now
  served : List.Forall₂ (Serves image terms) ((List.range index).map (elements sources ready)) calls
  items : ∀ other < index, Record.item now target.address terms.result other =
    terms.answer (elements sources ready other)

section

variable {image : Image} {limit : Option Nat} {terms : Terms} {sources : List Source}
  {target : Heap.Block} {count index : Nat} {stay : List String} {ready now : Memory}
  {start : Configuration}
  {calls : List Excursion} {arguments : List (Code × Ty)}

/-- The elements of the operands have not changed. -/
theorem Filling.elements_eq (filler : Filler image terms sources target count stay ready)
    (filling : Filling image terms sources target count stay ready index calls now) {later : Nat}
    (below : later < count) : elements sources now later = elements sources ready later := by
  refine List.map_congr_left fun source member => filling.steady.read fun other lower upper => ?_
  have parks := filler.parked source member
  have within := Record.item_le source.element below
  have room := parks.room
  have targetRoom := filler.filled.room
  have apart := filler.apart source member
  exact ⟨.inl ⟨source.block, filler.spared source member, by unfold Heap.Block.Covers; omega⟩,
    by omega⟩

/-- What is parked stays parked in the words that stay. -/
theorem Filler.of_steady (filler : Filler image terms sources target count stay ready)
    {fewer : List String} {kept : Nat → Prop} (steady : Steady image.word fewer kept ready now)
    (subset : ∀ name ∈ fewer, name ∈ stay)
    (needed : ∀ name ∈ [Cell.operatorLambda, Cell.operatorLength, Cell.operatorResult],
      name ∈ fewer)
    (cells : ∀ source ∈ sources, source.cell ∈ fewer) :
    Filler image terms sources target count fewer now :=
  { filler with
    known := fun name member => filler.known name (subset name member)
    notIndex := fun member => filler.notIndex (subset _ member)
    needed
    function := (steady.cells _ (needed _ (by simp))).trans filler.function
    parked := fun source member =>
      (filler.parked source member).of_steady steady (cells source member)
    cells
    filled := filler.filled.of_steady steady (needed _ (by simp)) }

/-- Nothing is filled yet. -/
theorem Filler.begin (installed : Installed image) (fits : terms.Fits image.dataSize)
    (filler : Filler image terms sources target count stay ready)
    (length : Address.Names (ready.cell image.word Cell.operatorLength) count)
    (stands : Frame.Stands image.word terms.floor ready terms.top terms.framePointer) :
    Filling image terms sources target count stay ready 0 []
      (ready.setCell image.word Cell.operatorIndex 0) := by
  have inside := stands.inside
  have low := fits.above
  have above := stands.above
  have steady : Steady image.word (Cell.stackPointer :: Cell.framePointer :: stay)
      (fun index => image.dataSize ≤ index) ready (ready.setCell image.word Cell.operatorIndex 0) :=
    installed.steady_setCell (by decide) 0 (List.forall_mem_cons.mpr ⟨by decide,
      List.forall_mem_cons.mpr ⟨by decide, fun name member =>
        ⟨mem_followed (filler.known name member), fun same =>
          filler.notIndex (same ▸ member)⟩⟩⟩)
  refine ⟨⟨?_, ?_, ?_⟩, stands.of_steady (steady.mono (by simp) fun _ kept => kept),
    steady.mono (fun name listed => by simp [listed]) fun index leaves => ?_, .nil,
    fun other none => nomatch none⟩
  · rw [Memory.size_setCell]
    omega
  · rw [installed.words.cell_setCell (by simp [words]) (by omega)]
    rfl
  · rw [steady.cells _ (by simp [filler.needed])]
    exact length
  · exact fits.le_of_spares leaves.1

theorem fetches_elements (installed : Installed image) {floor top last : Nat}
    (built : List.Forall₂ (fun source argument =>
      currentElement source.cell source.element = .ok argument.1 ∧ argument.2 = source.element)
      sources arguments)
    (parks : ∀ source ∈ sources,
      Parks image floor now source.cell source.block source.element count)
    (counts : Counts image now index last) (below : index < count) (inside : floor ≤ now.size)
    (fits : floor ≤ 2147483647) :
    List.Forall₂ (fun argument value =>
      Frame.Fetches image.word floor top now argument.1 argument.2 value)
      arguments (elements sources now index) := by
  induction built with
  | nil => exact .nil
  | @cons source argument sources arguments first others induction =>
      obtain ⟨parked, parks⟩ := List.forall_mem_cons.mp parks
      obtain ⟨generated, type⟩ := first
      refine .cons ?_ (induction parks)
      rw [type]
      exact fetches_currentElement installed generated parked counts below inside fits

/-- The call for the elements at the index has been served and its answer stored. -/
theorem Filling.next (installed : Installed image) (fits : terms.Fits image.dataSize)
    (filler : Filler image terms sources target count stay ready)
    (filling : Filling image terms sources target count stay ready index calls now)
    (below : index < count) {excursion : Excursion} {answered stored : Memory}
    (serves : Serves image terms (elements sources ready index) excursion)
    (stands : Frame.Stands image.word terms.floor answered terms.top terms.framePointer)
    (steady : Steady image.word (Cell.operatorIndex :: stay) terms.Spares now answered)
    (kept : Ty.Stored image.word terms.result (target.address + 16 + index * terms.result.width)
      (terms.answer (elements sources ready index)) answered stored) :
    Filling image terms sources target count stay ready (index + 1) (calls ++ [excursion])
      (stored.setCell image.word Cell.operatorIndex
        (stored.cell image.word Cell.operatorIndex + 1)) := by
  have parks := filler.filled
  have above := parks.above
  have within := Record.item_le terms.result below
  have room := parks.room
  have under := parks.below
  have inside := stands.inside
  have low := stands.above
  have deep : ∀ other, terms.Spares other → image.dataSize ≤ other := fun _ => fits.le_of_spares
  have storing : Steady image.word (Cell.stackPointer :: Cell.framePointer :: words) _ answered
      stored := installed.steady_stored kept (by omega) (by decide)
  have setting : Steady image.word (Cell.stackPointer :: Cell.framePointer :: stay) _ stored
      (stored.setCell image.word Cell.operatorIndex
        (stored.cell image.word Cell.operatorIndex + 1)) :=
    installed.steady_setCell (by decide) _ (List.forall_mem_cons.mpr ⟨by decide,
      List.forall_mem_cons.mpr ⟨by decide, fun name member =>
        ⟨mem_followed (filler.known name member), fun same =>
          filler.notIndex (same ▸ member)⟩⟩⟩)
  have counted : (stored.setCell image.word Cell.operatorIndex
      (stored.cell image.word Cell.operatorIndex + 1)).cell image.word Cell.operatorIndex =
        now.cell image.word Cell.operatorIndex + 1 := by
    rw [installed.words.cell_setCell (by simp [words]) (by rw [kept.size]; omega),
      storing.cells _ (by simp [words]), steady.cells _ (by simp)]
  have stays : Steady image.word stay (Leaves terms target count) now
      (stored.setCell image.word Cell.operatorIndex
        (stored.cell image.word Cell.operatorIndex + 1)) := by
    refine (steady.mono (fun name member => List.mem_cons_of_mem _ member)
      fun other leaves => leaves.1).trans
      ((storing.mono (fun name member => ?_) fun other leaves => ?_).trans
        (setting.mono (fun name member => ?_) fun other leaves => deep other leaves.1))
    · exact List.mem_cons_of_mem _ (List.mem_cons_of_mem _ (filler.known name member))
    · have outside := leaves.2
      exact ⟨deep other leaves.1, by omega⟩
    · exact List.mem_cons_of_mem _ (List.mem_cons_of_mem _ member)
  refine ⟨⟨?_, ?_, ?_⟩, ?_, filling.steady.trans stays, ?_, fun other before => ?_⟩
  · rw [Memory.size_setCell, kept.size]
    omega
  · have length : (_ : Int) = (count : Int) := filling.counts.length
    have last := Int32.toInt_lt (now.cell image.word Cell.operatorLength)
    rw [counted]
    exact filling.counts.index.add rfl (by omega)
  · rw [stays.cells _ (filler.needed _ (by simp))]
    exact filling.counts.length
  · exact (stands.of_steady (storing.mono (by simp) fun _ keeps => keeps)).of_steady
      (setting.mono (by simp) fun _ keeps => keeps)
  · rw [List.range_succ, List.map_append]
    exact List.rel_append filling.served (.cons serves .nil)
  · have beyond : Record.item (stored.setCell image.word Cell.operatorIndex
        (stored.cell image.word Cell.operatorIndex + 1)) target.address terms.result other =
        Record.item stored target.address terms.result other :=
      setting.read fun position lower upper => by omega
    rw [beyond]
    by_cases same : other = index
    · subst same
      exact kept.written
    · have before := Record.item_le terms.result (show other < index by omega)
      rw [← filling.items other (by omega)]
      refine Eq.trans (storing.read fun position lower upper => ?_)
        (steady.read fun position lower upper => ?_)
      · exact ⟨by omega, .inl (by omega)⟩
      · exact .inl ⟨target, filler.targetSpared, by unfold Heap.Block.Covers; omega⟩

/-- The function is called for the elements at the index, above the slot of its answer. -/
theorem Filling.asks (installed : Installed image) (fits : terms.Fits image.dataSize)
    (isValue : terms.result.isVoid = false) {call : Code} {pc : Nat} {stack : List Word}
    {output : ByteArray}
    (generated : Frame.invoke callee arguments terms.result = .ok call)
    (types : arguments.map Prod.snd = terms.types)
    (built : List.Forall₂ (fun source argument =>
      currentElement source.cell source.element = .ok argument.1 ∧ argument.2 = source.element)
      sources arguments)
    (holds : image.Holds (resultSlot terms.result.size ++ call) pc)
    (filler : Filler image terms sources target count stay ready)
    (filling : Filling image terms sources target count stay ready index calls now)
    (below : index < count) (obliges : Obliges image limit terms start)
    (reached : Course image limit calls start ⟨pc, stack, now, output⟩) :
    ∃ excursion slot passed answered output', Course image limit (calls ++ [excursion]) start
        ⟨pc + (resultSlot terms.result.size ++ call).size,
          terms.result.words (terms.answer (elements sources ready index)) ++ .integer slot :: stack,
          answered, output'⟩ ∧
      Address.Names slot (target.address + 16 + index * terms.result.width) ∧
      (terms.answer (elements sources ready index)).length = terms.result.width ∧
      Serves image terms (elements sources ready index) excursion ∧
      Frame.Calm image.word terms.floor terms.top now passed ∧ terms.keeps passed answered ∧
      Frame.Stands image.word terms.floor answered terms.top terms.framePointer ∧
      Steady image.word words terms.Spares now answered := by
  have inside := filling.stands.inside
  have low := filling.stands.above
  have small := filling.stands.fits
  have targetParks := filler.filled.of_steady filling.steady (filler.needed _ (by simp))
  obtain ⟨holdsSlot, holdsCall⟩ := Image.holds_append.mp holds
  obtain ⟨slot, named, looks⟩ := exists_resultSlot installed targetParks filling.counts below
    (by omega) (by omega)
  have atSlot : Code.act image.word (resultSlot terms.result.size) stack now =
      some (.integer slot :: stack, now) :=
    Code.act_alone (looks _)
  have fetches := @fetches_elements image sources count index now _ installed terms.floor terms.top
    _ built (fun source member =>
      (filler.parked source member).of_steady filling.steady (filler.cells source member))
    filling.counts below (by omega) (by omega)
  rw [filling.elements_eq filler below] at fetches
  have function : now.cell image.word Cell.operatorLambda = terms.function :=
    (filling.steady.cells _ (filler.needed _ (by simp))).trans filler.function
  obtain ⟨excursion, passed, answered, output', visited, serves, calm, keeps, stands, steady,
      length⟩ :=
    Callback.invokes installed fits isValue generated types holdsCall filling.stands function
      fetches (reached.straight holdsSlot atSlot) obliges
  refine ⟨excursion, slot, passed, answered, output', ?_, named, length, serves, calm, keeps,
    stands, steady⟩
  rw [Code.size_append, ← Nat.add_assoc]
  exact visited

/-- The answer is stored in its slot. -/
theorem Filler.stores (installed : Installed image)
    (filler : Filler image terms sources target count stay ready)
    (isValue : terms.result.isVoid = false) {slot : Int32} {bytes : List UInt8} {answered : Memory}
    (named : Address.Names slot (target.address + 16 + index * terms.result.width))
    (length : bytes.length = terms.result.width) (below : index < count)
    (stands : Frame.Stands image.word terms.floor answered terms.top terms.framePointer) :
    ∃ stored, (∀ stack, Code.act image.word terms.result.storeCode
        (terms.result.words bytes ++ .integer slot :: stack) answered = some (stack, stored)) ∧
      Ty.Stored image.word terms.result (target.address + 16 + index * terms.result.width) bytes
        answered stored := by
  have above := filler.filled.above
  have within := Record.item_le terms.result below
  have room := filler.filled.room
  have under := filler.filled.below
  have inside := stands.inside
  have low := stands.above
  have small := stands.fits
  obtain ⟨stored, stores, kept⟩ := Ty.act_storeCode answered isValue
    ((installed.frames (Nat.le_refl _)).mono (by decide)) (Ty.bytes?_words length) named (by omega)
    (by omega) (by omega)
  exact ⟨stored, fun stack => Code.act_alone (stores stack), kept⟩

/-- One turn of the loop calls the function for the elements at the index and puts its answer
into the array. -/
theorem Filling.turn (installed : Installed image) (fits : terms.Fits image.dataSize)
    (isValue : terms.result.isVoid = false) {call : Code} {pc : Nat} {stack : List Word}
    {output : ByteArray}
    (generated : Frame.invoke callee arguments terms.result = .ok call)
    (types : arguments.map Prod.snd = terms.types)
    (built : List.Forall₂ (fun source argument =>
      currentElement source.cell source.element = .ok argument.1 ∧ argument.2 = source.element)
      sources arguments)
    (holds : image.Holds (resultSlot terms.result.size ++ call ++ terms.result.storeCode) pc)
    (filler : Filler image terms sources target count stay ready)
    (filling : Filling image terms sources target count stay ready index calls now)
    (below : index < count) (obliges : Obliges image limit terms start)
    (reached : Course image limit calls start ⟨pc, stack, now, output⟩) :
    ∃ calls' now' output', Course image limit calls' start
        ⟨pc + (resultSlot terms.result.size ++ call ++ terms.result.storeCode).size, stack, now',
          output'⟩ ∧
      image.dataSize ≤ now'.size ∧
      Filling image terms sources target count stay ready (index + 1) calls'
        (now'.setCell image.word Cell.operatorIndex
          (now'.cell image.word Cell.operatorIndex + 1)) := by
  obtain ⟨holdsCall, holdsStore⟩ := Image.holds_append.mp holds
  obtain ⟨excursion, slot, _, answered, output', visited, named, length, serves, _, _, stands,
    steady⟩ := filling.asks installed fits isValue generated types built holdsCall filler below
      obliges reached
  obtain ⟨stored, stores, kept⟩ := filler.stores installed isValue named length below stands
  have low := fits.above
  have under := stands.above
  have inside := stands.inside
  refine ⟨calls ++ [excursion], stored, output', ?_, by rw [kept.size]; omega,
    filling.next installed fits filler below serves stands (steady.mono ?_ fun _ keeps => keeps)
      kept⟩
  · rw [Code.size_append _ (Ty.storeCode _), ← Nat.add_assoc]
    exact visited.straight holdsStore (stores stack)
  · exact List.forall_mem_cons.mpr ⟨by simp [words], filler.known⟩

end

/-! ## From the operands to the result -/

/-- The block of the result. -/
def resultBlock (terms : Terms) (ledger : Heap.Ledger) (count : Nat) : Heap.Block :=
  (ledger.allocate (16 + count * terms.result.width)).1

/-- The operands have been parked: they are arrays of one length in a sound heap, which has room
for the result below the frames, and calls write neither operands nor result. -/
structure Ready (image : Image) (terms : Terms) (sources : List Source) (ledger : Heap.Ledger)
    (count : Nat) (memory : Memory) : Prop where
  sound : Heap.Sound image.word memory ledger
  cells : ∀ source ∈ sources, source.cell ∈ [Cell.operatorArray, Cell.operatorOtherArray]
  arrays : ∀ source ∈ sources, Record.IsArray memory ledger (memory.cell image.word source.cell)
    source.block source.element count
  room : (ledger.allocate (16 + count * terms.result.width)).2.bump ≤ terms.floor
  frames : terms.floor + Parameters.width terms.types ≤ terms.top
  stands : Frame.Stands image.word terms.floor memory terms.top terms.framePointer
  spared : terms.spared = resultBlock terms ledger count :: sources.map Source.block

/-- What has become of the memory: the calls for the elements have been served in order, and
their answers are in a fresh array. The operands and the words of the operators are as before. -/
structure Filled (image : Image) (terms : Terms) (sources : List Source) (ledger : Heap.Ledger)
    (count : Nat) (first ready after : Memory) (calls : List Excursion) : Prop where
  served : List.Forall₂ (Serves image terms) ((List.range count).map (elements sources ready)) calls
  begins : Record.Begins after (resultBlock terms ledger count).address
    (Record.arrayStatus terms.result) terms.result count
  items : ∀ index < count, Record.item after (resultBlock terms ledger count).address terms.result
    index = terms.answer (elements sources ready index)
  room : 16 + count * terms.result.width ≤ (resultBlock terms ledger count).size
  fresh : ∀ other ∈ ledger.live,
    (resultBlock terms ledger count).address + (resultBlock terms ledger count).size + 4 ≤
        other.address ∨
      other.address + other.size + 4 ≤ (resultBlock terms ledger count).address
  operands : ∀ source ∈ sources, ∀ index, source.block.Covers index →
    after.byte index = ready.byte index
  words : ∀ name ∈ words, after.cell image.word name = first.cell image.word name
  stands : Frame.Stands image.word terms.floor after terms.top terms.framePointer

/-- The code that fills a fresh array. -/
def fill (labels : LabelGroup) (result : Ty) (call : Code) : Code :=
  operandLength Cell.operatorArray ++ (allocateResult result ++
    (loop labels 0 (resultSlot result.size ++ call ++ result.storeCode) ++
      Code.loadWord Cell.operatorResult))

section

variable {image : Image} {limit : Option Nat} {terms : Terms} {sources : List Source}
  {ledger : Heap.Ledger} {count : Nat} {memory : Memory} {start : Configuration}
  {calls : List Excursion} {arguments : List (Code × Ty)}

theorem Ready.fits (installed : Installed image)
    (ready : Ready image terms sources ledger count memory) : terms.Fits image.dataSize := by
  have first := installed.record.start
  have handed := ready.sound.allocate_bounds (16 + count * terms.result.width)
  have higher := ledger.bump_le_allocate (16 + count * terms.result.width)
  have room := ready.room
  refine ⟨by omega, fun block member => ?_, ready.frames⟩
  rw [ready.spared] at member
  obtain rfl | operand := List.mem_cons.mp member
  · unfold resultBlock
    omega
  · obtain ⟨source, known, rfl⟩ := List.mem_map.mp operand
    have bounds := ready.sound.tiled.bounds
      (Heap.Ledger.mem_live.mp (ready.arrays source known).live).1
    omega

theorem Ready.live_above (installed : Installed image)
    (ready : Ready image terms sources ledger count memory) {block : Heap.Block} {index : Nat}
    (live : block ∈ ledger.live) (covers : block.Covers index) : image.dataSize ≤ index := by
  have first := installed.record.start
  have bounds := ready.sound.bounds (Heap.Ledger.mem_live.mp live).1
  unfold Heap.Block.Covers at covers
  omega

/-- Setting a word that parks no operand leaves everything ready. -/
theorem Ready.setCell (installed : Installed image)
    (ready : Ready image terms sources ledger count memory) {name : String} (value : Int32)
    (member : name ∈ words)
    (other : name ∉ [Cell.operatorArray, Cell.operatorOtherArray]) :
    Ready image terms sources ledger count (memory.setCell image.word name value) := by
  have setting : Steady image.word [Cell.stackPointer, Cell.framePointer] _ memory
      (memory.setCell image.word name value) :=
    installed.steady_setCell (mem_followed member) value fun other listed =>
      ⟨(by decide : ∀ name ∈ _, name ∈ followed) other listed, fun same =>
        (by decide : ∀ name ∈ words, name ∉ [Cell.stackPointer, Cell.framePointer]) name
          member (same ▸ listed)⟩
  refine { ready with
    sound := sound_setCell installed ready.sound member value
    arrays := fun source known => ?_
    stands := ready.stands.of_steady setting }
  have cell := ready.cells source known
  rw [installed.words.cell_setCell_other member
    ((by decide : ∀ name ∈ _, name ∈ words) _ cell) fun same => other (same ▸ cell)]
  exact IsArray.setCell installed ready.sound (ready.arrays source known) member value

/-- The words that stay while the result is allocated. -/
def parkedWords : List String :=
  [Cell.operatorLambda, Cell.operatorArray, Cell.operatorOtherArray, Cell.operatorCount]

/-- Operands and result are in their words. -/
theorem Ready.filler (installed : Installed image)
    (ready : Ready image terms sources ledger count memory) {after : Memory}
    (function : memory.cell image.word Cell.operatorLambda = terms.function)
    (steady : Steady image.word parkedWords (fun index => ∃ block ∈ ledger.live,
      block.Covers index) memory after)
    (named : after.cell image.word Cell.operatorResult =
      Int32.ofNat (resultBlock terms ledger count).address) :
    Filler image terms sources (resultBlock terms ledger count) count others after := by
  have first := installed.record.start
  have handed := ready.sound.allocate_bounds (16 + count * terms.result.width)
  have higher := ledger.bump_le_allocate (16 + count * terms.result.width)
  have large := @Heap.Ledger.le_size_allocate ledger (16 + count * terms.result.width)
  have room := ready.room
  have small := ready.stands.fits
  have frames := ready.frames
  refine ⟨others_known, by decide, by decide, ?_, fun source member => ?_,
    fun source member => ?_, fun source member => ?_, fun source member => ?_, ?_, ?_⟩
  · rw [steady.cells _ (by simp [parkedWords]), function]
  · have array := ready.arrays source member
    have cell := ready.cells source member
    have bounds := ready.sound.tiled.bounds (Heap.Ledger.mem_live.mp array.live).1
    refine ⟨(by decide : ∀ name ∈ _, name ∈ words) _ cell, ?_, by omega, by omega,
      array.room⟩
    rw [steady.cells _ ((by decide : ∀ name ∈ _, name ∈ parkedWords) _ cell)]
    exact array.names
  · exact (by decide : ∀ name ∈ _, name ∈ others) _ (ready.cells source member)
  · rw [ready.spared]
    exact List.mem_cons_of_mem _ (List.mem_map_of_mem member)
  · have apart := ready.sound.allocate_apart (16 + count * terms.result.width)
      (ready.arrays source member).live
    unfold resultBlock
    omega
  · refine ⟨by simp [words], ?_, ?_, ?_, large⟩
    · rw [named]
      exact Address.names_ofNat (by unfold resultBlock; omega)
    · unfold resultBlock
      omega
    · unfold resultBlock
      omega
  · rw [ready.spared]
    exact List.mem_cons_self ..

/-- The result has been allocated. -/
structure Allocated (image : Image) (terms : Terms) (sources : List Source) (ledger : Heap.Ledger)
    (count : Nat) (before after : Memory) : Prop where
  filler : Filler image terms sources (resultBlock terms ledger count) count others after
  length : Address.Names (after.cell image.word Cell.operatorLength) count
  begins : Record.Begins after (resultBlock terms ledger count).address
    (Record.arrayStatus terms.result) terms.result count
  stands : Frame.Stands image.word terms.floor after terms.top terms.framePointer
  steady : Steady image.word parkedWords (fun index => ∃ block ∈ ledger.live, block.Covers index)
    before after
  sound : Heap.Sound image.word after (ledger.allocate (16 + count * terms.result.width)).2

theorem Ready.allocates (installed : Installed image)
    (ready : Ready image terms sources ledger count memory) {source : Source}
    (member : source ∈ sources) (first : source.cell = Cell.operatorArray)
    (function : memory.cell image.word Cell.operatorLambda = terms.function) {pc : Nat}
    {stack : List Word} {output : ByteArray}
    (holds : image.Holds (operandLength Cell.operatorArray ++ allocateResult terms.result) pc)
    (reached : Course image limit calls start ⟨pc, stack, memory, output⟩) :
    ∃ after, Course image limit calls start
        ⟨pc + (operandLength Cell.operatorArray ++ allocateResult terms.result).size, stack, after,
          output⟩ ∧
      Allocated image terms sources ledger count memory after := by
  have fits := ready.fits installed
  have array := ready.arrays source member
  rw [first] at array
  have low := fits.above
  have inside := ready.stands.inside
  have small := ready.stands.fits
  have room := ready.room
  have frames := ready.frames
  obtain ⟨holdsLength, holdsResult⟩ := Image.holds_append.mp holds
  obtain ⟨holdsFront, holdsStore⟩ := Image.holds_append.mp holdsResult
  obtain ⟨holdsLoad, holdsAllocate⟩ := Image.holds_append.mp holdsFront
  have reads := reached.straight holdsLength
    (act_operandLength installed ready.sound (by simp [words]) array)
  have sized := ready.setCell installed (memory.word (source.block.address + 12))
    (show Cell.operatorLength ∈ words by simp [words]) (by decide)
  have length : (memory.setCell image.word Cell.operatorLength
      (memory.word (source.block.address + 12))).cell image.word Cell.operatorLength =
        memory.word (source.block.address + 12) :=
    installed.words.cell_setCell (by simp [words]) (by omega)
  have before : Steady image.word parkedWords (fun index => image.dataSize ≤ index) memory _ :=
    installed.steady_setCell (mem_followed (show Cell.operatorLength ∈ words by simp [words]))
      (memory.word (source.block.address + 12)) (by decide)
  generalize memory.setCell image.word Cell.operatorLength
    (memory.word (source.block.address + 12)) = counted at reads sized length before
  have counts : Address.Names (counted.cell image.word Cell.operatorLength) count := by
    rw [length]
    exact array.length
  have size := sized.stands.inside
  -- The array is formed and parked.
  have loads : Code.act image.word (Code.loadWord Cell.operatorLength) stack counted =
      some (.integer (counted.cell image.word Cell.operatorLength) :: stack, counted) :=
    installed.words.act_lastLoad (by simp [words]) (by omega)
  obtain ⟨formed, allocated, forms, sound⟩ := (reads.straight holdsLoad loads).allocates installed
    holdsAllocate sized.sound counts (by omega) (by omega)
  have stores : Code.act image.word (Code.storeWord Cell.operatorResult)
      (.integer (Int32.ofNat (resultBlock terms ledger count).address) :: stack) formed =
        some (stack, formed.setCell image.word Cell.operatorResult
          (Int32.ofNat (resultBlock terms ledger count).address)) :=
    installed.words.act_lastStore (by simp [words]) (by rw [forms.size]; omega)
  rw [Code.size_append, ← Nat.add_assoc] at holdsStore
  have later : Steady image.word
      (Cell.operatorLength :: Cell.stackPointer :: Cell.framePointer :: parkedWords)
      (fun index => (∃ block ∈ ledger.live, block.Covers index) ∨ terms.floor ≤ index) counted
      (formed.setCell image.word Cell.operatorResult
        (Int32.ofNat (resultBlock terms ledger count).address)) := by
    refine ((forms.steady installed sized.sound (by decide) (by decide)).mono
      (fun _ listed => listed) fun index => Or.imp_right (Nat.le_trans room)).trans
        ((installed.steady_setCell (by decide) _ (by decide)).mono
          (fun _ listed => listed) fun index kept => ?_)
    obtain ⟨block, live, covers⟩ | beyond := kept
    · exact ready.live_above installed live covers
    · omega
  have steady : Steady image.word parkedWords
      (fun index => ∃ block ∈ ledger.live, block.Covers index) memory
      (formed.setCell image.word Cell.operatorResult
        (Int32.ofNat (resultBlock terms ledger count).address)) :=
    (before.mono (fun _ listed => listed) fun index live => by
      obtain ⟨block, live, covers⟩ := live
      exact ready.live_above installed live covers).trans
        (later.mono (fun name listed => by simp [listed]) fun _ live => .inl live)
  have named : (formed.setCell image.word Cell.operatorResult
      (Int32.ofNat (resultBlock terms ledger count).address)).cell image.word Cell.operatorResult =
        Int32.ofNat (resultBlock terms ledger count).address :=
    installed.words.cell_setCell (by simp [words]) (by rw [forms.size]; omega)
  refine ⟨formed.setCell image.word Cell.operatorResult
    (Int32.ofNat (resultBlock terms ledger count).address), ?_,
    ready.filler installed function steady named, ?_, ?_, ?_, steady,
    sound_setCell installed sound (by simp [words]) _⟩
  · simpa only [allocateResult, Code.size_append, Nat.add_assoc] using
      allocated.straight holdsStore stores
  · rw [later.cells _ (by simp)]
    exact counts
  · have heap := installed.record.start
    have handed := sized.sound.allocate_bounds (16 + count * terms.result.width)
    exact forms.begins.congr fun index lower _ =>
      installed.words.byte_setCell (by simp [words]) (by omega)
  · exact sized.stands.of_steady (later.mono (by simp) fun _ keeps => keeps)

/-- A course goes through the filling of a fresh array. -/
theorem Ready.fills (installed : Installed image)
    (ready : Ready image terms sources ledger count memory) {source : Source}
    (member : source ∈ sources) (first : source.cell = Cell.operatorArray)
    (function : memory.cell image.word Cell.operatorLambda = terms.function) {pc : Nat}
    {stack : List Word} {output : ByteArray} {labels : LabelGroup} {call : Code}
    (isValue : terms.result.isVoid = false)
    (generated : Frame.invoke callee arguments terms.result = .ok call)
    (types : arguments.map Prod.snd = terms.types)
    (built : List.Forall₂ (fun source argument =>
      currentElement source.cell source.element = .ok argument.1 ∧ argument.2 = source.element)
      sources arguments)
    (holds : image.Holds (fill labels terms.result call) pc)
    (obliges : Obliges image limit terms start)
    (reached : Course image limit [] start ⟨pc, stack, memory, output⟩) :
    ∃ calls before after output', Course image limit calls start
        ⟨pc + (fill labels terms.result call).size,
          .integer (Int32.ofNat (resultBlock terms ledger count).address) :: stack, after, output'⟩ ∧
      Allocated image terms sources ledger count memory before ∧
      Filling image terms sources (resultBlock terms ledger count) count others before count calls
        after := by
  have fits := ready.fits installed
  have parts : fill labels terms.result call = (operandLength Cell.operatorArray ++
      allocateResult terms.result) ++ (loop labels 0
        (resultSlot terms.result.size ++ call ++ terms.result.storeCode) ++
          Code.loadWord Cell.operatorResult) := by
    simp only [fill, List.append_assoc]
  rw [parts] at holds ⊢
  obtain ⟨holdsFront, holdsRest⟩ := Image.holds_append.mp holds
  obtain ⟨holdsLoop, holdsResult⟩ := Image.holds_append.mp holdsRest
  obtain ⟨before, comes, allocated⟩ :=
    ready.allocates installed member first function holdsFront reached
  have inside := allocated.stands.inside
  have low := fits.above
  have above := allocated.stands.above
  obtain ⟨calls, _, after, output', looped, same, filled⟩ := Course.loops
    (fun index calls stack' now => stack' = stack ∧
      Filling image terms sources (resultBlock terms ledger count) count others before index calls now)
    installed holdsLoop (by omega) (fun inv => inv.2.counts)
    (fun holdsBody below inv reached => by
      obtain ⟨same, filling⟩ := inv
      obtain ⟨calls', now', output', turned, within, next⟩ := filling.turn installed fits isValue
        generated types built holdsBody allocated.filler below obliges reached
      exact ⟨calls', _, now', output', turned, within, same, next⟩)
    ⟨rfl, allocated.filler.begin installed fits allocated.length allocated.stands⟩
    (Nat.zero_le count) comes
  rw [same] at looped
  refine ⟨calls, before, after, output', ?_, allocated, filled⟩
  have pointer : after.cell image.word Cell.operatorResult =
      Int32.ofNat (resultBlock terms ledger count).address := by
    rw [filled.steady.cells _ (by simp [others])]
    exact Heap.eq_ofNat_of_names allocated.filler.filled.names
  have loads : Code.act image.word (Code.loadWord Cell.operatorResult) stack after =
      some (.integer (Int32.ofNat (resultBlock terms ledger count).address) :: stack, after) := by
    rw [installed.words.act_lastLoad (by simp [words]) filled.counts.inside, pointer]
  rw [Code.size_append, Code.size_append (loop _ _ _), ← Nat.add_assoc, ← Nat.add_assoc]
  exact looped.straight holdsResult loads

/-- The elements of the operands lie in blocks that are handed out. -/
theorem Ready.elements_eq (ready : Ready image terms sources ledger count memory)
    {names : List String} {after : Memory} {index : Nat}
    (steady : Steady image.word names (fun index => ∃ block ∈ ledger.live, block.Covers index)
      memory after) (below : index < count) :
    elements sources after index = elements sources memory index := by
  refine List.map_congr_left fun source member => steady.read fun other lower upper => ?_
  have array := ready.arrays source member
  have within := Record.item_le source.element below
  have room := array.room
  exact ⟨source.block, array.live, by unfold Heap.Block.Covers; omega⟩

/-- What the filling and the restoring of the words have left. -/
theorem Ready.filled (installed : Installed image)
    (ready : Ready image terms sources ledger count memory)
    {first called before filled after : Memory}
    (allocated : Allocated image terms sources ledger count called before)
    (steady : Steady image.word [] (fun index => ∃ block ∈ ledger.live, block.Covers index) memory
      before)
    (filling : Filling image terms sources (resultBlock terms ledger count) count others before
      count calls
      filled)
    (words : ∀ name ∈ words, after.cell image.word name = first.cell image.word name)
    (restored : Steady image.word [Cell.stackPointer, Cell.framePointer]
      (fun index => image.dataSize ≤ index) filled after) :
    Filled image terms sources ledger count first memory after calls := by
  have heap := installed.record.start
  have fits := ready.fits installed
  have handed := ready.sound.allocate_bounds (16 + count * terms.result.width)
  have large := @Heap.Ledger.le_size_allocate ledger (16 + count * terms.result.width)
  have spared : resultBlock terms ledger count ∈ terms.spared := allocated.filler.targetSpared
  have above : image.dataSize ≤ (resultBlock terms ledger count).address :=
    allocated.filler.filled.above
  refine ⟨?_, ?_, fun index below => ?_, large, fun other live => ?_,
    fun source member index covers => ?_, words, ?_⟩
  · have same : (List.range count).map (elements sources before) =
        (List.range count).map (elements sources memory) :=
      List.map_congr_left fun index listed =>
        ready.elements_eq steady (List.mem_range.mp listed)
    rw [← same]
    exact filling.served
  · refine allocated.begins.congr fun index lower upper => ?_
    rw [restored.bytes index (by omega)]
    refine filling.steady.bytes index ⟨.inl ⟨_, spared, ?_⟩, .inl upper⟩
    unfold Heap.Block.Covers resultBlock at *
    omega
  · have within := Record.item_le terms.result below
    rw [← ready.elements_eq steady below, ← filling.items index below]
    exact restored.read fun other lower upper => by omega
  · have apart := ready.sound.allocate_apart (16 + count * terms.result.width) live
    unfold resultBlock
    omega
  · have array := ready.arrays source member
    have apart := ready.sound.allocate_apart (16 + count * terms.result.width) array.live
    have block : source.block ∈ terms.spared := allocated.filler.spared source member
    have known := ready.live_above installed array.live covers
    have inside := id covers
    unfold Heap.Block.Covers at inside
    rw [restored.bytes index known, filling.steady.bytes index ⟨.inl ⟨_, block, covers⟩, ?_⟩,
      steady.bytes index ⟨_, array.live, covers⟩]
    unfold resultBlock
    omega
  · exact filling.stands.of_steady restored

/-- A course goes from the operands to the end of the operator. -/
theorem Ready.ends (installed : Installed image)
    (ready : Ready image terms sources ledger count memory) {source : Source}
    (member : source ∈ sources) (firstCell : source.cell = Cell.operatorArray) {pc : Nat}
    {stack : List Word} {output : ByteArray} {labels : LabelGroup} {call : Code}
    {bracket : Bracket} {first : Memory} (isValue : terms.result.isVoid = false)
    (generated : Frame.invoke callee arguments terms.result = .ok call)
    (types : arguments.map Prod.snd = terms.types)
    (built : List.Forall₂ (fun source argument =>
      currentElement source.cell source.element = .ok argument.1 ∧ argument.2 = source.element)
      sources arguments)
    (known : ∀ name ∈ bracket.words, name ∈ words)
    (saved : ∀ name ∈ words, name ∉ bracket.words →
      name ∈ [Cell.operatorOtherArray, Cell.operatorCount])
    (same : ∀ name ∈ words, name ∉ bracket.words →
      memory.cell image.word name = first.cell image.word name)
    (holds : image.Holds (fill labels terms.result call ++
      bracket.restoreUnder (.array terms.result) Cell.operatorReturn) pc)
    (obliges : Obliges image limit terms start)
    (reached : Course image limit [] start ⟨pc, bracket.saved image.word first ++ stack,
      memory.setCell image.word Cell.operatorLambda terms.function, output⟩) :
    ∃ calls after output', Course image limit calls start
        ⟨pc + (fill labels terms.result call ++
            bracket.restoreUnder (.array terms.result) Cell.operatorReturn).size,
          .integer (Int32.ofNat (resultBlock terms ledger count).address) :: stack, after,
          output'⟩ ∧
      Filled image terms sources ledger count first memory after calls := by
  have low := (ready.fits installed).above
  have inside := ready.stands.inside
  have under := ready.stands.above
  have lambda : Cell.operatorLambda ∈ words := by simp [words]
  have called := ready.setCell installed terms.function lambda (by decide)
  have function : (memory.setCell image.word Cell.operatorLambda terms.function).cell image.word
      Cell.operatorLambda = terms.function :=
    installed.words.cell_setCell lambda (Nat.le_trans low (Nat.le_trans under inside))
  have setting : Steady image.word [Cell.operatorArray, Cell.operatorOtherArray, Cell.operatorCount]
      (fun index => image.dataSize ≤ index) memory
      (memory.setCell image.word Cell.operatorLambda terms.function) :=
    installed.steady_setCell (by decide) _ (by decide)
  obtain ⟨holdsFill, holdsRestore⟩ := Image.holds_append.mp holds
  obtain ⟨calls, before, filled, output', fills, allocated, filling⟩ := called.fills installed member
    firstCell function isValue generated types built holdsFill obliges reached
  have admits : (Ty.array terms.result).Admits
      [.integer (Int32.ofNat (resultBlock terms ledger count).address)] :=
    ⟨_, rfl, by simp [Ty.words, WordBytes.toInt32_ofInt32]⟩
  have others (name : String) (member : name ∈ words) (unsaved : name ∉ bracket.words) :
      filled.cell image.word name = first.cell image.word name := by
    have stays := saved name member unsaved
    rw [filling.steady.cells name ((by decide : ∀ name ∈ _, name ∈ HigherOrder.others) name stays),
      allocated.steady.cells name ((by decide : ∀ name ∈ _, name ∈ parkedWords) name stays),
      setting.cells name (List.mem_cons_of_mem _ stays), same name member unsaved]
  obtain ⟨after, ends, restored, kept⟩ := restores installed known admits filling.counts.inside
    others holdsRestore fills
  refine ⟨calls, after, output', ?_, ready.filled installed allocated ?_ filling restored
    (kept.mono (by simp) fun _ keeps => keeps)⟩
  · rw [Code.size_append, ← Nat.add_assoc]
    exact ends
  · exact (setting.mono (by simp) fun index live => by
      obtain ⟨block, live, covers⟩ := live
      exact ready.live_above installed live covers).trans
        (allocated.steady.mono (by simp) fun _ live => live)

end

end HigherOrder

end StackBackend
