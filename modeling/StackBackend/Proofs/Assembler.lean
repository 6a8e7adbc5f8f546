import StackBackend.Proofs.Assembling

namespace StackBackend

/-! The assembler as a whole. Which code it accepts, what the image of accepted code is made
of, and which of the defects of other code it reports: the first one of the placement of
labels and data, else the first label that data names in vain, else the first one of the
label of an instruction. -/

open Code

/-! ## Defects -/

namespace Instruction

/-- The defect of an instruction behind other code: a label that is there already, or a
negative size. -/
def misplaced? (before : Code) : Instruction → Option AssemblyError
  | .label name | .dataLabel name =>
      if 0 < before.defines name then some (.duplicateLabel name) else none
  | .dataZ size => if size < 0 then some (.negativeDataSize size) else none
  | _ => none

/-- The defect of data that names a label which is defined nowhere. -/
def dangling? (code : Code) : Instruction → Option AssemblyError
  | .dataD name => if code.defines name = 0 then some (.undefinedLabel name) else none
  | _ => none

/-- The defect of the label of an instruction that is executed. Only a push may name
data. -/
def stray? (code : Code) (instruction : Instruction) : Option AssemblyError :=
  match instruction.labelOperand? with
  | none => none
  | some name =>
      if instruction.isDirective then none
      else if code.defines name = 0 then some (.undefinedLabel name)
      else if instruction = .pushD name ∨ .label name ∈ code then none
      else some (.notCodeLabel instruction.opcode name)

end Instruction

namespace Code

/-- The defects of the placement of code behind other code. -/
def misplacements (before : Code) : Code → List AssemblyError
  | [] => []
  | instruction :: rest =>
      (instruction.misplaced? before).toList ++ misplacements (before ++ [instruction]) rest

/-- The defects of code in the order in which the assembler looks for them. -/
def defects (code : Code) : List AssemblyError :=
  misplacements [] code ++ code.filterMap (Instruction.dangling? code) ++
    code.filterMap (Instruction.stray? code)

/-- Code that can be assembled. -/
structure WellLabelled (code : Code) : Prop where
  once : ∀ name, code.defines name ≤ 1
  sizes : ∀ size, .dataZ size ∈ code → 0 ≤ size
  data : ∀ name, .dataD name ∈ code → 0 < code.defines name
  operands : ∀ instruction ∈ code, instruction.isDirective = false →
    ∀ name, instruction.labelOperand? = some name →
      0 < code.defines name ∧ (instruction = .pushD name ∨ .label name ∈ code)

theorem misplaced?_eq_none {before : Code} {instruction : Instruction} :
    instruction.misplaced? before = none ↔
      (∀ name, instruction.definition? = some name → before.defines name = 0) ∧
        ∀ size, instruction = .dataZ size → 0 ≤ size := by
  cases instruction <;>
    simp [Instruction.misplaced?, Instruction.definition?, Int32.not_lt]

theorem misplacements_eq_nil {before code : Code} :
    misplacements before code = [] ↔
      (∀ name, 0 < code.defines name → before.defines name + code.defines name ≤ 1) ∧
        ∀ size, .dataZ size ∈ code → 0 ≤ size := by
  induction code generalizing before with
  | nil => simp [misplacements]
  | cons instruction rest induction =>
      rw [misplacements, List.append_eq_nil_iff, Option.toList_eq_nil_iff, induction,
        misplaced?_eq_none]
      simp only [defines_append, defines_cons, defines_nil, List.mem_cons, Nat.add_zero]
      constructor
      · rintro ⟨⟨fresh, size⟩, once, sizes⟩
        refine ⟨fun name defined => ?_, fun other member => ?_⟩
        · have := fresh name
          have := once name
          grind
        · obtain same | member := member
          · exact size other same.symm
          · exact sizes other member
      · rintro ⟨once, sizes⟩
        refine ⟨⟨fun name defined => ?_, fun other same => sizes other (.inl same.symm)⟩,
          fun name defined => ?_, fun other member => sizes other (.inr member)⟩
        · have := once name
          grind
        · have := once name
          grind

theorem dangling?_eq_none {code : Code} {instruction : Instruction} :
    instruction.dangling? code = none ↔
      ∀ name, instruction = .dataD name → 0 < code.defines name := by
  cases instruction <;> simp [Instruction.dangling?, Nat.pos_iff_ne_zero]

theorem stray?_eq_none {code : Code} {instruction : Instruction} :
    instruction.stray? code = none ↔ (instruction.isDirective = false →
      ∀ name, instruction.labelOperand? = some name →
        0 < code.defines name ∧ (instruction = .pushD name ∨ .label name ∈ code)) := by
  unfold Instruction.stray?
  grind

theorem defects_eq_nil {code : Code} : code.defects = [] ↔ code.WellLabelled := by
  simp only [defects, List.append_eq_nil_iff, List.filterMap_eq_nil_iff, misplacements_eq_nil,
    defines_nil, Nat.zero_add, dangling?_eq_none, stray?_eq_none]
  constructor
  · rintro ⟨⟨⟨once, sizes⟩, data⟩, operands⟩
    refine ⟨fun name => ?_, sizes, fun name member => data _ member name rfl, operands⟩
    have := once name
    omega
  · rintro ⟨once, sizes, data, operands⟩
    refine ⟨⟨⟨fun name _ => once name, sizes⟩, ?_⟩, operands⟩
    rintro instruction member name rfl
    exact data name member

end Code

/-! ## What is reported -/

namespace Placement

variable {placement : Placement} {before code : Code}

theorem mem_symbols {name : String} (placed : ofCode code = .ok placement) :
    name ∈ placement.symbols ↔ 0 < code.defines name := by
  constructor
  · intro member
    refine Nat.pos_of_ne_zero fun undefined => ?_
    exact symbol_of_undefined Std.HashMap.not_mem_empty undefined placed member
  · intro defined
    rw [Std.HashMap.mem_iff_isSome_getElem?]
    rcases defines_pos.mp defined with member | member
    · obtain ⟨index, found⟩ := symbol_of_label placed member
      simp [found]
    · obtain ⟨address, found⟩ := symbol_of_dataLabel placed member
      simp [found]

theorem error?_place {instruction : Instruction} (placed : ofCode before = .ok placement) :
    Except.error? (placement.place instruction) = instruction.misplaced? before := by
  have known : ∀ name, placement.symbols.contains name = decide (0 < before.defines name) :=
    fun name => by
      rw [Bool.eq_iff_iff, Std.HashMap.contains_iff_mem, decide_eq_true_iff]
      exact mem_symbols placed
  cases instruction <;>
    simp only [place, define, known, Instruction.misplaced?, decide_eq_true_eq] <;>
    first | rfl | (split <;> rfl)

/-- Placing code fails with the first of its misplacements. -/
theorem error?_extend (placed : ofCode before = .ok placement) :
    Except.error? (placement.extend code) = (misplacements before code).head? := by
  induction code generalizing before placement with
  | nil => rfl
  | cons instruction rest induction =>
      have first : Except.error? (placement.place instruction) = instruction.misplaced? before :=
        error?_place placed
      rw [misplacements, extend, List.foldlM_cons, Except.error?_bind, ← first]
      cases next : placement.place instruction with
      | error error => rfl
      | ok after =>
          have further : ofCode (before ++ [instruction]) = .ok after := by
            refine extend_append.mpr ⟨placement, placed, ?_⟩
            obtain ⟨accepts, rfl⟩ := place_eq_ok.mp next
            exact extend_cons.mpr ⟨accepts, rfl⟩
          exact induction further

section

variable (placed : ofCode code = .ok placement)
include placed

theorem resolve_of_undefined_or_defined (name : String) :
    code.defines name = 0 ∧ placement.resolve name = .error (.undefinedLabel name) ∨
      0 < code.defines name ∧ ∃ symbol, placement.resolve name = .ok symbol ∧
        (.label name ∈ code ↔ ∃ index, symbol = .code index) := by
  rcases Nat.eq_zero_or_pos (code.defines name) with undefined | defined
  · exact .inl ⟨undefined, resolve_of_missing placed undefined⟩
  · refine .inr ⟨defined, ?_⟩
    by_cases label : .label name ∈ code
    · obtain ⟨index, found⟩ := symbol_of_label placed label
      exact ⟨_, resolve_eq_ok.mpr found, by simp [label]⟩
    · obtain ⟨address, found⟩ :=
        symbol_of_dataLabel placed ((defines_pos.mp defined).resolve_left label)
      exact ⟨_, resolve_eq_ok.mpr found, by simp [label]⟩

theorem error?_resolveDatum {instruction : Instruction} :
    (instruction.datum?.bind fun datum => Except.error? (placement.resolveDatum datum)) =
      instruction.dangling? code := by
  cases instruction with
  | dataD name =>
      simp only [Instruction.datum?, Option.bind_some, resolveDatum, Except.error?_bind,
        Instruction.dangling?]
      rcases resolve_of_undefined_or_defined placed name with
        ⟨undefined, failed⟩ | ⟨defined, symbol, found, _⟩
      · rw [failed, if_pos undefined]
      · rw [found, if_neg (Nat.pos_iff_ne_zero.mp defined)]
        rfl
  | _ => rfl

theorem error?_target {instruction : Instruction} (executed : instruction.isDirective = false) :
    Except.error? (placement.target instruction) = instruction.stray? code := by
  unfold target Instruction.stray?
  cases operand : instruction.labelOperand? with
  | none => rfl
  | some name =>
      simp only [executed, Bool.false_eq_true, if_false]
      rcases resolve_of_undefined_or_defined placed name with
        ⟨undefined, failed⟩ | ⟨defined, symbol, found, kind⟩
      · rw [failed, if_pos undefined]
        rfl
      · rw [found, if_neg (Nat.pos_iff_ne_zero.mp defined)]
        rw [Except.error?_bind]
        dsimp only
        split
        · cases operand
          simp [Except.error?, pure, Except.pure]
        · simp [Except.error?, pure, Except.pure, kind]
        · rename_i push
          have other : instruction ≠ .pushD name := push name
          simp [Except.error?, kind, other]

theorem error?_placed {instruction : Instruction} :
    (if (!instruction.isDirective) = true then Except.error? (do
      return Placed.mk instruction (← placement.target instruction)) else none) =
      instruction.stray? code := by
  cases executed : instruction.isDirective with
  | true =>
      unfold Instruction.stray?
      simp [executed]
      cases instruction.labelOperand? <;> rfl
  | false =>
      rw [Bool.not_false, if_pos rfl, ← error?_target placed executed, Except.error?_bind]
      cases placement.target instruction <;> rfl

end

end Placement

namespace Image

variable {code : Code}

/-- The assembler reports the first defect of the code. -/
theorem error?_assemble (code : Code) : Except.error? (assemble code) = code.defects.head? := by
  have reported : Except.error? (Placement.empty.extend code) = (misplacements [] code).head? :=
    Placement.error?_extend rfl
  rw [assemble, Except.error?_bind, defects, List.append_assoc]
  cases placed : Placement.ofCode code with
  | error error =>
      have first : some error = (misplacements [] code).head? :=
        (congrArg Except.error? placed).symm.trans reported
      rw [List.head?_append, ← first]
      rfl
  | ok placement =>
      have none : none = (misplacements [] code).head? :=
        (congrArg Except.error? placed).symm.trans reported
      have data : placement.data.toList = code.filterMap Instruction.datum? :=
        Placement.data_extend placed
      have instructions : placement.code.toList = code.filter (!·.isDirective) :=
        Placement.code_extend placed
      have dangling : Except.error? (placement.data.toList.mapM placement.resolveDatum) =
          (code.filterMap (Instruction.dangling? code)).head? := by
        rw [Except.error?_mapM, data, List.filterMap_filterMap]
        refine congrArg (fun defect => (code.filterMap defect).head?) (funext fun instruction => ?_)
        exact Placement.error?_resolveDatum placed
      have stray : Except.error? (placement.code.toList.mapM fun instruction => do
            return Placed.mk instruction (← placement.target instruction)) =
          (code.filterMap (Instruction.stray? code)).head? := by
        rw [Except.error?_mapM, instructions, List.filterMap_filter]
        refine congrArg (fun defect => (code.filterMap defect).head?) (funext fun instruction => ?_)
        exact Placement.error?_placed placed
      rw [List.head?_append, ← none, Option.none_or, List.head?_append, ← dangling, ← stray]
      change Except.error? (ofPlacement placement) = _
      rw [ofPlacement, Except.error?_bind]
      cases placement.data.toList.mapM placement.resolveDatum with
      | error error => rfl
      | ok resolved =>
          simp only [Array.mapM_eq_mapM_toList, Except.error?_bind]
          cases (placement.code.toList.mapM fun instruction => do
            return Placed.mk instruction (← placement.target instruction)) <;> rfl

theorem assemble_eq_error {error : AssemblyError} :
    assemble code = .error error ↔ code.defects.head? = some error := by
  rw [← error?_assemble, Except.error?_eq_some]

theorem exists_image_iff : (∃ image, assemble code = .ok image) ↔ code.WellLabelled := by
  rw [← Except.error?_eq_none, error?_assemble, List.head?_eq_none_iff, defects_eq_nil]

end Image

/-! ## What is made -/

/-- The index or address that a label stands for. -/
def Symbol.position : Symbol → Nat
  | .code index => index
  | .data address => address

namespace Instruction

/-- The bytes that a directive lays out when labels stand for words. -/
def bytes (word : String → Int32) : Instruction → List UInt8
  | .dataC byte => [byte]
  | .dataI value => WordBytes.ofInt32 value
  | .dataF value => WordBytes.ofBinary64 value
  | .dataS text => text.toUTF8.toList ++ [0]
  | .dataZ size => List.replicate size.toInt.toNat 0
  | .dataD name => WordBytes.ofInt32 (word name)
  | _ => []

/-- The label that a jump or a call goes to. -/
def destination? : Instruction → Option String
  | .jump name | .jumpTrue name | .jumpFalse name | .jumpPos name | .jumpNeg name
  | .jumpFPos name | .jumpFNeg name | .jumpFZero name | .call name => some name
  | _ => none

theorem labelOperand?_of_destination? {instruction : Instruction} {name : String}
    (goes : instruction.destination? = some name) :
    instruction.labelOperand? = some name ∧ instruction.isDirective = false ∧
      instruction ≠ .pushD name := by
  cases instruction <;> cases goes <;> exact ⟨rfl, rfl, nofun⟩

theorem length_bytes (word : String → Int32) (instruction : Instruction) :
    (instruction.bytes word).length = instruction.dataSize := by
  cases instruction <;>
    simp [bytes, dataSize, datum?, Datum.size, WordBytes.ofInt32, WordBytes.ofBinary64]

end Instruction

theorem Code.length_bytes (word : String → Int32) (code : Code) :
    (code.flatMap (Instruction.bytes word)).length = code.dataSize := by
  induction code with
  | nil => rfl
  | cons instruction rest induction =>
      rw [List.flatMap_cons, List.length_append, Instruction.length_bytes, induction, dataSize_cons]

/-- A label stands for the executed instructions before it, a data label for the bytes of
data before it. -/
inductive Code.Places : Code → String → Symbol → Prop
  | label (before : Code) (name : String) (rest : Code) :
      Places (before ++ .label name :: rest) name (.code before.size)
  | dataLabel (before : Code) (name : String) (rest : Code) :
      Places (before ++ .dataLabel name :: rest) name (.data before.dataSize)

/-- No label stands behind the end of its segment. -/
theorem Code.Places.position_le {code : Code} {name : String} {symbol : Symbol}
    (places : code.Places name symbol) : symbol.position ≤ max code.size code.dataSize := by
  cases places with
  | label before name rest =>
      rw [size_append, Symbol.position]
      omega
  | dataLabel before name rest =>
      rw [dataSize_append, Symbol.position]
      omega

/-- The image that is made of code. -/
structure Image.Renders (image : Image) (code : Code) : Prop where
  /-- The instructions that are executed, in order, each with the word of its label. -/
  instructions : image.code.toList = (code.filter (!·.isDirective)).map fun instruction =>
    ⟨instruction, instruction.target image.word⟩
  /-- The directives that lay out data, in order. -/
  data : image.dataSegment = code.flatMap (Instruction.bytes image.word)
  extent : ∀ before : Code, before <+: code →
    (before.flatMap (Instruction.bytes image.word)).length = before.dataSize
  symbols : ∀ name symbol, image.symbols[name]? = some symbol ↔ code.Places name symbol
  words : ∀ name symbol, code.Places name symbol → (image.word name).toInt = symbol.position
  /-- Jumps and calls lead into the code or right behind it. -/
  destinations : ∀ placed ∈ image.code, placed.instruction.destination?.isSome = true →
    0 ≤ placed.target.toInt ∧ placed.target.toInt ≤ image.code.size

namespace Image

variable {code : Code} {image : Image}

theorem Assembled.symbols_iff {placement : Placement} (made : Assembled code image placement)
    (name : String) (symbol : Symbol) :
    image.symbols[name]? = some symbol ↔ code.Places name symbol := by
  rw [made.symbols]
  have placed := made.placed
  constructor
  · intro found
    have member : name ∈ placement.symbols :=
      Std.HashMap.mem_iff_isSome_getElem?.mpr (by rw [found]; rfl)
    rcases defines_pos.mp ((Placement.mem_symbols placed).mp member) with label | label
    · obtain ⟨before, rest, rfl⟩ := List.append_of_mem label
      rw [Placement.symbol_label placed] at found
      cases found
      exact .label before name rest
    · obtain ⟨before, rest, rfl⟩ := List.append_of_mem label
      rw [Placement.symbol_dataLabel placed] at found
      cases found
      exact .dataLabel before name rest
  · rintro (⟨before, _, rest⟩ | ⟨before, _, rest⟩)
    · exact Placement.symbol_label placed
    · exact Placement.symbol_dataLabel placed

theorem Assembled.code_toList {placement : Placement} (made : Assembled code image placement) :
    image.code.toList = (code.filter (!·.isDirective)).map fun instruction =>
      ⟨instruction, instruction.target image.word⟩ := by
  have instructions : placement.code.toList = code.filter (!·.isDirective) :=
    Placement.code_extend made.placed
  have known : ∀ instruction placed, (do
      return Placed.mk instruction (← placement.target instruction)) = .ok placed →
      id placed = Placed.mk instruction (instruction.target image.word) := by
    intro instruction placed found
    obtain ⟨word, target, built⟩ := Except.bind_eq_ok.mp found
    obtain rfl := Except.pure_eq_ok.mp built
    rw [Placement.target_eq_ok target, ← made.symbols]
    rfl
  rw [← instructions, ← Except.map_of_mapM known made.code, List.map_id]

theorem content_of_resolveDatum {placement : Placement}
    (symbols : image.symbols = placement.symbols) {instruction : Instruction}
    {datum resolved : Datum} (laid : instruction.datum? = some datum)
    (found : placement.resolveDatum datum = .ok resolved) :
    resolved.content = instruction.bytes image.word := by
  cases instruction <;> cases laid
  case dataD name =>
    obtain ⟨symbol, resolves, same⟩ := Except.bind_eq_ok.mp found
    cases same
    rw [Placement.resolve_eq_ok, ← symbols] at resolves
    simp [Instruction.bytes, word, resolves, Datum.content]
  all_goals
    cases found
    rfl

theorem flatMap_content_of_mapM {placement : Placement}
    (symbols : image.symbols = placement.symbols) {pieces : List Datum}
    (resolved : (code.filterMap Instruction.datum?).mapM placement.resolveDatum = .ok pieces) :
    pieces.flatMap Datum.content = code.flatMap (Instruction.bytes image.word) := by
  induction code generalizing pieces with
  | nil =>
      cases resolved
      rfl
  | cons instruction rest induction =>
      rw [List.flatMap_cons]
      cases laid : instruction.datum? with
      | none =>
          have silent : instruction.bytes image.word = [] := by
            cases instruction <;> first | rfl | cases laid
          rw [List.filterMap_cons_none laid] at resolved
          rw [silent, List.nil_append, induction resolved]
      | some datum =>
          rw [List.filterMap_cons_some laid, List.mapM_cons] at resolved
          simp only [Except.bind_eq_ok, Except.pure_eq_ok] at resolved
          obtain ⟨piece, found, others, resolved, rfl⟩ := resolved
          rw [List.flatMap_cons, content_of_resolveDatum symbols laid found, induction resolved]

theorem Assembled.dataSegment {placement : Placement} (made : Assembled code image placement) :
    image.dataSegment = code.flatMap (Instruction.bytes image.word) := by
  have data : placement.data.toList = code.filterMap Instruction.datum? :=
    Placement.data_extend made.placed
  have resolved := made.data
  rw [data] at resolved
  exact flatMap_content_of_mapM made.symbols resolved

theorem Assembled.toInt_word {placement : Placement} (made : Assembled code image placement)
    {name : String} {symbol : Symbol} (places : code.Places name symbol)
    (fits : symbol.position < 2147483648) : (image.word name).toInt = symbol.position := by
  rw [word, (made.symbols_iff name symbol).mpr places]
  cases symbol <;> exact Int32.toInt_ofNat_of_lt fits

/-- What is executed is an instruction of the code that is no directive, with the word of its
label. -/
theorem mem_of_assemble (assembled : assemble code = .ok image) {placed : Placed}
    (member : placed ∈ image.code) : ∃ instruction ∈ code, instruction.isDirective = false ∧
      placed = ⟨instruction, instruction.target image.word⟩ := by
  obtain ⟨placement, made⟩ := assembled_of_assemble assembled
  have listed : placed ∈ image.code.toList := Array.mem_toList_iff.mpr member
  rw [made.code_toList] at listed
  obtain ⟨instruction, inCode, rfl⟩ := List.mem_map.mp listed
  obtain ⟨inCode, executed⟩ := List.mem_filter.mp inCode
  exact ⟨instruction, inCode, by simpa using executed, rfl⟩

theorem destination_of_assemble (assembled : assemble code = .ok image)
    (codeFits : code.size < 2147483648) {placed : Placed} (member : placed ∈ image.code)
    (goes : placed.instruction.destination?.isSome = true) :
    0 ≤ placed.target.toInt ∧ placed.target.toInt ≤ image.code.size := by
  obtain ⟨placement, made⟩ := assembled_of_assemble assembled
  obtain ⟨name, goes⟩ := Option.isSome_iff_exists.mp goes
  obtain ⟨instruction, inCode, executed, rfl⟩ := mem_of_assemble assembled member
  obtain ⟨operand, _, other⟩ := Instruction.labelOperand?_of_destination? goes
  have labelled := exists_image_iff.mp ⟨image, assembled⟩
  have label := (labelled.operands instruction inCode executed name operand).2.resolve_left other
  obtain ⟨before, rest, rfl⟩ := List.append_of_mem label
  rw [size_append] at codeFits
  have fits : (Symbol.code (size before)).position < 2147483648 :=
    Nat.lt_of_le_of_lt (Nat.le_add_right ..) codeFits
  have position := made.toInt_word (.label before name rest) fits
  have word : instruction.target image.word = image.word name := by
    rw [Instruction.target, operand]
  rw [word, position, codeSize_of_assemble assembled, size_append, Symbol.position]
  omega

theorem renders_of_assemble (assembled : assemble code = .ok image)
    (codeFits : code.size < 2147483648) (dataFits : code.dataSize < 2147483648) :
    image.Renders code := by
  obtain ⟨placement, made⟩ := assembled_of_assemble assembled
  have words : ∀ name symbol, code.Places name symbol →
      (image.word name).toInt = symbol.position := by
    intro name symbol places
    have below := places.position_le
    exact made.toInt_word places (by omega)
  exact ⟨made.code_toList, made.dataSegment, fun before _ => length_bytes image.word before,
    made.symbols_iff, words, fun _ => destination_of_assemble assembled codeFits⟩

end Image

/-! ## The assembler -/

namespace Code

/-- Code without defects has an image, which renders it; otherwise the first defect is
reported. -/
theorem assembles_or_reports (code : Code) (codeFits : code.size < 2147483648)
    (dataFits : code.dataSize < 2147483648) :
    ((∃ image, Image.assemble code = .ok image) ↔ code.WellLabelled) ∧
      (∀ image, Image.assemble code = .ok image → image.Renders code) ∧
      ∀ error, Image.assemble code = .error error ↔ code.defects.head? = some error :=
  ⟨Image.exists_image_iff, fun _ assembled => Image.renders_of_assemble assembled codeFits dataFits,
    fun _ => Image.assemble_eq_error⟩

/-- Code and data that name each other. -/
def crossing : Code :=
  [.jump "end", .dataLabel "cell", .dataD "end", .label "end", .pushD "cell", .loadI]

theorem crossing_rendered :
    crossing.size < 2147483648 ∧ crossing.dataSize < 2147483648 ∧
      ∃ image, Image.assemble crossing = .ok image ∧ image.dataSegment = [1, 0, 0, 0] ∧
        image.code.toList = [⟨.jump "end", 1⟩, ⟨.pushD "cell", 0⟩, ⟨.loadI, 0⟩] := by
  have codeFits : crossing.size < 2147483648 := by decide
  have dataFits : crossing.dataSize < 2147483648 := by decide
  obtain ⟨assembles, renders, _⟩ := assembles_or_reports crossing codeFits dataFits
  obtain ⟨image, assembled⟩ := assembles.mpr (defects_eq_nil.mp (by decide))
  have rendered := renders image assembled
  have words : image.word "end" = 1 ∧ image.word "cell" = 0 :=
    ⟨Int32.toInt_inj.mp (rendered.words "end" _ (.label (crossing.take 3) "end" _)),
      Int32.toInt_inj.mp (rendered.words "cell" _ (.dataLabel (crossing.take 1) "cell" _))⟩
  refine ⟨codeFits, dataFits, image, assembled, ?_, ?_⟩
  · rw [rendered.data]
    simp [crossing, Instruction.bytes, words]
    decide
  · rw [rendered.instructions]
    simp [crossing, Instruction.target, Instruction.labelOperand?, Instruction.operand,
      Instruction.isDirective, words]

example : defects [.dataD "x", .jump "y", .label "a", .dataZ (-1), .dataLabel "a"] =
    [.negativeDataSize (-1), .duplicateLabel "a", .undefinedLabel "x", .undefinedLabel "y"] := by
  decide

end Code

end StackBackend
