import StackBackend.Proofs.Checked
import StackBackend.Proofs.Run

namespace StackBackend

/-! What an assembled image is made of. Code and data are laid out in the order
in which they are written down, so a piece of code stands where what precedes it
ends. -/

/-! ## Measures of code -/

namespace Instruction

/-- The piece of data that a directive lays out. -/
def datum? : Instruction → Option Datum
  | .dataC byte => some (.bytes [byte])
  | .dataI value => some (.bytes (WordBytes.ofInt32 value))
  | .dataF value => some (.bytes (WordBytes.ofBinary64 value))
  | .dataS text => some (.bytes (text.toUTF8.toList ++ [0]))
  | .dataZ size => some (.zeros size.toNatClampNeg)
  | .dataD name => some (.reference name)
  | _ => none

/-- The bytes of data that a directive takes. -/
def dataSize (instruction : Instruction) : Nat :=
  match instruction.datum? with
  | some datum => datum.size
  | none => 0

/-- The label that a directive defines. -/
def definition? : Instruction → Option String
  | .label name | .dataLabel name => some name
  | _ => none

/-- Whether the directive asks for a negative number of zero bytes. -/
def isNegative : Instruction → Bool
  | .dataZ size => size < 0
  | _ => false

end Instruction

namespace Code

/-- The bytes of data that code lays out. -/
def dataSize : Code → Nat
  | [] => 0
  | instruction :: rest => instruction.dataSize + dataSize rest

@[simp] theorem dataSize_nil : dataSize [] = 0 := rfl

@[simp] theorem dataSize_cons (instruction : Instruction) (rest : Code) :
    dataSize (instruction :: rest) = instruction.dataSize + dataSize rest := rfl

@[simp] theorem dataSize_append (first second : Code) :
    dataSize (first ++ second) = dataSize first + dataSize second := by
  induction first with
  | nil => simp
  | cons instruction rest induction => simp [induction, Nat.add_assoc]

/-- How often code defines a label. -/
def defines (name : String) : Code → Nat
  | [] => 0
  | instruction :: rest =>
      (if instruction.definition? = some name then 1 else 0) + defines name rest

@[simp] theorem defines_nil (name : String) : defines name [] = 0 := rfl

@[simp] theorem defines_cons (name : String) (instruction : Instruction) (rest : Code) :
    defines name (instruction :: rest) =
      (if instruction.definition? = some name then 1 else 0) + defines name rest := rfl

@[simp] theorem defines_append (name : String) (first second : Code) :
    defines name (first ++ second) = defines name first + defines name second := by
  induction first with
  | nil => simp
  | cons instruction rest induction => simp [induction, Nat.add_assoc]

end Code

/-! ## Placement -/

namespace Placement

/-- The placement after an instruction that can be placed. -/
def after (placement : Placement) (instruction : Instruction) : Placement where
  symbols :=
    match instruction with
    | .label name => placement.symbols.insert name (.code placement.code.size)
    | .dataLabel name => placement.symbols.insert name (.data placement.dataSize)
    | _ => placement.symbols
  code :=
    if instruction.isDirective then placement.code else placement.code.push instruction
  data :=
    match instruction.datum? with
    | some datum => placement.data.push datum
    | none => placement.data
  dataSize := placement.dataSize + instruction.dataSize

theorem code_after (placement : Placement) (instruction : Instruction) :
    (placement.after instruction).code =
      if instruction.isDirective then placement.code else placement.code.push instruction := rfl

theorem data_after (placement : Placement) (instruction : Instruction) :
    (placement.after instruction).data =
      match instruction.datum? with
      | some datum => placement.data.push datum
      | none => placement.data := rfl

theorem dataSize_after (placement : Placement) (instruction : Instruction) :
    (placement.after instruction).dataSize = placement.dataSize + instruction.dataSize := rfl

/-- Nothing stands in the way of placing the instruction. -/
def Accepts (placement : Placement) (instruction : Instruction) : Prop :=
  (∀ name, instruction.definition? = some name → name ∉ placement.symbols) ∧
    instruction.isNegative = false

theorem define_eq_ok {placement next : Placement} {name : String} {symbol : Symbol} :
    placement.define name symbol = .ok next ↔
      name ∉ placement.symbols ∧
        next = { placement with symbols := placement.symbols.insert name symbol } := by
  unfold define
  rw [Std.HashMap.mem_iff_contains]
  split
  · simp_all
  · rename_i absent
    simp only [absent, Bool.not_eq_true, true_and, Except.ok.injEq]
    exact eq_comm

theorem place_eq_ok {placement next : Placement} {instruction : Instruction} :
    placement.place instruction = .ok next ↔
      placement.Accepts instruction ∧ next = placement.after instruction := by
  cases instruction with
  | label name =>
      rw [place, define_eq_ok]
      simp [Accepts, after, Instruction.definition?, Instruction.isNegative,
        Instruction.isDirective, Instruction.datum?, Instruction.dataSize]
  | dataLabel name =>
      rw [place, define_eq_ok]
      simp [Accepts, after, Instruction.definition?, Instruction.isNegative,
        Instruction.isDirective, Instruction.datum?, Instruction.dataSize]
  | dataZ size =>
      rw [place]
      split <;> simp_all [Accepts, after, addDatum, Instruction.definition?,
        Instruction.isNegative, Instruction.isDirective, Instruction.datum?,
        Instruction.dataSize, eq_comm]
  | _ =>
      simp [place, Accepts, after, addDatum, Instruction.definition?, Instruction.isNegative,
        Instruction.isDirective, Instruction.datum?, Instruction.dataSize, eq_comm]

/-- Places code after what is placed already. -/
def extend (placement : Placement) (code : Code) : Except AssemblyError Placement :=
  code.foldlM place placement

@[simp] theorem extend_nil (placement : Placement) : placement.extend [] = .ok placement := rfl

theorem extend_cons {placement last : Placement} {instruction : Instruction} {rest : Code} :
    placement.extend (instruction :: rest) = .ok last ↔
      placement.Accepts instruction ∧ (placement.after instruction).extend rest = .ok last := by
  rw [extend, List.foldlM_cons]
  cases placed : placement.place instruction with
  | error defect =>
      simp only [bind, Except.bind, reduceCtorEq, false_iff, not_and]
      intro accepts
      rw [Iff.mpr place_eq_ok ⟨accepts, rfl⟩] at placed
      cases placed
  | ok next =>
      obtain ⟨accepts, rfl⟩ := Iff.mp place_eq_ok placed
      simp [bind, Except.bind, accepts, extend]

theorem extend_append {placement last : Placement} {first second : Code} :
    placement.extend (first ++ second) = .ok last ↔
      ∃ middle, placement.extend first = .ok middle ∧ middle.extend second = .ok last := by
  induction first generalizing placement with
  | nil => simp
  | cons instruction rest induction =>
      rw [List.cons_append, extend_cons, induction]
      constructor
      · rintro ⟨accepts, middle, left, right⟩
        exact ⟨middle, extend_cons.mpr ⟨accepts, left⟩, right⟩
      · rintro ⟨middle, left, right⟩
        obtain ⟨accepts, left⟩ := extend_cons.mp left
        exact ⟨accepts, middle, left, right⟩

/-! What placing code adds. -/

section

variable {placement last : Placement} {code : Code}

theorem code_extend (extended : placement.extend code = .ok last) :
    last.code.toList = placement.code.toList ++ code.filter (!·.isDirective) := by
  induction code generalizing placement with
  | nil =>
      cases extended
      simp
  | cons instruction rest induction =>
      obtain ⟨_, extended⟩ := extend_cons.mp extended
      rw [induction extended, code_after]
      cases directive : instruction.isDirective <;> simp [directive]

theorem codeSize_extend (extended : placement.extend code = .ok last) :
    last.code.size = placement.code.size + code.size := by
  have lists := congrArg List.length (code_extend extended)
  rw [List.length_append, ← List.countP_eq_length_filter] at lists
  exact lists

theorem dataSize_extend (extended : placement.extend code = .ok last) :
    last.dataSize = placement.dataSize + code.dataSize := by
  induction code generalizing placement with
  | nil =>
      cases extended
      simp
  | cons instruction rest induction =>
      obtain ⟨_, extended⟩ := extend_cons.mp extended
      rw [induction extended, dataSize_after, Code.dataSize_cons, Nat.add_assoc]

theorem data_extend (extended : placement.extend code = .ok last) :
    last.data.toList = placement.data.toList ++ code.filterMap Instruction.datum? := by
  induction code generalizing placement with
  | nil =>
      cases extended
      simp
  | cons instruction rest induction =>
      obtain ⟨_, extended⟩ := extend_cons.mp extended
      rw [induction extended, data_after]
      cases found : instruction.datum? <;> simp [found]

/-- A label keeps the place it was given. -/
theorem symbol_after {name : String} {symbol : Symbol} {instruction : Instruction}
    (accepts : placement.Accepts instruction) (known : placement.symbols[name]? = some symbol) :
    (placement.after instruction).symbols[name]? = some symbol := by
  have member : name ∈ placement.symbols :=
    Std.HashMap.mem_iff_isSome_getElem?.mpr (by rw [known]; rfl)
  have different : ∀ other, instruction.definition? = some other → other ≠ name := by
    rintro other defined rfl
    exact accepts.1 other defined member
  unfold after
  cases instruction <;>
    first
      | exact known
      | (rw [Std.HashMap.getElem?_insert, if_neg (by simpa using different _ rfl)]; exact known)

theorem not_mem_after {name : String} {instruction : Instruction}
    (absent : name ∉ placement.symbols) (different : instruction.definition? ≠ some name) :
    name ∉ (placement.after instruction).symbols := by
  unfold after
  cases instruction with
  | label other | dataLabel other =>
      have unequal : other ≠ name := fun same => different (by rw [same]; rfl)
      simp only [Std.HashMap.mem_insert, beq_iff_eq, not_or]
      exact ⟨unequal, absent⟩
  | _ => exact absent

theorem symbol_extend {name : String} {symbol : Symbol}
    (extended : placement.extend code = .ok last)
    (known : placement.symbols[name]? = some symbol) :
    last.symbols[name]? = some symbol := by
  induction code generalizing placement with
  | nil =>
      cases extended
      exact known
  | cons instruction rest induction =>
      obtain ⟨accepts, extended⟩ := extend_cons.mp extended
      exact induction extended (symbol_after accepts known)

end

/-! Where labels are. -/

section

variable {last : Placement} {before rest : Code} {name : String}

theorem symbol_label (placed : ofCode (before ++ .label name :: rest) = .ok last) :
    last.symbols[name]? = some (.code before.size) := by
  obtain ⟨middle, first, second⟩ := extend_append.mp placed
  obtain ⟨_, second⟩ := extend_cons.mp second
  have size : middle.code.size = before.size := by
    rw [codeSize_extend first]
    exact Nat.zero_add before.size
  refine symbol_extend second ?_
  simp [after, size]

theorem symbol_dataLabel (placed : ofCode (before ++ .dataLabel name :: rest) = .ok last) :
    last.symbols[name]? = some (.data before.dataSize) := by
  obtain ⟨middle, first, second⟩ := extend_append.mp placed
  obtain ⟨_, second⟩ := extend_cons.mp second
  have size : middle.dataSize = before.dataSize := by
    rw [dataSize_extend first]
    exact Nat.zero_add before.dataSize
  refine symbol_extend second ?_
  simp [after, size]

end

/-- Code whose labels are all different, and which asks for no negative size, can be
placed. -/
theorem extend_isOk {placement : Placement} {code : Code}
    (fresh : ∀ name, 0 < code.defines name → name ∉ placement.symbols)
    (once : ∀ name, code.defines name ≤ 1)
    (sizes : ∀ instruction ∈ code, instruction.isNegative = false) :
    ∃ last, placement.extend code = .ok last := by
  induction code generalizing placement with
  | nil => exact ⟨placement, rfl⟩
  | cons instruction rest induction =>
      have accepts : placement.Accepts instruction := by
        refine ⟨fun name defined => fresh name ?_, sizes instruction (by simp)⟩
        rw [Code.defines_cons, if_pos defined]
        omega
      have freshAfter : ∀ name, 0 < Code.defines name rest →
          name ∉ (placement.after instruction).symbols := by
        intro name defined
        have notFirst : instruction.definition? ≠ some name := by
          intro same
          have bound := once name
          rw [Code.defines_cons, if_pos same] at bound
          omega
        have absent := fresh name (by rw [Code.defines_cons]; omega)
        exact not_mem_after absent notFirst
      have onceAfter : ∀ name, Code.defines name rest ≤ 1 := by
        intro name
        have bound := once name
        rw [Code.defines_cons] at bound
        omega
      obtain ⟨last, extended⟩ := induction freshAfter onceAfter
        fun other member => sizes other (List.mem_cons_of_mem _ member)
      exact ⟨last, extend_cons.mpr ⟨accepts, extended⟩⟩

/-! What the labels of code resolve to. -/

section

variable {placement : Placement} {symbol : Symbol}

theorem resolve_eq_ok {name : String} :
    placement.resolve name = .ok symbol ↔ placement.symbols[name]? = some symbol := by
  unfold resolve
  cases placement.symbols[name]? <;> simp

theorem target_eq_ok {instruction : Instruction} {word : Int32}
    (found : placement.target instruction = .ok word) :
    word = match instruction.labelOperand? with
      | some name => match placement.symbols[name]? with
        | some symbol => symbol.word
        | none => 0
      | none => 0 := by
  unfold target at found
  cases operand : instruction.labelOperand? with
  | none =>
      rw [operand] at found
      cases found
      rfl
  | some name =>
      simp only [operand, Except.bind_eq_ok] at found
      obtain ⟨symbol, resolved, found⟩ := found
      simp only [resolve_eq_ok.mp resolved]
      split at found <;> cases found <;> rfl

end

end Placement

/-! ## Images -/

namespace Image

variable {code : Code} {image : Image}

/-- What assembled code is made of. -/
structure Assembled (code : Code) (image : Image) (placement : Placement) : Prop where
  placed : Placement.ofCode code = .ok placement
  symbols : image.symbols = placement.symbols
  dataSize : image.dataSize = placement.dataSize
  data : placement.data.toList.mapM placement.resolveDatum = .ok image.data
  code : (placement.code.toList.mapM fun instruction => do
    return Placed.mk instruction (← placement.target instruction)) = .ok image.code.toList

theorem assembled_of_assemble (assembled : assemble code = .ok image) :
    ∃ placement, Assembled code image placement := by
  obtain ⟨placement, placed, built⟩ := Except.bind_eq_ok.mp assembled
  obtain ⟨data, dataResolved, built⟩ := Except.bind_eq_ok.mp built
  obtain ⟨placedCode, codeResolved, built⟩ := Except.bind_eq_ok.mp built
  obtain rfl := Except.pure_eq_ok.mp built
  refine ⟨placement, placed, rfl, rfl, dataResolved, ?_⟩
  have lists := congrArg (Functor.map Array.toList) codeResolved
  rw [Array.toList_mapM] at lists
  exact lists

theorem code_eq (assembled : assemble code = .ok image) {before rest : Code}
    {instruction : Instruction} (parts : code = before ++ instruction :: rest)
    (executed : instruction.isDirective = false) :
    image.code[before.size]? = some ⟨instruction, instruction.target image.word⟩ := by
  obtain ⟨placement, made⟩ := assembled_of_assemble assembled
  have listed := Placement.code_extend made.placed
  have found : placement.code.toList[before.size]? = some instruction := by
    rw [listed, parts, List.filter_append, List.filter_cons, executed]
    change (([] : List Instruction) ++ _)[_]? = _
    rw [List.nil_append, List.getElem?_append_right (by
      rw [← List.countP_eq_length_filter]
      exact Nat.le_refl _)]
    rw [← List.countP_eq_length_filter]
    change (instruction :: _)[before.size - before.size]? = _
    rw [Nat.sub_self]
    rfl
  obtain ⟨placed, resolved, there⟩ := (Except.mapM_get made.code).2 _ _ found
  obtain ⟨word, target, built⟩ := Except.bind_eq_ok.mp resolved
  obtain rfl := Except.pure_eq_ok.mp built
  rw [← Array.getElem?_toList, there, Placement.target_eq_ok target, ← made.symbols]
  rfl

theorem codeSize_of_assemble (assembled : assemble code = .ok image) :
    image.code.size = code.size := by
  obtain ⟨placement, made⟩ := assembled_of_assemble assembled
  have lengths := (Except.mapM_get made.code).1
  have placed := Placement.codeSize_extend made.placed
  change image.code.size = placement.code.size at lengths
  rw [lengths, placed]
  exact Nat.zero_add _

/-- Assembled code stands in its image from the start on. -/
theorem holds_of_assemble (assembled : assemble code = .ok image) : image.Holds code 0 := by
  obtain ⟨placement, made⟩ := assembled_of_assemble assembled
  suffices all : ∀ rest before, code = before ++ rest → image.Holds rest before.size from
    all code [] rfl
  intro rest
  induction rest with
  | nil => exact fun before _ => holds_nil _
  | cons instruction rest induction =>
      intro before parts
      have others := induction (before ++ [instruction]) (by rw [parts, List.append_assoc]; rfl)
      rw [Code.size_append, Code.size_cons, Code.size_nil] at others
      cases directive : instruction.isDirective with
      | false =>
          rw [directive] at others
          exact (holds_cons directive rest before.size).mpr ⟨code_eq assembled parts directive, others⟩
      | true =>
          rw [directive] at others
          by_cases label : ∃ name, instruction = .label name
          · obtain ⟨name, rfl⟩ := label
            have placed := made.placed
            rw [parts] at placed
            refine (holds_label name rest before.size).mpr ⟨⟨?_, ?_⟩, others⟩
            · rw [made.symbols]
              exact Placement.symbol_label placed
            · rw [codeSize_of_assemble assembled, parts, Code.size_append]
              exact Nat.le_add_right _ _
          · exact (holds_directive directive (fun name same => label ⟨name, same⟩) rest
              before.size).mpr others

/-- A data label stands for the bytes of data before it. -/
theorem symbol_of_assemble (assembled : assemble code = .ok image) {before rest : Code}
    {name : String} (parts : code = before ++ .dataLabel name :: rest) :
    image.symbols[name]? = some (.data before.dataSize) := by
  obtain ⟨placement, made⟩ := assembled_of_assemble assembled
  have placed := made.placed
  rw [parts] at placed
  rw [made.symbols]
  exact Placement.symbol_dataLabel placed

theorem dataSize_of_assemble (assembled : assemble code = .ok image) :
    image.dataSize = code.dataSize := by
  obtain ⟨placement, made⟩ := assembled_of_assemble assembled
  rw [made.dataSize, Placement.dataSize_extend made.placed]
  exact Nat.zero_add _

end Image

end StackBackend
