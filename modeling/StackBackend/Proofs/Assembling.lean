import StackBackend.Proofs.Linking

namespace StackBackend

/-! Generated programs can be assembled. No label is defined twice, since the labels of
the environment carry no serial number and every construct has one of its own; and
every label that is referred to is defined. Without the heap manager only labels of
the heap manager can be missing. -/

open Generation Code

/-! ## Resolved code -/

namespace Code

/-- The labels that the code defines, and labels of code that may be missing. -/
def directory (code : Code) (missing : List String) : Directory where
  code name := .label name ∈ code ∨ name ∈ missing
  data name := .dataLabel name ∈ code

theorem introduced_directory (code : Code) (missing : List String) :
    code.Introduced (code.directory missing) := by
  intro instruction member
  cases instruction <;> first | exact .inl member | exact member | trivial

theorem defines_pos {code : Code} {name : String} :
    0 < code.defines name ↔ .label name ∈ code ∨ .dataLabel name ∈ code := by
  induction code with
  | nil => simp
  | cons instruction rest induction =>
      have first : instruction.definition? = some name ↔
          .label name = instruction ∨ .dataLabel name = instruction := by
        cases instruction <;> simp [Instruction.definition?, eq_comm]
      rw [defines_cons, Nat.add_pos_iff_pos_or_pos, induction, List.mem_cons, List.mem_cons,
        or_or_or_comm, ← first]
      by_cases same : instruction.definition? = some name <;> simp [same]

/-- An instruction that resolves names a label of the code, and one that is executed
names a label of code unless it is a push. -/
theorem named_of_resolves {code : Code} {instruction : Instruction} {name : String}
    (member : instruction ∈ code) (resolves : instruction.Resolves (code.directory []))
    (operand : instruction.labelOperand? = some name) :
    (.label name ∈ code ∨ .dataLabel name ∈ code) ∧
      (instruction.isDirective = false → instruction ≠ .pushD name → .label name ∈ code) := by
  have knows : ∀ name, (code.directory []).code name → .label name ∈ code :=
    fun _ known => known.resolve_right (List.not_mem_nil)
  cases instruction with
  | pushD _ =>
      cases operand
      exact ⟨resolves.imp_left (knows name), fun _ different => absurd rfl different⟩
  | dataD _ =>
      cases operand
      exact ⟨resolves.imp_left (knows name), fun executed => nomatch executed⟩
  | label _ =>
      cases operand
      exact ⟨.inl member, fun executed => nomatch executed⟩
  | dataLabel _ =>
      cases operand
      exact ⟨.inr member, fun executed => nomatch executed⟩
  | dataZ _ => cases operand
  | _ =>
      have named := knows name (resolves name operand)
      exact ⟨.inl named, fun _ _ => named⟩

theorem defines_eq_count (code : Code) (name : String) :
    code.defines name = (code.filterMap Instruction.definition?).count name := by
  induction code with
  | nil => rfl
  | cons instruction rest induction =>
      rw [defines_cons, induction, List.filterMap_cons]
      cases instruction.definition? with
      | none => simp
      | some other =>
          by_cases same : other = name
          · simp [same, Nat.add_comm]
          · simp [same]

end Code

namespace Placement

variable {code : Code} {placement : Placement} {name : String} {missing : List String}

theorem symbol_of_label (placed : ofCode code = .ok placement) (member : .label name ∈ code) :
    ∃ index, placement.symbols[name]? = some (.code index) := by
  obtain ⟨before, rest, rfl⟩ := List.append_of_mem member
  exact ⟨_, symbol_label placed⟩

theorem symbol_of_dataLabel (placed : ofCode code = .ok placement)
    (member : .dataLabel name ∈ code) :
    ∃ address, placement.symbols[name]? = some (.data address) := by
  obtain ⟨before, rest, rfl⟩ := List.append_of_mem member
  exact ⟨_, symbol_dataLabel placed⟩

/-- A label without a definition has no place. -/
theorem symbol_of_undefined {first last : Placement} (absent : name ∉ first.symbols)
    (undefined : code.defines name = 0) (extended : first.extend code = .ok last) :
    name ∉ last.symbols := by
  induction code generalizing first with
  | nil =>
      cases extended
      exact absent
  | cons instruction rest induction =>
      obtain ⟨_, extended⟩ := extend_cons.mp extended
      rw [defines_cons] at undefined
      refine induction (not_mem_after absent fun same => ?_) (by omega) extended
      rw [if_pos same] at undefined
      omega

theorem resolve_of_missing (placed : ofCode code = .ok placement)
    (undefined : code.defines name = 0) :
    placement.resolve name = .error (.undefinedLabel name) := by
  have absent : name ∉ placement.symbols :=
    symbol_of_undefined Std.HashMap.not_mem_empty undefined placed
  rw [resolve, Std.HashMap.getElem?_eq_none absent]

/-- Whether something fails only for want of one of the labels. -/
def Lacks (missing : List String) {α : Type} (result : Except AssemblyError α) : Prop :=
  (∃ value, result = .ok value) ∨ ∃ name ∈ missing, result = .error (.undefinedLabel name)

theorem lacks_ok {α : Type} (value : α) : Lacks missing (.ok value) :=
  .inl ⟨value, rfl⟩

theorem Lacks.bind {α β : Type} {first : Except AssemblyError α}
    {rest : α → Except AssemblyError β} (lacks : Lacks missing first)
    (then_ : ∀ value, first = .ok value → Lacks missing (rest value)) :
    Lacks missing (first >>= rest) := by
  obtain ⟨value, found⟩ | ⟨name, member, failed⟩ := lacks
  · rw [found]
    exact then_ value found
  · rw [failed]
    exact .inr ⟨name, member, rfl⟩

theorem lacks_mapM {α β : Type} {transform : α → Except AssemblyError β} {inputs : List α}
    (each : ∀ input ∈ inputs, Lacks missing (transform input)) :
    Lacks missing (inputs.mapM transform) := by
  induction inputs with
  | nil => exact lacks_ok []
  | cons input rest induction =>
      rw [List.mapM_cons]
      refine (each input List.mem_cons_self).bind fun output _ => ?_
      refine (induction fun other member => each other (List.mem_cons_of_mem _ member)).bind
        fun outputs _ => ?_
      exact lacks_ok (output :: outputs)

section

variable (placed : ofCode code = .ok placement)
  (undefined : ∀ name ∈ missing, code.defines name = 0)
include placed undefined

/-- A label of code resolves to a place in the code, or it is missing. -/
theorem resolve_code (known : (code.directory missing).code name) :
    (∃ index, placement.resolve name = .ok (.code index)) ∨
      name ∈ missing ∧ placement.resolve name = .error (.undefinedLabel name) := by
  obtain member | absent := known
  · obtain ⟨index, found⟩ := symbol_of_label placed member
    exact .inl ⟨index, resolve_eq_ok.mpr found⟩
  · exact .inr ⟨absent, resolve_of_missing placed (undefined name absent)⟩

theorem lacks_resolve (known : (code.directory missing).Knows name) :
    Lacks missing (placement.resolve name) := by
  obtain named | named := known
  · obtain ⟨index, found⟩ | ⟨absent, failed⟩ := resolve_code placed undefined named
    · exact .inl ⟨_, found⟩
    · exact .inr ⟨name, absent, failed⟩
  · obtain ⟨address, found⟩ := symbol_of_dataLabel placed named
    exact .inl ⟨_, resolve_eq_ok.mpr found⟩

theorem lacks_target {instruction : Instruction} (executed : instruction.isDirective = false)
    (resolves : instruction.Resolves (code.directory missing)) :
    Lacks missing (placement.target instruction) := by
  rw [target]
  cases operand : instruction.labelOperand? with
  | none => exact lacks_ok 0
  | some name =>
      obtain ⟨_, rfl⟩ | other : (∃ label, instruction = .pushD label) ∨
          ∀ label, instruction ≠ .pushD label := by
        exact (Classical.em _).imp_right not_exists.mp
      · cases operand
        exact (lacks_resolve placed undefined resolves).bind fun symbol _ => lacks_ok symbol.word
      · have known : (code.directory missing).code name := by
          cases instruction with
          | pushD label => exact absurd rfl (other label)
          | label _ | dataLabel _ | dataC _ | dataI _ | dataF _ | dataS _ | dataZ _ | dataD _ =>
              cases executed
          | _ => exact resolves name operand
        obtain ⟨index, found⟩ | ⟨absent, failed⟩ := resolve_code placed undefined known
        · refine Lacks.bind (.inl ⟨_, found⟩) fun symbol same => ?_
          obtain rfl : symbol = .code index := by simpa [found] using same.symm
          split
          · exact lacks_ok _
          · exact lacks_ok _
          · contradiction
        · dsimp only
          rw [failed]
          exact .inr ⟨name, absent, rfl⟩

theorem lacks_resolveDatum {instruction : Instruction} {datum : Datum}
    (laid : instruction.datum? = some datum)
    (resolves : instruction.Resolves (code.directory missing)) :
    Lacks missing (placement.resolveDatum datum) := by
  cases datum with
  | bytes content => exact lacks_ok _
  | zeros count => exact lacks_ok _
  | reference name =>
      cases instruction <;> cases laid
      exact (lacks_resolve placed undefined resolves).bind fun symbol _ => lacks_ok _

end

end Placement

/-- Code can be assembled when its labels are all different and its instructions
resolve, but for labels that are missing. -/
theorem Image.lacks_assemble {code : Code} {missing : List String}
    (once : ∀ name, code.defines name ≤ 1)
    (undefined : ∀ name ∈ missing, code.defines name = 0)
    (resolves : code.Resolves (code.directory missing)) :
    Placement.Lacks missing (Image.assemble code) := by
  have sizes : ∀ instruction ∈ code, instruction.isNegative = false := by
    intro instruction member
    cases instruction with
    | dataZ size =>
        have nonnegative : 0 ≤ size := resolves _ member
        exact decide_eq_false (Int32.not_lt.mpr nonnegative)
    | _ => rfl
  have fresh : ∀ name, 0 < code.defines name → name ∉ Placement.empty.symbols :=
    fun _ _ => Std.HashMap.not_mem_empty
  obtain ⟨placement, placed⟩ := Placement.extend_isOk fresh once sizes
  have ofCode : Placement.ofCode code = .ok placement := placed
  rw [assemble, ofCode]
  -- Data is resolved first, then code.
  refine Placement.Lacks.bind (.inl ⟨placement, rfl⟩) fun _ same => ?_
  cases same
  have data : placement.data.toList = code.filterMap Instruction.datum? :=
    Placement.data_extend placed
  have instructions : placement.code.toList = code.filter (!·.isDirective) :=
    Placement.code_extend placed
  refine (Placement.lacks_mapM fun datum member => ?_).bind fun resolved _ => ?_
  · rw [data, List.mem_filterMap] at member
    obtain ⟨instruction, inside, laid⟩ := member
    exact Placement.lacks_resolveDatum ofCode undefined laid (resolves instruction inside)
  · rw [Array.mapM_eq_mapM_toList]
    refine Placement.Lacks.bind (Placement.Lacks.bind
      (Placement.lacks_mapM fun instruction member => ?_) fun _ _ => Placement.lacks_ok _)
      fun _ _ => Placement.lacks_ok _
    rw [instructions, List.mem_filter, Bool.not_eq_true'] at member
    exact (Placement.lacks_target ofCode undefined member.2
      (resolves instruction member.1)).bind fun _ _ => Placement.lacks_ok _

/-- Code can be assembled when its labels are all different and all instructions
resolve. -/
theorem Image.assemble_of_resolves {code : Code} (once : ∀ name, code.defines name ≤ 1)
    (resolves : code.Resolves (code.directory [])) : ∃ image, Image.assemble code = .ok image := by
  obtain assembled | ⟨_, member, _⟩ := Image.lacks_assemble once
    (fun _ member => (List.not_mem_nil member).elim) resolves
  · exact assembled
  · exact (List.not_mem_nil member).elim

section

variable {directory : Directory}

/-! ## Programs -/

namespace Program

/-- The instructions that stand for operators in a program. -/
def operations (program : Program) : List Operation :=
  blockOperations program.body

variable {program : Program} {options : CompileOptions} {code : Code}

/-- The code of a program refers to labels of its own, and without the heap manager
to those of the heap manager. -/
theorem linked (plain : Plain program.operations) (nonnegative : 0 ≤ program.globalSize)
    (entries : ∀ entry ∈ Environment.heapEntries, directory.code entry)
    (compiled : program.compile options = .ok code) : code.Linked directory := by
  obtain ⟨main, mainMade, rfl⟩ := compile_eq_ok.mp compiled
  obtain ⟨body, last, made, rfl⟩ := mainCode_eq_ok.mp mainMade
  intro introduced
  simp only [join_cons, introduced_append, introduced_cons, Instruction.introduced_label,
    Instruction.introduced_dataLabel] at introduced
  obtain ⟨_, environment, ⟨⟨⟨globals, _, mainKnown, _⟩, bodyIntroduced⟩, _⟩, manager, _⟩ :=
    introduced
  have standard := (Environment.parts environment).standard globals entries
  have bodyResolves : body.Resolves directory :=
    linked_block standard program.body ⟨by simp, by simp, by simp⟩ plain made bodyIntroduced
  have initialization : Code.Resolves directory
      (if options.memoryManager then Heap.initialization else []) := by
    split
    · rename_i present
      rw [if_pos present] at manager
      exact Heap.resolves_initialization manager
    · exact resolves_nil.mpr trivial
  have managerResolves : Code.Resolves directory
      (if options.memoryManager then Heap.manager else []) := by
    split
    · rename_i present
      rw [if_pos present] at manager
      exact Heap.linked manager
    · exact resolves_nil.mpr trivial
  have environmentResolves := Environment.linked standard _ mainKnown environment
  simp [initialization, environmentResolves, bodyResolves, managerResolves, Instruction.Resolves,
    Instruction.labelOperand?, Instruction.operand, nonnegative]


/-! ### Labels of a whole program -/

/-- What the code of every program contains: the environment, the labels of the
global block and of the body, and the heap manager when it is linked. -/
def fixedCode (memoryManager : Bool) : Code :=
  Code.join [if memoryManager then Heap.initialization else [], Environment.code memoryManager,
    [.dataLabel Cell.globalBlock, .label Entry.main],
    if memoryManager then Heap.manager else []]

/-- The bytes of a name as one number. -/
def nameNumber (name : String) : Nat :=
  name.toByteArray.data.toList.foldl (fun number byte => number * 256 + byte.toNat) 0

theorem fixedCode_sublist (memoryManager : Bool) :
    (fixedCode memoryManager).Sublist (fixedCode true) := by
  cases memoryManager with
  | true => exact List.Sublist.refl _
  | false =>
      have environment : (Environment.code false).Sublist (Environment.code true) := by
        simp only [Environment.code, join_cons, join_nil, if_pos, Bool.false_eq_true, if_neg,
          not_false_eq_true]
        repeat' apply List.Sublist.append (List.Sublist.refl _)
        exact List.nil_sublist _
      simp only [fixedCode, join_cons, join_nil]
      exact (List.nil_sublist _).append (environment.append
        ((List.Sublist.refl _).append ((List.nil_sublist _).append (List.Sublist.refl _))))

theorem once_fixedCode (memoryManager : Bool) :
    ((fixedCode memoryManager).filterMap Instruction.definition?).Nodup := by
  have numbers :
      (((fixedCode true).filterMap Instruction.definition?).map nameNumber).Nodup := by
    decide +kernel
  have linked : ((fixedCode true).filterMap Instruction.definition?).Nodup :=
    List.Pairwise.of_map nameNumber (fun _ _ different same => different (congrArg _ same)) numbers
  exact linked.sublist ((fixedCode_sublist memoryManager).filterMap _)

/-- The labels around a program carry no serial numbers. -/
theorem serial_fixedCode (memoryManager : Bool) :
    ∀ name ∈ (fixedCode memoryManager).filterMap Instruction.definition?,
      LabelGroup.serialOf name = 0 := by
  have linked : ∀ name ∈ (fixedCode true).filterMap Instruction.definition?,
      LabelGroup.digitFree name = true := by decide +kernel
  intro name member
  exact LabelGroup.serialOf_of_digitFree
    (linked name (((fixedCode_sublist memoryManager).filterMap _).subset member))

theorem heapEntries_fixedCode :
    ∀ name ∈ Environment.heapEntries,
      name ∉ (fixedCode false).filterMap Instruction.definition? := by
  decide

/-- The labels of a program are those around it and those of its body, which carry
serial numbers. -/
theorem exists_numbered (plain : Plain program.operations)
    (compiled : program.compile options = .ok code) :
    ∃ (body : Code) (last : Nat), body.Numbered 0 last ∧ ∀ name, code.defines name =
      (fixedCode options.memoryManager).defines name +
        body.defines name := by
  obtain ⟨main, mainMade, rfl⟩ := compile_eq_ok.mp compiled
  obtain ⟨body, last, made, rfl⟩ := mainCode_eq_ok.mp mainMade
  refine ⟨body, last, numbered_block program.body plain.labelFree made, fun name => ?_⟩
  simp only [fixedCode, join_cons, join_nil, defines_append, defines_cons, defines_nil,
    Instruction.definition?, reduceCtorEq, if_false]
  omega

theorem defines_le_one (plain : Plain program.operations)
    (compiled : program.compile options = .ok code) (name : String) :
    code.defines name ≤ 1 := by
  obtain ⟨body, last, numbered, parts⟩ := exists_numbered plain compiled
  have outer : (fixedCode options.memoryManager).defines name ≤ 1 := by
    rw [defines_eq_count]
    exact List.nodup_iff_count.mp (once_fixedCode _) name
  have inner := numbered.once name
  by_cases labelled : 0 < body.defines name
  · -- A label of the body has a serial number, so it is none of those around it.
    have serial := (numbered.range name labelled).1
    have absent : name ∉ (fixedCode options.memoryManager).filterMap Instruction.definition? := by
      intro member
      have zero := serial_fixedCode _ name member
      omega
    rw [parts, defines_eq_count, List.count_eq_zero.mpr absent]
    omega
  · rw [parts]
    omega

/-- Without the heap manager its entries are not defined. -/
theorem defines_heapEntries (plain : Plain program.operations)
    (compiled : program.compile options = .ok code) (absent : options.memoryManager = false) :
    ∀ name ∈ Environment.heapEntries, code.defines name = 0 := by
  intro name member
  obtain ⟨body, last, numbered, parts⟩ := exists_numbered plain compiled
  have inner : body.defines name = 0 := by
    have free : ∀ entry ∈ Environment.heapEntries, LabelGroup.digitFree entry = true := by
      decide
    have zero := LabelGroup.serialOf_of_digitFree (free name member)
    refine Nat.eq_zero_of_not_pos fun labelled => ?_
    have serial := (numbered.range name labelled).1
    omega
  rw [parts, inner, absent, defines_eq_count,
    List.count_eq_zero.mpr (heapEntries_fixedCode name member)]

theorem mem_of_mem_fixedCode (compiled : program.compile options = .ok code)
    {instruction : Instruction} (member : instruction ∈ fixedCode options.memoryManager) :
    instruction ∈ code := by
  obtain ⟨main, mainMade, rfl⟩ := compile_eq_ok.mp compiled
  obtain ⟨body, last, made, rfl⟩ := mainCode_eq_ok.mp mainMade
  simp only [fixedCode, join_cons, join_nil, List.mem_append, List.mem_cons] at member ⊢
  grind

/-- With the heap manager, everything that the code of a program refers to is defined
in it. -/
theorem resolves_compile (plain : Plain program.operations) (nonnegative : 0 ≤ program.globalSize)
    (compiled : program.compile options = .ok code) (present : options.memoryManager = true) :
    code.Resolves (code.directory []) := by
  refine linked plain nonnegative (fun entry member => .inl ?_) compiled
    (introduced_directory code [])
  have labels : ∀ entry ∈ Environment.heapEntries, .label entry ∈ fixedCode true := by
    decide +kernel
  exact mem_of_mem_fixedCode compiled (present ▸ labels entry member)

theorem exists_image (plain : Plain program.operations) (nonnegative : 0 ≤ program.globalSize)
    (compiled : program.compile options = .ok code) (present : options.memoryManager = true) :
    ∃ image, Image.assemble code = .ok image :=
  Image.assemble_of_resolves (defines_le_one plain compiled)
    (resolves_compile plain nonnegative compiled present)

/-- The code of every program can be assembled when the heap manager is linked: no
label is defined twice, every label that is referred to is defined, and jumps and
calls name labels of code. Without the heap manager, only its entries and that of
discarding may be missing. -/
theorem compile_assembles (plain : Plain program.operations)
    (nonnegative : 0 ≤ program.globalSize) (compiled : program.compile options = .ok code) :
    (options.memoryManager = true →
      (∃ image, Image.assemble code = .ok image) ∧
      (∀ name, .label name ∈ code ∨ .dataLabel name ∈ code → code.defines name = 1) ∧
      ∀ instruction ∈ code, ∀ name, instruction.labelOperand? = some name →
        code.defines name = 1 ∧
          (instruction.isDirective = false → instruction ≠ .pushD name → .label name ∈ code)) ∧
    (options.memoryManager = false →
      (∃ image, Image.assemble code = .ok image) ∨
      ∃ name ∈ [Entry.allocate, Entry.deallocate, Entry.discardRecord],
        Image.assemble code = .error (.undefinedLabel name)) := by
  have once := defines_le_one plain compiled
  have exactly : ∀ name, .label name ∈ code ∨ .dataLabel name ∈ code → code.defines name = 1 :=
    fun name defined => Nat.le_antisymm (once name) (defines_pos.mpr defined)
  refine ⟨fun present => ?_, fun absent => ?_⟩
  · have resolves := resolves_compile plain nonnegative compiled present
    refine ⟨exists_image plain nonnegative compiled present, exactly,
      fun instruction member name operand => ?_⟩
    obtain ⟨defined, code⟩ := named_of_resolves member (resolves instruction member) operand
    exact ⟨exactly name defined, code⟩
  · exact Image.lacks_assemble once (defines_heapEntries plain compiled absent)
      (linked plain nonnegative (fun _ member => .inr member) compiled (introduced_directory code _))

/-! ### Small programs -/

/-- The program has code, and code and data are small. -/
def isSmall (program : Program) (options : CompileOptions) : Bool :=
  (program.compile options).toOption.any fun code =>
    code.size < 2147483648 ∧ code.dataSize ≤ 65536

theorem exists_code_of_isSmall (small : program.isSmall options = true) :
    ∃ code, program.compile options = .ok code := by
  rw [isSmall] at small
  cases compiled : program.compile options with
  | error defect =>
      rw [compiled] at small
      cases small
  | ok code => exact ⟨code, rfl⟩

theorem image_of_isSmall {image : Image} (small : program.isSmall options = true)
    (compiled : program.compile options = .ok code) (assembled : Image.assemble code = .ok image) :
    image.Addressable ∧ image.dataSize ≤ 65536 := by
  rw [isSmall, compiled] at small
  rw [Image.Addressable, Image.codeSize_of_assemble assembled,
    Image.dataSize_of_assemble assembled]
  simpa [Except.toOption] using small

/-- The program itself has code, and there is room for what surrounds it. -/
def isBrief (program : Program) : Bool :=
  program.mainCode.toOption.any fun main => main.size ≤ 2147482000 ∧ main.dataSize ≤ 64000

theorem isSmall_of_isBrief (brief : program.isBrief = true) : program.isSmall ⟨true⟩ = true := by
  rw [isBrief] at brief
  cases made : program.mainCode with
  | error defect =>
      rw [made] at brief
      cases brief
  | ok main =>
      have short : main.size ≤ 2147482000 ∧ main.dataSize ≤ 64000 := by
        simpa [made, Except.toOption] using brief
      have around : (fixedCode true).size ≤ 1000 ∧ (fixedCode true).dataSize ≤ 1000 := by
        decide +kernel
      simp only [fixedCode, join_cons, join_nil, size_append, dataSize_append] at around
      rw [isSmall, compile_eq_ok.mpr ⟨main, made, rfl⟩]
      simp only [Except.toOption, Option.any_some, decide_eq_true_eq, join_cons, join_nil,
        size_append, dataSize_append]
      omega

theorem exists_small_image (brief : program.isBrief = true) (plain : Plain program.operations)
    (nonnegative : 0 ≤ program.globalSize) :
    ∃ code image, program.compile ⟨true⟩ = .ok code ∧ Image.assemble code = .ok image ∧
      image.Addressable ∧ image.dataSize ≤ 65536 := by
  have small := isSmall_of_isBrief brief
  obtain ⟨code, compiled⟩ := exists_code_of_isSmall small
  obtain ⟨image, assembled⟩ := exists_image plain nonnegative compiled rfl
  exact ⟨code, image, compiled, assembled, image_of_isSmall small compiled assembled⟩

/-- A program that builds an array of one sum and releases it. -/
def releasing : Program where
  globalSize := 0
  body := [.release (.typed (.array .integer) (.populatedArray [.typed .integer
    (.operation (.instruction .add) [.typed .integer (.integer 1), .typed .integer (.integer 2)])]))]

theorem releasing_assembles :
    ∃ code, releasing.compile ⟨true⟩ = .ok code ∧ 0 ≤ releasing.globalSize ∧
      Plain releasing.operations ∧ ∃ image, Image.assemble code = .ok image := by
  have plain : Plain releasing.operations := by
    simp [Plain, releasing, operations, blockOperations, Statement.operations, Expr.operations,
      Form.operations, exprsOperations, Instruction.labelOperand?, Instruction.operand,
      Instruction.isDirective]
  have small : releasing.isSmall ⟨true⟩ = true := isSmall_of_isBrief (by decide +kernel)
  obtain ⟨code, compiled⟩ := exists_code_of_isSmall small
  exact ⟨code, compiled, by decide, plain,
    ((compile_assembles plain (by decide) compiled).1 rfl).1⟩

end Program

end

end StackBackend
