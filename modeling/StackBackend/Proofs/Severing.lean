import StackBackend.Proofs.Pieces

namespace StackBackend

/-! Inside a loop, what a statement leaves on the stack is told apart from what the loops around
it have saved. Only return statements reach below it, and they never come back. -/

open Generation

/-! ## References -/

/-- The labels of the environment that generated code refers to. -/
def Environment.Names (name : String) : Prop :=
  name ∈ Entry.subroutines ∨ ∃ fault : Fault, name = fault.handler

/-- The labels of the code are known, and some outside. -/
def Code.scope (code : Code) (outside : String → Prop) : Directory where
  code name := .label name ∈ code ∨ outside name
  data _ := True

section

variable {code : Code} {outside : String → Prop} {directory : Directory}

theorem Code.standard_scope (environment : ∀ name, Environment.Names name → outside name) :
    (code.scope outside).Standard where
  cells _ _ := trivial
  texts _ _ := trivial
  globals := trivial
  subroutines name member := .inr (environment name (.inl member))
  handlers fault := .inr (environment _ (.inr ⟨fault, rfl⟩))

theorem Code.introduced_scope {part : Code}
    (labels : ∀ name, .label name ∈ part → .label name ∈ code) :
    part.Introduced (code.scope outside) := by
  intro instruction member
  cases instruction with
  | label name => exact .inl (labels name member)
  | _ => trivial

/-- Jumps and calls name what is known. -/
theorem Instruction.Resolves.destination {instruction : Instruction} {name : String}
    (resolves : instruction.Resolves directory) (goes : instruction.destination? = some name) :
    directory.code name := by
  cases instruction <;> cases goes <;> exact resolves _ rfl

/-- An expression refers to labels of its own and to the environment. -/
theorem Expr.names_of_valueCode (environment : ∀ name, Environment.Names name → outside name)
    {last next : Nat} {expression : Expr} (plain : Plain expression.operations)
    (generated : expression.valueCode last = .ok (code, next)) {instruction : Instruction}
    (member : instruction ∈ code) {name : String} (goes : instruction.destination? = some name) :
    .label name ∈ code ∨ outside name :=
  (expression.linked_valueCode (Code.standard_scope environment) plain generated
    (Code.introduced_scope fun _ => id) instruction member).destination goes

end

/-! ## Surroundings -/

namespace Surroundings

/-- The labels that code in the surroundings may leave for: those of the environment, and the
exit of the function. -/
def Outside (surroundings : Surroundings) (name : String) : Prop :=
  Environment.Names name ∨ surroundings.returnLabel = some name

variable {outside : String → Prop} {inner surroundings : Surroundings} {context : LoopContext}

/-- The surroundings up to some loop: return statements unwind the loops outside it as well, and
they go outside. -/
structure Widens (outside : String → Prop) (surroundings inner : Surroundings) : Prop where
  loops : ∃ outer, surroundings.loops = inner.loops ++ outer
  parameterSize : surroundings.parameterSize = inner.parameterSize
  result : surroundings.result = inner.result
  exit : ∀ exit, surroundings.returnLabel = some exit →
    outside exit ∧ ∃ other, inner.returnLabel = some other

theorem Widens.enterLoop (widens : surroundings.Widens outside inner) :
    (surroundings.enterLoop context).Widens outside (inner.enterLoop context) := by
  obtain ⟨⟨outer, loops⟩, parameterSize, result, exit⟩ := widens
  exact ⟨⟨outer, congrArg (context :: ·) loops⟩, parameterSize, result, exit⟩

theorem Widens.innermostLoop (widens : surroundings.Widens outside inner)
    (inside : inner.loops ≠ []) : surroundings.innermostLoop = inner.innermostLoop := by
  obtain ⟨outer, loops⟩ := widens.loops
  unfold Surroundings.innermostLoop
  rw [loops]
  cases known : inner.loops with
  | nil => exact absurd known inside
  | cons context rest => rfl

theorem destination_unwind {instruction : Instruction}
    (member : instruction ∈ surroundings.unwind) : instruction.destination? = none := by
  obtain ⟨context, _, member⟩ := List.mem_flatMap.mp member
  cases known : context.bracket with
  | none => simp [known] at member
  | some bracket =>
      simp only [known, Bracket.restore, List.mem_flatMap, Code.storeWord, List.mem_cons,
        List.not_mem_nil, or_false] at member
      obtain ⟨_, _, rfl | rfl | rfl⟩ := member <;> rfl

theorem Widens.unwind (widens : surroundings.Widens outside inner) {instruction : Instruction}
    (member : instruction ∈ inner.unwind) : instruction ∈ surroundings.unwind := by
  obtain ⟨outer, loops⟩ := widens.loops
  unfold Surroundings.unwind at *
  rw [loops, List.flatMap_append]
  exact List.mem_append_left _ member

end Surroundings

/-! ## Statements -/

section

variable {outside : String → Prop} {inner surroundings : Surroundings} {last next : Nat}
  {code : Code}

theorem Statement.returnedCode_congr
    (parameterSize : surroundings.parameterSize = inner.parameterSize)
    (result : surroundings.result = inner.result) (value : Option Expr) :
    returnedCode surroundings value = returnedCode inner value := by
  unfold returnedCode
  rw [parameterSize, result]

/-- What a return statement computes refers to its own labels and to the environment. -/
theorem Statement.names_of_returnedCode
    (environment : ∀ name, Environment.Names name → outside name) {value : Option Expr}
    (plain : Plain (Statement.return value).operations)
    (generated : returnedCode surroundings value last = .ok (code, next))
    {instruction : Instruction} (member : instruction ∈ code) {name : String}
    (goes : instruction.destination? = some name) : .label name ∈ code ∨ outside name := by
  cases value with
  | none =>
      obtain ⟨rfl, rfl⟩ := pure_eq_ok.mp generated
      cases member
  | some value =>
      simp only [returnedCode, bind_eq_ok, pure_eq_ok, lift_eq_ok] at generated
      obtain ⟨slot, _, ⟨slotMade, rfl⟩, valueCode, _, made, rfl, rfl⟩ := generated
      rw [Statement.operations] at plain
      rcases List.mem_append.mp member with member | member
      · obtain ⟨offset, _, built⟩ := Except.bind_eq_ok.mp slotMade
        cases built
        have straight : instruction.destination? = none := by
          unfold Code.addOffset at member
          split at member <;>
            simp only [Code.loadWord, List.cons_append, List.nil_append, List.append_nil,
              List.mem_cons, List.not_mem_nil, or_false] at member
          · rcases member with rfl | rfl <;> rfl
          · rcases member with rfl | rfl | rfl | rfl <;> rfl
        rw [straight] at goes
        cases goes
      · exact (value.names_of_valueCode environment plain made member goes).imp_left
          (List.mem_append_right _)

/-- The code of a return statement is severed. -/
theorem Statement.cut_return (environment : ∀ name, Environment.Names name → outside name)
    (widens : surroundings.Widens outside inner) {value : Option Expr}
    (plain : Plain (Statement.return value).operations)
    (generated : (Statement.return value).code surroundings last = .ok (code, next)) :
    ∃ other, (Statement.return value).code inner last = .ok (other, next) ∧
      code.Cut (Code.Severed outside) other := by
  obtain ⟨exit, result, found, made, rfl⟩ := Statement.code_return.mp generated
  obtain ⟨escapes, other, otherFound⟩ := widens.exit exit found
  have severed : Code.Severed outside (surroundings.unwind ++ result ++ [.jump exit]) := by
    refine ⟨⟨_, exit, rfl⟩, fun instruction member name goes => ?_⟩
    rcases List.mem_append.mp member with member | member
    · rcases List.mem_append.mp member with member | member
      · rw [Surroundings.destination_unwind member] at goes
        cases goes
      · refine (Statement.names_of_returnedCode environment plain made member goes).imp_left
          fun label => ?_
        simp [label]
    · obtain rfl := List.mem_singleton.mp member
      cases goes
      exact .inr escapes
  have otherMade := made
  rw [Statement.returnedCode_congr widens.parameterSize widens.result] at otherMade
  refine ⟨inner.unwind ++ result ++ [.jump other],
    Statement.code_return.mpr ⟨other, result, otherFound, otherMade, rfl⟩, ?_⟩
  have cut : Code.Cut (Code.Severed outside) ((surroundings.unwind ++ result ++ [.jump exit]) ++ [])
      ((inner.unwind ++ result ++ [.jump other]) ++ []) := by
    refine .lose severed (fun name member => ?_) .nil
    simp only [List.mem_append, List.mem_singleton, reduceCtorEq, or_false] at member ⊢
    exact member.imp_left widens.unwind
  rwa [List.append_nil, List.append_nil] at cut

/-- A loop is cut where its body is. -/
theorem Statement.cut_for {kind : ForKind} {loopVariable : Binding} {sequence : Expr}
    {body : List Statement}
    (cutBody : ∀ (context : LoopContext) (middle : Nat) (bodyCode : Code),
      blockCode (surroundings.enterLoop context) body middle = .ok (bodyCode, next) →
        ∃ other, blockCode (inner.enterLoop context) body middle = .ok (other, next) ∧
          bodyCode.Cut (Code.Severed outside) other)
    (generated : (Statement.for kind loopVariable sequence body).code surroundings last =
      .ok (code, next)) :
    ∃ other, (Statement.for kind loopVariable sequence body).code inner last = .ok (other, next) ∧
      code.Cut (Code.Severed outside) other := by
  obtain ⟨layout, address, sequenceCode, middle, current, store, bodyCode, laid, addressed, made,
    found, stored, bodyMade, rfl⟩ := Statement.code_for.mp generated
  obtain ⟨otherBody, otherMade, cut⟩ := cutBody _ _ _ bodyMade
  refine ⟨_, Statement.code_for.mpr ⟨layout, address, sequenceCode, middle, current, store,
    otherBody, laid, addressed, made, found, stored, otherMade, rfl⟩, ?_⟩
  simp only [Code.join_cons, Code.join_nil]
  exact .append (.refl ..) (.append (.refl ..) (.append cut (.refl ..)))

mutual

/-- What the code of a statement in a loop is apart from the loops outside. -/
theorem Statement.cut (environment : ∀ name, Environment.Names name → outside name)
    {last next : Nat} {code : Code} (surroundings inner : Surroundings)
    (widens : surroundings.Widens outside inner) (inside : inner.loops ≠ []) :
    (statement : Statement) → Plain statement.operations →
      statement.code surroundings last = .ok (code, next) →
      ∃ other, statement.code inner last = .ok (other, next) ∧ code.Cut (Code.Severed outside) other
  | .declaration _ _ false, _, generated | .declaration _ _ true, _, generated
  | .assignment _ _, _, generated | .print _, _, generated | .call _, _, generated
  | .release _, _, generated => by
      refine ⟨code, ?_, .refl (Code.Severed outside) code⟩
      rw [Statement.code] at generated ⊢
      exact generated
  | .ifElse condition thenBlock none, plain, generated => by
      obtain ⟨conditionCode, middle, thenCode, middle', otherCode, made, thenMade, otherMade,
        rfl⟩ := Statement.code_ifElse.mp generated
      rw [Statement.operations, plain_append] at plain
      obtain ⟨otherThen, otherThenMade, cut⟩ := cut_block environment surroundings inner widens
        inside thenBlock plain.2 thenMade
      refine ⟨_, Statement.code_ifElse.mpr ⟨conditionCode, middle, otherThen, middle', otherCode,
        made, otherThenMade, otherMade, rfl⟩, ?_⟩
      simp only [Statement.branchCode, Code.join_cons, Code.join_nil]
      exact .append (.refl ..) (.append (.refl ..) (.append cut (.refl ..)))
  | .ifElse condition thenBlock (some elseBlock), plain, generated => by
      obtain ⟨conditionCode, middle, thenCode, middle', otherCode, made, thenMade, otherMade,
        rfl⟩ := Statement.code_ifElse.mp generated
      rw [Statement.operations, plain_append, plain_append] at plain
      obtain ⟨otherThen, otherThenMade, thenCut⟩ := cut_block environment surroundings inner widens
        inside thenBlock plain.1.2 thenMade
      obtain ⟨otherElse, otherElseMade, elseCut⟩ := cut_block environment surroundings inner widens
        inside elseBlock plain.2 otherMade
      refine ⟨_, Statement.code_ifElse.mpr ⟨conditionCode, middle, otherThen, middle', otherElse,
        made, otherThenMade, otherElseMade, rfl⟩, ?_⟩
      simp only [Statement.branchCode, Code.join_cons, Code.join_nil]
      exact .append (.refl ..) (.append (.refl ..) (.append thenCut (.append (.refl ..)
        (.append elseCut (.refl ..)))))
  | .while condition body, plain, generated => by
      obtain ⟨conditionCode, middle, bodyCode, made, bodyMade, rfl⟩ :=
        Statement.code_while.mp generated
      rw [Statement.operations, plain_append] at plain
      obtain ⟨otherBody, otherMade, cut⟩ := cut_block environment _ _ widens.enterLoop nofun body
        plain.2 bodyMade
      refine ⟨_, Statement.code_while.mpr ⟨conditionCode, middle, otherBody, made, otherMade, rfl⟩,
        ?_⟩
      simp only [Statement.loopCode, Code.join_cons, Code.join_nil]
      exact .append (.refl ..) (.append (.refl ..) (.append (.refl ..) (.append cut (.refl ..))))
  | .for kind loopVariable sequence body, plain, generated => by
      rw [Statement.operations, plain_append] at plain
      refine Statement.cut_for (fun context middle bodyCode bodyMade => ?_) generated
      exact cut_block environment _ _ widens.enterLoop (List.cons_ne_nil _ _) body plain.2 bodyMade
  | .break, _, generated | .continue, _, generated => by
      refine ⟨code, ?_, .refl (Code.Severed outside) code⟩
      rw [Statement.code, widens.innermostLoop inside] at generated
      rw [Statement.code]
      exact generated
  | .return value, plain, generated =>
      Statement.cut_return environment widens plain generated
  | .block statements, plain, generated => by
      rw [Statement.operations] at plain
      rw [Statement.code] at generated
      obtain ⟨other, made, cut⟩ := cut_block environment surroundings inner widens inside statements
        plain generated
      exact ⟨other, by rw [Statement.code]; exact made, cut⟩

theorem cut_block (environment : ∀ name, Environment.Names name → outside name)
    {last next : Nat} {code : Code} (surroundings inner : Surroundings)
    (widens : surroundings.Widens outside inner) (inside : inner.loops ≠ []) :
    (statements : List Statement) → Plain (blockOperations statements) →
      blockCode surroundings statements last = .ok (code, next) →
      ∃ other, blockCode inner statements last = .ok (other, next) ∧
        code.Cut (Code.Severed outside) other
  | [], _, generated => by
      obtain ⟨rfl, rfl⟩ := blockCode_nil.mp generated
      exact ⟨[], blockCode_nil.mpr ⟨rfl, rfl⟩, .nil⟩
  | statement :: rest, plain, generated => by
      obtain ⟨first, middle, others, made, restMade, rfl⟩ := blockCode_cons.mp generated
      rw [blockOperations, plain_append] at plain
      obtain ⟨otherFirst, firstMade, firstCut⟩ := statement.cut environment surroundings inner
        widens inside plain.1 made
      obtain ⟨otherRest, othersMade, restCut⟩ := cut_block environment surroundings inner widens
        inside rest plain.2 restMade
      exact ⟨_, blockCode_cons.mpr ⟨otherFirst, middle, otherRest, firstMade, othersMade, rfl⟩,
        firstCut.append restCut⟩

end

end

end StackBackend
