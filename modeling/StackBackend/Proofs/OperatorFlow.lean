import StackBackend.Proofs.Flow
import StackBackend.Proofs.Serial

namespace StackBackend

/-! How the operators change the shape of the operand stack. An operator with
labels of its own gives them shapes; constructs never share labels, so the shapes
that different constructs give never collide. -/

/-! ## Labels of constructs -/

namespace Labels

open LabelGroup

/-- Functions are entered with the place to return to, and leave nothing on the stack. -/
def EntersFunctions (labels : Labels) : Prop :=
  ∀ serial shape, labels (label ⟨"lambda", serial⟩ "start") = some shape →
    shape = ⟨[.integer], []⟩

/-- Labels with the serial numbers after `last` up to `next` can be given shapes so
that the property holds, whatever shapes other labels have. -/
def Provides (last next : Nat) (property : Labels → Prop) : Prop :=
  last ≤ next ∧ ∃ own : Labels,
    (∀ name, own name ≠ none → last < serialOf name ∧ serialOf name ≤ next) ∧
      own.EntersFunctions ∧ ∀ labels : Labels,
        (∀ name shape, own name = some shape → labels name = some shape) → property labels

variable {last middle next : Nat} {property other : Labels → Prop}

theorem provides_of_forall (always : ∀ labels, property labels) : Provides last last property :=
  ⟨Nat.le_refl last, fun _ => none, fun _ found => absurd rfl found, nofun,
    fun labels _ => always labels⟩

theorem Provides.mono (provides : Provides last next property)
    (implies : ∀ labels, property labels → other labels) : Provides last next other := by
  obtain ⟨le, own, range, enters, holds⟩ := provides
  exact ⟨le, own, range, enters, fun labels extends_ => implies labels (holds labels extends_)⟩

theorem Provides.and (left : Provides last middle property) (right : Provides middle next other) :
    Provides last next fun labels => property labels ∧ other labels := by
  obtain ⟨leftLe, leftOwn, leftRange, leftEnters, leftHolds⟩ := left
  obtain ⟨rightLe, rightOwn, rightRange, rightEnters, rightHolds⟩ := right
  refine ⟨Nat.le_trans leftLe rightLe, fun name => leftOwn name <|> rightOwn name, ?_, ?_, ?_⟩
  · intro name found
    cases known : leftOwn name with
    | some shape =>
        have range := leftRange name (by simp [known])
        omega
    | none =>
        have range := rightRange name (by simpa [known] using found)
        omega
  · intro serial shape found
    cases known : leftOwn (label ⟨"lambda", serial⟩ "start") with
    | some first => exact leftEnters serial shape (by simpa [known] using found)
    | none => exact rightEnters serial shape (by simpa [known] using found)
  · intro labels agrees
    refine ⟨leftHolds labels fun name shape found => agrees name shape (by simp [found]),
      rightHolds labels fun name shape found => agrees name shape ?_⟩
    -- A label of the second part has a higher number than all of the first.
    have fresh : leftOwn name = none := by
      cases known : leftOwn name with
      | none => rfl
      | some shape =>
          have leftBound := leftRange name (by simp [known])
          have rightBound := rightRange name (by simp [found])
          omega
    simp [fresh, found]

theorem lookup_label {group : LabelGroup} {shapes : List (String × Shape)}
    {entry : String × Shape} (nodup : (shapes.map Prod.fst).Nodup) (member : entry ∈ shapes) :
    (shapes.map fun entry => (group.label entry.1, entry.2)).lookup (group.label entry.1) =
      some entry.2 := by
  induction shapes with
  | nil => cases member
  | cons head rest induction =>
      obtain ⟨notMem, nodup⟩ := List.nodup_cons.mp nodup
      rw [List.map_cons, List.lookup_cons]
      rcases List.mem_cons.mp member with rfl | member
      · simp
      · have different : group.label entry.1 ≠ group.label head.1 := fun same =>
          notMem (label_inj.mp same ▸ List.mem_map_of_mem member)
        rw [beq_false_of_ne different]
        exact induction nodup member

/-- A construct may give its labels any shapes, but that its functions are entered alike. -/
theorem provides_entries (stem : String) (shapes : List (String × Shape))
    (plain : stem.toList.all (!·.isDigit) = true) (nodup : (shapes.map Prod.fst).Nodup)
    (enters : stem = "lambda" → ∀ shape, ("start", shape) ∈ shapes → shape = ⟨[.integer], []⟩) :
    Provides last (last + 1) fun labels =>
      ∀ entry ∈ shapes, labels (label ⟨stem, last + 1⟩ entry.1) = some entry.2 := by
  let named := shapes.map fun entry => (label ⟨stem, last + 1⟩ entry.1, entry.2)
  have given : ∀ name shape, named.lookup name = some shape →
      ∃ suffix, (suffix, shape) ∈ shapes ∧ label ⟨stem, last + 1⟩ suffix = name := by
    intro name shape known
    obtain ⟨front, back, same, _⟩ := List.lookup_eq_some_iff.mp known
    have member : (name, shape) ∈ named := by rw [same]; simp
    obtain ⟨entry, inside, equal⟩ := List.mem_map.mp member
    cases equal
    exact ⟨entry.1, inside, rfl⟩
  refine ⟨Nat.le_succ last, fun name => named.lookup name, ?_, ?_, ?_⟩
  · intro name found
    obtain ⟨shape, known⟩ := Option.ne_none_iff_exists'.mp found
    obtain ⟨suffix, _, rfl⟩ := given name shape known
    rw [serialOf_label plain]
    exact ⟨Nat.lt_succ_self last, Nat.le_refl _⟩
  · intro serial shape known
    obtain ⟨suffix, member, same⟩ := given _ shape known
    have free : "lambda".toList.all (!·.isDigit) = true := by decide
    obtain ⟨group, rfl⟩ := eq_of_label_eq plain free same
    exact enters (congrArg LabelGroup.stem group) shape member
  · intro labels agrees entry member
    exact agrees _ _ (lookup_label nodup member)

/-- A construct that is no function may give its labels any shapes. -/
theorem provides_group (stem : String) (shapes : List (String × Shape))
    (plain : (stem.toList.all (!·.isDigit) && stem != "lambda") = true)
    (nodup : (shapes.map Prod.fst).Nodup) :
    Provides last (last + 1) fun labels =>
      ∀ entry ∈ shapes, labels (label ⟨stem, last + 1⟩ entry.1) = some entry.2 := by
  obtain ⟨plain, other⟩ := Bool.and_eq_true_iff.mp plain
  exact provides_entries stem shapes plain nodup fun same => absurd same (bne_iff_ne.mp other)

end Labels

/-! ## Snippets -/

open Code Generation Labels

namespace Snippet

/-- The words of the operands of a snippet, topmost first. -/
def takes (operands : List Ty) : Snippet → List Slot
  | .integerDivide | .formRational | .rationalNegate | .rationalToInteger | .rationalToFloating
  | .stringConcatenate | .stringCharacterConcatenate | .characterStringConcatenate =>
      [.integer, .integer]
  | .floatingDivide => [.floating, .floating]
  | .rationalAdd | .rationalSubtract | .rationalMultiply | .rationalDivide =>
      [.integer, .integer, .integer, .integer]
  | .rationalize | .expressOver =>
      match operands with
      | .floating :: _ => [.integer, .floating]
      | _ => [.integer, .integer, .integer]
  | .substring => [.integer, .integer, .integer]
  | .floatingToRational => [.floating]
  | .integerToRational | .characterToRational | .integerToCharacter | .integerToBoolean
  | .arrayAllocate | .arrayClone | .arrayLength | .arrayReverse | .stringLength
  | .stringReverse => [.integer]

/-- The words of the result of a snippet, topmost first. -/
def gives : Snippet → List Slot
  | .floatingDivide | .rationalToFloating => [.floating]
  | .rationalAdd | .rationalSubtract | .rationalMultiply | .rationalDivide | .rationalNegate
  | .formRational | .rationalize | .integerToRational | .characterToRational
  | .floatingToRational => [.integer, .integer]
  | .integerDivide | .expressOver | .rationalToInteger | .integerToCharacter
  | .integerToBoolean | .arrayAllocate | .arrayClone | .arrayLength | .arrayReverse
  | .stringLength | .stringReverse | .substring | .stringConcatenate
  | .stringCharacterConcatenate | .characterStringConcatenate => [.integer]

end Snippet

section

variable {last next : Nat} {code : Code} {slots : List Slot} {promised : List WordKind}

theorem Arithmetic.flows_rationalize {operand : Ty} (others : List Ty) {labels : Labels}
    (generated : rationalize operand = .ok code) :
    Flows labels ⟨Snippet.takes (operand :: others) .rationalize ++ slots, promised⟩ code
      ⟨.integer :: .integer :: slots, promised⟩ := by
  refine flows_of_flow fun rest next goesOn => ?_
  unfold rationalize at generated
  cases operand <;> cases generated <;>
    simpa [Snippet.takes, restateRational, lowestTerms] using goesOn

theorem Arithmetic.flows_expressOver {operand : Ty} (others : List Ty) {labels : Labels}
    (generated : expressOver operand = .ok code) :
    Flows labels ⟨Snippet.takes (operand :: others) .expressOver ++ slots, promised⟩ code
      ⟨.integer :: slots, promised⟩ := by
  refine flows_of_flow fun rest next goesOn => ?_
  unfold expressOver at generated
  cases operand <;> cases generated <;>
    simpa [Snippet.takes, restateRational] using goesOn

namespace Sequence

theorem flows_length {sequence : Ty} {labels : Labels} (generated : length sequence = .ok code) :
    Flows labels ⟨.integer :: slots, promised⟩ code ⟨.integer :: slots, promised⟩ := by
  refine flows_of_flow fun rest next goesOn => ?_
  obtain ⟨layout, _, built⟩ := Except.bind_eq_ok.mp generated
  cases built
  simpa using goesOn

theorem flow_allocateLike {sequence : Ty} {labels : Labels} {rest : Code} {next : Shape → Prop}
    (generated : allocateLike sequence = .ok code) :
    flow labels (code ++ rest) ⟨.integer :: slots, promised⟩ next ↔
      flow labels rest ⟨.integer :: slots, promised⟩ next := by
  unfold allocateLike at generated
  cases sequence <;> cases generated <;> simp [allocate]

theorem provides_reverse {sequence : Ty} (generated : reverse sequence last = .ok (code, next)) :
    Provides last next fun labels =>
      Flows labels ⟨.integer :: slots, promised⟩ code ⟨.integer :: slots, promised⟩ := by
  simp only [reverse, bind_eq_ok, pure_eq_ok, lift_eq_ok, freshLabels_eq_ok] at generated
  obtain ⟨layout, _, ⟨_, rfl⟩, labels, _, ⟨rfl, rfl⟩, allocation, _, ⟨allocated, rfl⟩, rfl, rfl⟩ :=
    generated
  refine (provides_group "reverse" [("loop", ⟨.integer :: slots, promised⟩),
    ("done", ⟨.integer :: slots, promised⟩)] (by decide) (by simp)).mono fun labels known => ?_
  simp only [List.forall_mem_cons, List.not_mem_nil, false_implies, implies_true,
    and_true] at known
  refine flows_of_flow fun rest next goesOn => ?_
  simpa [sourceLength, flow_allocateLike allocated, known] using goesOn

/-- The operands are checked and found between them, and keep to the shapes. -/
theorem provides_index (slots : List Slot) (promised : List WordKind) {sequence index : Code}
    {type : Ty} (generated : Sequence.index sequence index type last = .ok (code, next)) :
    Provides last next fun labels =>
      Flows labels ⟨slots, promised⟩ sequence ⟨.integer :: slots, promised⟩ →
      Flows labels ⟨.integer :: slots, promised⟩ index
        ⟨.integer :: .integer :: slots, promised⟩ →
      Flows labels ⟨slots, promised⟩ code ⟨.integer :: slots, promised⟩ := by
  simp only [Sequence.index, bind_eq_ok, pure_eq_ok, lift_eq_ok, freshLabels_eq_ok] at generated
  obtain ⟨layout, _, ⟨_, rfl⟩, labels, _, ⟨rfl, rfl⟩, rfl, rfl⟩ := generated
  refine (provides_group "index" [("in-bounds", ⟨slots, promised⟩)] (by decide) (by simp)).mono
    fun labels known sequenceFlows indexFlows => ?_
  simp only [List.forall_mem_cons, List.not_mem_nil, false_implies, implies_true,
    and_true] at known
  refine flows_of_flow fun rest next goesOn => ?_
  simp only [join_cons, join_nil, List.append_assoc]
  refine sequenceFlows.flow (indexFlows.flow ?_)
  simpa [known] using goesOn

end Sequence

theorem Text.provides_substring (generated : Text.substring last = .ok (code, next)) :
    Provides last next fun labels =>
      Flows labels ⟨.integer :: .integer :: .integer :: slots, promised⟩ code
        ⟨.integer :: slots, promised⟩ := by
  simp only [Text.substring, bind_eq_ok, pure_eq_ok, freshLabels_eq_ok] at generated
  obtain ⟨labels, _, ⟨rfl, rfl⟩, rfl, rfl⟩ := generated
  refine (provides_group "substring" [("start-ok", ⟨slots, promised⟩),
    ("indices-ok", ⟨slots, promised⟩)] (by decide) (by simp)).mono fun labels known => ?_
  simp only [List.forall_mem_cons, List.not_mem_nil, false_implies, implies_true,
    and_true] at known
  refine flows_of_flow fun rest next goesOn => ?_
  simpa [Text.lengthOf, Text.charactersOf, Text.span, known] using goesOn

theorem Snippet.provides {snippet : Snippet} {operands : List Ty} {result : Ty}
    (generated : snippet.code operands result last = .ok (code, next)) :
    Provides last next fun labels =>
      Flows labels ⟨snippet.takes operands ++ slots, promised⟩ code
        ⟨snippet.gives ++ slots, promised⟩ := by
  cases snippet <;> simp only [Snippet.code, bind_eq_ok, pure_eq_ok, lift_eq_ok] at generated
  case rationalize =>
    obtain ⟨operand, _, ⟨found, rfl⟩, built, rfl⟩ := generated
    cases operands with
    | nil => cases found
    | cons first others =>
        cases found
        exact provides_of_forall fun labels => Arithmetic.flows_rationalize others built
  case expressOver =>
    obtain ⟨operand, _, ⟨found, rfl⟩, built, rfl⟩ := generated
    cases operands with
    | nil => cases found
    | cons first others =>
        cases found
        exact provides_of_forall fun labels => Arithmetic.flows_expressOver others built
  case floatingToRational =>
    obtain ⟨built, rfl⟩ := generated
    obtain ⟨rest, rationalized, built⟩ := Except.bind_eq_ok.mp built
    cases built
    refine provides_of_forall fun labels => flows_of_flow fun others next goesOn => ?_
    simp only [takes, List.cons_append, List.nil_append, flow_pushI]
    exact Flows.flow (Arithmetic.flows_rationalize [] rationalized) goesOn
  case arrayLength | stringLength =>
    obtain ⟨operand, _, ⟨_, rfl⟩, built, rfl⟩ := generated
    exact provides_of_forall fun labels => Sequence.flows_length built
  case arrayReverse | stringReverse =>
    obtain ⟨operand, _, ⟨_, rfl⟩, built⟩ := generated
    exact Sequence.provides_reverse built
  case substring => exact Text.provides_substring generated
  case arrayAllocate =>
    obtain ⟨element, _, ⟨_, rfl⟩, rfl, rfl⟩ := generated
    refine provides_of_forall fun labels => flows_of_flow fun rest next goesOn => ?_
    simpa [takes, gives, Sequence.allocate] using goesOn
  case arrayClone =>
    obtain ⟨operand, _, ⟨_, rfl⟩, element, _, ⟨_, rfl⟩, rfl, rfl⟩ := generated
    refine provides_of_forall fun labels => flows_of_flow fun rest next goesOn => ?_
    simpa [takes, gives, Sequence.clone, Sequence.allocate, Sequence.sourceLength] using goesOn
  all_goals
    obtain ⟨rfl, rfl⟩ := generated
    refine provides_of_forall fun labels => flows_of_flow fun rest next goesOn => ?_
    simpa [takes, gives, Arithmetic.integerDivide, Arithmetic.floatingDivide,
      Arithmetic.rationalAdd, Arithmetic.rationalSubtract, Arithmetic.rationalMultiply,
      Arithmetic.rationalDivide, Arithmetic.rationalNegate, Arithmetic.lowestTerms,
      Arithmetic.crossSum, Arithmetic.stashOperands, Arithmetic.product,
      Arithmetic.rationalToFloating, Text.concatenate, Text.appendCharacter,
      Text.prependCharacter, Text.lengthOf, Text.copyCharacters, Text.copyFrom,
      Text.charactersOf] using goesOn

/-! ## Comparisons and truth operators -/

theorem Comparison.provides (slots : List Slot) (promised : List WordKind) {relation : Relation}
    {type : Ty} {left right : Code}
    (generated : Comparison.code relation type left right last = .ok (code, next)) :
    Provides last next fun labels =>
      Flows labels ⟨slots, promised⟩ left ⟨type.slots ++ slots, promised⟩ →
      Flows labels ⟨type.slots ++ slots, promised⟩ right
        ⟨type.slots ++ (type.slots ++ slots), promised⟩ →
      Flows labels ⟨slots, promised⟩ code ⟨.integer :: slots, promised⟩ := by
  simp only [Comparison.code, bind_eq_ok, pure_eq_ok, lift_eq_ok, freshLabels_eq_ok] at generated
  obtain ⟨labels, _, ⟨rfl, rfl⟩, difference, _, ⟨found, rfl⟩, rfl, rfl⟩ := generated
  refine (provides_group "compare" [("arg1", ⟨slots, promised⟩),
    ("arg2", ⟨type.slots ++ slots, promised⟩),
    ("sub", ⟨type.slots ++ (type.slots ++ slots), promised⟩), ("true", ⟨slots, promised⟩),
    ("false", ⟨slots, promised⟩), ("join", ⟨.integer :: slots, promised⟩)] (by decide)
    (by simp)).mono fun labels known leftFlows rightFlows => ?_
  simp only [List.forall_mem_cons, List.not_mem_nil, false_implies, implies_true,
    and_true] at known
  refine flows_of_flow fun rest next goesOn => ?_
  simp only [join_cons, join_nil, List.append_assoc, List.cons_append, List.nil_append, flow_label,
    known, true_and]
  refine leftFlows.flow ?_
  simp only [flow_label, known, true_and]
  refine rightFlows.flow ?_
  simp only [flow_label, known, true_and]
  cases type <;> simp only [Comparison.difference, Except.ok.injEq, reduceCtorEq] at found <;>
    subst found <;> cases relation <;>
    simpa [Comparison.branch, Comparison.jumpIfPositive, Comparison.jumpIfNegative,
      Comparison.jumpIfZero, isFloating, rationalDifference, Ty.slots, known] using goesOn

end

end StackBackend
