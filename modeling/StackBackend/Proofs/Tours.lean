import StackBackend.Proofs.Courses

namespace StackBackend

/-! Runs that say where they are. Between excursions, of which only the start and the end are
known, a tour stays outside of some places of the code; an excursion can be told to end as soon as
a goal is met. -/

/-- A run on which every configuration but the last one meets the condition. -/
inductive RunsWhile (image : Image) (limit : Option Nat) (condition : Configuration → Prop) :
    Configuration → Configuration → Prop
  | refl (configuration : Configuration) :
      RunsWhile image limit condition configuration configuration
  | step {first second last : Configuration} (meets : condition first)
      (next : first.Next image limit second) (rest : RunsWhile image limit condition second last) :
      RunsWhile image limit condition first last

/-- A run to the first configuration that meets the goal. -/
structure RunsUntil (image : Image) (limit : Option Nat) (goal : Configuration → Prop)
    (first last : Configuration) : Prop where
  runs : RunsWhile image limit (fun configuration => ¬ goal configuration) first last
  meets : goal last

namespace RunsWhile

variable {image : Image} {limit : Option Nat} {condition : Configuration → Prop}
  {first second last : Configuration} {pc position : Nat} {stack stack' : List Word}
  {memory memory' : Memory} {output : ByteArray} {code rest : Code} {name : String}

theorem runs (run : RunsWhile image limit condition first last) : Runs image limit first last := by
  induction run with
  | refl => exact .refl _
  | step _ next _ induction => exact .step next induction

theorem single (meets : condition first) (next : first.Next image limit second) :
    RunsWhile image limit condition first second :=
  .step meets next (.refl second)

theorem trans (left : RunsWhile image limit condition first second)
    (right : RunsWhile image limit condition second last) :
    RunsWhile image limit condition first last := by
  induction left with
  | refl => exact right
  | step meets next _ induction => exact .step meets next (induction right)

/-- Straight code runs where every place in it is allowed. -/
theorem straight (holds : image.Holds code pc)
    (acts : code.act image.word stack memory = some (stack', memory'))
    (meets : ∀ place, pc ≤ place → place < pc + code.size → ∀ stack memory output,
      condition ⟨place, stack, memory, output⟩) :
    RunsWhile image limit condition ⟨pc, stack, memory, output⟩
      ⟨pc + code.size, stack', memory', output⟩ := by
  induction code generalizing pc stack memory with
  | nil =>
      cases acts
      exact .refl _
  | cons instruction rest induction =>
      rw [Code.act] at acts
      rw [Code.size_cons] at meets ⊢
      cases directive : instruction.isDirective with
      | true =>
          rw [directive, if_pos rfl] at acts
          rw [directive, if_pos rfl, Nat.zero_add] at meets
          rw [if_pos rfl, Nat.zero_add]
          refine induction ?_ acts meets
          have after := (@Image.holds_append image [instruction] rest pc).mp holds
          simpa [directive] using after.2
      | false =>
          rw [directive, if_neg Bool.false_ne_true] at acts
          rw [directive, if_neg Bool.false_ne_true] at meets
          rw [if_neg Bool.false_ne_true, ← Nat.add_assoc]
          obtain ⟨⟨between, changed⟩, acted, acts⟩ := Option.bind_eq_some_iff.mp acts
          obtain ⟨found, holds⟩ := (Image.holds_cons directive rest pc).mp holds
          refine .step (meets pc (Nat.le_refl _) (by omega) _ _ _)
            (Configuration.next_of_execute found fun steps => ?_)
            (induction holds acts fun place lower upper => meets place (by omega) (by omega))
          exact Placed.execute_of_act acted (pc + 1) output steps

theorem jump (addressable : image.Addressable) (holds : image.Holds (.jump name :: rest) pc)
    (marks : image.Marks name position) (meets : condition ⟨pc, stack, memory, output⟩) :
    RunsWhile image limit condition ⟨pc, stack, memory, output⟩
      ⟨position, stack, memory, output⟩ :=
  .single meets (Configuration.next_jump addressable holds marks)

theorem branch {instruction : Instruction} {word : Word} {taken : Bool}
    (addressable : image.Addressable) (holds : image.Holds (instruction :: rest) pc)
    (names : instruction.labelOperand? = some name) (marks : image.Marks name position)
    (tests : instruction.test word = some taken)
    (meets : condition ⟨pc, word :: stack, memory, output⟩) :
    RunsWhile image limit condition ⟨pc, word :: stack, memory, output⟩
      ⟨if taken then position else pc + 1, stack, memory, output⟩ :=
  .single meets (Configuration.next_branch addressable holds names marks tests)

end RunsWhile

/-- A run with its excursions in their order. Between them it stays outside of the places. -/
inductive Tour (image : Image) (limit : Option Nat) (places : Nat → Prop) :
    List Excursion → Configuration → Configuration → Prop
  | outside {first last : Configuration}
      (runs : RunsWhile image limit (fun configuration => ¬ places configuration.pc) first last) :
      Tour image limit places [] first last
  | leave {first last : Configuration} {excursion : Excursion} {others : List Excursion}
      (runs : RunsWhile image limit (fun configuration => ¬ places configuration.pc) first
        excursion.start)
      (away : Runs image limit excursion.start excursion.finish)
      (rest : Tour image limit places others excursion.finish last) :
      Tour image limit places (excursion :: others) first last

namespace Tour

variable {image : Image} {limit : Option Nat} {places : Nat → Prop}
  {first second last : Configuration} {excursions others : List Excursion}

theorem runs (tour : Tour image limit places excursions first last) :
    Runs image limit first last := by
  induction tour with
  | outside runs => exact runs.runs
  | leave runs away _ induction => exact runs.runs.trans (away.trans induction)

theorem enter
    (runs : RunsWhile image limit (fun configuration => ¬ places configuration.pc) first second)
    (tour : Tour image limit places excursions second last) :
    Tour image limit places excursions first last := by
  cases tour with
  | outside others => exact .outside (runs.trans others)
  | leave others away rest => exact .leave (runs.trans others) away rest

theorem append (tour : Tour image limit places excursions first second)
    (later : Tour image limit places others second last) :
    Tour image limit places (excursions ++ others) first last := by
  induction tour with
  | outside runs => exact .enter runs later
  | leave runs away _ induction => exact .leave runs away (induction later)

/-- A tour goes on outside of the places. -/
theorem further (tour : Tour image limit places excursions first second)
    (runs : RunsWhile image limit (fun configuration => ¬ places configuration.pc) second last) :
    Tour image limit places excursions first last := by
  simpa using tour.append (.outside runs)

/-- A tour goes on with an excursion. -/
theorem visit (tour : Tour image limit places excursions first second)
    (away : Runs image limit second last) :
    Tour image limit places (excursions ++ [⟨second, last⟩]) first last :=
  tour.append (.leave (.refl _) away (.outside (.refl _)))

end Tour

/-! ## Sealed places

A run of the image in which a range of places halts instead stays outside of the range. -/

namespace Image

/-- The image in which the instructions from a place up to another halt. -/
def sealed (image : Image) (first last : Nat) : Image :=
  { image with
    code := image.code.mapIdx fun place placed =>
      if first ≤ place ∧ place < last then { placed with instruction := .halt } else placed }

variable {image : Image} {code : Code} {name : String} {first last position : Nat}

@[simp] theorem word_sealed : (image.sealed first last).word = image.word := rfl

@[simp] theorem dataSize_sealed : (image.sealed first last).dataSize = image.dataSize := rfl

@[simp] theorem size_code_sealed : (image.sealed first last).code.size = image.code.size :=
  Array.size_mapIdx

theorem addressable_sealed (addressable : image.Addressable) :
    (image.sealed first last).Addressable := by
  rwa [Addressable, size_code_sealed]

theorem marks_sealed :
    (image.sealed first last).Marks name position ↔ image.Marks name position := by
  rw [Marks, Marks, size_code_sealed]
  rfl

theorem getElem?_code_sealed : (image.sealed first last).code[position]? =
    image.code[position]?.map fun placed =>
      if first ≤ position ∧ position < last then { placed with instruction := .halt }
      else placed :=
  Array.getElem?_mapIdx

/-- Code outside of the range stays. -/
theorem Holds.sealed (first last : Nat) (holds : image.Holds code position)
    (apart : position + code.size ≤ first ∨ last ≤ position) :
    (image.sealed first last).Holds code position := by
  induction code generalizing position with
  | nil => trivial
  | cons instruction rest induction =>
      rw [Code.size_cons] at apart
      cases directive : instruction.isDirective with
      | false =>
          rw [directive, if_neg Bool.false_ne_true] at apart
          rcases (holds_cons directive _ _).mp holds with ⟨found, holds⟩
          refine (holds_cons directive _ _).mpr ⟨?_, induction holds (by omega)⟩
          rw [getElem?_code_sealed, found, Option.map_some, if_neg (by omega)]
          rfl
      | true =>
          rw [directive, if_pos rfl, Nat.zero_add] at apart
          by_cases label : ∃ name, instruction = .label name
          · rcases label with ⟨name, rfl⟩
            rcases (holds_label ..).mp holds with ⟨marks, holds⟩
            exact (holds_label ..).mpr ⟨marks_sealed.mpr marks, induction holds apart⟩
          · have notLabel : ∀ name, instruction ≠ .label name := fun name same =>
              label ⟨name, same⟩
            rw [holds_directive directive notLabel] at holds ⊢
            exact induction holds apart

end Image

section

variable {image : Image} {limit : Option Nat} {low high : Nat}

/-- A step of the sealed image is a step from outside of the range. -/
theorem Configuration.Next.of_sealed {before after : Configuration}
    (next : before.Next (image.sealed low high) limit after) :
    before.Next image limit after ∧ ¬ (low ≤ before.pc ∧ before.pc < high) := by
  have stepped := next
  simp only [Configuration.Next, Configuration.state, State.step, Image.getElem?_code_sealed]
    at stepped ⊢
  cases found : image.code[before.pc]? with
  | none => simp [found] at stepped
  | some placed =>
      simp only [found, Option.map_some] at stepped ⊢
      by_cases inside : low ≤ before.pc ∧ before.pc < high
      · simp [inside, Placed.execute, pure, EStateM.pure] at stepped
      · simp only [if_neg inside, Image.execute_congr Image.size_code_sealed] at stepped
        exact ⟨stepped, inside⟩

/-- A run of the sealed image stays outside of the range until it ends. -/
theorem RunsWhile.of_sealed {first last : Configuration}
    (runs : Runs (image.sealed low high) limit first last) :
    RunsWhile image limit
      (fun configuration => ¬ (low ≤ configuration.pc ∧ configuration.pc < high)) first last := by
  induction runs with
  | refl => exact .refl _
  | step next _ induction => exact .step next.of_sealed.2 next.of_sealed.1 induction

/-- A condition may be weakened. -/
theorem RunsWhile.mono {condition weaker : Configuration → Prop} {first last : Configuration}
    (runs : RunsWhile image limit condition first last)
    (implies : ∀ configuration, condition configuration → weaker configuration) :
    RunsWhile image limit weaker first last := by
  induction runs with
  | refl => exact .refl _
  | step meets next _ induction => exact .step (implies _ meets) next induction

end

/-! ## Runs are determined -/

/-- A step leads to one configuration only. -/
theorem Configuration.Next.unique {image : Image} {limit : Option Nat}
    {before first second : Configuration} (left : before.Next image limit first)
    (right : before.Next image limit second) : first = second := by
  have same := (left 0).symm.trans (right 0)
  cases first
  cases second
  injection same with states
  injection states with pc stack memory output
  subst pc stack memory output
  rfl

/-- Where a goal is met first does not depend on the run. -/
theorem RunsUntil.unique {image : Image} {limit : Option Nat} {goal : Configuration → Prop}
    {start first second : Configuration} (left : RunsUntil image limit goal start first)
    (right : RunsUntil image limit goal start second) : first = second := by
  rcases left with ⟨runs, meets⟩
  induction runs with
  | refl =>
      cases right.runs with
      | refl => rfl
      | step unmet _ _ => exact absurd meets unmet
  | step unmet next _ induction =>
      rcases right with ⟨others, reached⟩
      cases others with
      | refl => exact absurd reached unmet
      | step _ otherNext rest =>
          rw [next.unique otherNext] at induction
          exact induction ⟨rest, reached⟩ meets

end StackBackend
