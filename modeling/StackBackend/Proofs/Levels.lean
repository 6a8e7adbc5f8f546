import Mathlib.Data.List.Infix
import StackBackend.Proofs.Tracking

namespace StackBackend

/-! Runs at one level of calls, from place to place in a range of the code, with what is called
on the way as one step. Where the places of the range have shapes that all instructions agree
with, the words of the operand stack follow the shapes. -/

/-! ## Runs at one level -/

/-- A run in a range of the code, in which what is called comes back to behind its call. The
memory is used as it is laid out. -/
inductive Level (image : Image) (limit : Option Nat) :
    Nat → Nat → Configuration → Configuration → Prop
  | refl (low high : Nat) (configuration : Configuration) :
      Level image limit low high configuration configuration
  | step {low high : Nat} {first second last : Configuration} {instruction : Instruction}
      (level : Level image limit low high first second)
      (inside : low ≤ second.pc ∧ second.pc < high) (executes : second.Executes image instruction)
      (stays : instruction.calls = false) (remains : instruction.returns = false)
      (orderly : second.Orderly image) (next : second.Next image limit last) :
      Level image limit low high first last
  | call {low high : Nat} {first caller entered leaving last : Configuration}
      {call back : Instruction} (level : Level image limit low high first caller)
      (inside : low ≤ caller.pc ∧ caller.pc < high) (executes : caller.Executes image call)
      (calls : call.calls = true) (orderly : caller.Orderly image)
      (next : caller.Next image limit entered)
      (inner : Level image limit 0 image.code.size entered leaving)
      (leaves : leaving.Executes image back) (returns : back.returns = true)
      (comes : leaving.Next image limit last) (behind : last.pc = caller.pc + 1) :
      Level image limit low high first last

theorem Level.trans {image : Image} {limit : Option Nat} {low high : Nat}
    {first second last : Configuration} (left : Level image limit low high first second)
    (right : Level image limit low high second last) : Level image limit low high first last := by
  induction right with
  | refl => exact left
  | step _ inside executes stays remains orderly next induction =>
      exact .step (induction left) inside executes stays remains orderly next
  | call _ inside executes calls orderly next inner leaves returns comes behind induction _ =>
      exact .call (induction left) inside executes calls orderly next inner leaves returns comes
        behind

/-! ## Charts -/

/-- Shapes for the places of a range of the code. Every instruction agrees with them, except at
the places that the shapes say nothing of; from such a place control falls to another one. -/
structure Chart (image : Image) (low high : Nat) where
  labels : Labels
  shapes : Nat → Shape
  lost : Nat → Prop
  start : (shapes low).slots = []
  step : ∀ place, low ≤ place → place < high → ¬lost place → ∀ instruction target,
    image.code[place]? = some ⟨instruction, target⟩ →
      instruction.Step labels (shapes place) (shapes (place + 1))
  falls : ∀ place, low ≤ place → place < high → lost place → ∀ instruction target,
    image.code[place]? = some ⟨instruction, target⟩ → (∀ name, instruction ≠ .jump name) →
      lost (place + 1)

namespace Chart

variable {image : Image} {limit : Option Nat} {low high first last : Nat}

/-- Jumps inside a part of the range come to places of the shapes that they need, and those from
lost places come to lost ones. -/
structure Closed (chart : Chart image low high) (first last : Nat) : Prop where
  inside : low ≤ first ∧ last ≤ high
  arrives : ∀ place, first ≤ place → place < last → ¬chart.lost place → ∀ instruction target,
    image.code[place]? = some ⟨instruction, target⟩ → instruction.calls = false →
      ∀ name, instruction.destination? = some name → ∀ shape there,
        shape.Enters chart.labels name → image.Marks name there → first ≤ there → there ≤ last →
          chart.lost there ∨ chart.shapes there = shape
  leads : ∀ place, first ≤ place → place < last → chart.lost place → ∀ instruction target,
    image.code[place]? = some ⟨instruction, target⟩ → instruction.calls = false →
      ∀ name, instruction.destination? = some name → ∀ there, image.Marks name there →
        first ≤ there → there ≤ last → chart.lost there

/-- There is nothing to ask of a part without jumps. -/
theorem closed_of_straight (chart : Chart image low high) (inside : low ≤ first ∧ last ≤ high)
    (straight : ∀ place, first ≤ place → place < last → ∀ instruction target,
      image.code[place]? = some ⟨instruction, target⟩ → instruction.destination? = none) :
    chart.Closed first last where
  inside := inside
  arrives place above below _ instruction target found _ name goes := by
    rw [straight place above below instruction target found] at goes
    cases goes
  leads place above below _ instruction target found _ name goes := by
    rw [straight place above below instruction target found] at goes
    cases goes

/-- In the range, the words above the base follow the shapes unless the place is lost. -/
def Follows (chart : Chart image low high) (first last : Nat) (base : List Word)
    (kept : String → Int32) (promised : List WordKind) (configuration : Configuration) : Prop :=
  first ≤ configuration.pc → configuration.pc ≤ last → chart.lost configuration.pc ∨
    (chart.shapes configuration.pc).promised = promised ∧
      configuration.Tracked image base kept (chart.shapes configuration.pc)

/-- The chart of all the code: what is entered is where the shapes say, and lost places never
return. -/
structure Whole (chart : Chart image 0 image.code.size) : Prop where
  closed : chart.Closed 0 image.code.size
  enters : ∀ place shape, image.Entry place shape →
    chart.lost place ∨ chart.shapes place = shape
  silent : ∀ place, chart.lost place → ∀ instruction target,
    image.code[place]? = some ⟨instruction, target⟩ → instruction.returns = false

/-! ### Stores by name -/

section

variable (chart : Chart image low high)
include chart

/-- The code from a place to one that is not lost agrees with the shapes, unless it jumps. -/
theorem flow_of_straight {code : Code} {final : Instruction} {start : Nat}
    (straight : ∀ instruction ∈ code, instruction.isDirective = false ∧
      instruction.destination? = none) (executed : final.isDirective = false)
    (holds : image.Holds (code ++ [final]) start) (above : low ≤ start)
    (below : start + code.length < high) (known : ¬chart.lost (start + code.length)) :
    ¬chart.lost start ∧ Code.flow chart.labels code (chart.shapes start) fun between =>
      between = chart.shapes (start + code.length) ∧
        final.Step chart.labels between (chart.shapes (start + code.length + 1)) := by
  induction code generalizing start with
  | nil =>
      obtain ⟨found, _⟩ := (Image.holds_cons executed [] start).mp holds
      exact ⟨known, rfl, chart.step start above below known _ _ found⟩
  | cons instruction rest induction =>
      obtain ⟨⟨executed, falls⟩, others⟩ := List.forall_mem_cons.mp straight
      obtain ⟨found, holds⟩ := (Image.holds_cons executed (rest ++ [final]) start).mp holds
      rw [List.length_cons] at below known ⊢
      have behind : start + (rest.length + 1) = start + 1 + rest.length := by omega
      rw [behind] at known ⊢
      obtain ⟨next, flows⟩ := induction others holds (by omega) (by omega) known
      have here : ¬chart.lost start := fun lost =>
        next (chart.falls start above (by omega) lost _ _ found (by rintro _ rfl; cases falls))
      exact ⟨here, _, chart.step start above (by omega) here _ _ found, flows⟩

/-- Code that stores to an address agrees with the shapes up to its store. It begins in the range
if, without its first instructions, it takes more from the stack than there is at the beginning of
the range. -/
theorem flow_to_store {code : Code} {start place : Nat}
    (straight : ∀ instruction ∈ code, instruction.isDirective = false ∧
      instruction.destination? = none)
    (stuck : ∀ back ∈ code.tail.tails, ∀ promised,
      ¬Code.flow chart.labels back ⟨[], promised⟩ fun between =>
        ∃ last, Instruction.storeI.Step chart.labels between last)
    (holds : image.Holds (code ++ [.storeI]) start)
    (ends : start + Code.size (code ++ [.storeI]) = place + 1) (above : low ≤ place)
    (below : place < high) (known : ¬chart.lost place) :
    Code.flow chart.labels code (chart.shapes start) fun between =>
      between = chart.shapes place ∧
        Instruction.storeI.Step chart.labels between (chart.shapes (place + 1)) := by
  have executed {part : Code} (inside : ∀ instruction ∈ part, instruction ∈ code) :
      part.size = part.length := List.countP_eq_length.mpr fun instruction member => by
    simp [(straight instruction (inside instruction member)).1]
  have final : Code.size [.storeI] = 1 := rfl
  rw [Code.size_append, executed fun _ => id, final] at ends
  obtain rfl : place = start + code.length := by omega
  by_cases inside : low ≤ start
  · exact (chart.flow_of_straight straight rfl holds inside below known).2
  -- What of the code is in the range would begin with nothing on the stack.
  exfalso
  obtain ⟨count, rfl⟩ : ∃ count, low = start + (count + 1) := ⟨low - start - 1, by omega⟩
  have size : Code.size (code.take (count + 1)) = count + 1 := by
    rw [executed fun _ => List.mem_of_mem_take, List.length_take]
    omega
  have length : start + (count + 1) + (code.drop (count + 1)).length = start + code.length := by
    rw [List.length_drop]
    omega
  rw [← List.take_append_drop (count + 1) code, List.append_assoc, Image.holds_append,
    size] at holds
  rw [← length] at below known
  have flows := (chart.flow_of_straight
    (fun _ member => straight _ (List.mem_of_mem_drop member)) rfl holds.2 (Nat.le_refl _) below
    known).2
  have empty : chart.shapes (start + (count + 1)) =
      ⟨[], (chart.shapes (start + (count + 1))).promised⟩ := by rw [← chart.start]
  rw [empty] at flows
  refine stuck _ ?_ _ (Code.flow_mono (fun between ends => ⟨_, ends.2⟩) flows)
  have tail : code.drop (count + 1) = code.tail.drop count := by
    rw [← List.drop_one, List.drop_drop, Nat.add_comm]
  rw [tail, List.mem_tails]
  exact List.drop_suffix ..

attribute [local simp] Instruction.isDirective Instruction.destination? Code.flow Instruction.Step
  Instruction.kinds? Instruction.storeStep Slot.take

theorem named_storeWord {cell : String} (shared : cell ∈ Cell.shared) {start place : Nat}
    (holds : image.Holds (Code.storeWord cell) start)
    (ends : start + (Code.storeWord cell).size = place + 1) (above : low ≤ place)
    (below : place < high) (known : ¬chart.lost place) :
    ∃ value rest, (chart.shapes place).slots = value :: .place cell :: rest := by
  have flows : Code.flow chart.labels [.pushD cell, .exchange] (chart.shapes start) _ :=
    chart.flow_to_store (by simp) (by simp) holds ends above below known
  obtain ⟨_, rfl, _, ⟨top, below, rest, same, _, found⟩, found', _⟩ := flows
  rw [← found', found]
  simp only [Slot.pushed_shared shared, List.cons.injEq] at same
  exact ⟨below, rest, by rw [← same.1]⟩

theorem named_increment {cell : String} (shared : cell ∈ Cell.shared) {start place : Nat}
    (holds : image.Holds (Code.increment cell) start)
    (ends : start + (Code.increment cell).size = place + 1) (above : low ≤ place)
    (below : place < high) (known : ¬chart.lost place) :
    ∃ value rest, (chart.shapes place).slots = value :: .place cell :: rest := by
  have flows : Code.flow chart.labels [.pushD cell, .duplicate, .loadI, .pushI 1, .add]
      (chart.shapes start) _ :=
    chart.flow_to_store (by simp) (by simp) holds ends above below known
  generalize chart.shapes start = shape at flows
  obtain ⟨slots, promised⟩ := shape
  rw [Code.flow_pushD, Slot.pushed_shared shared, Code.flow_duplicate, Code.flow_loadI,
    Code.flow_pushI, Code.flow_add] at flows
  obtain ⟨_, _, _, found, _⟩ := flows
  exact ⟨_, slots, by rw [← found]⟩

/-- Where a shared word is stored to by its name, its address is below the value. The code that
does so begins in the range, for all of it but its first instruction takes more from the stack
than there is at the beginning. -/
theorem named {cell : String} (shared : cell ∈ Cell.shared) {place : Nat} (above : low ≤ place)
    (below : place < high) (known : ¬chart.lost place) (stores : image.StoresTo cell place) :
    ∃ value rest, (chart.shapes place).slots = value :: .place cell :: rest := by
  obtain ⟨code, member, start, holds, ends⟩ := stores
  rcases List.mem_pair.mp member with rfl | rfl
  · exact chart.named_storeWord shared holds ends above below known
  · exact chart.named_increment shared holds ends above below known

end

/-! ### Steps -/

section

variable {chart : Chart image low high} {base : List Word} {kept : String → Int32}
  {promised : List WordKind} {second third : Configuration} {instruction : Instruction}

/-- From a lost place control comes to lost places only. -/
theorem Closed.lost_step (closed : chart.Closed first last) (lost : chart.lost second.pc)
    (inside : first ≤ second.pc ∧ second.pc < last) (executes : second.Executes image instruction)
    (stays : instruction.calls = false) (remains : instruction.returns = false)
    (next : second.Next image limit third) (addressable : image.Addressable)
    (marked : ∀ name, instruction.destination? = some name → ∃ place, image.Marks name place)
    (above : first ≤ third.pc) (below : third.pc ≤ last) : chart.lost third.pc := by
  have range := closed.inside
  have executed := next.execute executes
  have falls (same : third.pc = second.pc + 1) (straight : ∀ name, instruction ≠ .jump name) :
      chart.lost third.pc := by
    rw [same]
    exact chart.falls _ (by omega) (by omega) lost _ _ executes straight
  cases goes : instruction.destination? with
  | none =>
      have goesOn : instruction ≠ .halt := by
        rintro rfl
        cases executed
      have toWord : instruction.jumpsToWord = false := by
        cases instruction <;> first | rfl | (cases stays; done) | cases remains
      refine falls (Placed.stays_execute ⟨_, _⟩ goes toWord goesOn _ _ _ executed) ?_
      rintro name rfl
      cases goes
  | some name =>
      obtain ⟨there, marks⟩ := marked name goes
      rcases Placed.pc_of_destination goes executed with jumped | ⟨same, straight⟩
      · have target : third.pc = there := by
          have operand := (Instruction.labelOperand?_of_destination? goes).1
          rw [show third.pc = _ from jumped, Instruction.target, operand]
          dsimp only
          rw [marks.word]
          exact Image.toNatClampNeg_ofNat addressable marks.2
        rw [target] at above below ⊢
        exact closed.leads _ inside.1 inside.2 lost _ _ executes stays name goes there marks above
          below
      · exact falls same straight

theorem Closed.follows_step (closed : chart.Closed first last)
    (follows : chart.Follows first last base kept promised second)
    (inside : first ≤ second.pc ∧ second.pc < last) (executes : second.Executes image instruction)
    (stays : instruction.calls = false) (remains : instruction.returns = false)
    (orderly : second.Orderly image) (next : second.Next image limit third)
    (addressable : image.Addressable)
    (marked : ∀ name, instruction.destination? = some name → ∃ place, image.Marks name place) :
    chart.Follows first last base kept promised third := by
  intro above below
  have range := closed.inside
  by_cases lost : chart.lost second.pc
  · exact .inl (closed.lost_step lost inside executes stays remains next addressable marked above
      below)
  obtain ⟨same, tracked⟩ := (follows inside.1 (Nat.le_of_lt inside.2)).resolve_left lost
  have agrees := chart.step _ (by omega) (by omega) lost _ _ executes
  cases tracked.step agrees executes next stays remains orderly fun cell shared =>
    chart.named shared (by omega) (by omega) lost with
  | falls pc _ kinds tracked =>
      rw [pc]
      exact .inr ⟨kinds.trans same, tracked⟩
  | jumps name shape goes pc enters kinds tracked =>
      obtain ⟨there, marks⟩ := marked name goes
      have target : third.pc = there := by
        rw [pc, marks.word]
        exact Image.toNatClampNeg_ofNat addressable marks.2
      rw [target] at above below ⊢
      refine (closed.arrives _ inside.1 inside.2 lost _ _ executes stays name goes shape there
        enters marks above below).imp_right ?_
      rintro rfl
      exact ⟨kinds.trans same, tracked⟩

end

end Chart

/-! ## Runs -/

/-- A run at one level follows the chart of its range, if what it calls follows the chart of all
the code. -/
theorem Level.follows {image : Image} {limit : Option Nat} {all : Chart image 0 image.code.size}
    (whole : all.Whole) (addressable : image.Addressable)
    (marked : ∀ placed ∈ image.code, ∀ name, placed.instruction.destination? = some name →
      ∃ place, image.Marks name place) {first last : Nat} {before after : Configuration}
    (level : Level image limit first last before after) :
    ∀ {low high : Nat} (chart : Chart image low high), chart.Closed first last →
      ∀ base kept promised, chart.Follows first last base kept promised before →
        chart.Follows first last base kept promised after := by
  have named {configuration : Configuration} {instruction : Instruction}
      (executes : configuration.Executes image instruction) (name : String)
      (goes : instruction.destination? = some name) : ∃ place, image.Marks name place :=
    marked _ (Array.mem_of_getElem? executes) name goes
  induction level with
  | refl => exact fun _ _ _ _ _ follows => follows
  | step level inside executes stays remains orderly next induction =>
      intro low high chart closed base kept promised follows
      exact closed.follows_step (induction chart closed base kept promised follows) inside executes
        stays remains orderly next addressable (named executes)
  | @call first last before caller entered leaving after call back level inside executes calls
      orderly next inner leaves returns comes behind induction called =>
      intro low high chart closed base kept promised follows above below
      have range := closed.inside
      have follows := induction chart closed base kept promised follows
      rw [behind]
      by_cases lost : chart.lost caller.pc
      · refine .inl (chart.falls _ (by omega) (by omega) lost _ _ executes ?_)
        rintro name rfl
        cases calls
      obtain ⟨same, tracked⟩ := (follows inside.1 (Nat.le_of_lt inside.2)).resolve_left lost
      have agrees := chart.step _ (by omega) (by omega) lost _ _ executes
      obtain ⟨kinds, entry, rest, entrance, enters, continues⟩ := tracked.call agrees executes calls
        next orderly addressable fun name same => named executes name (by rw [same]; rfl)
      refine .inr ⟨kinds.trans same, continues _ ?_⟩
      -- What is called follows the shapes from its entry to the place where it goes back.
      have arrived := called all whole.closed rest _ entry.promised fun _ _ =>
        (whole.enters _ _ entrance).imp_right fun place =>
          ⟨congrArg Shape.promised place, place ▸ enters⟩
      have there : leaving.pc < image.code.size := (Array.getElem?_eq_some_iff.mp leaves).1
      have silent : ¬all.lost leaving.pc := fun lost => by
        rw [whole.silent _ lost _ _ leaves] at returns
        cases returns
      obtain ⟨promise, arrived⟩ :=
        (arrived (Nat.zero_le _) (Nat.le_of_lt there)).resolve_left silent
      have steps := all.step _ (Nat.zero_le _) there silent _ _ leaves
      obtain ⟨given, stack, fits, memory⟩ := arrived.return steps leaves returns comes
      exact ⟨given, stack, fits.trans promise, memory⟩

end StackBackend
