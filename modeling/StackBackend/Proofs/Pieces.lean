import StackBackend.Proofs.Levels
import StackBackend.Proofs.Plainness

namespace StackBackend

/-! Charts of pieces of code. Code that flows has a chart, even if parts that never go on to
what is behind them are left out of what flows. -/

/-! ## Code in its place -/

namespace Image

variable {image : Image} {code : Code} {start place : Nat}

/-- A label of the code is at its place there. -/
theorem marks_of_holds {name : String} (holds : image.Holds code start)
    (member : .label name ∈ code) :
    ∃ there, image.Marks name there ∧ start ≤ there ∧ there ≤ start + code.size := by
  obtain ⟨before, rest, rfl⟩ := List.append_of_mem member
  obtain ⟨_, marks, _⟩ := holds_append.mp holds
  rw [Code.size_append]
  exact ⟨_, marks, by omega, by omega⟩

/-- What is at a place of the code is one of its instructions. -/
theorem mem_of_holds {placed : Placed} (holds : image.Holds code start) (above : start ≤ place)
    (below : place < start + code.size) (found : image.code[place]? = some placed) :
    placed.instruction ∈ code := by
  induction code generalizing start with
  | nil => exact absurd below (by simpa using above)
  | cons instruction rest induction =>
      cases directive : instruction.isDirective with
      | true =>
          have restHolds : image.Holds rest start := by
            have both : image.Holds ([instruction] ++ rest) start := holds
            have none : Code.size [instruction] = 0 := by simp [directive]
            rw [holds_append, none] at both
            exact both.2
          rw [Code.size_cons, if_pos directive, Nat.zero_add] at below
          exact List.mem_cons_of_mem _ (induction restHolds above below)
      | false =>
          obtain ⟨here, restHolds⟩ := (holds_cons directive rest start).mp holds
          rw [Code.size_cons, directive] at below
          rcases Nat.eq_or_lt_of_le above with rfl | above
          · obtain rfl := Option.some.inj (here.symm.trans found)
            exact List.mem_cons_self ..
          · exact List.mem_cons_of_mem _ (induction restHolds above
              (by simpa [Nat.add_assoc] using below))

end Image

/-! ## Severed code -/

/-- Control does not fall out of the code. -/
def Code.Closes (code : Code) : Prop :=
  ∃ (body : Code) (exit : String), code = body ++ [.jump exit]

/-- The code goes on to no place behind it: it ends with a jump, and where it jumps to is a
label of its own or one outside. -/
structure Code.Severed (outside : String → Prop) (code : Code) : Prop where
  closes : code.Closes
  leads : ∀ instruction ∈ code, ∀ name, instruction.destination? = some name →
    .label name ∈ code ∨ outside name

theorem Code.Closes.marks {code : Code} (closes : code.Closes) {image : Image} {start : Nat}
    (holds : image.Holds code start) {name : String} (member : .label name ∈ code) :
    ∃ there, image.Marks name there ∧ start ≤ there ∧ there < start + code.size := by
  obtain ⟨body, exit, rfl⟩ := closes
  have member : .label name ∈ body := by simpa using member
  obtain ⟨there, marks, above, below⟩ :=
    Image.marks_of_holds (Image.holds_append.mp holds).1 member
  have size : Code.size (body ++ [.jump exit]) = body.size + 1 := Code.size_append ..
  exact ⟨there, marks, above, by omega⟩

theorem Code.Closes.falls {code : Code} (closes : code.Closes) {image : Image} {start place : Nat}
    (holds : image.Holds code start) (below : place < start + code.size) {placed : Placed}
    (found : image.code[place]? = some placed)
    (straight : ∀ name, placed.instruction ≠ .jump name) : place + 1 < start + code.size := by
  obtain ⟨body, exit, rfl⟩ := closes
  obtain ⟨final, _⟩ := (Image.holds_cons rfl [] _).mp (Image.holds_append.mp holds).2
  have size : Code.size (body ++ [.jump exit]) = body.size + 1 := Code.size_append ..
  have other : place ≠ start + body.size := by
    rintro rfl
    obtain rfl := Option.some.inj (final.symm.trans found)
    exact straight exit rfl
  omega

/-- The second code is the first with some parts exchanged for others. -/
inductive Code.Cut (lose : Code → Prop) : Code → Code → Prop
  | nil : Cut lose [] []
  | keep (instruction : Instruction) {code other : Code} (cut : Cut lose code other) :
      Cut lose (instruction :: code) (instruction :: other)
  | lose {piece patch code other : Code} (lost : lose piece)
      (labels : ∀ name, .label name ∈ patch → .label name ∈ piece) (cut : Cut lose code other) :
      Cut lose (piece ++ code) (patch ++ other)

namespace Code.Cut

variable {lose : Code → Prop} {first second code other : Code}

theorem refl (lose : Code → Prop) (code : Code) : Cut lose code code := by
  induction code with
  | nil => exact .nil
  | cons instruction rest induction => exact .keep instruction induction

theorem append (left : Cut lose first second) (right : Cut lose code other) :
    Cut lose (first ++ code) (second ++ other) := by
  induction left with
  | nil => exact right
  | keep instruction _ induction => exact .keep instruction induction
  | lose lost labels _ induction =>
      rw [List.append_assoc, List.append_assoc]
      exact .lose lost labels induction

theorem label_mem (cut : Cut lose first second) {name : String}
    (member : .label name ∈ second) : .label name ∈ first := by
  induction cut with
  | nil => exact member
  | keep instruction _ induction =>
      rcases List.mem_cons.mp member with rfl | member
      · exact List.mem_cons_self ..
      · exact List.mem_cons_of_mem _ (induction member)
  | lose _ labels _ induction =>
      rcases List.mem_append.mp member with member | member
      · exact List.mem_append_left _ (labels name member)
      · exact List.mem_append_right _ (induction member)

end Code.Cut

/-! ## Traces -/

/-- Shapes for the places of the code that agree with what flows, except at the places of the
parts that are lost. -/
structure Traced (image : Image) (labels : Labels) (lose : Code → Prop) (code other : Code)
    (start : Nat) (first last : Shape) (shapes : Nat → Shape) (lost : Nat → Prop) : Prop where
  begins : shapes start = first
  ends : shapes (start + code.size) = last
  gone : ∀ place, lost place → ∃ piece from_, lose piece ∧ image.Holds piece from_ ∧
    (from_ ≤ place ∧ place < from_ + piece.size) ∧ start ≤ from_ ∧
      from_ + piece.size ≤ start + code.size ∧
        ∀ there, from_ ≤ there → there < from_ + piece.size → lost there
  step : ∀ place, start ≤ place → place < start + code.size → ¬lost place →
    ∀ instruction target, image.code[place]? = some ⟨instruction, target⟩ →
      instruction ∈ other ∧ instruction.Step labels (shapes place) (shapes (place + 1))
  named : ∀ name, .label name ∈ code → ∃ there, image.Marks name there ∧
    (start ≤ there ∧ there ≤ start + code.size) ∧ (lost there ∨ labels name = some (shapes there))

namespace Traced

variable {image : Image} {labels : Labels} {lose : Code → Prop} {code other : Code}
  {start : Nat} {first between last : Shape} {shapes : Nat → Shape} {lost : Nat → Prop}
  {instruction : Instruction}

theorem nil (image : Image) (labels : Labels) (lose : Code → Prop) (start : Nat)
    (shape : Shape) :
    Traced image labels lose [] [] start shape shape (fun _ => shape) fun _ => False where
  begins := rfl
  ends := rfl
  gone := nofun
  step := fun place above below => absurd above (by simpa using below)
  named := nofun

/-- An instruction that is executed has a place of its own. -/
theorem cons_executed (executed : instruction.isDirective = false)
    (found : image.code[start]? = some ⟨instruction, instruction.target image.word⟩)
    (agrees : instruction.Step labels first between)
    (traced : Traced image labels lose code other (start + 1) between last shapes lost) :
    Traced image labels lose (instruction :: code) (instruction :: other) start first last
      (fun place => if place ≤ start then first else shapes place) lost := by
  have size : start + Code.size (instruction :: code) = start + 1 + code.size := by
    rw [Code.size_cons, executed]
    simp [Nat.add_assoc]
  have later {place : Nat} (behind : start < place) :
      (if place ≤ start then first else shapes place) = shapes place :=
    if_neg (Nat.not_le_of_lt behind)
  refine ⟨if_pos (Nat.le_refl _), ?_, fun place gone => ?_, fun place above below known => ?_,
    fun name member => ?_⟩
  · rw [size, later (by omega)]
    exact traced.ends
  · obtain ⟨piece, from_, loses, holds, inside, above, below, all⟩ := traced.gone place gone
    exact ⟨piece, from_, loses, holds, inside, by omega, size ▸ below, all⟩
  · intro here target there
    rw [later (Nat.lt_succ_of_le above)]
    rcases Nat.eq_or_lt_of_le above with rfl | above
    · obtain ⟨rfl, _⟩ := Placed.mk.inj (Option.some.inj (found.symm.trans there))
      rw [if_pos (Nat.le_refl _), traced.begins]
      exact ⟨List.mem_cons_self .., agrees⟩
    · rw [later above]
      obtain ⟨member, step⟩ := traced.step place above (size ▸ below) known here target there
      exact ⟨List.mem_cons_of_mem _ member, step⟩
  · have member : .label name ∈ code := by
      rcases List.mem_cons.mp member with rfl | member
      · cases executed
      · exact member
    obtain ⟨there, marks, range, known⟩ := traced.named name member
    refine ⟨there, marks, by omega, ?_⟩
    rwa [later (by omega)]

/-- A directive shares the place of what is behind it. -/
theorem cons_directive (directive : instruction.isDirective = true)
    (marks : ∀ name, instruction = .label name → image.Marks name start)
    (agrees : instruction.Step labels first between)
    (traced : Traced image labels lose code other start between last shapes lost) :
    Traced image labels lose (instruction :: code) (instruction :: other) start first last
      shapes lost := by
  have size : Code.size (instruction :: code) = code.size := by
    rw [Code.size_cons, if_pos directive, Nat.zero_add]
  have same : between = first := by
    cases instruction <;> first | exact agrees | exact agrees.2 | cases directive
  subst same
  refine ⟨traced.begins, by rw [size, traced.ends], size.symm ▸ traced.gone,
    fun place above below known here target there => ?_, fun name member => ?_⟩
  · obtain ⟨member, step⟩ := traced.step place above (size ▸ below) known here target there
    exact ⟨List.mem_cons_of_mem _ member, step⟩
  · rw [size]
    rcases List.mem_cons.mp member with rfl | member
    · refine ⟨start, marks name rfl, by omega, .inr ?_⟩
      rw [traced.begins]
      exact agrees.1
    · exact traced.named name member

/-- What is left out is lost. -/
theorem append_lost {piece patch : Code} (loses : lose piece) (closes : piece.Closes)
    (holds : image.Holds piece start)
    (traced : Traced image labels lose code other (start + piece.size) between last shapes lost) :
    Traced image labels lose (piece ++ code) (patch ++ other) start first last
      (fun place => if place < start + piece.size then first else shapes place)
      fun place => start ≤ place ∧ place < start + piece.size ∨ lost place := by
  have nonempty : 0 < piece.size := by
    obtain ⟨body, exit, rfl⟩ := closes
    rw [Code.size_append]
    exact Nat.lt_of_lt_of_le Nat.one_pos (Nat.le_add_left _ _)
  have size : start + Code.size (piece ++ code) = start + piece.size + code.size := by
    rw [Code.size_append, Nat.add_assoc]
  have later {place : Nat} (behind : start + piece.size ≤ place) :
      (if place < start + piece.size then first else shapes place) = shapes place :=
    if_neg (Nat.not_lt_of_le behind)
  refine ⟨if_pos (by omega), ?_, fun place gone => ?_,
    fun place above below known here target there => ?_, fun name member => ?_⟩
  · rw [size, later (by omega)]
    exact traced.ends
  · rcases gone with inside | gone
    · exact ⟨piece, start, loses, holds, inside, Nat.le_refl _, by omega,
        fun there above below => .inl ⟨above, below⟩⟩
    · obtain ⟨other, from_, loses, holds, inside, above, below, all⟩ := traced.gone place gone
      exact ⟨other, from_, loses, holds, inside, by omega, size ▸ below,
        fun there above below => .inr (all there above below)⟩
  · obtain ⟨notPiece, known⟩ := not_or.mp known
    have above : start + piece.size ≤ place := by omega
    rw [later above, later (by omega)]
    obtain ⟨member, step⟩ := traced.step place above (size ▸ below) known here target there
    exact ⟨List.mem_append_right _ member, step⟩
  · rcases List.mem_append.mp member with member | member
    · obtain ⟨there, marks, above, below⟩ := closes.marks holds member
      exact ⟨there, marks, by omega, .inl (.inl ⟨above, below⟩)⟩
    · obtain ⟨there, marks, range, known⟩ := traced.named name member
      refine ⟨there, marks, by omega, known.imp .inr fun known => ?_⟩
      rw [later range.1]
      exact known

theorem inside (traced : Traced image labels lose code other start first last shapes lost)
    {place : Nat} (gone : lost place) : start ≤ place ∧ place < start + code.size := by
  obtain ⟨piece, from_, _, _, inside, above, below, _⟩ := traced.gone place gone
  omega

theorem falls (traced : Traced image labels lose code other start first last shapes lost)
    (closes : ∀ piece, lose piece → piece.Closes) {place : Nat} (gone : lost place)
    {placed : Placed} (found : image.code[place]? = some placed)
    (straight : ∀ name, placed.instruction ≠ .jump name) : lost (place + 1) := by
  obtain ⟨piece, from_, loses, holds, inside, _, _, all⟩ := traced.gone place gone
  exact all _ (by omega) ((closes piece loses).falls holds inside.2 found straight)

/-- Where lost code jumps to is lost, or outside. -/
theorem leads {outside : String → Prop}
    (traced : Traced image labels lose code other start first last shapes lost)
    (severed : ∀ piece, lose piece → piece.Severed outside) {place : Nat} (gone : lost place)
    {placed : Placed} (found : image.code[place]? = some placed) {name : String}
    (goes : placed.instruction.destination? = some name) :
    (∃ there, image.Marks name there ∧ lost there) ∨ outside name := by
  obtain ⟨piece, from_, loses, holds, inside, _, _, all⟩ := traced.gone place gone
  have member := Image.mem_of_holds holds inside.1 inside.2 found
  refine ((severed piece loses).leads _ member name goes).imp_left fun label => ?_
  obtain ⟨there, marks, above, below⟩ := (severed piece loses).closes.marks holds label
  exact ⟨there, marks, all there above below⟩

/-- The chart of code that starts with nothing on the stack. -/
def chart (traced : Traced image labels lose code other start first last shapes lost)
    (closes : ∀ piece, lose piece → piece.Closes) (empty : first.slots = []) :
    Chart image start (start + code.size) where
  labels := labels
  shapes := shapes
  lost := lost
  start := by rw [traced.begins, empty]
  step place above below known instruction target found :=
    (traced.step place above below known instruction target found).2
  falls _ _ _ gone _ _ found straight := traced.falls closes gone found straight

end Traced

/-- Code that flows comes to some shape. -/
theorem Code.exists_of_flow {labels : Labels} {code : Code} {first : Shape}
    {next : Shape → Prop} (flows : flow labels code first next) : ∃ last, next last := by
  induction code generalizing first with
  | nil => exact ⟨first, flows⟩
  | cons instruction rest induction =>
      obtain ⟨between, _, flows⟩ := flows
      exact induction flows

/-- Code is traced by what flows in its stead. -/
theorem Code.Cut.traced {image : Image} {labels : Labels} {lose : Code → Prop}
    (closes : ∀ piece, lose piece → piece.Closes) {code other : Code} (cut : code.Cut lose other)
    {start : Nat} (holds : image.Holds code start) {first : Shape} {next : Shape → Prop}
    (flows : flow labels other first next) :
    ∃ shapes lost last, next last ∧
      Traced image labels lose code other start first last shapes lost := by
  induction cut generalizing start first with
  | nil => exact ⟨_, _, first, flows, .nil image labels lose start first⟩
  | @keep instruction code other cut induction =>
      obtain ⟨between, agrees, flows⟩ := flows
      cases directive : instruction.isDirective with
      | false =>
          obtain ⟨found, holds⟩ := (Image.holds_cons directive code start).mp holds
          obtain ⟨shapes, lost, last, ends, traced⟩ := induction holds flows
          exact ⟨_, _, last, ends, traced.cons_executed directive found agrees⟩
      | true =>
          have both : image.Holds ([instruction] ++ code) start := holds
          have none : Code.size [instruction] = 0 := by simp [directive]
          rw [Image.holds_append, none] at both
          obtain ⟨shapes, lost, last, ends, traced⟩ := induction both.2 flows
          refine ⟨_, _, last, ends, traced.cons_directive directive ?_ agrees⟩
          rintro name rfl
          exact both.1.1
  | @lose piece patch code other loses _ _ induction =>
      obtain ⟨pieceHolds, holds⟩ := Image.holds_append.mp holds
      rw [flow_append] at flows
      obtain ⟨between, flows⟩ := exists_of_flow flows
      obtain ⟨shapes, lost, last, ends, traced⟩ := induction holds flows
      exact ⟨_, _, last, ends, traced.append_lost loses (closes piece loses) pieceHolds⟩

/-- Nothing is lost of code that flows itself. -/
theorem Code.exists_traced {image : Image} {labels : Labels} {code : Code} {start : Nat}
    (holds : image.Holds code start) {first : Shape} {next : Shape → Prop}
    (flows : flow labels code first next) :
    ∃ shapes last, next last ∧
      Traced image labels (fun _ => False) code code start first last shapes fun _ => False := by
  obtain ⟨shapes, lost, last, ends, traced⟩ :=
    (Cut.refl (fun _ => False) code).traced (fun _ => False.elim) holds flows
  have none : lost = fun _ => False := funext fun place => eq_false fun gone => by
    obtain ⟨_, _, loses, _⟩ := traced.gone place gone
    exact loses
  exact ⟨shapes, last, ends, none ▸ traced⟩

end StackBackend
