import StackBackend.Defect

namespace StackBackend

/-! Computations that may fail: when a sequence of them succeeds, and when the
checked arithmetic of generation does. -/

theorem Except.bind_eq_ok {α β ε : Type} {first : Except ε α} {rest : α → Except ε β} {value : β} :
    (first >>= rest) = .ok value ↔ ∃ between, first = .ok between ∧ rest between = .ok value := by
  cases first <;> simp [bind, Except.bind]

theorem Except.pure_eq_ok {α ε : Type} {value result : α} :
    (pure value : Except ε α) = .ok result ↔ result = value := by
  simp [pure, Except.pure, eq_comm]

theorem Except.mapM_get {α β ε : Type} {transform : α → Except ε β} {inputs : List α}
    {outputs : List β} (mapped : inputs.mapM transform = .ok outputs) :
    outputs.length = inputs.length ∧ ∀ (index : Nat) (input : α), inputs[index]? = some input →
      ∃ output, transform input = .ok output ∧ outputs[index]? = some output := by
  induction inputs generalizing outputs with
  | nil =>
      cases mapped
      exact ⟨rfl, fun index input found => by simp at found⟩
  | cons first rest induction =>
      rw [List.mapM_cons] at mapped
      simp only [Except.bind_eq_ok, Except.pure_eq_ok] at mapped
      obtain ⟨output, transformed, others, mapped, rfl⟩ := mapped
      obtain ⟨length, all⟩ := induction mapped
      refine ⟨by simp [length], fun index input found => ?_⟩
      cases index with
      | zero =>
          cases found
          exact ⟨output, transformed, rfl⟩
      | succ index => exact all index input found

theorem Except.exists_of_mem_mapM {α β ε : Type} {transform : α → Except ε β} {inputs : List α}
    {outputs : List β} (mapped : inputs.mapM transform = .ok outputs) {output : β}
    (member : output ∈ outputs) : ∃ input ∈ inputs, transform input = .ok output := by
  obtain ⟨length, all⟩ := Except.mapM_get mapped
  obtain ⟨index, inside, found⟩ := List.mem_iff_getElem.mp member
  have bound : index < inputs.length := length ▸ inside
  obtain ⟨other, transformed, same⟩ := all index inputs[index] (List.getElem?_eq_getElem bound)
  rw [List.getElem?_eq_getElem inside, found, Option.some.injEq] at same
  exact ⟨inputs[index], List.getElem_mem bound, same ▸ transformed⟩

theorem Except.map_of_mapM {α β γ ε : Type} {transform : α → Except ε β} {observe : β → γ}
    {expected : α → γ}
    (same : ∀ input output, transform input = .ok output → observe output = expected input)
    {inputs : List α} {outputs : List β} (mapped : inputs.mapM transform = .ok outputs) :
    outputs.map observe = inputs.map expected := by
  induction inputs generalizing outputs with
  | nil =>
      cases mapped
      rfl
  | cons input rest induction =>
      rw [List.mapM_cons] at mapped
      simp only [Except.bind_eq_ok, Except.pure_eq_ok] at mapped
      obtain ⟨output, transformed, others, mapped, rfl⟩ := mapped
      rw [List.map_cons, List.map_cons, same input output transformed, induction mapped]

/-! ## Failures -/

/-- The error of a computation that failed. -/
def Except.error? {α ε : Type} : Except ε α → Option ε
  | .ok _ => none
  | .error error => some error

theorem Except.error?_eq_none {α ε : Type} {result : Except ε α} :
    Except.error? result = none ↔ ∃ value, result = .ok value := by
  cases result <;> simp [Except.error?]

theorem Except.error?_eq_some {α ε : Type} {result : Except ε α} {error : ε} :
    Except.error? result = some error ↔ result = .error error := by
  cases result <;> simp [Except.error?]

theorem Except.error?_bind {α β ε : Type} (first : Except ε α) (rest : α → Except ε β) :
    Except.error? (first >>= rest) = match first with
      | .ok value => Except.error? (rest value)
      | .error error => some error := by
  cases first <;> rfl

/-- Computations one after the other fail with the first error of one of them. -/
theorem Except.error?_mapM {α β ε : Type} (transform : α → Except ε β) (inputs : List α) :
    Except.error? (inputs.mapM transform) =
      (inputs.filterMap fun input => Except.error? (transform input)).head? := by
  induction inputs with
  | nil => rfl
  | cons input rest induction =>
      rw [List.mapM_cons, List.filterMap_cons, Except.error?_bind]
      cases transform input with
      | error error => rfl
      | ok output =>
          have later : Except.error? ((rest.mapM transform) >>= fun outputs =>
              pure (output :: outputs)) = Except.error? (rest.mapM transform) := by
            cases rest.mapM transform <;> rfl
          exact later.trans induction

/-! ## Checked arithmetic -/

namespace Checked

theorem word?_eq_some {value : Int} {word : Int32} :
    word? value = some word ↔ word.toInt = value := by
  have lower := Int32.le_toInt word
  have upper := Int32.toInt_lt word
  unfold word?
  constructor
  · intro found
    split at found
    · cases found
      exact Int32.toInt_ofInt_of_le (by omega) (by omega)
    · cases found
  · intro same
    rw [if_pos (by omega), ← same, Int32.ofInt_toInt]

theorem add_eq_ok {left right sum : Int32} :
    add left right = .ok sum ↔ sum.toInt = left.toInt + right.toInt := by
  rw [← word?_eq_some, add]
  cases word? (left.toInt + right.toInt) <;> simp

theorem subtract_eq_ok {left right difference : Int32} :
    subtract left right = .ok difference ↔ difference.toInt = left.toInt - right.toInt := by
  rw [← word?_eq_some, subtract]
  cases word? (left.toInt - right.toInt) <;> simp

end Checked

end StackBackend
