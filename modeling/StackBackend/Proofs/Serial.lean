import StackBackend.Proofs.Assembly
import StackBackend.Proofs.Generation

namespace StackBackend

/-! Labels made up during generation never meet. A label carries the serial number
of its construct as its first digits, and every construct draws a number of its
own, so the pieces of a program define labels with numbers of disjoint ranges. -/

/-! ## Serial numbers -/

namespace LabelGroup

/-- The number that the first digits of a label stand for; zero without digits. -/
def serialOf (name : String) : Nat :=
  Nat.ofDigitChars 10 ((name.toList.dropWhile (!·.isDigit)).takeWhile Char.isDigit) 0

/-- Whether none of the bytes of a name is a digit. -/
def digitFree (name : String) : Bool :=
  name.toByteArray.data.toList.all fun byte => byte.toNat < 48 || 57 < byte.toNat

/-- An ASCII character of a name is a byte of its own. -/
theorem mem_bytes_of_mem_toList {name : String} {character : Char}
    (member : character ∈ name.toList) (small : character.toNat ≤ 127) :
    ∃ byte ∈ name.toByteArray.data.toList, byte.toNat = character.toNat := by
  refine ⟨UInt8.ofNat character.toNat, ?_, ?_⟩
  · rw [← String.ofList_toList (s := name), String.toByteArray_ofList, List.utf8Encode,
      List.data_toByteArray, List.toList_toArray, List.mem_flatMap]
    exact ⟨character, member, by simp [String.utf8EncodeChar, small]⟩
  · simp only [UInt8.toNat_ofNat']
    omega

/-- A name without digits carries no number. -/
theorem serialOf_of_digitFree {name : String} (free : digitFree name = true) :
    serialOf name = 0 := by
  have plain : ∀ character ∈ name.toList, (!character.isDigit) = true := by
    intro character member
    rw [Bool.not_eq_true', Bool.eq_false_iff]
    intro digit
    have range : 48 ≤ character.toNat ∧ character.toNat ≤ 57 := by
      simpa [Char.isDigit, UInt32.le_iff_toNat_le] using digit
    obtain ⟨byte, inside, same⟩ := mem_bytes_of_mem_toList member (by omega)
    have outside := List.all_eq_true.mp free byte inside
    simp only [same, Bool.or_eq_true, decide_eq_true_eq] at outside
    omega
  have none : (name.toList ++ []).dropWhile (fun character : Char => !character.isDigit) = [] :=
    List.dropWhile_append_of_pos plain
  rw [List.append_nil] at none
  rw [serialOf, none]
  rfl

theorem toList_label (group : LabelGroup) (suffix : String) :
    (group.label suffix).toList =
      '-' :: (group.stem.toList ++ '-' :: (Nat.toDigits 10 group.serial ++ '-' :: suffix.toList)) := by
  simp [label, String.toList_append, Nat.toString_eq_repr, Nat.toList_repr]

/-- The stem of a group has no digits, so those of a label are the number. -/
theorem serialOf_label {group : LabelGroup} (plain : group.stem.toList.all (!·.isDigit) = true)
    (suffix : String) : serialOf (group.label suffix) = group.serial := by
  have digits : ∀ digit ∈ Nat.toDigits 10 group.serial, digit.isDigit = true := fun digit member =>
    Nat.isDigit_of_mem_toDigits (by decide) (by decide) member
  have stem : ∀ character ∈ group.stem.toList, (!character.isDigit) = true :=
    List.all_eq_true.mp plain
  have dropped : (group.label suffix).toList.dropWhile (!·.isDigit) =
      Nat.toDigits 10 group.serial ++ '-' :: suffix.toList := by
    rw [toList_label, List.dropWhile_cons_of_pos (by decide),
      List.dropWhile_append_of_pos stem, List.dropWhile_cons_of_pos (by decide)]
    cases shape : Nat.toDigits 10 group.serial with
    | nil => exact absurd shape Nat.toDigits_ne_nil
    | cons digit rest =>
        rw [List.cons_append, List.dropWhile_cons_of_neg]
        simp [digits digit (by simp [shape])]
  rw [serialOf, dropped, List.takeWhile_append_of_pos digits,
    List.takeWhile_cons_of_neg (by decide), List.append_nil, Nat.ofDigitChars_ten_toDigits]

theorem label_inj {group : LabelGroup} {first second : String} :
    group.label first = group.label second ↔ first = second := by
  constructor
  · intro same
    have lists := congrArg String.toList same
    rw [toList_label, toList_label] at lists
    simp only [List.cons.injEq, true_and, List.append_cancel_left_eq] at lists
    exact String.toList_inj.mp lists
  · intro same
    rw [same]

/-- Stems without digits end where the number begins. -/
theorem eq_of_label_eq {first second : LabelGroup} {suffix other : String}
    (left : first.stem.toList.all (!·.isDigit) = true)
    (right : second.stem.toList.all (!·.isDigit) = true)
    (same : first.label suffix = second.label other) : first = second ∧ suffix = other := by
  have serial : first.serial = second.serial := by
    rw [← serialOf_label left suffix, same, serialOf_label right other]
  obtain ⟨stem, number⟩ := first
  obtain ⟨stem', number'⟩ := second
  obtain rfl : number = number' := serial
  have lists := congrArg String.toList same
  simp only [toList_label, List.cons.injEq, true_and] at lists
  have before : ∀ {stem : String} (rest : List Char), stem.toList.all (!·.isDigit) = true →
      (stem.toList ++ '-' :: (Nat.toDigits 10 number ++ rest)).takeWhile (!·.isDigit) =
        stem.toList ++ ['-'] := by
    intro stem rest plain
    cases shape : Nat.toDigits 10 number with
    | nil => exact absurd shape Nat.toDigits_ne_nil
    | cons digit digits =>
        have isDigit : digit.isDigit = true :=
          Nat.isDigit_of_mem_toDigits (by decide) (by decide) (shape ▸ List.mem_cons_self ..)
        rw [List.takeWhile_append_of_pos (List.all_eq_true.mp plain),
          List.takeWhile_cons_of_pos (by decide), List.cons_append,
          List.takeWhile_cons_of_neg (by simp [isDigit])]
  have stems := congrArg (List.takeWhile (!·.isDigit)) lists
  rw [before _ left, before _ right, List.append_left_inj, String.toList_inj] at stems
  subst stems
  exact ⟨rfl, label_inj.mp same⟩

end LabelGroup

/-! ## Numbered code -/

namespace Code

open LabelGroup

/-- The code was made with the serial numbers after `last` up to `next`: no label
is defined twice, and each carries one of these numbers. -/
structure Numbered (code : Code) (last next : Nat) : Prop where
  le : last ≤ next
  once : ∀ name, code.defines name ≤ 1
  range : ∀ name, 0 < code.defines name → last < serialOf name ∧ serialOf name ≤ next

/-- The code defines no label. -/
def Unlabelled (code : Code) : Prop :=
  ∀ name, code.defines name = 0

variable {first second : Code} {last middle next : Nat}

theorem Unlabelled.numbered (unlabelled : Unlabelled first) (last : Nat) :
    Numbered first last last where
  le := Nat.le_refl last
  once name := by rw [unlabelled name]; exact Nat.zero_le 1
  range name defined := by rw [unlabelled name] at defined; cases defined

theorem Numbered.append (left : Numbered first last middle) (right : Numbered second middle next) :
    Numbered (first ++ second) last next where
  le := Nat.le_trans left.le right.le
  once name := by
    have leftOnce := left.once name
    have rightOnce := right.once name
    have leftRange := left.range name
    have rightRange := right.range name
    rw [defines_append]
    omega
  range name defined := by
    have leftRange := left.range name
    have rightRange := right.range name
    have leftLe := left.le
    have rightLe := right.le
    rw [defines_append] at defined
    omega

/-- Only what labels are defined counts, not where they stand, and fewer will do. -/
theorem Numbered.mono (numbered : Numbered first last next)
    (fewer : ∀ name, second.defines name ≤ first.defines name) : Numbered second last next where
  le := numbered.le
  once name := Nat.le_trans (fewer name) (numbered.once name)
  range name defined := numbered.range name (Nat.lt_of_lt_of_le defined (fewer name))

theorem Numbered.congr (numbered : Numbered first last next)
    (same : ∀ name, second.defines name = first.defines name) : Numbered second last next :=
  numbered.mono fun name => Nat.le_of_eq (same name)

/-- The labels of a group. -/
def labels (group : LabelGroup) (suffixes : List String) : Code :=
  suffixes.map fun suffix => .label (group.label suffix)

theorem defines_labels_of_notMem {group : LabelGroup} {suffixes : List String} {name : String}
    (notMem : ∀ suffix ∈ suffixes, group.label suffix ≠ name) :
    (labels group suffixes).defines name = 0 := by
  induction suffixes with
  | nil => rfl
  | cons suffix rest induction =>
      have different := notMem suffix (by simp)
      have others := induction fun other member => notMem other (by simp [member])
      simp only [labels, List.map_cons, defines_cons, Instruction.definition?, Option.some.injEq,
        different, if_false, Nat.zero_add]
      exact others

theorem numbered_labels (stem : String) (suffixes : List String)
    (plain : stem.toList.all (!·.isDigit) = true) (nodup : suffixes.Nodup) :
    Numbered (labels ⟨stem, last + 1⟩ suffixes) last (last + 1) where
  le := Nat.le_succ last
  once name := by
    induction suffixes with
    | nil => exact Nat.zero_le 1
    | cons suffix rest induction =>
        obtain ⟨notMem, nodup⟩ := List.nodup_cons.mp nodup
        have others := induction nodup
        simp only [labels, List.map_cons, defines_cons, Instruction.definition?,
          Option.some.injEq]
        split
        · rename_i same
          have none : (labels ⟨stem, last + 1⟩ rest).defines name = 0 :=
            defines_labels_of_notMem fun other member equal =>
              notMem (label_inj.mp (equal.trans same.symm) ▸ member)
          simp only [labels] at none
          omega
        · simp only [labels] at others
          omega
  range name defined := by
    by_cases found : ∃ suffix ∈ suffixes, LabelGroup.label ⟨stem, last + 1⟩ suffix = name
    · obtain ⟨suffix, member, rfl⟩ := found
      rw [serialOf_label plain]
      exact ⟨Nat.lt_succ_self last, Nat.le_refl _⟩
    · rw [defines_labels_of_notMem fun suffix member same => found ⟨suffix, member, same⟩] at defined
      cases defined

end Code

end StackBackend
