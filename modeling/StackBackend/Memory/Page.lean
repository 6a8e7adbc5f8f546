namespace StackBackend

/-! A page is a stretch of memory of which only the beginning is kept: bytes past
the end are zero, and setting one of them makes the page longer. -/

structure Page where
  bytes : ByteArray

namespace Page

def empty : Page := ⟨ByteArray.empty⟩

def byte (page : Page) (offset : Nat) : UInt8 :=
  if inside : offset < page.bytes.size then page.bytes.get offset inside else 0

/-- `count` zero bytes added at the end. -/
def addZeros (page : Page) : Nat → Page
  | 0 => page
  | count + 1 => (Page.mk (page.bytes.push 0)).addZeros count

def set (page : Page) (offset : Nat) (value : UInt8) : Page :=
  if inside : offset < page.bytes.size then
    ⟨page.bytes.set offset value inside⟩
  else
    ⟨(page.addZeros (offset - page.bytes.size)).bytes.push value⟩

theorem byte_mk (values : Array UInt8) (offset : Nat) :
    byte ⟨⟨values⟩⟩ offset = (values[offset]?).getD 0 := by
  by_cases inside : offset < values.size
  · rw [Array.getElem?_eq_getElem inside]
    exact dif_pos inside
  · rw [Array.getElem?_eq_none (Nat.le_of_not_lt inside)]
    exact dif_neg inside

theorem addZeros_mk (values : Array UInt8) (count : Nat) :
    addZeros ⟨⟨values⟩⟩ count = ⟨⟨values ++ Array.replicate count 0⟩⟩ := by
  induction count generalizing values with
  | zero => simp [addZeros]
  | succ count induction =>
      refine (induction (values.push 0)).trans ?_
      rw [Array.push_eq_append, Array.append_assoc]
      congr 3
      rw [Nat.add_comm, ← Array.replicate_append_replicate]
      rfl

theorem set_mk (values : Array UInt8) (offset : Nat) (value : UInt8) :
    set ⟨⟨values⟩⟩ offset value =
      if offset < values.size then
        ⟨⟨values.setIfInBounds offset value⟩⟩
      else
        ⟨⟨(values ++ Array.replicate (offset - values.size) 0).push value⟩⟩ := by
  by_cases inside : offset < values.size
  · rw [if_pos inside, Array.setIfInBounds, dif_pos inside]
    exact dif_pos inside
  · rw [if_neg inside]
    refine (dif_neg inside).trans ?_
    exact congrArg (fun page : Page => Page.mk (page.bytes.push value))
      (addZeros_mk values (offset - values.size))

@[simp] theorem byte_empty (offset : Nat) : empty.byte offset = 0 := rfl

theorem byte_set (page : Page) (offset other : Nat) (value : UInt8) :
    (page.set offset value).byte other = if offset = other then value else page.byte other := by
  rcases page with ⟨⟨values⟩⟩
  rw [set_mk]
  split
  · rw [byte_mk, byte_mk, Array.getElem?_setIfInBounds]
    grind
  · rw [byte_mk, byte_mk, Array.getElem?_push]
    grind

end Page

end StackBackend
