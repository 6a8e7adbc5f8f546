import Mathlib.Data.List.Nodup
import Mathlib.Logic.Relation
import Mathlib.Order.WellFoundedSet
import StackBackend.Proofs.Ledger
import StackBackend.Record

namespace StackBackend

/-! Records as a graph. The elements of an array with the reference bit are pointers to
other records; a visit goes along them depth first and from left to right, and takes each
record after those it leads to. -/

namespace Record

open Heap (Block)

def status (memory : Memory) (record : Block) : Int32 :=
  memory.word (record.address + 4)

/-- The record is deleted or permanent, so it is left alone. -/
def Spared (memory : Memory) (record : Block) : Prop :=
  status memory record &&& skipDiscardMask ≠ 0

instance (memory : Memory) (record : Block) : Decidable (Spared memory record) :=
  inferInstanceAs (Decidable (_ ≠ _))

/-- A record that is marked deleted is spared, whatever else its status says. -/
theorem spared_of_marked (status : Int32) :
    (status ||| statusDeleted) &&& skipDiscardMask ≠ 0 := by
  intro clear
  have bit : ((status ||| statusDeleted) &&& skipDiscardMask).toBitVec.getLsbD 2 = true := by
    simp [statusDeleted, skipDiscardMask, statusPermanent]
  rw [clear] at bit
  exact absurd bit (by decide)

/-- The words of an array that follow one another in memory. -/
def wordsFrom (memory : Memory) (start : Nat) : Nat → List Int32
  | 0 => []
  | count + 1 => memory.word start :: wordsFrom memory (start + 4) count

@[simp] theorem length_wordsFrom (memory : Memory) (start count : Nat) :
    (wordsFrom memory start count).length = count := by
  induction count generalizing start with
  | zero => rfl
  | succ count induction => simp [wordsFrom, induction]

def IsArrayOfRecords (memory : Memory) (record : Block) : Prop :=
  status memory record &&& statusReference ≠ 0

instance (memory : Memory) (record : Block) : Decidable (IsArrayOfRecords memory record) :=
  inferInstanceAs (Decidable (_ ≠ _))

def length (memory : Memory) (record : Block) : Nat :=
  Address.index (memory.word (record.address + 12))

/-- The pointers that a record holds. -/
def elements (memory : Memory) (record : Block) : List Int32 :=
  if IsArrayOfRecords memory record then
    wordsFrom memory (record.address + 16) (length memory record)
  else
    []

/-! ## Ways through the graph -/

/-- The first record is live and holds a pointer to the second one, which is live too. -/
def Refers (memory : Memory) (records : List Block) (record other : Block) : Prop :=
  (record ∈ records ∧ ¬ Spared memory record) ∧ (other ∈ records ∧ ¬ Spared memory other) ∧
    ∃ element ∈ elements memory record, Address.Names element other.address

/-- No record leads back to itself. -/
def Acyclic (memory : Memory) (records : List Block) : Prop :=
  ∀ record, ¬ Relation.TransGen (Refers memory records) record record

/-- A graph in which pointers go to higher addresses only. -/
theorem acyclic_of_increasing {memory : Memory} {records : List Block}
    (increasing : ∀ record other, Refers memory records record other →
      record.address < other.address) : Acyclic memory records := by
  intro record cycle
  have path : Relation.TransGen (· < ·) record.address record.address :=
    Relation.TransGen.lift Block.address increasing _ _ cycle
  rw [Relation.transGen_eq_self] at path
  exact Nat.lt_irrefl _ path

/-- The pointer leads to the record along live records. -/
def Reaches (memory : Memory) (records : List Block) (pointer : Int32) (record : Block) : Prop :=
  ∃ first ∈ records, ¬ Spared memory first ∧ Address.Names pointer first.address ∧
    Relation.ReflTransGen (Refers memory records) first record

/-- A null pointer, or one to a record. -/
def Points (records : List Block) (pointer : Int32) : Prop :=
  pointer = 0 ∨ ∃ record ∈ records, Address.Names pointer record.address

/-- An address is that of one record at most, and no record is at the null address. -/
structure Located (records : List Block) : Prop where
  positive : ∀ record ∈ records, 0 < record.address
  unique : ∀ {first second}, first ∈ records → second ∈ records →
    first.address = second.address → first = second

/-! ## Visits -/

/-- A visit from the pointers, one after the other, when the records of `gone` have been
released before. It releases the records of the last list, in their order. -/
inductive Visits (memory : Memory) (records : List Block) :
    List Block → List Int32 → List Block → Prop
  | nil (gone : List Block) : Visits memory records gone [] []
  | null {gone rest released} (others : Visits memory records gone rest released) :
      Visits memory records gone (0 :: rest) released
  | pass {gone pointer record rest released} (member : record ∈ records)
      (names : Address.Names pointer record.address)
      (done : Spared memory record ∨ record ∈ gone)
      (others : Visits memory records gone rest released) :
      Visits memory records gone (pointer :: rest) released
  | record {gone pointer record rest inner released} (member : record ∈ records)
      (names : Address.Names pointer record.address) (live : ¬ Spared memory record)
      (absent : record ∉ gone)
      (children : Visits memory records gone (elements memory record) inner)
      (others : Visits memory records (gone ++ inner ++ [record]) rest released) :
      Visits memory records gone (pointer :: rest) (inner ++ record :: released)

namespace Visits

variable {memory : Memory} {records gone released : List Block} {pointers : List Int32}
  {pointer : Int32} {record other : Block}

/-- What is released was not released before. -/
theorem not_mem_gone (visits : Visits memory records gone pointers released)
    (member : record ∈ released) : record ∉ gone := by
  induction visits with
  | nil gone => cases member
  | null others induction => exact induction member
  | pass _ _ _ others induction => exact induction member
  | record _ _ _ absent children others inner outer =>
      obtain member | member := List.mem_append.mp member
      · exact inner member
      · obtain rfl | member := List.mem_cons.mp member
        · exact absent
        · exact fun before => outer member (by simp [before])

/-- What is released is reached from one of the pointers. -/
theorem reaches (visits : Visits memory records gone pointers released)
    (member : record ∈ released) :
    ∃ pointer ∈ pointers, Reaches memory records pointer record := by
  induction visits with
  | nil gone => cases member
  | null others induction =>
      obtain ⟨pointer, listed, reaches⟩ := induction member
      exact ⟨pointer, List.mem_cons_of_mem _ listed, reaches⟩
  | pass _ _ _ others induction =>
      obtain ⟨pointer, listed, reaches⟩ := induction member
      exact ⟨pointer, List.mem_cons_of_mem _ listed, reaches⟩
  | record known names live _ children others inner outer =>
      obtain member | member := List.mem_append.mp member
      · obtain ⟨element, listed, first, firstKnown, firstLive, firstNames, path⟩ := inner member
        exact ⟨_, List.mem_cons_self, _, known, live, names,
          .head ⟨⟨known, live⟩, ⟨firstKnown, firstLive⟩, element, listed, firstNames⟩ path⟩
      · obtain rfl | member := List.mem_cons.mp member
        · exact ⟨_, List.mem_cons_self, _, known, live, names, .refl⟩
        · obtain ⟨pointer, listed, reaches⟩ := outer member
          exact ⟨pointer, List.mem_cons_of_mem _ listed, reaches⟩

/-- An array is not among the records that its elements lead to. -/
theorem not_mem_children (acyclic : Acyclic memory records) (known : record ∈ records)
    (live : ¬ Spared memory record)
    (children : Visits memory records gone (elements memory record) released) :
    record ∉ released := by
  intro member
  obtain ⟨element, listed, first, firstKnown, firstLive, names, path⟩ := children.reaches member
  have refers : Refers memory records record first :=
    ⟨⟨known, live⟩, ⟨firstKnown, firstLive⟩, element, listed, names⟩
  exact acyclic record (Relation.TransGen.trans_left (.single refers) path)

/-- No record is released twice. -/
theorem nodup (acyclic : Acyclic memory records)
    (visits : Visits memory records gone pointers released) : released.Nodup := by
  induction visits with
  | nil gone => exact List.nodup_nil
  | null others induction => exact induction
  | pass _ _ _ others induction => exact induction
  | record known _ live _ children others inner outer =>
      have first := not_mem_children acyclic known live children
      refine List.nodup_append.mpr ⟨inner, List.nodup_cons.mpr ⟨fun member => ?_, outer⟩, ?_⟩
      · exact others.not_mem_gone member (by simp)
      · rintro left leftMember right rightMember rfl
        obtain rfl | later := List.mem_cons.mp rightMember
        · exact first leftMember
        · exact others.not_mem_gone later (by simp [leftMember])

/-- What records of the list lead to is in the list. -/
def Closed (memory : Memory) (records gone : List Block) : Prop :=
  ∀ record ∈ gone, ∀ other, Refers memory records record other → other ∈ gone

/-- The record is released after a visit that names it. -/
def Covered (memory : Memory) (records gone : List Block) (pointer : Int32) : Prop :=
  ∀ record ∈ records, ¬ Spared memory record → Address.Names pointer record.address →
    record ∈ gone

/-- A visit leaves nothing out: the live records that the pointers name are released then,
and so is what they lead to. -/
theorem closed_append (visits : Visits memory records gone pointers released)
    (located : Located records) (closed : Closed memory records gone) :
    Closed memory records (gone ++ released) ∧
      ∀ pointer ∈ pointers, Covered memory records (gone ++ released) pointer := by
  induction visits with
  | nil gone => exact ⟨by simpa using closed, fun _ member => nomatch member⟩
  | null others induction =>
      obtain ⟨closed, covered⟩ := induction closed
      refine ⟨closed, List.forall_mem_cons.mpr ⟨fun other known _ names => ?_, covered⟩⟩
      have null : (0 : Int) = other.address := names
      have positive := located.positive other known
      omega
  | pass member names done others induction =>
      obtain ⟨closed, covered⟩ := induction closed
      refine ⟨closed, List.forall_mem_cons.mpr ⟨fun other known live otherNames => ?_, covered⟩⟩
      obtain rfl := located.unique member known (names.unique otherNames)
      exact List.mem_append_left _ (done.resolve_left live)
  | @record gone pointer record rest inner released member names live absent children others
      induction otherInduction =>
      obtain ⟨innerClosed, innerCovered⟩ := induction closed
      have next : Closed memory records (gone ++ inner ++ [record]) := by
        intro first firstMember second refers
        obtain earlier | last := List.mem_append.mp firstMember
        · exact List.mem_append_left _ (innerClosed first earlier second refers)
        · obtain rfl := List.mem_singleton.mp last
          obtain ⟨_, ⟨secondKnown, secondLive⟩, element, listed, secondNames⟩ := refers
          exact List.mem_append_left _ (innerCovered element listed second secondKnown secondLive
            secondNames)
      obtain ⟨closed, covered⟩ := otherInduction next
      have same : gone ++ inner ++ [record] ++ released = gone ++ (inner ++ record :: released) := by
        simp
      rw [same] at closed covered
      refine ⟨closed, List.forall_mem_cons.mpr ⟨fun other known _ otherNames => ?_, covered⟩⟩
      obtain rfl := located.unique member known (names.unique otherNames)
      simp

/-- A visit from one pointer releases just what the pointer leads to. -/
theorem mem_iff_reaches (located : Located records)
    (visits : Visits memory records [] [pointer] released) :
    record ∈ released ↔ Reaches memory records pointer record := by
  constructor
  · intro member
    obtain ⟨source, listed, reaches⟩ := visits.reaches member
    obtain rfl := List.mem_singleton.mp listed
    exact reaches
  · rintro ⟨first, known, live, names, path⟩
    obtain ⟨closed, covered⟩ := visits.closed_append located fun _ member => nomatch member
    rw [List.nil_append] at closed covered
    induction path with
    | refl => exact covered pointer List.mem_cons_self first known live names
    | tail _ refers induction => exact closed _ induction _ refers

/-! ### Every visit comes to an end -/

/-- There is a visit from pointers when there is one from the elements of what they name. -/
theorem exists_of_elements
    (visited : ∀ pointer ∈ pointers, pointer = 0 ∨ ∃ record ∈ records,
      Address.Names pointer record.address ∧ (¬ Spared memory record →
        ∀ gone, ∃ inner, Visits memory records gone (elements memory record) inner))
    (gone : List Block) : ∃ released, Visits memory records gone pointers released := by
  induction pointers generalizing gone with
  | nil => exact ⟨[], .nil gone⟩
  | cons pointer rest induction =>
      obtain ⟨first, later⟩ := List.forall_mem_cons.mp visited
      obtain rfl | ⟨record, member, names, inside⟩ := first
      · obtain ⟨released, others⟩ := induction later gone
        exact ⟨released, .null others⟩
      · by_cases done : Spared memory record ∨ record ∈ gone
        · obtain ⟨released, others⟩ := induction later gone
          exact ⟨released, .pass member names done others⟩
        · obtain ⟨live, absent⟩ := not_or.mp done
          obtain ⟨inner, children⟩ := inside live gone
          obtain ⟨released, others⟩ := induction later (gone ++ inner ++ [record])
          exact ⟨_, .record member names live absent children others⟩

/-- Records have visits when those that they refer to have. -/
theorem exists_of_refers
    (points : ∀ record ∈ records, ¬ Spared memory record →
      ∀ element ∈ elements memory record, Points records element)
    (known : record ∈ records) (live : ¬ Spared memory record)
    (induction : ∀ other, Refers memory records record other →
      ∀ gone, ∃ inner, Visits memory records gone (elements memory other) inner)
    (gone : List Block) : ∃ inner, Visits memory records gone (elements memory record) inner := by
  refine exists_of_elements (fun element listed => ?_) gone
  obtain null | ⟨other, otherKnown, names⟩ := points record known live element listed
  · exact .inl null
  · exact .inr ⟨other, otherKnown, names, fun otherLive =>
      induction other ⟨⟨known, live⟩, ⟨otherKnown, otherLive⟩, element, listed, names⟩⟩

/-- The records of an acyclic graph can be visited from any pointer. -/
theorem exists_of_acyclic (acyclic : Acyclic memory records)
    (points : ∀ record ∈ records, ¬ Spared memory record →
      ∀ element ∈ elements memory record, Points records element)
    (pointed : Points records pointer) :
    ∃ released, Visits memory records [] [pointer] released := by
  let order : Block → Block → Prop := fun other record =>
    Relation.TransGen (Refers memory records) record other
  have strict : IsStrictOrder Block order :=
    { irrefl := acyclic, trans := fun _ _ _ first second => second.trans first }
  have wellFounded : {record | record ∈ records}.WellFoundedOn order :=
    (List.finite_toSet records).wellFoundedOn
  have visited : ∀ record ∈ records, ¬ Spared memory record →
      ∀ gone, ∃ inner, Visits memory records gone (elements memory record) inner := by
    intro record known
    apply wellFounded.induction known
    intro record known induction live
    exact exists_of_refers points known live fun other refers =>
      induction other refers.2.1.1 (.single refers) refers.2.1.2
  refine exists_of_elements (fun element listed => ?_) []
  obtain rfl := List.mem_singleton.mp listed
  obtain null | ⟨record, known, names⟩ := pointed
  · exact .inl null
  · exact .inr ⟨record, known, names, visited record known⟩

end Visits

end Record

end StackBackend
