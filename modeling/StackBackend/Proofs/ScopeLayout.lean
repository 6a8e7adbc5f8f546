import StackBackend.Proofs.Cells
import StackBackend.Proofs.Checked
import StackBackend.Scope

namespace StackBackend

/-! Where scopes put their bindings. A binding gets a range of bytes, which it keeps until the
subscope that it was made in is left. Ranges are used again, but never by two bindings at once,
and a scope is as large as the most that was in use at one time. -/

/-! ## Addresses -/

namespace Location

/-- What the offset of a location counts from. -/
def base (location : Location) (word : String → Int32) (memory : Memory) : Int32 :=
  match location with
  | .global _ => word Cell.globalBlock
  | .frameLocal _ | .parameter _ => memory.cell word Cell.framePointer

/-- The address of a location, with the frame that the frame pointer points to. -/
def address (location : Location) (word : String → Int32) (memory : Memory) : Int32 :=
  match location with
  | .global offset => word Cell.globalBlock + offset
  | .frameLocal offset | .parameter offset => memory.cell word Cell.framePointer + offset

theorem address_eq (location : Location) (word : String → Int32) (memory : Memory) :
    location.address word memory = location.base word memory + location.offset := by
  cases location <;> rfl

variable {location : Location} {code : Code}

/-- The code of an address some bytes into a location pushes it. -/
theorem exists_offset {delta : Int32} (made : location.addressCode delta = .ok code) :
    ∃ offset : Int32, offset.toInt = location.offset.toInt + delta.toInt ∧
      ∀ {word : String → Int32} {memory : Memory} {index : Nat},
        Address.Names (word Cell.framePointer) index → index + 4 ≤ memory.size → ∀ stack rest,
          Code.act word (code ++ rest) stack memory =
            Code.act word rest (.integer (location.base word memory + offset) :: stack) memory := by
  rcases Except.bind_eq_ok.mp made with ⟨offset, added, made⟩
  refine ⟨offset, Checked.add_eq_ok.mp added, fun {word memory index} frame inside stack rest => ?_⟩
  cases location with
  | global start =>
      cases made
      rfl
  | frameLocal start | parameter start =>
      cases made
      have named : Address.index (word Cell.framePointer) = index :=
        (Address.names_index (frame ▸ Int.natCast_nonneg index)).unique frame
      rw [base, Memory.cell, named]
      exact Code.act_loadWord frame inside

theorem exists_addressCode {delta : Int32}
    (lower : -2147483648 ≤ location.offset.toInt + delta.toInt)
    (upper : location.offset.toInt + delta.toInt < 2147483648) :
    ∃ code, location.addressCode delta = .ok code := by
  have added : Checked.add location.offset delta =
      .ok (Int32.ofInt (location.offset.toInt + delta.toInt)) :=
    Checked.add_eq_ok.mpr (Int32.toInt_ofInt_of_le lower upper)
  unfold addressCode
  rw [added]
  cases location <;> exact ⟨_, rfl⟩

/-- The code of an address pushes it. -/
theorem act_addressCode {word : String → Int32} {memory : Memory} {stack : List Word}
    {names : List String} {floor : Nat}
    (made : location.addressCode 0 = .ok code) (cells : Cells word names floor)
    (member : Cell.framePointer ∈ names) (inside : floor ≤ memory.size) (rest : Code) :
    Code.act word (code ++ rest) stack memory =
      Code.act word rest (.integer (location.address word memory) :: stack) memory := by
  have below := cells.below Cell.framePointer member
  rcases exists_offset made with ⟨offset, added, acts⟩
  have same : offset = location.offset := by simpa [← Int32.toInt_inj] using added
  rw [acts (cells.located Cell.framePointer member) (Nat.le_trans below inside), same, address_eq]

end Location

/-! ## Reservations -/

/-- The bytes that a scope has handed out for a binding. -/
structure Reservation where
  location : Location
  bytes : Int32
  /-- The type of the value, when there is a flag behind it. -/
  static? : Option Ty

namespace Reservation

/-- Positions are offsets, as the location gives them. -/
def start (reservation : Reservation) : Int :=
  reservation.location.offset.toInt

def stop (reservation : Reservation) : Int :=
  reservation.start + reservation.bytes.toInt

def Covers (reservation : Reservation) (position : Int) : Prop :=
  reservation.start ≤ position ∧ position < reservation.stop

def Apart (first second : Reservation) : Prop :=
  first.stop ≤ second.start ∨ second.stop ≤ first.start

/-- The range is in the space of a scope of the given size: the global block from its start, or
a frame below its two words. -/
def Within (kind : ScopeKind) (size : Int) (reservation : Reservation) : Prop :=
  match kind with
  | .program => (∃ offset, reservation.location = .global offset) ∧
      0 ≤ reservation.start ∧ reservation.stop ≤ size
  | .procedure => (∃ offset, reservation.location = .frameLocal offset) ∧
      -8 - size ≤ reservation.start ∧ reservation.stop ≤ -8

/-- The bytes of all the ranges. -/
def total : List Reservation → Int
  | [] => 0
  | first :: rest => first.bytes.toInt + total rest

@[simp] theorem total_nil : total [] = 0 := rfl

@[simp] theorem total_cons (first : Reservation) (rest : List Reservation) :
    total (first :: rest) = first.bytes.toInt + total rest := rfl

/-- The flag of a static binding: the code of its address leads to a byte of the range, and of no
other one. -/
structure Flagged (reservation : Reservation) (others : List Reservation) (binding : Binding)
    (code : Code) (flag : Int32) : Prop where
  made : binding.flagAddressCode = .ok code
  behind : flag.toInt = reservation.start + binding.type.width
  own : reservation.Covers flag.toInt
  alone : ∀ other ∈ others, ¬ other.Covers flag.toInt
  addresses : ∀ {image : Image} {limit pc stack memory output index}, image.Holds code pc →
    Address.Names (image.word Cell.framePointer) index → index + 4 ≤ memory.size →
    Runs image limit ⟨pc, stack, memory, output⟩
      ⟨pc + code.size,
        .integer (reservation.location.base image.word memory + flag) :: stack, memory, output⟩

end Reservation

/-! ## Histories -/

/-- A scope with what it has handed out to the open subscopes, the innermost and the latest
first. -/
structure Moment where
  scope : Scope
  levels : List (List Reservation)

namespace Moment

/-- The ranges whose subscope is still open. -/
def live (moment : Moment) : List Reservation :=
  moment.levels.flatten

def inUse (moment : Moment) : Int :=
  Reservation.total moment.live

/-- One step on a scope that succeeds. -/
inductive Next : Moment → Moment → Prop
  | allocate {scope next : Scope} {location : Location} {level levels} (type : Ty)
      (done : Scope.allocate type scope = .ok location next) :
      Next ⟨scope, level :: levels⟩ ⟨next, (⟨location, type.size, none⟩ :: level) :: levels⟩
  | allocateStatic {scope next : Scope} {location : Location} {level levels} (type : Ty)
      (done : Scope.allocateStatic type scope = .ok location next) :
      Next ⟨scope, level :: levels⟩
        ⟨next, (⟨location, type.size + 1, some type⟩ :: level) :: levels⟩
  | allocateBytes {scope next : Scope} {location : Location} {level levels} (bytes : Int32)
      (nonnegative : 0 ≤ bytes.toInt)
      (done : Scope.allocateBytes bytes scope = .ok location next) :
      Next ⟨scope, level :: levels⟩ ⟨next, (⟨location, bytes, none⟩ :: level) :: levels⟩
  | enter {scope next : Scope} {levels} (done : Scope.enter scope = .ok () next) :
      Next ⟨scope, levels⟩ ⟨next, [] :: levels⟩
  | leave {scope next : Scope} {level levels} (done : Scope.leave scope = .ok () next) :
      Next ⟨scope, level :: levels⟩ ⟨next, levels⟩

end Moment

/-- The moments of a scope from its start on, the latest first. -/
inductive History (kind : ScopeKind) : List Moment → Prop
  | start : History kind [⟨{ kind }, [[]]⟩]
  | step {now next : Moment} {earlier : List Moment} (history : History kind (now :: earlier))
      (moves : now.Next next) : History kind (next :: now :: earlier)

/-- The most bytes that a scope can have in use. Offsets in a frame start eight lower. -/
def ScopeKind.capacity : ScopeKind → Int
  | .program => 2147483647
  | .procedure => 2147483640

/-- The layout of a scope at a moment, with the moments before it. -/
structure Moment.LaidOut (kind : ScopeKind) (now : Moment) (earlier : List Moment) : Prop where
  within : ∀ reservation ∈ now.live, reservation.Within kind now.scope.size.toInt
  apart : now.live.Pairwise Reservation.Apart
  flagged : ∀ {before reservation after type}, now.live = before ++ reservation :: after →
    reservation.static? = some type → ∀ binding : Binding, binding.type = type →
    binding.location = reservation.location →
    ∃ code flag, reservation.Flagged (before ++ after) binding code flag
  grows : ∀ moment ∈ earlier, moment.scope.size.toInt ≤ now.scope.size.toInt
  bounds : ∀ moment ∈ now :: earlier, moment.inUse ≤ now.scope.size.toInt
  reached : ∃ moment ∈ now :: earlier, moment.inUse = now.scope.size.toInt
  /-- Allocation fails only where offsets run out. -/
  room : ∀ bytes : Int32, 0 ≤ bytes.toInt →
    ((∃ location next, Scope.allocateBytes bytes now.scope = .ok location next) ↔
      now.inUse + bytes.toInt ≤ kind.capacity)
  /-- A subscope can be left as long as one is open within the scope. -/
  leaves : (∃ next, Scope.leave now.scope = .ok () next) ↔ 1 < now.levels.length

/-! ## One step -/

theorem Int32.toInt_max (left right : Int32) :
    (max left right).toInt = max left.toInt right.toInt := by
  have order : left ≤ right ↔ left.toInt ≤ right.toInt := Int32.le_iff_toInt_le
  change (if left ≤ right then right else left).toInt = _
  split
  · rename_i less
    have := order.mp less
    omega
  · rename_i less
    have := mt order.mpr less
    omega

namespace Scope

/-- Where a range goes when so many bytes are in use. -/
def Places (kind : ScopeKind) (used : Int) (bytes : Int32) (location : Location) : Prop :=
  match kind with
  | .program => ∃ offset, location = .global offset ∧ offset.toInt = used
  | .procedure => ∃ offset, location = .frameLocal offset ∧
      offset.toInt = -8 - (used + bytes.toInt)

theorem allocateBytes_eq_ok {bytes : Int32} {scope next : Scope} {location : Location} :
    allocateBytes bytes scope = .ok location next ↔
      Places scope.kind scope.current.toInt bytes location ∧
        ∃ current : Int32, current.toInt = scope.current.toInt + bytes.toInt ∧
          next = { scope with current, size := max scope.size current } := by
  unfold allocateBytes
  cases sum : Checked.add scope.current bytes with
  | error defect =>
      simp only [reduceCtorEq, false_iff]
      rintro ⟨_, current, same, _⟩
      rw [Checked.add_eq_ok.mpr same] at sum
      cases sum
  | ok current =>
      have added := Checked.add_eq_ok.mp sum
      have unique (other : Int32) : other.toInt = scope.current.toInt + bytes.toInt ↔
          other = current := by rw [← added, Int32.toInt_inj]
      simp only [unique, exists_eq_left]
      cases kind : scope.kind with
      | program =>
          simp only [Places, EStateM.Result.ok.injEq]
          constructor
          · rintro ⟨rfl, rfl⟩
            exact ⟨⟨_, rfl, rfl⟩, rfl⟩
          · rintro ⟨⟨offset, rfl, same⟩, rfl⟩
            exact ⟨congrArg _ (Int32.toInt_inj.mp same).symm, rfl⟩
      | procedure =>
          have below (offset : Int32) :
              offset.toInt = -8 - (scope.current.toInt + bytes.toInt) ↔
                Checked.subtract (-frameOverhead) current = .ok offset := by
            rw [Checked.subtract_eq_ok, added]
            rfl
          simp only [Places, below]
          cases Checked.subtract (-frameOverhead) current with
          | error defect => simp
          | ok offset =>
              simp only [EStateM.Result.ok.injEq, Except.ok.injEq]
              constructor
              · rintro ⟨rfl, rfl⟩
                exact ⟨⟨_, rfl, rfl⟩, rfl⟩
              · rintro ⟨⟨_, rfl, rfl⟩, rfl⟩
                exact ⟨rfl, rfl⟩

end Scope

namespace Reservation

/-- A range that was handed out when so many bytes were in use. -/
structure Follows (kind : ScopeKind) (used : Int) (reservation : Reservation) : Prop where
  placed : Scope.Places kind used reservation.bytes reservation.location
  nonnegative : 0 ≤ reservation.bytes.toInt
  static : ∀ type, reservation.static? = some type → reservation.bytes.toInt = type.width + 1

/-- Each range was handed out right after the ones before it. -/
inductive Packed (kind : ScopeKind) : List Reservation → Prop
  | nil : Packed kind []
  | cons {first : Reservation} {rest : List Reservation} (packed : Packed kind rest)
      (follows : first.Follows kind (total rest)) : Packed kind (first :: rest)

theorem Follows.start_program {used : Int} {reservation : Reservation}
    (follows : reservation.Follows .program used) : reservation.start = used := by
  rcases follows.placed with ⟨offset, located, same⟩
  rw [start, located]
  exact same

theorem Follows.start_procedure {used : Int} {reservation : Reservation}
    (follows : reservation.Follows .procedure used) :
    reservation.start = -8 - (used + reservation.bytes.toInt) := by
  rcases follows.placed with ⟨offset, located, same⟩
  rw [start, located]
  exact same

theorem Follows.within {kind : ScopeKind} {used size : Int} {reservation : Reservation}
    (follows : reservation.Follows kind used) (nonnegative : 0 ≤ used)
    (fits : used + reservation.bytes.toInt ≤ size) : reservation.Within kind size := by
  cases kind with
  | program =>
      rcases follows.placed with ⟨offset, located, _⟩
      have start := follows.start_program
      exact ⟨⟨offset, located⟩, by omega, by rw [stop]; omega⟩
  | procedure =>
      rcases follows.placed with ⟨offset, located, _⟩
      have start := follows.start_procedure
      exact ⟨⟨offset, located⟩, by omega, by rw [stop]; omega⟩

theorem Within.mono {kind : ScopeKind} {less more : Int} {reservation : Reservation}
    (within : reservation.Within kind less) (fits : less ≤ more) :
    reservation.Within kind more := by
  cases kind with
  | program => exact ⟨within.1, within.2.1, Int.le_trans within.2.2 fits⟩
  | procedure => exact ⟨within.1, by have := within.2.1; omega, within.2.2⟩

theorem Apart.not_covers_left {first second : Reservation} {position : Int}
    (apart : first.Apart second) (covers : second.Covers position) : ¬ first.Covers position := by
  unfold Apart at apart
  unfold Covers at *
  omega

theorem Apart.not_covers_right {first second : Reservation} {position : Int}
    (apart : first.Apart second) (covers : first.Covers position) : ¬ second.Covers position :=
  fun other => apart.not_covers_left other covers

namespace Packed

variable {kind : ScopeKind} {reservations before after : List Reservation}

theorem total_nonneg (packed : Packed kind reservations) : 0 ≤ total reservations := by
  induction packed with
  | nil => exact Int.le_refl 0
  | cons packed follows induction =>
      have bytes := follows.nonnegative
      rw [total_cons]
      omega

theorem within (packed : Packed kind reservations) :
    ∀ reservation ∈ reservations, reservation.Within kind (total reservations) := by
  induction packed with
  | nil => exact fun _ member => nomatch member
  | cons packed follows induction =>
      have bytes := follows.nonnegative
      have used := packed.total_nonneg
      rw [total_cons]
      refine List.forall_mem_cons.mpr ⟨?_, ?_⟩
      · exact follows.within used (by omega)
      · intro reservation member
        exact (induction reservation member).mono (by omega)

/-- A range begins where the ones before it end, or ends where they begin. -/
theorem pairwise (packed : Packed kind reservations) : reservations.Pairwise Apart := by
  induction packed with
  | nil => exact .nil
  | @cons first rest packed follows induction =>
      apply List.Pairwise.cons _ induction
      intro earlier member
      have space := packed.within earlier member
      cases kind with
      | program =>
          have start := follows.start_program
          exact .inr (start ▸ space.2.2)
      | procedure =>
          have start := follows.start_procedure
          have lower := space.2.1
          refine .inl ?_
          rw [stop]
          omega

theorem of_append (packed : Packed kind (before ++ after)) : Packed kind after := by
  induction before with
  | nil => exact packed
  | cons first before induction =>
      cases packed with
      | cons packed _ => exact induction packed

theorem total_le (packed : Packed kind (before ++ after)) :
    total after ≤ total (before ++ after) := by
  induction before with
  | nil => exact Int.le_refl _
  | cons first before induction =>
      cases packed with
      | cons packed follows =>
          have bytes := follows.nonnegative
          have less := induction packed
          rw [List.cons_append, total_cons]
          omega

end Packed

end Reservation

namespace Moment

/-- The marks of a scope are what was in use below each open subscope. -/
inductive Marked : List Int32 → List (List Reservation) → Prop
  | nil : Marked [] []
  | cons {mark : Int32} {marks level outer} (marked : Marked marks outer)
      (used : mark.toInt = Reservation.total (level :: outer).flatten) :
      Marked (mark :: marks) (level :: outer)

theorem Marked.length_eq {marks : List Int32} {outer : List (List Reservation)}
    (marked : Marked marks outer) : marks.length = outer.length := by
  induction marked with
  | nil => rfl
  | cons _ _ induction => rw [List.length_cons, List.length_cons, induction]

/-- What every step keeps. -/
structure Sound (kind : ScopeKind) (moment : Moment) : Prop where
  sameKind : moment.scope.kind = kind
  current : moment.scope.current.toInt = moment.inUse
  packed : Reservation.Packed kind moment.live
  marked : ∃ level outer, moment.levels = level :: outer ∧ Marked moment.scope.marks outer
  fits : moment.inUse ≤ moment.scope.size.toInt

theorem sound_start (kind : ScopeKind) : Sound kind ⟨{ kind }, [[]]⟩ where
  sameKind := rfl
  current := rfl
  packed := .nil
  marked := ⟨[], [], rfl, .nil⟩
  fits := Int.le_refl 0

variable {kind : ScopeKind} {now next : Moment}

/-- Handing out a range. -/
theorem Sound.reserve {scope after : Scope} {location : Location} {bytes : Int32}
    {static? : Option Ty} {level : List Reservation} {levels : List (List Reservation)}
    (sound : Sound kind ⟨scope, level :: levels⟩) (nonnegative : 0 ≤ bytes.toInt)
    (static : ∀ type, static? = some type → bytes.toInt = type.width + 1)
    (done : Scope.allocateBytes bytes scope = .ok location after) :
    Sound kind ⟨after, (⟨location, bytes, static?⟩ :: level) :: levels⟩ ∧
      after.size.toInt = max scope.size.toInt
        (inUse ⟨after, (⟨location, bytes, static?⟩ :: level) :: levels⟩) := by
  rcases Scope.allocateBytes_eq_ok.mp done with ⟨places, current, added, rfl⟩
  have used : scope.current.toInt = Reservation.total (level :: levels).flatten := sound.current
  have placed : Scope.Places kind (inUse ⟨scope, level :: levels⟩) bytes location := by
    rw [← sound.current, ← sound.sameKind]
    exact places
  have more : inUse ⟨{ scope with current, size := max scope.size current },
      (⟨location, bytes, static?⟩ :: level) :: levels⟩ = current.toInt := by
    have counted : inUse ⟨{ scope with current, size := max scope.size current },
        (⟨location, bytes, static?⟩ :: level) :: levels⟩ =
          bytes.toInt + Reservation.total (level :: levels).flatten := rfl
    omega
  have largest := Int32.toInt_max scope.size current
  refine ⟨⟨sound.sameKind, more.symm, ?_, ?_, ?_⟩, ?_⟩
  · exact .cons sound.packed ⟨placed, nonnegative, static⟩
  · rcases sound.marked with ⟨_, outer, same, marked⟩
    cases same
    exact ⟨_, _, rfl, marked⟩
  · rw [more]
    change current.toInt ≤ (max scope.size current).toInt
    omega
  · rw [more]
    exact largest

/-- A step keeps a scope sound, and raises its size to what is in use. -/
theorem Sound.of_next (sound : Sound kind now) (moves : now.Next next) :
    Sound kind next ∧ next.scope.size.toInt = max now.scope.size.toInt next.inUse := by
  cases moves with
  | allocate type done =>
      have size := type.toInt_size
      exact sound.reserve (by omega) (fun _ same => nomatch same) done
  | allocateStatic type done =>
      have size := type.toInt_size
      have width := type.width_le
      have flagged : (type.size + 1).toInt = type.width + 1 := by
        rw [Address.toInt_add] <;> rw [size] <;> simp <;> omega
      apply sound.reserve (by omega) _ done
      intro other same
      cases same
      exact flagged
  | allocateBytes bytes nonnegative done =>
      exact sound.reserve nonnegative (fun _ same => nomatch same) done
  | @enter scope after levels done =>
      cases done
      have fits := sound.fits
      rcases sound.marked with ⟨level, outer, same, marked⟩
      cases same
      refine ⟨⟨sound.sameKind, sound.current, sound.packed, ?_, fits⟩, ?_⟩
      · exact ⟨[], _, rfl, .cons marked sound.current⟩
      · exact (Int.max_eq_left fits).symm
  | @leave scope after level levels done =>
      rcases sound.marked with ⟨_, outer, same, marked⟩
      cases same
      cases scope with
      | mk kind current size marks =>
          cases marked with
          | nil => cases done
          | @cons mark marks inner outer marked used =>
              cases done
              have less := sound.packed.total_le
              have fits := Int.le_trans less sound.fits
              refine ⟨⟨sound.sameKind, used, sound.packed.of_append, ⟨inner, outer, rfl, marked⟩,
                fits⟩, ?_⟩
              exact (Int.max_eq_left fits).symm

/-- The flag of a static binding is the last byte of its range. -/
theorem Sound.flagged (sound : Sound kind now) {before after : List Reservation}
    {reservation : Reservation} (split : now.live = before ++ reservation :: after)
    {binding : Binding} (static : reservation.static? = some binding.type)
    (located : binding.location = reservation.location) :
    ∃ code flag, reservation.Flagged (before ++ after) binding code flag := by
  have packed := sound.packed
  have apart := packed.pairwise
  rw [split] at packed apart
  have bytes : reservation.bytes.toInt = binding.type.width + 1 := by
    cases packed.of_append with
    | cons _ follows => exact follows.static _ static
  have size := binding.type.toInt_size
  have stop : reservation.stop = reservation.start + (binding.type.width + 1) := by
    rw [Reservation.stop, bytes]
  have start : binding.location.offset.toInt = reservation.start := by
    rw [located]
    rfl
  have lower := Int32.le_toInt binding.location.offset
  -- The flag has an address, since the range ends within the scope.
  have upper : reservation.stop ≤ 2147483647 := by
    have within := sound.packed.within reservation (by rw [split]; simp)
    have used : now.inUse < 2147483648 := sound.current ▸ Int32.toInt_lt now.scope.current
    cases kind with
    | program => exact Int.le_trans within.2.2 (Int.le_of_lt_add_one used)
    | procedure => exact Int.le_trans within.2.2 (by decide)
  rcases @Location.exists_addressCode binding.location binding.type.size (by omega) (by omega) with
    ⟨code, made⟩
  rcases Location.exists_offset made with ⟨flag, place, acts⟩
  have own : reservation.Covers flag.toInt := ⟨by omega, by omega⟩
  refine ⟨code, flag, made, by omega, own, ?_, ?_⟩
  · rcases List.pairwise_append.mp apart with ⟨_, latter, across⟩
    have behind := (List.pairwise_cons.mp latter).1
    intro other member
    rcases List.mem_append.mp member with earlier | later
    · exact (across other earlier reservation (by simp)).not_covers_left own
    · exact (behind other later).not_covers_right own
  · intro image limit pc stack memory output index holds frame inside
    rw [← located]
    exact Runs.straight holds (Code.act_alone (acts frame inside stack))

theorem Sound.room (sound : Sound kind now) {bytes : Int32} (nonnegative : 0 ≤ bytes.toInt) :
    (∃ location next, Scope.allocateBytes bytes now.scope = .ok location next) ↔
      now.inUse + bytes.toInt ≤ kind.capacity := by
  have used := sound.current
  have lower := sound.packed.total_nonneg
  have counted : now.inUse = Reservation.total now.live := rfl
  simp only [Scope.allocateBytes_eq_ok, sound.sameKind]
  constructor
  · rintro ⟨location, _, places, current, added, rfl⟩
    have bound := Int32.toInt_lt current
    cases kind with
    | program =>
        change _ ≤ (2147483647 : Int)
        omega
    | procedure =>
        rcases places with ⟨offset, _, below⟩
        have least := Int32.le_toInt offset
        change _ ≤ (2147483640 : Int)
        omega
  · intro fits
    have bound : kind.capacity ≤ 2147483647 := by cases kind <;> decide
    have sum : (Int32.ofInt (now.inUse + bytes.toInt)).toInt = now.inUse + bytes.toInt :=
      Int32.toInt_ofInt_of_le (by omega) (by omega)
    cases kind with
    | program => exact ⟨_, _, ⟨_, rfl, rfl⟩, _, by rw [sum, used], rfl⟩
    | procedure =>
        change _ ≤ (2147483640 : Int) at fits
        have offset : (Int32.ofInt (-8 - (now.inUse + bytes.toInt))).toInt =
            -8 - (now.inUse + bytes.toInt) := Int32.toInt_ofInt_of_le (by omega) (by omega)
        exact ⟨_, _, ⟨_, rfl, by rw [offset, used]⟩, _, by rw [sum, used], rfl⟩

theorem Sound.leaves (sound : Sound kind now) :
    (∃ next, Scope.leave now.scope = .ok () next) ↔ 1 < now.levels.length := by
  rcases sound.marked with ⟨level, outer, same, marked⟩
  have length := marked.length_eq
  rw [same, List.length_cons, ← length]
  unfold Scope.leave
  cases now.scope.marks with
  | nil => simp
  | cons mark marks => simp

end Moment

/-! ## Whole histories -/

/-- What a history keeps about its last moment. -/
structure Moment.Measured (kind : ScopeKind) (now : Moment) (earlier : List Moment) : Prop where
  sound : now.Sound kind
  grows : ∀ moment ∈ earlier, moment.scope.size.toInt ≤ now.scope.size.toInt
  bounds : ∀ moment ∈ now :: earlier, moment.inUse ≤ now.scope.size.toInt
  reached : ∃ moment ∈ now :: earlier, moment.inUse = now.scope.size.toInt

theorem Moment.Measured.step {kind : ScopeKind} {now after : Moment} {earlier : List Moment}
    (measured : now.Measured kind earlier) (moves : now.Next after) :
    after.Measured kind (now :: earlier) := by
  rcases measured.sound.of_next moves with ⟨sound, size⟩
  have larger : now.scope.size.toInt ≤ after.scope.size.toInt := by omega
  refine ⟨sound, ?_, ?_, ?_⟩
  · exact List.forall_mem_cons.mpr
      ⟨larger, fun moment member => Int.le_trans (measured.grows moment member) larger⟩
  · exact List.forall_mem_cons.mpr
      ⟨sound.fits, fun moment member => Int.le_trans (measured.bounds moment member) larger⟩
  · by_cases more : now.scope.size.toInt ≤ after.inUse
    · exact ⟨after, by simp, by omega⟩
    · rcases measured.reached with ⟨moment, member, same⟩
      exact ⟨moment, List.mem_cons_of_mem _ member, by omega⟩

namespace History

variable {kind : ScopeKind}

theorem measured : ∀ {now : Moment} {earlier : List Moment}, History kind (now :: earlier) →
    now.Measured kind earlier
  | _, _, .start =>
      ⟨Moment.sound_start kind, by simp, by simp [Moment.inUse, Moment.live],
        by simp [Moment.inUse, Moment.live]⟩
  | _, _, .step history moves => history.measured.step moves

/-- However subscopes are entered and left, ranges in use at once do not overlap and lie in the
space of the scope, a flag is in the range of its own binding only, and the size of the scope is
the most that was in use so far. -/
theorem laidOut {now : Moment} {earlier : List Moment} (history : History kind (now :: earlier)) :
    now.LaidOut kind earlier := by
  have measured := history.measured
  have sound := measured.sound
  refine ⟨?_, sound.packed.pairwise, ?_, measured.grows, measured.bounds, measured.reached,
    fun bytes => sound.room, sound.leaves⟩
  · intro reservation member
    exact (sound.packed.within reservation member).mono sound.fits
  · intro before reservation after type split static binding same located
    subst same
    exact sound.flagged split static located

/-- Next to a static binding, a floating binding takes the bytes that a rational had in a subscope
before. -/
theorem space_taken_again :
    ∃ now earlier, History .procedure (now :: earlier) ∧
      now.live.map Reservation.start = [-18, -10] ∧ now.scope.size = 10 ∧
      now.LaidOut .procedure earlier := by
  have first : History .procedure _ := .step .start (.allocateStatic .boolean rfl)
  have second : History .procedure _ := .step (.step first (.enter rfl)) (.allocate .rational rfl)
  have history : History .procedure _ := .step (.step second (.leave rfl)) (.allocate .floating rfl)
  exact ⟨_, _, history, rfl, rfl, history.laidOut⟩

end History

end StackBackend
